import StackAllocation.HeapToStack

/-!
# Room in the frame

Before it expands the allocations, macro expansion adds up the slots of those that are marked.
Then they are expanded one at a time, in an order that is not known: between two expansions the
graph is cleaned up, allocations die, result casts go away, and sizes become constant
(`Expands`). Each expansion takes at most the slots that were counted for the allocation, so the
slots in use and those of the marked allocations still on the list never exceed the estimate,
and the frame has room for all of them (`estimate_sufficient`). The expansion of the list from its
head, where nothing happens in between, is one such run (`expandAllocations_expands`).
-/

namespace StackAllocation

/-! ## The expansion of one allocation

An allocation asks for the slots above those in use. The slot of its last word has to be
representable by the register allocator, with some slots to spare; if it is not, nothing is taken
and the allocation goes to the heap. -/

section

-- `RegMask::can_represent`, for the numbers of stack registers
variable (canRepresent : ℕ → Bool)

/-- `stack_allocation_location_representable`; the number added is `STACK_REG_BUFFER`. -/
def locationRepresentable (slotLocation : ℕ) : Bool := canRepresent (slotLocation + 4)

/-- `next_stack_allocated_object`: the slot, `none` being -1, and `fixed_slots` afterwards. -/
def nextStackAllocatedObject (fixedSlots numSlots : ℕ) : Option ℕ × ℕ :=
  let current := fixedSlots
  let next := current + numSlots
  if !locationRepresentable canRepresent next then (none, fixedSlots)
  -- Keep the toplevel high water mark current.
  else (some current, if fixedSlots < next then next else fixedSlots)

/-- What is found of an allocation when it is expanded. -/
structure Visit : Type where
  alloc : ℕ
  /-- `result_cast()` is not `NULL` -/
  hasResultCast : Bool
  /-- the constant size in bytes; `none` is -1 -/
  sizeOfObject : Option ℕ
  /-- `process_write_barriers_on_stack_allocated_objects` leaves no use of the result -/
  isYanked : Bool

/-- What `stack_allocation` does. -/
inductive Placement : Type where
  /-- the allocation is no candidate -/
  | rejected
  /-- it is referenced, and the fail flag is set -/
  | avoided
  /-- `next_stack_allocated_object` reports that there is no room -/
  | noRoom
  /-- the allocation is removed since its result has no uses left -/
  | yanked
  /-- the object is placed in the frame -/
  | placed (slot : ℕ)
  deriving DecidableEq, Repr

variable (o : StackAllocationOptions) (m : AllocMarks)

/-- `stack_allocation`, and `fixed_slots` afterwards. -/
def place (fail : Bool) (fixedSlots : ℕ) (v : Visit) : Placement × ℕ :=
  if !(v.hasResultCast && m.isStackAllocateable v.alloc && v.sizeOfObject.isSome &&
      o.doStackAllocation) then (.rejected, fixedSlots)
  else if fail && m.isReferenced v.alloc then (.avoided, fixedSlots)
  else
    match nextStackAllocatedObject canRepresent fixedSlots (v.sizeOfObject.getD 0 >>> 2) with
    | (none, fixedSlots) => (.noRoom, fixedSlots)
    | (some slot, fixedSlots) => (if v.isYanked then .yanked else .placed slot, fixedSlots)

/-- The fail flag when expansion starts: set by `estimate_stack_allocation_size` for one of the
allocations on the list, or since the estimate does not fit. -/
def failFlag (P : MacroPhase) : Bool :=
  let e := estimateStackAllocationSize o m P P.remaining (false, 0)
  e.1 || !locationRepresentable canRepresent (P.fixedSlots + e.2)

/-- The rest of macro expansion, from the macro list and `fixed_slots`: the allocations expanded
and what came of each. A size that was constant when it was estimated still is. -/
inductive Expands (fail : Bool) (sizeOfObject : ℕ → Option ℕ) :
    List ℕ → ℕ → List (Visit × Placement) → Prop
  | stop (macros : List ℕ) (fixedSlots : ℕ) : Expands fail sizeOfObject macros fixedSlots []
  | dead {macros : List ℕ} {fixedSlots a : ℕ} {trace : List (Visit × Placement)} :
      a ∈ macros → Expands fail sizeOfObject (macros.erase a) fixedSlots trace →
      Expands fail sizeOfObject macros fixedSlots trace
  | expand {macros : List ℕ} {fixedSlots : ℕ} {trace : List (Visit × Placement)} (v : Visit) :
      v.alloc ∈ macros →
      (∀ size, sizeOfObject v.alloc = some size → v.sizeOfObject = some size) →
      Expands fail sizeOfObject (macros.erase v.alloc)
        (place canRepresent o m fail fixedSlots v).2 trace →
      Expands fail sizeOfObject macros fixedSlots
        ((v, (place canRepresent o m fail fixedSlots v).1) :: trace)

end

/-! ## The expansions of a run

The estimate adds up the slots of all candidates that are on the macro list when it is made.
Allocations may go from the list in between, and none is added; so the slots in use together with
those still to come never exceed the estimate. -/

section

variable {canRepresent : ℕ → Bool} {o : StackAllocationOptions} {m : AllocMarks}

theorem nextStackAllocatedObject_eq (s n : ℕ) :
    nextStackAllocatedObject canRepresent s n =
      if locationRepresentable canRepresent (s + n) then (some s, s + n) else (none, s) := by
  unfold nextStackAllocatedObject
  by_cases hrep : locationRepresentable canRepresent (s + n) = true
  · have hmax : (if s < s + n then s + n else s) = s + n := by
      split
      · rfl
      · omega
    simp only [hrep, hmax, Bool.not_true, Bool.false_eq_true, if_false, if_true]
  · simp [hrep]

variable (canRepresent o m) in
/-- What one expansion does. -/
theorem place_cases (fail : Bool) (s : ℕ) (v : Visit) :
    ((place canRepresent o m fail s v).2 = s ∧
      ((place canRepresent o m fail s v).1 = .rejected ∨
        (fail = true ∧ m.isReferenced v.alloc = true ∧
          (place canRepresent o m fail s v).1 = .avoided))) ∨
    ((fail && m.isReferenced v.alloc) = false ∧ m.isStackAllocateable v.alloc = true ∧
      ∃ size, v.sizeOfObject = some size ∧
        ((locationRepresentable canRepresent (s + (size >>> 2)) = false ∧
            place canRepresent o m fail s v = (.noRoom, s)) ∨
          (place canRepresent o m fail s v).2 = s + (size >>> 2) ∧
            (place canRepresent o m fail s v).1 ≠ .noRoom)) := by
  unfold place
  cases hcan : v.hasResultCast && m.isStackAllocateable v.alloc && v.sizeOfObject.isSome &&
      o.doStackAllocation with
  | false => exact .inl ⟨rfl, .inl rfl⟩
  | true =>
    simp only [Bool.and_eq_true] at hcan
    obtain ⟨⟨⟨-, hmarked⟩, hsize⟩, -⟩ := hcan
    obtain ⟨size, hsize⟩ := Option.isSome_iff_exists.1 hsize
    cases hfail : fail && m.isReferenced v.alloc with
    | true =>
      obtain ⟨hf, href⟩ := Bool.and_eq_true_iff.1 hfail
      exact .inl ⟨rfl, .inr ⟨hf, href, rfl⟩⟩
    | false =>
      refine .inr ⟨rfl, hmarked, size, hsize, ?_⟩
      simp only [hsize, nextStackAllocatedObject_eq, Option.getD_some, Bool.not_true,
        Bool.false_eq_true, if_false]
      cases hrep : locationRepresentable canRepresent (s + size >>> 2) with
      | false => exact .inl ⟨rfl, rfl⟩
      | true =>
        refine .inr ⟨rfl, ?_⟩
        cases v.isYanked <;> exact Placement.noConfusion

/-- With the flag set, no referenced allocation is placed. -/
theorem Expands.avoided {sizeOfObject : ℕ → Option ℕ} {macros : List ℕ} {s : ℕ}
    {trace : List (Visit × Placement)}
    (h : Expands canRepresent o m true sizeOfObject macros s trace) :
    ∀ e ∈ trace, m.isReferenced e.1.alloc = true → e.2 = .rejected ∨ e.2 = .avoided := by
  induction h with
  | stop => exact fun e he => absurd he List.not_mem_nil
  | dead _ _ ih => exact ih
  | @expand _ s _ v _ _ _ ih =>
    intro e he href
    obtain rfl | he := List.mem_cons.1 he
    · obtain ⟨-, hrejected | ⟨-, -, havoided⟩⟩ | ⟨hnot, -⟩ :=
        place_cases canRepresent o m true s v
      · exact .inl hrejected
      · exact .inr havoided
      · rw [href] at hnot
        exact Bool.noConfusion hnot
    · exact ih e he href

/-- The slots that the estimate counts for the allocations of a list. -/
theorem markedSlots_erase {P : MacroPhase} {macros : List ℕ} {a : ℕ} (ha : a ∈ macros) :
    markedSlots m P macros = (if m.isStackAllocateable a then P.slots a else 0) +
      markedSlots m P (macros.erase a) := by
  unfold markedSlots
  rw [((List.perm_cons_erase ha).map _).sum_eq, List.map_cons, List.sum_cons]

/-- While the slots in use and the marked allocations still on the list fit, there is room. -/
theorem Expands.fits {P : MacroPhase} {fail : Bool} {macros : List ℕ} {s limit : ℕ}
    {trace : List (Visit × Placement)}
    (hmono : ∀ r r', r ≤ r' → canRepresent r' = true → canRepresent r = true)
    (h : Expands canRepresent o m fail P.sizeOfObject macros s trace)
    (hsizes : ∀ a ∈ macros, m.isStackAllocateable a = true → (P.sizeOfObject a).isSome = true)
    (hlimit : locationRepresentable canRepresent limit = true)
    (hslots : s + markedSlots m P macros ≤ limit) : ∀ e ∈ trace, e.2 ≠ .noRoom := by
  induction h with
  | stop => exact fun e he => absurd he List.not_mem_nil
  | @dead macros s a _ ha _ ih =>
    refine ih (fun b hb => hsizes b (List.mem_of_mem_erase hb)) ?_
    rw [markedSlots_erase ha] at hslots
    omega
  | @expand macros s _ v hv hconst _ ih =>
    rw [markedSlots_erase hv] at hslots
    have hrest : ∀ a ∈ macros.erase v.alloc, m.isStackAllocateable a = true →
        (P.sizeOfObject a).isSome = true := fun a ha => hsizes a (List.mem_of_mem_erase ha)
    obtain ⟨hs, hout⟩ | ⟨-, hmarked, size, hsize, hout⟩ :=
      place_cases canRepresent o m fail s v
    · rintro e he
      obtain rfl | he := List.mem_cons.1 he
      · obtain hout | ⟨-, -, hout⟩ := hout
        · rw [hout]
          exact Placement.noConfusion
        · rw [hout]
          exact Placement.noConfusion
      · refine ih hrest ?_ e he
        rw [hs]
        omega
    · -- The size is the one the estimate has counted.
      have hcounted : P.slots v.alloc = size >>> 2 := by
        obtain ⟨size', hsize'⟩ := Option.isSome_iff_exists.1 (hsizes v.alloc hv hmarked)
        obtain rfl := Option.some.inj ((hconst size' hsize').symm.trans hsize)
        rw [MacroPhase.slots, hsize', Option.getD_some]
      rw [if_pos hmarked, hcounted] at hslots
      have hroom : locationRepresentable canRepresent (s + (size >>> 2)) = true :=
        hmono _ _ (by omega) hlimit
      obtain ⟨hnone, -⟩ | ⟨hs, hplaced⟩ := hout
      · rw [hroom] at hnone
        exact Bool.noConfusion hnone
      · rintro e he
        obtain rfl | he := List.mem_cons.1 he
        · exact hplaced
        · refine ih hrest ?_ e he
          rw [hs]
          omega

end

/-- Without the fail flag there is room for every candidate, in whatever order they are visited;
with it no referenced candidate is placed, and none is asked room for. -/
theorem estimate_sufficient (canRepresent : ℕ → Bool)
    (hmono : ∀ r r', r ≤ r' → canRepresent r' = true → canRepresent r = true)
    (o : StackAllocationOptions) (m : AllocMarks) (P : MacroPhase)
    (trace : List (Visit × Placement))
    (h : Expands canRepresent o m (failFlag canRepresent o m P) P.sizeOfObject P.remaining
      P.fixedSlots trace) :
    (failFlag canRepresent o m P = false → ∀ e ∈ trace, e.2 ≠ .noRoom) ∧
      (failFlag canRepresent o m P = true → ∀ e ∈ trace, m.isReferenced e.1.alloc = true →
        (∀ slot, e.2 ≠ .placed slot) ∧ e.2 ≠ .noRoom) := by
  constructor
  · intro hfail
    obtain ⟨hestimate, hfits⟩ := Bool.or_eq_false_iff.1 hfail
    obtain ⟨hslots, hall⟩ := estimateStackAllocationSize_eq_false hestimate
    rw [hslots, Bool.not_eq_false', Nat.zero_add] at hfits
    exact h.fits hmono (fun a ha hmarked => (hall a ha hmarked).1) hfits (Nat.le_refl _)
  · intro hfail e he href
    rw [hfail] at h
    obtain hout | hout := h.avoided e he href
    · rw [hout]
      exact ⟨fun _ => Placement.noConfusion, Placement.noConfusion⟩
    · rw [hout]
      exact ⟨fun _ => Placement.noConfusion, Placement.noConfusion⟩

/-- Two objects of 16 bytes, and a frame with room for both. -/
def roomyPhase : MacroPhase := { twoObjects 2 3 (Nat.succ_ne_self 2).symm with fixedSlots := 0 }

/-- Both are marked, and referenced. -/
def referencedMarks : AllocMarks where
  isStackAllocateable := fun _ => true
  isScalarReplaceable := fun _ => false
  isReferenced := fun _ => true

/-- Either is visited with room for it, the second one first. -/
theorem estimate_sufficient_roomyPhase :
    ∃ v w : Visit, v.alloc = 3 ∧ w.alloc = 2 ∧
      Expands (fun r => decide (r < 512)) optionsNoElimination referencedMarks false
        roomyPhase.sizeOfObject roomyPhase.remaining 0 [(v, .placed 0), (w, .placed 4)] ∧
      ∀ e ∈ [(v, Placement.placed 0), (w, Placement.placed 4)], e.2 ≠ .noRoom := by
  have hexp : Expands (fun r => decide (r < 512)) optionsNoElimination referencedMarks false
      roomyPhase.sizeOfObject roomyPhase.remaining 0
      [(⟨3, true, some 16, false⟩, .placed 0), (⟨2, true, some 16, false⟩, .placed 4)] :=
    .expand ⟨3, true, some 16, false⟩ (by decide) (fun _ h => h)
      (.expand ⟨2, true, some 16, false⟩ (by decide) (fun _ h => h) (.stop _ _))
  refine ⟨_, _, rfl, rfl, hexp, ?_⟩
  refine (estimate_sufficient _ (fun r r' hle h => ?_) optionsNoElimination referencedMarks
    roomyPhase _ hexp).1 rfl
  exact decide_eq_true (Nat.lt_of_le_of_lt hle (of_decide_eq_true h))

/-! ## One order

The definitions of the phase are a case of these runs: the list is expanded from its end, and each
allocation is found as the phase says. -/

section

variable {o : StackAllocationOptions} {m : AllocMarks} {P : MacroPhase}

/-- What the visit of an allocation finds in a given phase. -/
def MacroPhase.visit (P : MacroPhase) (a : ℕ) : Visit where
  alloc := a
  hasResultCast := P.hasResultCastAtExpansion a
  sizeOfObject := P.sizeOfObject a
  isYanked := P.isYanked a

/-- The test for the registers of a given phase. -/
def MacroPhase.canRepresent (P : MacroPhase) (r : ℕ) : Bool := decide (r < P.slotLimit)

/-- The outcome of an expansion. -/
def Placement.outcome : Placement → Option Outcome
  | .rejected | .avoided | .noRoom => none
  | .yanked => some .yanked
  | .placed slot => some (.stack slot)

theorem stackAllocation_eq_place (fail : Bool) (a s : ℕ) :
    stackAllocation o m P fail a s =
      ((place P.canRepresent o m fail s (P.visit a)).1.outcome,
        (place P.canRepresent o m fail s (P.visit a)).2) := by
  unfold stackAllocation place canStackAllocate MacroPhase.visit
  split
  · rfl
  split
  · rfl
  rw [nextStackAllocatedObject_eq]
  have hrep : locationRepresentable P.canRepresent (s + P.slots a) =
      P.locationRepresentable (s + P.slots a) := rfl
  simp only [MacroPhase.slots] at hrep ⊢
  rw [hrep]
  by_cases hfits : P.locationRepresentable (s + (P.sizeOfObject a).getD 0 >>> 2) = true
  · simp only [hfits, Bool.not_true, Bool.false_eq_true, if_false, if_true]
    cases P.isYanked a <;> rfl
  · simp only [hfits, Bool.not_false, if_true, Bool.false_eq_true, if_false]
    rfl

/-- The expansion of the allocations in a given order is one such run. -/
theorem expandAllocations_expands (fail : Bool) {l macros : List ℕ} (s : ℕ) (hl : l.Nodup)
    (hsub : l ⊆ macros) :
    ∃ trace, Expands P.canRepresent o m fail P.sizeOfObject macros s trace ∧
      expandAllocations o m P fail l s = trace.map fun e =>
        (e.1.alloc, e.2.outcome.getD (if e.1.hasResultCast then .heap else .unused)) := by
  induction l generalizing macros s with
  | nil => exact ⟨[], .stop _ _, rfl⟩
  | cons a l ih =>
    obtain ⟨ha, hl⟩ := List.nodup_cons.1 hl
    have hsub' : l ⊆ macros.erase a := by
      intro b hb
      have hne : b ≠ a := fun heq => ha (heq ▸ hb)
      exact (List.mem_erase_of_ne hne).2 (hsub (List.mem_cons_of_mem a hb))
    obtain ⟨trace, hexp, hmap⟩ :=
      ih (place P.canRepresent o m fail s (P.visit a)).2 hl hsub'
    refine ⟨_, .expand (P.visit a) (hsub List.mem_cons_self) (fun _ h => h) hexp, ?_⟩
    rw [expandAllocations_cons, expandOne, List.map_cons, ← hmap, stackAllocation_eq_place]
    rfl

end

end StackAllocation
