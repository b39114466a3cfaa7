import StackAllocation.FrameSpace
import Mathlib.Data.Set.BooleanAlgebra
import Mathlib.Order.CompletePartialOrder

/-!
# The slots of the stack objects

`next_stack_allocated_object` hands out the slots above those that are in use, so what it hands out
over a whole run of expansions never overlaps, whatever is asked for and refused in between
(`expandVisits_frameOk`). A refusal is noticed before anything is changed, and the allocation is
expanded onto the heap. In what it does to the slots an expansion here is that of the estimate
(`stackAllocationOf_eq_place`).
-/

namespace StackAllocation

/-- What an expansion changes in the graph. -/
inductive GraphEdit : Type where
  /-- `process_write_barriers_on_stack_allocated_objects` -/
  | processBarriers (alloc : ℕ)
  /-- the `Initialize` is removed and the allocation yanked -/
  | yank (alloc : ℕ)
  /-- `new BoxLockNode` -/
  | boxLock (slot : ℕ)
  | initializeObject (alloc : ℕ)
  | registerWithSafepoints (alloc : ℕ)
  /-- the projections of the allocation are replaced, and its unused edges removed -/
  | replaceProjections (alloc : ℕ)
  /-- `expand_allocate` or `expand_allocate_array` -/
  | expandAllocate (alloc : ℕ)
  deriving DecidableEq

/-- The state of macro expansion. -/
structure MacroState : Type where
  /-- `fixed_slots` -/
  fixedSlots : ℕ
  /-- what has been changed in the graph, the last change first -/
  edits : List GraphEdit

/-- What comes of the visit of an allocation. -/
structure Expanded : Type where
  visit : Visit
  /-- what `next_stack_allocated_object` returns, if it is asked; `none` is -1 -/
  next : Option (Option ℕ)
  /-- what `stack_allocation` returns -/
  onStack : Bool
  state : MacroState

section

variable (canRepresent : ℕ → Bool) (o : StackAllocationOptions) (m : AllocMarks)

/-- `stack_allocation`. -/
def stackAllocationOf (fail : Bool) (st : MacroState) (v : Visit) : Expanded :=
  if !(v.hasResultCast && m.isStackAllocateable v.alloc && v.sizeOfObject.isSome &&
      o.doStackAllocation) then ⟨v, none, false, st⟩
  else if fail && m.isReferenced v.alloc then ⟨v, none, false, st⟩
  else
    match nextStackAllocatedObject canRepresent st.fixedSlots (v.sizeOfObject.getD 0 >>> 2) with
    | (none, fixedSlots) => ⟨v, some none, false, ⟨fixedSlots, st.edits⟩⟩
    | (some slot, fixedSlots) =>
      if v.isYanked then
        ⟨v, some (some slot), true,
          ⟨fixedSlots, .yank v.alloc :: .processBarriers v.alloc :: st.edits⟩⟩
      else
        ⟨v, some (some slot), true, ⟨fixedSlots,
          .replaceProjections v.alloc :: .registerWithSafepoints v.alloc ::
            .initializeObject v.alloc :: .boxLock slot :: .processBarriers v.alloc :: st.edits⟩⟩

/-- The visit of an allocation: what is not placed in the frame is expanded onto the heap. -/
def expandVisit (fail : Bool) (st : MacroState) (v : Visit) : MacroState :=
  let e := stackAllocationOf canRepresent o m fail st v
  if e.onStack then e.state
  else ⟨e.state.fixedSlots, .expandAllocate v.alloc :: e.state.edits⟩

/-- What comes of the visits, each with the state before it. -/
def expandVisits (fail : Bool) : MacroState → List Visit → List (MacroState × Expanded)
  | _, [] => []
  | st, v :: rest =>
    (st, stackAllocationOf canRepresent o m fail st v) ::
      expandVisits fail (expandVisit canRepresent o m fail st v) rest

end

/-- A range of slots that was handed out, for an object of a size. -/
structure SlotRange : Type where
  first : ℕ
  size : ℕ

/-- The number of slots asked for. -/
def SlotRange.count (r : SlotRange) : ℕ := r.size >>> 2

/-- Its slots. -/
def SlotRange.slots (r : SlotRange) : Set ℕ := {n | r.first ≤ n ∧ n < r.first + r.count}

/-- The ranges that were handed out. -/
def handedOut (trace : List (MacroState × Expanded)) : List SlotRange :=
  trace.filterMap fun e => e.2.next.join.map fun slot => ⟨slot, e.2.visit.sizeOfObject.getD 0⟩

/-- What is promised of the ranges that are handed out from a number of slots on. -/
structure FrameOk (canRepresent : ℕ → Bool) (start : ℕ) (ranges : List SlotRange) : Prop where
  /-- no two overlap -/
  disjoint : ranges.Pairwise fun r r' => Disjoint r.slots r'.slots
  /-- no slot was in use before -/
  fresh : ∀ r ∈ ranges, ∀ n ∈ r.slots, start ≤ n
  /-- a size in whole slots fits -/
  fits : ∀ r ∈ ranges, 4 ∣ r.size → r.size ≤ 4 * r.count
  /-- the `BoxLock` of the first slot and all slots can be represented -/
  representable : ∀ r ∈ ranges, canRepresent r.first = true ∧ ∀ n ∈ r.slots, canRepresent n = true
  /-- even slots are aligned to eight bytes -/
  aligned : 2 ∣ start → (∀ r ∈ ranges, 8 ∣ r.size) → ∀ r ∈ ranges, 8 ∣ 4 * r.first

/-- A visit whose request is refused changes nothing but that the allocation is expanded onto the
heap. -/
def RefusalsExpand (canRepresent : ℕ → Bool) (o : StackAllocationOptions) (m : AllocMarks)
    (fail : Bool) (trace : List (MacroState × Expanded)) : Prop :=
  ∀ e ∈ trace, e.2.next = some none → e.2.onStack = false ∧ e.2.state = e.1 ∧
    expandVisit canRepresent o m fail e.1 e.2.visit =
      ⟨e.1.fixedSlots, .expandAllocate e.2.visit.alloc :: e.1.edits⟩

section

variable {canRepresent : ℕ → Bool} {o : StackAllocationOptions} {m : AllocMarks} {fail : Bool}

/-- What one expansion does with the slots. -/
theorem stackAllocationOf_cases (st : MacroState) (v : Visit) :
    (stackAllocationOf canRepresent o m fail st v).visit = v ∧
    (((stackAllocationOf canRepresent o m fail st v).next.join = none ∧
        (stackAllocationOf canRepresent o m fail st v).onStack = false ∧
        (stackAllocationOf canRepresent o m fail st v).state = st) ∨
      ∃ size, v.sizeOfObject = some size ∧
        (stackAllocationOf canRepresent o m fail st v).next = some (some st.fixedSlots) ∧
        (stackAllocationOf canRepresent o m fail st v).onStack = true ∧
        (stackAllocationOf canRepresent o m fail st v).state.fixedSlots =
          st.fixedSlots + (size >>> 2) ∧
        locationRepresentable canRepresent (st.fixedSlots + (size >>> 2)) = true) := by
  rw [stackAllocationOf]
  split
  · exact ⟨rfl, .inl ⟨rfl, rfl, rfl⟩⟩
  next hcan =>
  split
  · exact ⟨rfl, .inl ⟨rfl, rfl, rfl⟩⟩
  rw [Bool.not_eq_true', Bool.not_eq_false, Bool.and_eq_true, Bool.and_eq_true] at hcan
  obtain ⟨size, hsize⟩ := Option.isSome_iff_exists.1 hcan.1.2
  rw [nextStackAllocatedObject_eq, hsize, Option.getD_some]
  cases hrep : locationRepresentable canRepresent (st.fixedSlots + size >>> 2) with
  | false => exact ⟨rfl, .inl ⟨rfl, rfl, rfl⟩⟩
  | true =>
    cases v.isYanked with
    | true => exact ⟨rfl, .inr ⟨size, rfl, rfl, rfl, rfl, hrep⟩⟩
    | false => exact ⟨rfl, .inr ⟨size, rfl, rfl, rfl, rfl, hrep⟩⟩

/-- It does what `place` does. -/
theorem stackAllocationOf_eq_place (st : MacroState) (v : Visit) :
    (stackAllocationOf canRepresent o m fail st v).state.fixedSlots =
      (place canRepresent o m fail st.fixedSlots v).2 := by
  rw [stackAllocationOf, place]
  split
  · rfl
  split
  · rfl
  rw [nextStackAllocatedObject_eq]
  cases locationRepresentable canRepresent (st.fixedSlots + v.sizeOfObject.getD 0 >>> 2) with
  | false => rfl
  | true =>
    cases v.isYanked with
    | true => rfl
    | false => rfl

/-- The range that an expansion hands out, if it does. -/
theorem handedOut_cons (e : MacroState × Expanded) (trace : List (MacroState × Expanded)) :
    handedOut (e :: trace) =
      match e.2.next.join with
      | some slot => ⟨slot, e.2.visit.sizeOfObject.getD 0⟩ :: handedOut trace
      | none => handedOut trace := by
  rw [handedOut, List.filterMap_cons]
  cases e.2.next.join with
  | none => rfl
  | some slot => rfl

/-- Slots are never given back. -/
theorem expandVisit_fixedSlots (st : MacroState) (v : Visit) :
    (expandVisit canRepresent o m fail st v).fixedSlots =
      (stackAllocationOf canRepresent o m fail st v).state.fixedSlots := by
  rw [expandVisit]
  split
  · rfl
  · rfl

/-- The ranges lie one above the other. -/
theorem stacked_handedOut (st : MacroState) (visits : List Visit) :
    (∀ r ∈ handedOut (expandVisits canRepresent o m fail st visits), st.fixedSlots ≤ r.first ∧
      locationRepresentable canRepresent (r.first + r.count) = true) ∧
    (handedOut (expandVisits canRepresent o m fail st visits)).Pairwise
      fun r r' => r.first + r.count ≤ r'.first := by
  induction visits generalizing st with
  | nil => exact ⟨fun _ h => absurd h List.not_mem_nil, .nil⟩
  | cons v visits ih =>
    obtain ⟨hrest, hpairs⟩ := ih (expandVisit canRepresent o m fail st v)
    rw [expandVisits, handedOut_cons]
    obtain ⟨hvisit, ⟨hnext, -, hstate⟩ | ⟨size, hsize, hnext, -, hslots, hrep⟩⟩ :=
      @stackAllocationOf_cases canRepresent o m fail st v
    · rw [hnext]
      rw [expandVisit_fixedSlots, hstate] at hrest
      exact ⟨hrest, hpairs⟩
    · rw [hnext, hvisit, hsize]
      rw [expandVisit_fixedSlots, hslots] at hrest
      constructor
      · intro r hr
        obtain rfl | hr := List.mem_cons.1 hr
        · exact ⟨Nat.le_refl _, hrep⟩
        · obtain ⟨hle, hrep'⟩ := hrest r hr
          exact ⟨by omega, hrep'⟩
      · exact List.pairwise_cons.2 ⟨fun r hr => (hrest r hr).1, hpairs⟩

/-- Multiples of eight bytes are even numbers of slots. -/
theorem aligned_handedOut (st : MacroState) (visits : List Visit) (heven : 2 ∣ st.fixedSlots)
    (hsizes : ∀ r ∈ handedOut (expandVisits canRepresent o m fail st visits), 8 ∣ r.size) :
    ∀ r ∈ handedOut (expandVisits canRepresent o m fail st visits), 8 ∣ 4 * r.first := by
  induction visits generalizing st with
  | nil => exact fun _ h => absurd h List.not_mem_nil
  | cons v visits ih =>
    rw [expandVisits, handedOut_cons] at hsizes ⊢
    obtain ⟨hvisit, ⟨hnext, -, hstate⟩ | ⟨size, hsize, hnext, -, hslots, -⟩⟩ :=
      @stackAllocationOf_cases canRepresent o m fail st v
    · rw [hnext] at hsizes ⊢
      refine ih _ ?_ hsizes
      rw [expandVisit_fixedSlots, hstate]
      exact heven
    · rw [hnext, hvisit, hsize] at hsizes ⊢
      have hdvd : 8 ∣ size := hsizes _ List.mem_cons_self
      intro r hr
      obtain rfl | hr := List.mem_cons.1 hr
      · show 8 ∣ 4 * st.fixedSlots
        omega
      · refine ih _ ?_ (fun r hr => hsizes r (List.mem_cons_of_mem _ hr)) r hr
        rw [expandVisit_fixedSlots, hslots, Nat.shiftRight_eq_div_pow]
        omega

theorem refusalsExpand_expandVisits (st : MacroState) (visits : List Visit) :
    RefusalsExpand canRepresent o m fail (expandVisits canRepresent o m fail st visits) := by
  induction visits generalizing st with
  | nil => exact fun _ h => absurd h List.not_mem_nil
  | cons v visits ih =>
    intro e he hnext
    obtain rfl | he := List.mem_cons.1 he
    · obtain ⟨hvisit, ⟨-, hfalse, hstate⟩ | ⟨size, -, hsome, -⟩⟩ :=
        @stackAllocationOf_cases canRepresent o m fail st v
      · refine ⟨hfalse, hstate, ?_⟩
        rw [hvisit, expandVisit, hfalse, hstate]
        rfl
      · cases hsome.symm.trans hnext
    · exact ih _ e he hnext

end

/-- Whatever is asked for and refused: what is handed out does not overlap and fits, and what is
refused is expanded onto the heap. `RegMask::can_represent` holds for all numbers up to some
limit. -/
theorem expandVisits_frameOk (canRepresent : ℕ → Bool)
    (hmono : ∀ r r', r ≤ r' → canRepresent r' = true → canRepresent r = true)
    (o : StackAllocationOptions) (m : AllocMarks) (fail : Bool) (st : MacroState)
    (visits : List Visit) :
    FrameOk canRepresent st.fixedSlots (handedOut (expandVisits canRepresent o m fail st visits)) ∧
      RefusalsExpand canRepresent o m fail (expandVisits canRepresent o m fail st visits) := by
  obtain ⟨hall, hpairs⟩ :=
    @stacked_handedOut canRepresent o m fail st visits
  refine ⟨⟨?_, ?_, ?_, ?_, aligned_handedOut st visits⟩, refusalsExpand_expandVisits st visits⟩
  · refine hpairs.imp fun {r r'} hle => Set.disjoint_left.2 fun n hn hn' => ?_
    have hlt := hn.2
    have hge := hn'.1
    omega
  · intro r hr n hn
    exact Nat.le_trans (hall r hr).1 hn.1
  · intro r _ hdvd
    rw [SlotRange.count, Nat.shiftRight_eq_div_pow]
    omega
  · intro r hr
    obtain ⟨-, hrep⟩ := hall r hr
    refine ⟨hmono _ _ (by omega) hrep, fun n hn => hmono _ _ ?_ hrep⟩
    have hlt := hn.2
    omega

/-- Objects of 16, 64, 24 and 16 bytes, in a frame that is too small for the second. -/
def smallFrameVisits : List Visit :=
  [⟨1, true, some 16, false⟩, ⟨2, true, some 64, false⟩, ⟨3, true, some 24, true⟩,
    ⟨4, true, some 16, false⟩]

/-- The third one is yanked after it was given its slots. -/
theorem frameOk_smallFrameVisits :
    (handedOut (expandVisits (fun r => decide (r < 22)) optionsNoElimination referencedMarks false
        ⟨2, []⟩ smallFrameVisits)).map (fun r => (r.first, r.count)) = [(2, 4), (6, 6), (12, 4)] ∧
      FrameOk (fun r => decide (r < 22)) 2 (handedOut (expandVisits (fun r => decide (r < 22))
        optionsNoElimination referencedMarks false ⟨2, []⟩ smallFrameVisits)) := by
  refine ⟨by decide, ?_⟩
  refine (expandVisits_frameOk _ (fun r r' hle h => ?_) optionsNoElimination referencedMarks false
    ⟨2, []⟩ smallFrameVisits).1
  exact decide_eq_true (Nat.lt_of_le_of_lt hle (of_decide_eq_true h))

end StackAllocation
