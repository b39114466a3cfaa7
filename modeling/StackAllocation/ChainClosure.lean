import StackAllocation.HeapToStack
import Mathlib.Order.Bounds.Basic
import Mathlib.Data.Set.Basic

/-!
# The largest closed set of chains

Step 4.1 as a whole. The loop ends, and what it leaves marked is the greatest set of
eligible allocations that is closed under the objects holding its members, whatever the
order of the worklist (`verifyLoop_isGreatest`). The marks for references are those of
the members that another allocation holds: none is left on an object that was dropped,
since a mark is given to marked objects only (`ReferencedMarked`).
-/

namespace StackAllocation

section

variable (g : Nodes)

/-- The object `o` has `a` in one of its fields. -/
def HoldsInField (o a : ℕ) : Prop :=
  (g o).type = .javaObject ∧ ∃ f, .edge f ∈ (g a).uses ∧ (g f).type = .field ∧ o ∈ (g f).bases

/-- Every object with a member in one of its fields is null, a member or a scalar replaceable
allocation. -/
def ChainClosed (S : Set ℕ) : Prop :=
  ∀ a ∈ S, ∀ o, HoldsInField g o a → (g o).ideal = .nullConP ∨ o ∈ S ∨
    (g o).ideal = .allocate ∧ (g o).scalarReplaceable = true

/-- The sets that step 4.1 may leave. -/
def ChainSets (eligible : ℕ → Bool) (nonEscaped : List ℕ) : Set (Set ℕ) :=
  {S | S ⊆ {a | Eligible g eligible nonEscaped a} ∧ ChainClosed g S}

end

section

variable {g : Nodes}

/-- A holder is found from the uses of what it holds. -/
theorem holdsInField_iff {o a : ℕ} : HoldsInField g o a ↔
    o ∈ storedIn g (g a).uses ∧ (g o).type = .javaObject := by
  rw [mem_storedIn]
  exact and_comm

/-- An object is held by another allocation. -/
theorem held_iff {a : ℕ} : Held g a ↔
    ∃ o, o ≠ a ∧ (g o).ideal = .allocate ∧ HoldsInField g o a := by
  refine exists_congr fun o => ?_
  rw [holdsInField_iff]
  simp only [isHolder, Bool.and_eq_true, decide_eq_true_eq]
  constructor
  · rintro ⟨hmem, ⟨hjava, hne⟩, halloc⟩
    exact ⟨hne, halloc, hmem, hjava⟩
  · rintro ⟨hne, halloc, hmem, hjava⟩
    exact ⟨hmem, ⟨hjava, hne⟩, halloc⟩

/-- For sets of allocations, closed means supported. -/
theorem chainClosed_iff {S : Set ℕ} (halloc : ∀ a ∈ S, (g a).ideal = .allocate) :
    ChainClosed g S ↔ Pruning.Supported (HoldersSupported g) (fun a => a ∈ S) := by
  constructor
  · intro h a ha o hmem hjava hne
    obtain hnull | hS | hsr := h a ha o (holdsInField_iff.2 ⟨hmem, hjava⟩)
    · exact .inl hnull
    · exact .inr ⟨halloc o hS, .inl hS⟩
    · exact .inr ⟨hsr.1, .inr hsr.2⟩
  · intro h a ha o hholds
    obtain ⟨hmem, hjava⟩ := holdsInField_iff.1 hholds
    by_cases hne : o = a
    · exact .inr (.inl (hne ▸ ha))
    · obtain hnull | ⟨hideal, hS | hsr⟩ := h a ha o hmem hjava hne
      · exact .inl hnull
      · exact .inr (.inl hS)
      · exact .inr (.inr ⟨hideal, hsr⟩)

/-! ## No stale marks

An object that is dropped may have been marked as referenced in an earlier pass. The code clears
that mark when it drops the object, so at the end only objects that may be placed carry it; without
this the estimate of macro expansion would count references to objects of the heap. -/

/-- Only objects that may be placed are marked as referenced. -/
def ReferencedMarked (m : AllocMarks) : Prop :=
  ∀ a, m.isReferenced a = true → Marked m a

/-- The mark as referenced goes with the mark for the frame. -/
theorem ReferencedMarked.drop {m : AllocMarks} (h : ReferencedMarked m) (ptn : ℕ) :
    ReferencedMarked (m.drop ptn) := by
  intro a ha
  by_cases hap : a = ptn
  · simp [AllocMarks.drop, hap] at ha
  · have hold : m.isReferenced a = true := by simpa [AllocMarks.drop, hap] using ha
    simpa [Marked, AllocMarks.drop, hap] using h a hold

/-- Only an object that is marked for the frame is marked as referenced. -/
theorem ReferencedMarked.markHeld {m : AllocMarks} (h : ReferencedMarked m) {ptn : ℕ}
    (hptn : Marked m ptn) : ReferencedMarked (markHeld g m ptn) := by
  intro a ha
  rw [marked_markHeld]
  obtain ha | ⟨rfl, -⟩ := (markHeld_isReferenced m ptn a).1 ha
  · exact h a ha
  · exact hptn

/-- A pass over all objects leaves no stale mark: an object that is dropped loses both. -/
theorem ReferencedMarked.pass {nonEscaped : List ℕ} {m m' : AllocMarks} {found : Bool}
    (hm : ReferencedMarked m)
    (h : verifyStackAllocatedObjectChains g nonEscaped m = (found, m')) :
    ReferencedMarked m' := by
  induction nonEscaped generalizing m with
  | nil =>
    obtain rfl := (Prod.mk.inj h).2
    exact hm
  | cons ptn rest ih =>
    obtain ⟨-, heq⟩ | ⟨-, -, heq⟩ | ⟨hc, -, heq⟩ :=
      verifyStackAllocatedObjectChains_cons (g := g) ptn rest m
    · exact ih hm (heq ▸ h)
    · rw [heq] at h
      obtain rfl := (Prod.mk.inj h).2
      exact hm.drop ptn
    · exact ih (hm.markHeld hc.marked) (heq ▸ h)

/-- So do all passes of the loop. -/
theorem ReferencedMarked.loop {nonEscaped : List ℕ} {fuel : ℕ} {m r : AllocMarks}
    (hm : ReferencedMarked m) (h : verifyLoop g nonEscaped fuel m = some r) :
    ReferencedMarked r := by
  induction fuel generalizing m with
  | zero => cases h
  | succ fuel ih =>
    obtain ⟨found, m', hpass, ⟨-, hloop⟩ | ⟨-, rfl⟩⟩ := verifyLoop_succ h
    · exact ih (hm.pass hpass) hloop
    · exact hm.pass hpass

end

/-! ## The greatest set

The set is given by pruning: an object survives if it is in some closed set of candidates. The union
of such sets is closed, so there is a largest one, which does not mention an order. The loop takes
away only what cannot survive, and when a pass takes nothing away the rest is closed, so it stops at
the largest set for every order of the worklist. -/

section

variable (G : CompletedGraph) (eligible : ℕ → Bool)

/-- The marks that step 4.1 leaves. -/
structure ChainMarks (m : AllocMarks) : Prop where
  marks : ∀ a, m.isStackAllocateable a = true ↔
    StackAllocateable G.nodes eligible G.nonEscaped a
  referenced : ∀ a, m.isReferenced a = true ↔ m.isStackAllocateable a = true ∧ Held G.nodes a
  scalarReplaceable : ∀ a, m.isScalarReplaceable a = false

variable {G eligible}

/-- The marks after the loop: those of the greatest set, and as referenced the ones that are
held. -/
theorem verifyLoop_chainMarks {fuel : ℕ} {m : AllocMarks}
    (h : verifyLoop G.nodes G.nonEscaped fuel
      (markEligible G.nodes eligible G.nonEscaped .initial) = some m) :
    ChainMarks G eligible m := by
  obtain ⟨hmarks, href⟩ := verifyLoop_marks h
  obtain ⟨hreferenced, hsr⟩ :
      (markEligible G.nodes eligible G.nonEscaped .initial).isReferenced = (fun _ => false) ∧
        (markEligible G.nodes eligible G.nonEscaped .initial).isScalarReplaceable =
          (fun _ => false) := markEligible_others _ _
  have hstart : ReferencedMarked (markEligible G.nodes eligible G.nonEscaped .initial) := by
    intro a ha
    rw [hreferenced] at ha
    exact absurd ha Bool.false_ne_true
  refine ⟨hmarks, fun a => ⟨fun ha => ?_, fun ha => (href a ha.1).2 ha.2⟩, fun a => ?_⟩
  · have hmarked := hstart.loop h a ha
    exact ⟨hmarked, (href a hmarked).1 ha⟩
  · rw [verifyLoop_isScalarReplaceable h, hsr]

/-- There are no two ways to set the marks. -/
theorem ChainMarks.eq {m m' : AllocMarks} (h : ChainMarks G eligible m)
    (h' : ChainMarks G eligible m') : m = m' := by
  have hsa : m.isStackAllocateable = m'.isStackAllocateable :=
    funext fun a => Bool.eq_iff_iff.2 ((h.marks a).trans (h'.marks a).symm)
  have href : m.isReferenced = m'.isReferenced := funext fun a => by
    rw [Bool.eq_iff_iff, h.referenced, h'.referenced, hsa]
  have hsr : m.isScalarReplaceable = m'.isScalarReplaceable := funext fun a => by
    rw [h.scalarReplaceable, h'.scalarReplaceable]
  obtain ⟨_, _, _⟩ := m
  obtain ⟨_, _, _⟩ := m'
  simp only [AllocMarks.mk.injEq]
  exact ⟨hsa, href, hsr⟩

/-- The graph with its worklist in another order. -/
def CompletedGraph.reorder (G : CompletedGraph) (l : List ℕ) (hl : l.Perm G.nonEscaped) :
    CompletedGraph where
  nodes := G.nodes
  nonEscaped := l
  mem_edges := G.mem_edges
  nonEscaped_javaObject a ha := G.nonEscaped_javaObject a (hl.mem_iff.1 ha)
  nonEscaped_state a ha := G.nonEscaped_state a (hl.mem_iff.1 ha)

/-- The marks do not depend on the order of the worklist, as the greatest set does not. -/
theorem ChainMarks.of_reorder {l : List ℕ} {hl : l.Perm G.nonEscaped} {m : AllocMarks}
    (h : ChainMarks (G.reorder l hl) eligible m) : ChainMarks G eligible m where
  marks a := by
    have hperm : Eligible G.nodes eligible l = Eligible G.nodes eligible G.nonEscaped :=
      funext fun a => propext (and_congr_left fun _ => hl.mem_iff)
    refine (h.marks a).trans ?_
    show Pruning.Survives _ (Eligible G.nodes eligible l) a ↔ _
    rw [hperm]
    exact Iff.rfl
  referenced := h.referenced
  scalarReplaceable := h.scalarReplaceable

/-- The marked objects are the greatest closed set. -/
theorem ChainMarks.isGreatest {m : AllocMarks} (h : ChainMarks G eligible m) :
    IsGreatest (ChainSets G.nodes eligible G.nonEscaped) {a | m.isStackAllocateable a = true} := by
  have hset : {a | m.isStackAllocateable a = true} =
      {a | StackAllocateable G.nodes eligible G.nonEscaped a} := Set.ext h.marks
  rw [hset]
  constructor
  · refine ⟨fun a ha => Pruning.Survives.candidate ha, ?_⟩
    exact (chainClosed_iff fun a ha => (Pruning.Survives.candidate ha).2.2.1).2
      (Pruning.survives_supported holdersSupported_monotone)
  · rintro S ⟨hS, hclosed⟩ a ha
    exact ⟨fun b => b ∈ S, hS, (chainClosed_iff fun b hb => (hS hb).2.2.1).1 hclosed, ha⟩

variable (G eligible) in
/-- Step 4.1 ends, with the same marks in every order of the worklist: those of the greatest
closed set of candidates, and for references those of its members in another allocation. -/
theorem verifyLoop_isGreatest :
    ∃ m : AllocMarks,
      (∀ l, l.Perm G.nonEscaped → ∀ fuel, l.length < fuel →
        verifyLoop G.nodes l fuel (markEligible G.nodes eligible l .initial) = some m) ∧
      IsGreatest (ChainSets G.nodes eligible G.nonEscaped) {a | m.isStackAllocateable a = true} ∧
      ∀ a, m.isReferenced a = true ↔ m.isStackAllocateable a = true ∧
        ∃ o, o ≠ a ∧ (G.nodes o).ideal = .allocate ∧ HoldsInField G.nodes o a := by
  have hends : ∀ l, l.Perm G.nonEscaped → ∀ fuel, l.length < fuel →
      ∃ m, verifyLoop G.nodes l fuel (markEligible G.nodes eligible l .initial) = some m ∧
        ChainMarks G eligible m := by
    intro l hl fuel hfuel
    obtain ⟨m, hm⟩ := verifyLoop_terminates (g := G.nodes) l fuel
      (markEligible G.nodes eligible l .initial)
      (Nat.lt_of_le_of_lt List.countP_le_length hfuel)
    exact ⟨m, hm, (verifyLoop_chainMarks (G := G.reorder l hl) hm).of_reorder⟩
  obtain ⟨m, -, hm⟩ := hends G.nonEscaped (List.Perm.refl _) _ (Nat.lt_succ_self _)
  refine ⟨m, fun l hl fuel hfuel => ?_, hm.isGreatest, fun a => ?_⟩
  · obtain ⟨m', hm', hmarks⟩ := hends l hl fuel hfuel
    rw [hm', hmarks.eq hm]
  · rw [hm.referenced, held_iff]

end

end StackAllocation
