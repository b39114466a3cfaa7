import StackAllocation.ObjectChains
import Mathlib.Data.List.Perm.Subperm
import Mathlib.Algebra.Order.BigOperators.Group.List
import Mathlib.Algebra.Order.Group.Nat
import Mathlib.Algebra.GroupWithZero.Nat

/-!
# Heap objects that refer to stack objects

Whether a heap object can refer to an object in the frame after macro expansion depends
on which objects are stored in which (`Stored`: by a store to a field, or by an
arraycopy from the elements of another object) and on the marks of escape analysis.
Macro expansion drops an object from the frame for reasons of its own, and then keeps all
objects marked as referenced out of it. It does so too when an allocation that
`split_unique_types` has marked (`SplitUnique`) was not removed. So an object is safe exactly when
it is marked as referenced and each of its holders is marked for the frame or for removal
(`no_heapToStack_iff`).

Both can fail. A holder that is scalar replaceable in the connection graph need not be
marked for either: `split_unique_types` does not run, or does not reach it, and it is expanded to a
heap allocation. And a holder by arraycopy has no field that refers to the object, so the marks do
not account for it.
-/

namespace StackAllocation

section

variable (g : Nodes)

/-- The node is an allocation of the method. -/
structure IsAllocation (a : ℕ) : Prop where
  javaObject : (g a).type = .javaObject
  allocate : (g a).ideal = .allocate

/-- The node refers to the object, or is the object. -/
def RefersTo (n a : ℕ) : Prop :=
  n = a ∨ (g n).type = .localVar ∧ a ∈ (g n).edges

/-- An arraycopy from `s` to `b`. -/
def Copies (s b : ℕ) : Prop :=
  ∃ ac src dst, (g ac).type = .arraycopy ∧ src ∈ (g ac).edges ∧ ac ∈ (g dst).edges ∧
    RefersTo g src s ∧ RefersTo g dst b

/-- A field or an element of `b` may refer to `a`. -/
inductive Stored (a : ℕ) : ℕ → Prop
  | field {f b : ℕ} : (g f).type = .field → a ∈ (g f).edges → b ∈ (g f).bases → Stored a b
  | copied {s b : ℕ} : Stored a s → Copies g s b → Stored a b

/-- A heap object may refer to an object in the frame. -/
def HeapToStack (outcomes : List (ℕ × Outcome)) : Prop :=
  ∃ a b slot, a ≠ b ∧ IsAllocation g a ∧ IsAllocation g b ∧ Stored g a b ∧
    (a, .stack slot) ∈ outcomes ∧ (b, .heap) ∈ outcomes

/-- The candidates of step 4. -/
def Eligible (eligible : ℕ → Bool) (nonEscaped : List ℕ) (a : ℕ) : Prop :=
  a ∈ nonEscaped ∧ (g a).escapeState = .noEscape ∧ (g a).ideal = .allocate ∧ eligible a = true

/-- The objects that step 4 leaves marked: the largest set of eligible allocations whose
holders are null, scalar replaceable or in the set. -/
def StackAllocateable (eligible : ℕ → Bool) (nonEscaped : List ℕ) : ℕ → Prop :=
  Pruning.Survives (HoldersSupported g) (Eligible g eligible nonEscaped)

end

/-- What graph construction and `find_non_escaped_objects` leave. -/
structure CompletedGraph : Type where
  nodes : Nodes
  /-- `non_escaped_worklist` -/
  nonEscaped : List ℕ
  /-- `add_edge` records the edge and the use. -/
  mem_edges : ∀ n e, (nodes n).type ≠ .javaObject →
    (e ∈ (nodes n).edges ↔ .edge n ∈ (nodes e).uses)
  nonEscaped_javaObject : ∀ a ∈ nonEscaped, (nodes a).type = .javaObject
  nonEscaped_state : ∀ a ∈ nonEscaped,
    (nodes a).escapeState = .noEscape ∨ (nodes a).escapeState = .argEscape

/-! ## The marks

The marks are described as sets: the largest set of candidates whose holders support them, if step 4
is run, and what gets a unique type. The loops of the source compute these sets whatever their
order. -/

section

variable {g : Nodes} {eligible : ℕ → Bool}

/-- Step 4 asks for each object that may not escape whether it is eligible, and takes no other into
account. -/
theorem markEligible_isStackAllocateable (nonEscaped : List ℕ) (m : AllocMarks) (a : ℕ) :
    (markEligible g eligible nonEscaped m).isStackAllocateable a =
      if a ∈ nonEscaped ∧ (g a).escapeState ≠ .argEscape ∧ (g a).ideal = .allocate then eligible a
      else m.isStackAllocateable a := by
  induction nonEscaped generalizing m with
  | nil => simp [markEligible]
  | cons ptn rest ih =>
    rw [markEligible]
    by_cases hap : a = ptn
    · subst hap
      by_cases hesc : (g a).escapeState = .argEscape
      · simp [hesc, ih]
      · by_cases halloc : (g a).ideal = .allocate
        · simp [hesc, halloc, ih]
        · simp [hesc, halloc, ih]
    · split
      · rw [ih]
        simp [hap]
      · split
        · rw [ih]
          simp [hap]
        · rw [ih]
          simp [hap]

/-- The other marks stay. -/
theorem markEligible_others (nonEscaped : List ℕ) (m : AllocMarks) :
    (markEligible g eligible nonEscaped m).isReferenced = m.isReferenced ∧
      (markEligible g eligible nonEscaped m).isScalarReplaceable = m.isScalarReplaceable := by
  induction nonEscaped generalizing m with
  | nil => exact ⟨rfl, rfl⟩
  | cons ptn rest ih =>
    rw [markEligible]
    split
    · exact ih m
    · split
      · exact ih m
      · exact ih _

end

section

variable (G : CompletedGraph) (eligible : ℕ → Bool)

/-- The marks of step 4 before 4.1. -/
theorem marked_markEligible (a : ℕ) :
    Marked (markEligible G.nodes eligible G.nonEscaped .initial) a ↔
      Eligible G.nodes eligible G.nonEscaped a := by
  unfold Marked Eligible
  rw [markEligible_isStackAllocateable]
  constructor
  · intro h
    split at h
    · next hif =>
      obtain ⟨hmem, harg, halloc⟩ := hif
      exact ⟨hmem, (G.nonEscaped_state a hmem).resolve_right harg, halloc, h⟩
    · exact absurd h (by simp [AllocMarks.initial])
  · rintro ⟨hmem, hesc, halloc, helig⟩
    rw [if_pos ⟨hmem, by simp [hesc], halloc⟩]
    exact helig

/-- The marks after step 4: those of the largest supported set, unless the step is skipped. -/
structure StepFourMarks (o : StackAllocationOptions) (hasLocks : Bool) (m : AllocMarks) : Prop where
  marks : ∀ a, Marked m a ↔
    o.proceeds hasLocks = true ∧ StackAllocateable G.nodes eligible G.nonEscaped a
  referenced : ∀ a, Marked m a → (m.isReferenced a = true ↔ Held G.nodes a)

variable {G eligible}

/-- The loop leaves the largest supported set, and as referenced what is held in it. -/
theorem verifyLoop_marks {fuel : ℕ} {m : AllocMarks}
    (h : verifyLoop G.nodes G.nonEscaped fuel
      (markEligible G.nodes eligible G.nonEscaped .initial) = some m) :
    (∀ a, Marked m a ↔ StackAllocateable G.nodes eligible G.nonEscaped a) ∧
      ∀ a, Marked m a → (m.isReferenced a = true ↔ Held G.nodes a) := by
  have hcand : ∀ a, (markEligible G.nodes eligible G.nonEscaped .initial).isStackAllocateable a =
      true → a ∈ G.nonEscaped ∧ (G.nodes a).escapeState = .noEscape ∧
        (G.nodes a).ideal = .allocate := by
    intro a ha
    obtain ⟨hmem, hesc, halloc, -⟩ := (marked_markEligible G eligible a).1 ha
    exact ⟨hmem, hesc, halloc⟩
  have hstart : Marked (markEligible G.nodes eligible G.nonEscaped .initial) =
      Eligible G.nodes eligible G.nonEscaped :=
    funext fun a => propext (marked_markEligible G eligible a)
  have href : ReferencedHeld G.nodes (markEligible G.nodes eligible G.nonEscaped .initial) := by
    intro a ha
    rw [(markEligible_others _ _).1] at ha
    exact absurd ha (by simp [AllocMarks.initial])
  obtain ⟨hprunes, hsupp⟩ := verifyLoop_prunes h hcand
  obtain ⟨hheld, hreferenced⟩ := verifyLoop_referenced h href hcand
  rw [hstart] at hprunes
  refine ⟨hprunes.iff_survives holdersSupported_monotone hsupp, fun a ha => ?_⟩
  exact ⟨hheld a, hreferenced a ha⟩

variable (G eligible) in
/-- Step 4 always ends. -/
theorem stackAllocationAnalysis_terminates (o : StackAllocationOptions) (hasLocks : Bool) :
    ∃ m, stackAllocationAnalysis G.nodes eligible o hasLocks G.nonEscaped
      (G.nonEscaped.length + 1) = some m := by
  unfold stackAllocationAnalysis
  split
  · exact verifyLoop_terminates _ _ _ (Nat.lt_succ_of_le List.countP_le_length)
  · exact ⟨_, rfl⟩

/-- `split_unique_types` leaves the marks for the frame. -/
theorem splitUniqueTypes_marks (resultCast : ℕ → ResultCast) (l : List ℕ) (m : AllocMarks) :
    (splitUniqueTypes G.nodes resultCast l m).isStackAllocateable = m.isStackAllocateable ∧
      (splitUniqueTypes G.nodes resultCast l m).isReferenced = m.isReferenced := by
  induction l generalizing m with
  | nil => exact ⟨rfl, rfl⟩
  | cons ptn rest ih =>
    rw [splitUniqueTypes]
    split
    · exact ih m
    · split
      · exact ih _
      · exact ih m

variable (G eligible) in
/-- Steps 4 to 6 always end. -/
theorem computeMarks_terminates (o : StackAllocationOptions) (hasLocks : Bool)
    (resultCast : ℕ → ResultCast) :
    ∃ m, computeMarks G.nodes eligible o hasLocks G.nonEscaped resultCast
      (G.nonEscaped.length + 1) = some m := by
  obtain ⟨m, hm⟩ := stackAllocationAnalysis_terminates G eligible o hasLocks
  unfold computeMarks
  rw [hm]
  exact ⟨_, rfl⟩

/-- The loop of `split_unique_types` gives the allocation a unique type, and marks it for
removal. -/
structure GetsUniqueType (g : Nodes) (resultCast : ℕ → ResultCast) (a : ℕ) : Prop where
  escapeState : (g a).escapeState = .noEscape
  scalarReplaceable : (g a).scalarReplaceable = true
  allocate : (g a).ideal = .allocate
  unique : (resultCast a).isUnique = true

/-- `split_unique_types` is run and marks the allocation for removal. -/
structure SplitUnique (G : CompletedGraph) (o : StackAllocationOptions)
    (resultCast : ℕ → ResultCast) (a : ℕ) : Prop extends GetsUniqueType G.nodes resultCast a where
  eliminateAllocations : o.eliminateAllocations = true
  aliasLevel : 3 ≤ o.aliasLevel
  nonEscaped : a ∈ G.nonEscaped

/-- It marks for removal what gets a unique type. -/
theorem splitUniqueTypes_isScalarReplaceable (resultCast : ℕ → ResultCast) (l : List ℕ)
    (m : AllocMarks) (a : ℕ) :
    (splitUniqueTypes G.nodes resultCast l m).isScalarReplaceable a = true ↔
      m.isScalarReplaceable a = true ∨ a ∈ l ∧ GetsUniqueType G.nodes resultCast a := by
  induction l generalizing m with
  | nil => simp [splitUniqueTypes]
  | cons ptn rest ih =>
    have hskip : ¬ GetsUniqueType G.nodes resultCast ptn →
        (a ∈ ptn :: rest ∧ GetsUniqueType G.nodes resultCast a ↔
          a ∈ rest ∧ GetsUniqueType G.nodes resultCast a) := by
      intro hnot
      refine and_congr_left fun hget => List.mem_cons.trans (or_iff_right ?_)
      rintro rfl
      exact hnot hget
    rw [splitUniqueTypes]
    split
    · next hkeep =>
      rw [ih, hskip fun hget => ?_]
      simp [hget.escapeState, hget.scalarReplaceable] at hkeep
    · next hkeep =>
      split
      · next hunique =>
        have hget : GetsUniqueType G.nodes resultCast ptn := by
          simp only [Bool.or_eq_true, decide_eq_true_eq, Bool.not_eq_true', not_or, not_not,
            Bool.not_eq_false, Bool.and_eq_true] at hkeep hunique
          exact ⟨hkeep.1, hkeep.2, hunique.1, hunique.2⟩
        rw [ih]
        by_cases hap : a = ptn
        · subst hap
          simp [hget]
        · simp [hap]
      · next hunique =>
        rw [ih, hskip fun hget => hunique ?_]
        simp [hget.allocate, hget.unique]

/-- Nothing is marked for removal before. -/
theorem stackAllocationAnalysis_isScalarReplaceable {o : StackAllocationOptions} {hasLocks : Bool}
    {fuel : ℕ} {m : AllocMarks}
    (h : stackAllocationAnalysis G.nodes eligible o hasLocks G.nonEscaped fuel = some m) (a : ℕ) :
    m.isScalarReplaceable a = false := by
  unfold stackAllocationAnalysis at h
  split at h
  · rw [verifyLoop_isScalarReplaceable h, (markEligible_others _ _).2]
    rfl
  · obtain rfl := Option.some.inj h
    rfl

/-- The marks for removal that macro expansion sees. -/
theorem computeMarks_isScalarReplaceable {o : StackAllocationOptions} {hasLocks : Bool}
    {resultCast : ℕ → ResultCast} {fuel : ℕ} {m : AllocMarks}
    (h : computeMarks G.nodes eligible o hasLocks G.nonEscaped resultCast fuel = some m) (a : ℕ) :
    m.isScalarReplaceable a = true ↔ SplitUnique G o resultCast a := by
  obtain ⟨m₀, h₀, rfl⟩ := Option.map_eq_some_iff.1 h
  have hfalse := stackAllocationAnalysis_isScalarReplaceable h₀ a
  split
  · next hrun =>
    simp only [Bool.and_eq_true, decide_eq_true_eq] at hrun
    rw [splitUniqueTypes_isScalarReplaceable]
    simp only [hfalse, Bool.false_eq_true, false_or]
    constructor
    · rintro ⟨hmem, hget⟩
      exact ⟨hget, hrun.2, hrun.1.2, (List.mem_filter.1 hmem).1⟩
    · intro hsplit
      refine ⟨List.mem_filter.2 ⟨hsplit.nonEscaped, ?_⟩, hsplit.toGetsUniqueType⟩
      simp [hsplit.escapeState, hsplit.scalarReplaceable]
  · next hskip =>
    refine iff_of_false (by simp [hfalse]) fun hsplit => hskip ?_
    have hmem : a ∈ allocWorklist G.nodes G.nonEscaped := by
      refine List.mem_filter.2 ⟨hsplit.nonEscaped, ?_⟩
      simp [hsplit.escapeState, hsplit.scalarReplaceable]
    simp [List.length_pos_of_mem hmem, hsplit.aliasLevel, hsplit.eliminateAllocations]

/-- The marks after step 4, whether it is run or skipped. -/
theorem stackAllocationAnalysis_marks {o : StackAllocationOptions} {hasLocks : Bool} {fuel : ℕ}
    {m : AllocMarks}
    (h : stackAllocationAnalysis G.nodes eligible o hasLocks G.nonEscaped fuel = some m) :
    StepFourMarks G eligible o hasLocks m := by
  unfold stackAllocationAnalysis at h
  split at h
  · next hguard =>
    obtain ⟨hmarks, href⟩ := verifyLoop_marks h
    exact ⟨fun a => (hmarks a).trans (by simp [hguard]), href⟩
  · next hguard =>
    obtain rfl := Option.some.inj h
    have hnone : ∀ a, ¬ Marked .initial a := by simp [Marked, AllocMarks.initial]
    exact ⟨fun a => iff_of_false (hnone a) fun ha => hguard ha.1, fun a ha => absurd ha (hnone a)⟩

/-- The marks that macro expansion sees. -/
theorem computeMarks_marks {o : StackAllocationOptions} {hasLocks : Bool}
    {resultCast : ℕ → ResultCast} {fuel : ℕ} {m : AllocMarks}
    (h : computeMarks G.nodes eligible o hasLocks G.nonEscaped resultCast fuel = some m) :
    StepFourMarks G eligible o hasLocks m := by
  obtain ⟨m₀, h₀, rfl⟩ := Option.map_eq_some_iff.1 h
  have hm₀ := stackAllocationAnalysis_marks h₀
  split
  · obtain ⟨hsa, hr⟩ := splitUniqueTypes_marks (G := G) resultCast
      (allocWorklist G.nodes G.nonEscaped) m₀
    have hmarked : Marked (splitUniqueTypes G.nodes resultCast
        (allocWorklist G.nodes G.nonEscaped) m₀) = Marked m₀ := by
      funext a
      simp [Marked, hsa]
    constructor
    · rw [hmarked]
      exact hm₀.marks
    · rw [hmarked, hr]
      exact hm₀.referenced
  · exact hm₀

end

/-! ## Macro expansion

The slots that an allocation is given are those above the ones in use. If the estimate does not fail
there is room for every marked allocation when its turn comes; if it does, what others refer to is
not placed. -/

section

variable {o : StackAllocationOptions} {m : AllocMarks} {P : MacroPhase}

/-- The slots of the marked allocations. -/
def markedSlots (m : AllocMarks) (P : MacroPhase) (l : List ℕ) : ℕ :=
  (l.map fun a => if m.isStackAllocateable a then P.slots a else 0).sum

/-- What has failed stays so. -/
theorem estimateStackAllocationSize_fail (l : List ℕ) (slots : ℕ) :
    (estimateStackAllocationSize o m P l (true, slots)).1 = true := by
  induction l generalizing slots with
  | nil => rfl
  | cons a rest ih =>
    rw [estimateStackAllocationSize]
    split_ifs <;> exact ih _

/-- If nothing fails, every marked allocation can be placed and is counted. -/
theorem estimateStackAllocationSize_eq_false {l : List ℕ} {fail : Bool} {slots : ℕ}
    (h : (estimateStackAllocationSize o m P l (fail, slots)).1 = false) :
    (estimateStackAllocationSize o m P l (fail, slots)).2 = slots + markedSlots m P l ∧
      ∀ a ∈ l, m.isStackAllocateable a = true →
        (P.sizeOfObject a).isSome = true ∧ o.doStackAllocation = true := by
  induction l generalizing slots with
  | nil => exact ⟨rfl, by simp⟩
  | cons a rest ih =>
    rw [estimateStackAllocationSize] at h ⊢
    split_ifs at h ⊢ with hsr hcan hmark
    · exact absurd h (ne_of_eq_of_ne (estimateStackAllocationSize_fail rest slots) (by decide))
    · exact absurd h (ne_of_eq_of_ne (estimateStackAllocationSize_fail rest slots) (by decide))
    · obtain ⟨hslots, hall⟩ := ih h
      have hm : m.isStackAllocateable a = false := by simpa using hmark
      refine ⟨by simp [hslots, markedSlots, hm], ?_⟩
      rintro b (_ | ⟨_, hb⟩) hmb
      · exact absurd (hm.symm.trans hmb) (by decide)
      · exact hall b hb hmb
    · obtain ⟨hslots, hall⟩ := ih h
      have hm : m.isStackAllocateable a = true := by simpa using hmark
      refine ⟨by simp [hslots, markedSlots, hm]; omega, ?_⟩
      rintro b (_ | ⟨_, hb⟩) hmb
      · have hcan' : canStackAllocate o m P (P.hasResultCast a) a = true := by
          simpa [hm] using hcan
        simp only [canStackAllocate, Bool.and_eq_true] at hcan'
        exact ⟨hcan'.1.2, hcan'.2⟩
      · exact hall b hb hmb

/-- What becomes of one allocation. -/
def expandOne (o : StackAllocationOptions) (m : AllocMarks) (P : MacroPhase) (fail : Bool)
    (alloc fixedSlots : ℕ) : Outcome :=
  (stackAllocation o m P fail alloc fixedSlots).1.getD
    (if P.hasResultCastAtExpansion alloc then .heap else .unused)

/-- One allocation, and those after it with the slots that are left. -/
theorem expandAllocations_cons (fail : Bool) (a : ℕ) (rest : List ℕ) (s : ℕ) :
    expandAllocations o m P fail (a :: rest) s = (a, expandOne o m P fail a s) ::
      expandAllocations o m P fail rest (stackAllocation o m P fail a s).2 := by
  rw [expandAllocations, expandOne]
  split
  · next hs => rw [hs]; rfl
  · next hs => rw [hs]; rfl

/-- `stack_allocation` finds nothing that speaks against the frame. -/
structure Placeable (o : StackAllocationOptions) (m : AllocMarks) (P : MacroPhase) (fail : Bool)
    (alloc fixedSlots : ℕ) : Prop where
  can : canStackAllocate o m P (P.hasResultCastAtExpansion alloc) alloc = true
  reference : (fail && m.isReferenced alloc) = false
  representable : P.locationRepresentable (fixedSlots + P.slots alloc) = true

/-- Only a marked allocation is placed. -/
theorem Placeable.marked {fail : Bool} {a s : ℕ} (h : Placeable o m P fail a s) :
    m.isStackAllocateable a = true := by
  have := h.can
  simp only [canStackAllocate, Bool.and_eq_true] at this
  exact this.1.1.2

/-- What `stack_allocation` does. -/
theorem stackAllocation_cases (fail : Bool) (a s : ℕ) :
    (¬ Placeable o m P fail a s ∧ stackAllocation o m P fail a s = (none, s)) ∨
    (Placeable o m P fail a s ∧
      ((P.isYanked a = true ∧
          stackAllocation o m P fail a s = (some .yanked, s + P.slots a)) ∨
        stackAllocation o m P fail a s = (some (.stack s), s + P.slots a))) := by
  unfold stackAllocation
  cases hcan : canStackAllocate o m P (P.hasResultCastAtExpansion a) a with
  | false =>
    refine .inl ⟨fun h => ?_, by simp⟩
    exact absurd (hcan.symm.trans h.can) (by decide)
  | true =>
    cases href : fail && m.isReferenced a with
    | true =>
      refine .inl ⟨fun h => ?_, by simp⟩
      exact absurd (href.symm.trans h.reference) (by decide)
    | false =>
      cases hrep : P.locationRepresentable (s + P.slots a) with
      | false =>
        refine .inl ⟨fun h => ?_, by simp [hrep]⟩
        exact absurd (hrep.symm.trans h.representable) (by decide)
      | true =>
        refine .inr ⟨⟨hcan, href, hrep⟩, ?_⟩
        cases hyank : P.isYanked a with
        | false => exact .inr (by simp [hrep])
        | true => exact .inl ⟨rfl, by simp [hrep]⟩

/-- An allocation takes its slots at most, and none if it is not marked. -/
theorem stackAllocation_fixedSlots_le (fail : Bool) (a s : ℕ) :
    (stackAllocation o m P fail a s).2 ≤
      s + if m.isStackAllocateable a then P.slots a else 0 := by
  obtain ⟨-, heq⟩ | ⟨hp, ⟨-, heq⟩ | heq⟩ :=
    stackAllocation_cases (o := o) (m := m) (P := P) fail a s
  · rw [heq]
    exact Nat.le_add_right _ _
  · rw [heq, if_pos hp.marked]
  · rw [heq, if_pos hp.marked]

/-- The slots in use when an allocation is reached leave room for it and for all marked ones
after it. -/
theorem mem_expandAllocations {fail : Bool} {l : List ℕ} {s a : ℕ} {outcome : Outcome}
    (h : (a, outcome) ∈ expandAllocations o m P fail l s) :
    a ∈ l ∧ ∃ s', outcome = expandOne o m P fail a s' ∧
      s' + (if m.isStackAllocateable a then P.slots a else 0) ≤ s + markedSlots m P l := by
  induction l generalizing s with
  | nil => simp [expandAllocations] at h
  | cons b rest ih =>
    rw [expandAllocations_cons] at h
    obtain h | h := List.mem_cons.1 h
    · obtain ⟨rfl, rfl⟩ := Prod.mk.inj h
      refine ⟨List.mem_cons_self, s, rfl, ?_⟩
      simp [markedSlots]
    · obtain ⟨hmem, s', hout, hle⟩ := ih h
      refine ⟨List.mem_cons_of_mem _ hmem, s', hout, hle.trans ?_⟩
      have := stackAllocation_fixedSlots_le (o := o) (m := m) (P := P) fail b s
      simp only [markedSlots, List.map_cons, List.sum_cons]
      omega

/-- The allocations that are expanded are among those that the estimate has counted, and each is
expanded once. -/
theorem MacroPhase.markedSlots_order_le (P : MacroPhase) (m : AllocMarks) :
    markedSlots m P P.order ≤ markedSlots m P P.remaining := by
  have hsub : P.order.Subperm P.remaining := P.order_nodup.subperm P.order_subset
  obtain ⟨l, hperm, hsubl⟩ := hsub
  unfold markedSlots
  rw [← (hperm.map _).sum_eq]
  exact (hsubl.map _).sum_le_sum (by simp)

/-- What fits at a higher slot fits at a lower one. -/
theorem MacroPhase.locationRepresentable_mono {s t : ℕ} (hst : s ≤ t)
    (h : P.locationRepresentable t = true) : P.locationRepresentable s = true := by
  simp only [MacroPhase.locationRepresentable, decide_eq_true_eq] at h ⊢
  omega

/-- A placed object is marked, and not referenced if expansion gave up on references. -/
theorem expandOne_eq_stack {fail : Bool} {a s slot : ℕ}
    (h : expandOne o m P fail a s = .stack slot) : Placeable o m P fail a s := by
  unfold expandOne at h
  obtain ⟨-, heq⟩ | ⟨hp, -⟩ := stackAllocation_cases (o := o) (m := m) (P := P) fail a s
  · rw [heq] at h
    cases hres : P.hasResultCastAtExpansion a <;> simp [hres] at h
  · exact hp

/-- A heap object has uses, and could not be placed. -/
theorem expandOne_eq_heap {fail : Bool} {a s : ℕ} (h : expandOne o m P fail a s = .heap) :
    P.hasResultCastAtExpansion a = true ∧ ¬ Placeable o m P fail a s := by
  unfold expandOne at h
  obtain ⟨hp, heq⟩ | ⟨-, ⟨-, heq⟩ | heq⟩ :=
    stackAllocation_cases (o := o) (m := m) (P := P) fail a s
  · rw [heq] at h
    cases hres : P.hasResultCastAtExpansion a
    · simp [hres] at h
    · exact ⟨rfl, hp⟩
  · simp [heq] at h
  · simp [heq] at h

/-- When nothing fails, a marked object is not expanded to a heap allocation. -/
theorem marked_ne_heap {a : ℕ} (hfail : failWithReferences o m P = false) (ha : Marked m a)
    (hout : (a, .heap) ∈ expandMacroNodes o m P) : False := by
  unfold expandMacroNodes at hout
  simp only [failWithReferences, Bool.or_eq_false_iff] at hfail
  obtain ⟨hestimate, hfits⟩ := hfail
  obtain ⟨hslots, hall⟩ := estimateStackAllocationSize_eq_false hestimate
  obtain ⟨hmem, s', hheap, hle⟩ := mem_expandAllocations hout
  obtain ⟨hres, hnot⟩ := expandOne_eq_heap hheap.symm
  obtain ⟨hsize, hdo⟩ := hall a (P.order_subset hmem) ha
  have hmarked : m.isStackAllocateable a = true := ha
  refine hnot ⟨?_, ?_, ?_⟩
  · simp [canStackAllocate, hres, hmarked, hsize, hdo]
  · simp [failWithReferences, hestimate, hfits]
  · have horder := P.markedSlots_order_le m
    rw [if_pos hmarked] at hle
    refine P.locationRepresentable_mono ?_ (by simpa using hfits)
    rw [hslots]
    omega

end

/-! ## When no heap object refers to a stack object

An object in the frame with a holder in the heap needs a holder that was accepted and then not
placed. The condition excludes this by what the marks are, for given options and casts. -/

/-- The compilation of a graph: what is marked, and what macro expansion makes of it. -/
structure Compilation (G : CompletedGraph) (eligible : ℕ → Bool) : Type where
  options : StackAllocationOptions
  /-- `_has_locks` -/
  hasLocks : Bool
  resultCast : ℕ → ResultCast
  fuel : ℕ
  marks : AllocMarks
  computed : computeMarks G.nodes eligible options hasLocks G.nonEscaped resultCast fuel =
    some marks
  phase : MacroPhase

/-- What becomes of the allocations. -/
def Compilation.outcomes {G : CompletedGraph} {eligible : ℕ → Bool}
    (K : Compilation G eligible) : List (ℕ × Outcome) :=
  expandMacroNodes K.options K.marks K.phase

section

variable {G : CompletedGraph} {eligible : ℕ → Bool}

/-- An object that may be placed is found by a field that refers to it, and its holders are marked
for the frame or for removal. -/
def HoldersSafe (G : CompletedGraph) (eligible : ℕ → Bool) (o : StackAllocationOptions)
    (resultCast : ℕ → ResultCast) : Prop :=
  ∀ a b, a ≠ b → IsAllocation G.nodes a → IsAllocation G.nodes b →
    StackAllocateable G.nodes eligible G.nonEscaped a → Stored G.nodes a b →
    Held G.nodes a ∧
      (StackAllocateable G.nodes eligible G.nonEscaped b ∨ SplitUnique G o resultCast b)

/-- An allocation that is marked for removal and is still there makes the estimate fail. -/
theorem estimateStackAllocationSize_of_split {o : StackAllocationOptions} {m : AllocMarks}
    {P : MacroPhase} {b : ℕ} (hsr : m.isScalarReplaceable b = true)
    (hb : m.isStackAllocateable b = false) {l : List ℕ} (hmem : b ∈ l) (e : Bool × ℕ) :
    (estimateStackAllocationSize o m P l e).1 = true := by
  by_contra hfail
  rw [Bool.not_eq_true] at hfail
  induction l generalizing e with
  | nil => exact List.not_mem_nil hmem
  | cons a rest ih =>
    rw [estimateStackAllocationSize] at hfail
    rcases List.mem_cons.1 hmem with rfl | hmem
    · rw [if_pos (by simp [hsr, hb])] at hfail
      exact absurd hfail (ne_of_eq_of_ne (estimateStackAllocationSize_fail rest e.2) (by decide))
    · split_ifs at hfail <;> exact ih hmem _ hfail

/-- An object that is placed has no holder in the heap. -/
theorem HoldersSafe.not_heapToStack {o : StackAllocationOptions} {hasLocks : Bool}
    {resultCast : ℕ → ResultCast} {fuel : ℕ} {m : AllocMarks}
    (hm : computeMarks G.nodes eligible o hasLocks G.nonEscaped resultCast fuel = some m)
    (hsafe : o.proceeds hasLocks = true → HoldersSafe G eligible o resultCast) (P : MacroPhase) :
    ¬ HeapToStack G.nodes (expandMacroNodes o m P) := by
  rintro ⟨a, b, slot, hne, ha, hb, hstored, hstack, hheap⟩
  obtain ⟨hmarks, href⟩ := computeMarks_marks hm
  obtain ⟨-, s, hout, -⟩ := mem_expandAllocations hstack
  have hplace := expandOne_eq_stack hout.symm
  have hmarked : Marked m a := hplace.marked
  obtain ⟨hguard, ha'⟩ := (hmarks a).1 hmarked
  obtain ⟨hheld, hholder⟩ := hsafe hguard a b hne ha hb ha' hstored
  -- the object is referenced, so nothing has failed
  have hreferenced : m.isReferenced a = true := (href a hmarked).2 hheld
  have hfail : failWithReferences o m P = false := by
    have := hplace.reference
    simpa [hreferenced] using this
  have hnot : ¬ Marked m b := fun hmb => marked_ne_heap hfail hmb hheap
  have hsplit : SplitUnique G o resultCast b :=
    hholder.resolve_left fun hb' => hnot ((hmarks b).2 ⟨hguard, hb'⟩)
  have hsr := (computeMarks_isScalarReplaceable hm b).2 hsplit
  have hmb : m.isStackAllocateable b = false := by simpa [Marked] using hnot
  have hremaining : b ∈ P.remaining := P.order_subset (mem_expandAllocations hheap).1
  have hestimate :=
    estimateStackAllocationSize_of_split (o := o) (P := P) hsr hmb hremaining (false, 0)
  simp [failWithReferences, hestimate] at hfail

/-! ### The compilation that shows a defect

For a graph that does not meet the condition there is an expansion that goes wrong: two objects, of
which the held one is small and the frame has room for it alone. -/

/-- Scalar replacement is off. -/
def optionsNoElimination : StackAllocationOptions where
  doStackAllocation := true
  eliminateAllocations := false
  aliasLevel := 3
  eliminateLocks := true
  eliminateNestedLocks := true

/-- Two objects of 16 bytes, the first one expanded first; the frame has room for one. -/
def twoObjects (a b : ℕ) (hne : a ≠ b) : MacroPhase where
  remaining := [a, b]
  order := [a, b]
  order_subset := List.Subset.refl _
  order_nodup := by simp [hne]
  hasResultCast := fun _ => true
  hasResultCastAtExpansion := fun _ => true
  sizeOfObject := fun _ => some 16
  isYanked := fun _ => false
  fixedSlots := 503
  slotLimit := 512

variable {m : AllocMarks} {a b : ℕ} (hne : a ≠ b)

/-- The second object is not marked, for the frame or for removal. -/
theorem expandMacroNodes_unmarked {o : StackAllocationOptions} (hdo : o.doStackAllocation = true)
    (ha : m.isStackAllocateable a = true) (hb : m.isStackAllocateable b = false)
    (hsr : m.isScalarReplaceable b = false) :
    expandMacroNodes o m (twoObjects a b hne) = [(a, .stack 503), (b, .heap)] := by
  simp [expandMacroNodes, expandAllocations, stackAllocation, failWithReferences,
    estimateStackAllocationSize, canStackAllocate, MacroPhase.slots,
    MacroPhase.locationRepresentable, twoObjects, hdo, ha, hb, hsr]

/-- The first object is not referenced, and the second one does not fit after it. -/
theorem expandMacroNodes_unreferenced {o : StackAllocationOptions}
    (hdo : o.doStackAllocation = true) (ha : m.isStackAllocateable a = true)
    (href : m.isReferenced a = false) :
    expandMacroNodes o m (twoObjects a b hne) = [(a, .stack 503), (b, .heap)] := by
  cases hb : m.isStackAllocateable b <;> cases hrefb : m.isReferenced b <;>
  simp [expandMacroNodes, expandAllocations, stackAllocation, failWithReferences, canStackAllocate,
    MacroPhase.slots, MacroPhase.locationRepresentable, twoObjects, hdo, ha, href, hb, hrefb]

/-- With given options and result casts, the analysis ends, and no macro expansion leaves a heap
object that refers to a stack object exactly when step 4 is skipped, or each object that stays
marked is found by a field and its holders stay marked or are given a unique type. -/
theorem no_heapToStack_iff (G : CompletedGraph) (eligible : ℕ → Bool) (o : StackAllocationOptions)
    (hasLocks : Bool) (resultCast : ℕ → ResultCast) :
    ∃ m, computeMarks G.nodes eligible o hasLocks G.nonEscaped resultCast
        (G.nonEscaped.length + 1) = some m ∧
      ((∀ P : MacroPhase, ¬ HeapToStack G.nodes (expandMacroNodes o m P)) ↔
        (o.proceeds hasLocks = true → HoldersSafe G eligible o resultCast)) := by
  obtain ⟨m, hm⟩ := computeMarks_terminates G eligible o hasLocks resultCast
  refine ⟨m, hm, ?_, HoldersSafe.not_heapToStack hm⟩
  intro hall hguard a b hne ha hb hmarked hstored
  obtain ⟨hmarks, href⟩ := computeMarks_marks hm
  have hma : Marked m a := (hmarks a).2 ⟨hguard, hmarked⟩
  have hdo : o.doStackAllocation = true := by
    simp only [StackAllocationOptions.proceeds, Bool.and_eq_true] at hguard
    exact hguard.1
  have hbad : expandMacroNodes o m (twoObjects a b hne) ≠ [(a, .stack 503), (b, .heap)] := by
    intro hout
    refine hall (twoObjects a b hne) ⟨a, b, 503, hne, ha, hb, hstored, ?_, ?_⟩ <;> simp [hout]
  constructor
  · by_contra hheld
    have hunreferenced : m.isReferenced a = false := by
      simpa using fun h => hheld ((href a hma).1 h)
    exact hbad (expandMacroNodes_unreferenced hne hdo hma hunreferenced)
  · by_contra hholder
    rw [not_or] at hholder
    have hmb : m.isStackAllocateable b = false := by
      simpa [Marked] using fun h => hholder.1 ((hmarks b).1 h).2
    have hsr : m.isScalarReplaceable b = false := by
      simpa using fun h => hholder.2 ((computeMarks_isScalarReplaceable hm b).1 h)
    exact hbad (expandMacroNodes_unmarked hne hdo hma hmb hsr)

/-! ### A failing input

The object of node 2 is stored, by the initializing store of field 4, in the object of
node 3. Both are scalar replaceable, but the second is larger than
`StackAllocSizeLimit`. -/

/-- A graph of finitely many nodes. -/
def nodesOf (l : List PointsToNode) : Nodes :=
  fun n => l.getD n (blankNode .javaObject .other .noEscape)

/-- Edges and uses of a finite graph, checked. -/
theorem nodesOf_mem_edges (l : List PointsToNode)
    (hbound : ∀ n < l.length, ∀ e ∈ (nodesOf l n).edges, e < l.length)
    (huses : ∀ n < l.length, (nodesOf l n).type = .javaObject ∨ ∀ e < l.length,
      (e ∈ (nodesOf l n).edges ↔ .edge n ∈ (nodesOf l e).uses))
    (n e : ℕ) (hn : (nodesOf l n).type ≠ .javaObject) :
    e ∈ (nodesOf l n).edges ↔ .edge n ∈ (nodesOf l e).uses := by
  have hblank : ∀ k, l.length ≤ k → nodesOf l k = blankNode .javaObject .other .noEscape := by
    intro k hk
    simp [nodesOf, List.getElem?_eq_none hk]
  by_cases hnl : n < l.length
  · by_cases hel : e < l.length
    · exact (huses n hnl).resolve_left hn e hel
    · rw [hblank e (Nat.le_of_not_lt hel)]
      exact iff_of_false (fun he => hel (hbound n hnl e he)) (by simp [blankNode])
  · rw [hblank n (Nat.le_of_not_lt hnl)] at hn
    exact absurd rfl hn

/-- The nodes of the failing input. -/
def largeHolderNodes : List PointsToNode :=
  [{ blankNode .javaObject .other .globalEscape with scalarReplaceable := false },
   blankNode .javaObject .nullConP .noEscape,
   { blankNode .javaObject .allocate .noEscape with uses := [.edge 5, .edge 4] },
   { blankNode .javaObject .allocate .noEscape with edges := [4], uses := [.edge 6] },
   { blankNode .field .other .noEscape with
     edges := [5, 2], bases := [6, 3], offset := some 16, isOop := true },
   { blankNode .localVar .other .noEscape with edges := [2], uses := [.edge 4] },
   { blankNode .localVar .other .noEscape with edges := [3], uses := [.base 4] }]

/-- The graph of the failing input. -/
def largeHolder : CompletedGraph where
  nodes := nodesOf largeHolderNodes
  nonEscaped := [2, 3]
  mem_edges := nodesOf_mem_edges largeHolderNodes (by decide) (by decide)
  nonEscaped_javaObject := by decide
  nonEscaped_state := by decide

/-- The compilation of the failing input, scalar replacement being off. -/
def largeHolderCompilation : Compilation largeHolder (fun a => a = 2) where
  options := optionsNoElimination
  hasLocks := false
  resultCast := fun _ => .cast true true
  fuel := 3
  marks := (computeMarks largeHolder.nodes (fun a => a = 2) optionsNoElimination false [2, 3]
    (fun _ => .cast true true) 3).getD .initial
  computed := rfl
  phase :=
    { twoObjects 2 3 (by decide) with
      sizeOfObject := fun a => some (if a = 3 then 512 else 16)
      fixedSlots := 0 }

/-- The small object is placed in the frame, and the object that holds it is a heap object. -/
theorem heapToStack_largeHolder :
    HeapToStack largeHolder.nodes largeHolderCompilation.outcomes := by
  refine ⟨2, 3, 0, by decide, ⟨rfl, rfl⟩, ⟨rfl, rfl⟩, ?_, by decide, by decide⟩
  exact .field (f := 4) rfl (by decide) (by decide)

end

end StackAllocation
