import StackAllocation.LockElimination

/-!
# No lock on a stack object

Escape analysis, lock elimination and macro expansion put together: when the guard of
step 4 lets stack allocation proceed, no lock that is expanded to code can have an object
in the frame, exactly when each lock whose object may be an allocation with a mark is
covered (`locks_eliminated_iff`).
-/

namespace StackAllocation

/-- A compilation and its lock passes: what happens to the locks after escape analysis. -/
structure LockRun (G : CompletedGraph) (eligible : ℕ → Bool) (L : LockGraph)
    (o : StackAllocationOptions) : Type extends Compilation G eligible where
  options_eq : options = o
  hasLocks_eq : hasLocks = L.hasLocks
  /-- the locks in the order of the macro list -/
  order : List ℕ
  order_perm : order.Perm L.locks
  /-- the nodes that lock coarsening marks after escape analysis -/
  coarsenedLater : List ℕ
  /-- the index of the next new node -/
  unique : ℕ

section

variable {G : CompletedGraph} {eligible : ℕ → Bool} {L : LockGraph} {o : StackAllocationOptions}

/-- The locks that are expanded to code. -/
def LockRun.left (R : LockRun G eligible L o) : List ℕ :=
  eliminateMacroNodes L o R.order
    (lockState L G.nodes o G.nonEscaped R.coarsenedLater R.unique)

/-! ## The locks after escape analysis

Which locks are marked when the elimination starts. With the option on, `optimize_ideal_graph` marks
those whose object does not escape globally; locks that were coarsened have a mark of their own. -/

/-- What the lock passes start from. -/
theorem lockState_kind (hne : G.nonEscaped ≠ []) (later : List ℕ) (unique : ℕ) {l : ℕ}
    (hl : l ∈ L.locks) :
    (NonEsc L G.nodes o l ∧
      (lockState L G.nodes o G.nonEscaped later unique).kind l = .nonEscObj) ∨
    (¬ NonEsc L G.nodes o l ∧
      (lockState L G.nodes o G.nonEscaped later unique).kind l = coarsen later L.initialKind
        l) := by
  have hlen : G.nonEscaped.length > 0 := List.length_pos_of_ne_nil hne
  have hkind : L.initialKind l ≠ .nonEscObj := by
    unfold LockGraph.initialKind
    split <;> decide
  simp only [lockState, if_pos hlen, coarsen]
  by_cases h : NonEsc L G.nodes o l
  · obtain ⟨helim, hnot⟩ := h
    refine .inl ⟨⟨helim, hnot⟩, ?_⟩
    simp [optimizeIdealGraph, hl, hkind, helim, hnot]
  · refine .inr ⟨h, ?_⟩
    have hsame : optimizeIdealGraph L G.nodes o L.initialKind l = L.initialKind l := by
      unfold optimizeIdealGraph
      rw [if_neg]
      intro hand
      simp only [Bool.and_eq_true] at hand
      exact h ⟨hand.1.1.1, hand.2⟩
    rw [hsame]

/-- The invariant of the locks holds for the state that escape analysis leaves, by induction on what
happens after it. -/
theorem lockState_lockInv (hne : G.nonEscaped ≠ []) (later : List ℕ) (unique : ℕ) :
    LockInv L G.nodes o (lockState L G.nodes o G.nonEscaped later unique) where
  boxNode := rfl
  nonEsc l hl hn := by
    obtain ⟨-, hk⟩ | ⟨hnot, -⟩ := lockState_kind (o := o) hne later unique hl
    · exact .inl hk
    · exact absurd hn hnot
  nested_kind l hl hk := by
    obtain ⟨-, hk'⟩ | ⟨-, hk'⟩ := lockState_kind (o := o) hne later unique hl
    · exact absurd (hk.symm.trans hk') (by decide)
    · rw [hk'] at hk
      unfold coarsen LockGraph.initialKind at hk
      split_ifs at hk
  nonEscObj_kind l hl hk := by
    obtain ⟨hn, -⟩ | ⟨-, hk'⟩ := lockState_kind (o := o) hne later unique hl
    · exact .inl hn
    · rw [hk'] at hk
      unfold coarsen LockGraph.initialKind at hk
      split_ifs at hk
  eliminated l hl he := by simp [lockState] at he
  coarsened l hl hc := by
    obtain ⟨-, hk⟩ | ⟨-, hk⟩ := lockState_kind (o := o) hne later unique hl
    · rw [hk]
      decide
    · rw [hk]
      unfold coarsen LockGraph.initialKind
      simp [hc]

/-- Before any other lock is eliminated only those of objects that do not escape are marked. -/
theorem lockState_beforeNonEsc (hne : G.nonEscaped ≠ []) (unique : ℕ) :
    BeforeNonEsc L G.nodes o (lockState L G.nodes o G.nonEscaped [] unique) where
  nonEscObj l hl hk := by
    obtain ⟨hn, -⟩ | ⟨-, hk'⟩ := lockState_kind (o := o) hne [] unique hl
    · exact hn
    · rw [hk'] at hk
      unfold coarsen LockGraph.initialKind at hk
      split_ifs at hk
  eliminated b he := by simp [lockState] at he
  nested l hl he := by simp [lockState] at he
  coarsened l hl hk := by
    obtain ⟨-, hk'⟩ | ⟨-, hk'⟩ := lockState_kind (o := o) hne [] unique hl
    · exact absurd (hk.symm.trans hk') (by decide)
    · rw [hk'] at hk
      cases hc : L.isCoarsened l with
      | true => rfl
      | false => simp [coarsen, LockGraph.initialKind, hc] at hk

/-! ## Methods without locks

The guard of step 4 asks whether there are locks and whether they can be eliminated. Without locks
nothing can be left. -/

/-- A node may be what it is without its casts. -/
theorem mayBe_uncastPast {a : ℕ} (fuel : ℕ) {n : ℕ} (h : MayBe L.objNodes a n) :
    MayBe L.objNodes a (uncastPast L fuel n) := by
  induction fuel generalizing n with
  | zero => exact h
  | succ fuel ih =>
    rw [uncastPast]
    split
    · next x hx =>
      refine ih ?_
      cases h with
      | allocation h => rw [hx] at h; cases h
      | cast h hmay =>
        rw [hx] at h
        obtain rfl := ObjNode.cast.inj h
        exact hmay
      | phi h => rw [hx] at h; cases h
      | cmove₁ h => rw [hx] at h; cases h
      | cmove₂ h => rw [hx] at h; cases h
    · exact h

/-- Without `_has_locks`, no lock has an allocation as object. -/
theorem not_mayBe_of_not_hasLocks (h : L.hasLocks = false) {l : ℕ} (hl : l ∈ L.locks) (a : ℕ) :
    ¬ MayBe L.objNodes a (L.objNode l) := by
  have hlock : ∀ l ∈ L.locks, L.isLock l = true → ¬ MayBe L.objNodes a (L.objNode l) := by
    intro l hl his hmay
    have hmay' : MayBe L.objNodes a (L.uncast (L.objNode l)) := mayBe_uncastPast _ hmay
    have hno := List.any_eq_false.1 h l hl
    cases hnode : L.objNodes (L.uncast (L.objNode l)) with
    | parm => cases hmay' <;> simp_all
    | con => cases hmay' <;> simp_all
    | _ => simp [his, hnode] at hno
  intro hmay
  cases his : L.isLock l with
  | true => exact hlock l hl his hmay
  | false =>
    obtain ⟨l', hl', his', hmay'⟩ := L.unlock_paired l hl his a hmay
    exact hlock l' hl' his' hmay'

/-- When step 4 proceeds and an allocation may be locked, both kinds of lock elimination are
on. -/
theorem eliminateNestedLocks_of_mayBe (hguard : o.proceeds L.hasLocks = true) {l a : ℕ}
    (hl : l ∈ L.locks) (hmay : MayBe L.objNodes a (L.objNode l)) :
    o.eliminateNestedLocks = true := by
  cases hlocks : L.hasLocks with
  | false => exact absurd hmay (not_mayBe_of_not_hasLocks hlocks hl a)
  | true =>
    simp only [StackAllocationOptions.proceeds, hlocks, Bool.and_eq_true] at hguard
    simp at hguard
    exact hguard.2.2

/-! ## The result

What is left is a lock that no pass has marked. So all are eliminated exactly if each lock that may
have a marked allocation as its object is one that the passes mark in any order (`Covered`). -/

/-- An object that stays marked is on the worklist, so the worklist is not empty. -/
theorem StackAllocateable.nonEscaped_ne_nil {a : ℕ}
    (h : StackAllocateable G.nodes eligible G.nonEscaped a) : G.nonEscaped ≠ [] := by
  obtain ⟨hmem, -⟩ := Pruning.Survives.candidate h
  exact List.ne_nil_of_mem hmem

/-- A macro list with one allocation, which fits into the frame. -/
def oneObject (a : ℕ) : MacroPhase where
  remaining := [a]
  order := [a]
  order_subset := List.Subset.refl _
  order_nodup := by simp
  hasResultCast := fun _ => true
  hasResultCastAtExpansion := fun _ => true
  sizeOfObject := fun _ => some 16
  isYanked := fun _ => false
  fixedSlots := 0
  slotLimit := 512

/-- The only object is placed at the first slot. -/
theorem expandMacroNodes_oneObject {m : AllocMarks} {a : ℕ} (ho : o.doStackAllocation = true)
    (ha : m.isStackAllocateable a = true) :
    expandMacroNodes o m (oneObject a) = [(a, .stack 0)] := by
  simp [expandMacroNodes, expandAllocations, stackAllocation, failWithReferences,
    estimateStackAllocationSize, canStackAllocate, MacroPhase.slots,
    MacroPhase.locationRepresentable, oneObject, ho, ha]

/-- A placed object has a mark, and the guard of step 4 held. -/
theorem Compilation.placed (K : Compilation G eligible) {a slot : ℕ}
    (h : (a, .stack slot) ∈ K.outcomes) :
    K.options.proceeds K.hasLocks = true ∧
      StackAllocateable G.nodes eligible G.nonEscaped a := by
  obtain ⟨-, s, hout, -⟩ := mem_expandAllocations h
  have hmarked : Marked K.marks a := (expandOne_eq_stack hout.symm).marked
  exact ((computeMarks_marks K.computed).marks a).1 hmarked

/-- No lock that is left has a placed object as its object, exactly when each lock that may have
a marked one is covered. -/
theorem locks_eliminated_iff (G : CompletedGraph) (eligible : ℕ → Bool) (L : LockGraph)
    (o : StackAllocationOptions) :
    (∀ R : LockRun G eligible L o, ∀ l ∈ R.left, ∀ a slot,
      (a, .stack slot) ∈ R.toCompilation.outcomes → ¬ MayBe L.objNodes a (L.objNode l)) ↔
    (o.proceeds L.hasLocks = true → ∀ l ∈ L.locks, ∀ a,
      StackAllocateable G.nodes eligible G.nonEscaped a → MayBe L.objNodes a (L.objNode l) →
        Covered L G.nodes o l) := by
  constructor
  · intro hall hguard l hl a ha hmay
    have ho := eliminateNestedLocks_of_mayBe hguard hl hmay
    have hne := StackAllocateable.nonEscaped_ne_nil ha
    obtain ⟨order, hperm, hcovered⟩ := exists_order_covered ho
      (lockState_lockInv (L := L) (o := o) hne [] 0) (lockState_beforeNonEsc hne 0)
    refine hcovered l hl fun hregular => ?_
    obtain ⟨m, hm⟩ := computeMarks_terminates G eligible o L.hasLocks fun _ => .none
    have hmarked : Marked m a := ((computeMarks_marks hm).marks a).2 ⟨hguard, ha⟩
    have hdo : o.doStackAllocation = true := by
      simp only [StackAllocationOptions.proceeds, Bool.and_eq_true] at hguard
      exact hguard.1
    let R : LockRun G eligible L o :=
      { options := o, hasLocks := L.hasLocks, resultCast := fun _ => .none, fuel := _, marks := m,
        computed := hm, phase := oneObject a, options_eq := rfl, hasLocks_eq := rfl,
        order := order, order_perm := hperm, coarsenedLater := [], unique := 0 }
    have hleft : l ∈ R.left := by
      refine List.mem_filter.2 ⟨hperm.mem_iff.2 hl, ?_⟩
      simpa [LockKind.isEliminated] using hregular
    have hout : R.toCompilation.outcomes = [(a, .stack 0)] :=
      expandMacroNodes_oneObject hdo hmarked
    exact hall R l hleft a 0 (by simp [hout]) hmay
  · intro hcovered R l hleft a slot hplaced hmay
    obtain ⟨hguard, ha⟩ := R.toCompilation.placed hplaced
    rw [R.options_eq, R.hasLocks_eq] at hguard
    obtain ⟨hmem, hregular⟩ := List.mem_filter.1 hleft
    have hl : l ∈ L.locks := R.order_perm.mem_iff.1 hmem
    have ho := eliminateNestedLocks_of_mayBe hguard hl hmay
    have hs := lockState_lockInv (L := L) (o := o) (StackAllocateable.nonEscaped_ne_nil ha)
      R.coarsenedLater R.unique
    refine (hcovered hguard l hl a ha hmay).isEliminated ho hs R.order_perm hl ?_
    simpa [LockKind.isEliminated] using hregular

end

/-! ## A failing input

A `synchronized` block on an object that is allocated on one branch and loaded from a
static field on the other. -/

/-- The connection graph: the allocation, the loaded object, the cast of the allocation and the
`Phi` of both. -/
def mergedObjectNodes : List PointsToNode :=
  [{ blankNode .javaObject .other .globalEscape with scalarReplaceable := false },
   blankNode .javaObject .nullConP .noEscape,
   { blankNode .javaObject .allocate .noEscape with
     uses := [.edge 4, .edge 5], scalarReplaceable := false },
   { blankNode .javaObject .other .globalEscape with
     uses := [.edge 5], scalarReplaceable := false },
   { blankNode .localVar .other .noEscape with edges := [2], uses := [.edge 5] },
   { blankNode .localVar .other .noEscape with edges := [4, 3, 2] }]

/-- The connection graph of the failing input. -/
def mergedObject : CompletedGraph where
  nodes := nodesOf mergedObjectNodes
  nonEscaped := [2]
  mem_edges := nodesOf_mem_edges mergedObjectNodes (by decide) (by decide)
  nonEscaped_javaObject := by decide
  nonEscaped_state := by decide

/-- The `Lock` 20 and the `Unlock` 21 of the failing input. -/
def mergedObjectLocks : LockGraph where
  objNodes n :=
    if n = 10 then .allocation 2
    else if n = 11 then .cast 10
    else if n = 13 then .phi [11, 12]
    else .other
  ptnodeAdr n :=
    if n = 10 then some 2
    else if n = 11 then some 4
    else if n = 12 then some 3
    else if n = 13 then some 5
    else none
  locks := [20, 21]
  isLock l := l = 20
  objNode _ := 13
  boxNode _ := 15
  isCoarsened _ := false
  outs n := if n = 13 ∨ n = 15 then [20, 21] else []
  outs_locks n := by split <;> simp
  mem_outs_obj := by decide
  mem_outs_box := by decide
  unlock_paired _ _ _ _ hmay := ⟨20, by decide, by decide, hmay⟩
  stackSlot _ := 1
  monitors _ := [(13, 15)]
  stepOverGcBarrier n := n
  isSimpleLockRegion _ _ _ := (true, some 20)

/-- All options are on. -/
def optionsOn : StackAllocationOptions where
  doStackAllocation := true
  eliminateAllocations := true
  aliasLevel := 3
  eliminateLocks := true
  eliminateNestedLocks := true

/-- The compilation of the failing input. -/
def mergedObjectRun : LockRun mergedObject (fun a => a = 2) mergedObjectLocks optionsOn where
  options := optionsOn
  hasLocks := true
  resultCast := fun _ => .cast true true
  fuel := 2
  marks := (computeMarks mergedObject.nodes (fun a => a = 2) optionsOn true [2]
    (fun _ => .cast true true) 2).getD .initial
  computed := rfl
  phase := oneObject 2
  options_eq := rfl
  hasLocks_eq := by decide
  order := [20, 21]
  order_perm := List.Perm.refl _
  coarsenedLater := []
  unique := 40

/-- Both nodes of the monitor are left, and their object may be the one in the frame. -/
theorem lock_left_mergedObject :
    mergedObjectRun.left = [20, 21] ∧ (2, .stack 0) ∈ mergedObjectRun.toCompilation.outcomes ∧
      MayBe mergedObjectLocks.objNodes 2 (mergedObjectLocks.objNode 20) := by
  refine ⟨by decide, by decide, ?_⟩
  have hcast : MayBe mergedObjectLocks.objNodes 2 11 := .cast rfl (.allocation rfl)
  have hins : mergedObjectLocks.objNodes 13 = .phi [11, 12] := rfl
  exact .phi hins List.mem_cons_self hcast

end StackAllocation
