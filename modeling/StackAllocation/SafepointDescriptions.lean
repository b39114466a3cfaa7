import StackAllocation.PointerFlow

/-!
# Describing stack objects at safepoints

For each allocation that is placed in the frame `register_stack_allocated_object_with_safepoints`
walks over the uses of its result, and gives every safepoint that it meets a `SafePointScalarObject`
of the object (`handle_safepoint_for_stack_allocation`); a safepoint that has the result itself in
its debug info gets the `SafePointScalarObject` in its place. So a later walk does not find a
safepoint through the result of an allocation that was placed before. The graph is that after the
barriers of the allocations are removed.

A safepoint describes an object exactly if the address flows to an input of it without a conditional
move (`SafepointGraph.mem_described_registerAll`). What a safepoint may hold and does not describe
came there in another way: through a conditional move, by a load from another node than the base of
the store, or from a slot that is replaced already (`SafepointGraph.safepointsDescribed_iff`).
-/

namespace StackAllocation

/-- An input of a safepoint in its debug info: a local, an expression stack slot, the object of a
monitor or a field of a scalar replaced object. -/
inductive DebugSlot : Type where
  /-- null or top -/
  | empty
  | node (n : ℕ)
  /-- a `SafePointScalarObject` that is marked as stack allocated -/
  | scalarObject (res : ℕ)
  deriving DecidableEq

/-- A graph with the inputs of its safepoints. -/
structure SafepointGraph : Type extends PlacedGraph where
  /-- control, memory and arguments -/
  others : ℕ → List (Option ℕ)
  /-- the debug info, from `debug_start()` to `debug_end()` -/
  slots : ℕ → List (Option ℕ)
  ins_eq : ∀ s, graph.kind s = .safePoint true → graph.ins s = others s ++ slots s

/-- What the safepoints are given. -/
structure DescriptionState : Type where
  debug : ℕ → List DebugSlot
  /-- the objects that a safepoint has a `SafePointScalarObject` of -/
  described : ℕ → List ℕ

namespace SafepointGraph

variable (P : SafepointGraph) (S : DescriptionState)

/-- Before any allocation is placed. -/
def initialState : DescriptionState where
  debug s := (P.slots s).map fun slot => (slot.map DebugSlot.node).getD .empty
  described _ := []

/-- A safepoint uses a node. -/
def UsesNode (s n : ℕ) : Prop := some n ∈ P.others s ∨ .node n ∈ S.debug s

instance (s n : ℕ) : Decidable (P.UsesNode S s n) := inferInstanceAs (Decidable (_ ∨ _))

/-- The safepoints with a `JVMState` that use a node. -/
def safepointUses (n : ℕ) : List ℕ :=
  (P.graph.outs n).filter fun s => decide (P.graph.kind s = .safePoint true ∧ P.UsesNode S s n)

/-- `handle_safepoint_for_stack_allocation` -/
def handleSafepoint (res parent : ℕ) (S : DescriptionState) (s : ℕ) : DescriptionState where
  described s' :=
    if s' = s ∧ res ∉ S.described s then S.described s' ++ [res] else S.described s'
  debug s' :=
    if parent = res ∧ s' = s then
      (S.debug s').map fun slot => if slot = .node res then .scalarObject res else slot
    else S.debug s'

/-- The safepoints that use a node. -/
def registerUses (res : ℕ) (S : DescriptionState) (n : ℕ) : DescriptionState :=
  (P.safepointUses S n).reverse.foldl (handleSafepoint res n) S

/-- `register_stack_allocated_object_with_safepoints` -/
def registerStackAllocated (S : DescriptionState) (res : ℕ) : DescriptionState :=
  (P.graph.walk P.graph.pushSafepointUse res).foldl (P.registerUses res) S

/-- All allocations that are placed. -/
def registerAll : DescriptionState := P.results.foldl P.registerStackAllocated P.initialState

/-- Every object that a safepoint's debug info may hold, or a field of an object that it describes,
is described by it. -/
def SafepointsDescribed : Prop :=
  ∀ s r, P.graph.kind s = .safePoint true → r ∈ P.results →
    (∃ n, some n ∈ P.slots s ∧ P.Holds n r) ∨ (∃ b ∈ P.registerAll.described s, P.FieldHolds b r) →
    r ∈ P.registerAll.described s

/-- The allocations that are placed before. -/
def earlier (r : ℕ) : List ℕ := P.results.takeWhile fun r' => r' != r

/-- A node that a safepoint still has as an input when an object is placed: it is no debug slot with
the result of an allocation that is placed before. -/
def KeepsInput (s r n : ℕ) : Prop := some n ∈ P.others s ∨ some n ∈ P.slots s ∧ n ∉ P.earlier r

/-- The address of an object flows to an input of a safepoint, without a conditional move. -/
def Sees (s r : ℕ) : Prop :=
  ∃ n, P.graph.FlowsTo NodeKind.toSafepoint r n ∧ P.KeepsInput s r n

/-- An object in a debug slot, or in a field of an object that a safepoint sees, is one that it
sees. -/
def SeesAll : Prop :=
  ∀ s r, P.graph.kind s = .safePoint true → r ∈ P.results →
    (∃ n, some n ∈ P.slots s ∧ P.Holds n r) ∨ (∃ b ∈ P.results, P.Sees s b ∧ P.FieldHolds b r) →
    P.Sees s r

/-- No address goes through a conditional move. What is loaded back is loaded from the base of its
store or from a copy of it, which is also what a safepoint has that sees the object stored to. A
debug slot is not replaced before all is placed that it may hold. -/
structure PlainFlows : Prop where
  plain : ∀ r ∈ P.results, P.graph.PlainFlow P.mayAlias r
  slot : ∀ s n, P.graph.kind s = .safePoint true → some n ∈ P.slots s → ∀ r ∈ P.results,
    P.Holds n r → n ∉ P.earlier r
  stored : ∀ s b st v x, P.graph.kind s = .safePoint true → b ∈ P.results → P.Sees s b →
    P.graph.kind st = .storeP → P.graph.input st 3 = some v → P.graph.storeBase st = some x →
    P.Holds x b → ∀ r ∈ P.results, P.Holds v r → ∃ n, P.graph.CopyOf x n ∧ P.KeepsInput s r n

variable {P} {S} {res parent s s' n m r : ℕ}

/-! ## One safepoint

A safepoint gets the description once, however often it is met. If the result itself is among its
debug info, it is replaced, and then the safepoint is no user of the result. -/

/-- A safepoint that is handled describes the object, once. -/
theorem mem_described_handleSafepoint :
    r ∈ (handleSafepoint res parent S s).described s' ↔ r ∈ S.described s' ∨ s' = s ∧ r = res := by
  rw [handleSafepoint]
  dsimp only
  split
  · next h =>
    rw [List.mem_append, List.mem_singleton, and_iff_right h.1]
  · next h =>
    refine ⟨.inl, fun hr => hr.elim id ?_⟩
    rintro ⟨rfl, rfl⟩
    by_contra hnot
    exact h ⟨rfl, hnot⟩

/-- Its debug info keeps all nodes but the result itself, which the `SafePointScalarObject`
replaces; that is done only where the safepoint is found through the result. -/
theorem mem_debug_handleSafepoint :
    .node m ∈ (handleSafepoint res parent S s).debug s' ↔
      .node m ∈ S.debug s' ∧ ¬ (parent = res ∧ s' = s ∧ m = res) := by
  rw [handleSafepoint]
  dsimp only
  split
  · next h =>
    rw [List.mem_map]
    constructor
    · rintro ⟨slot, hslot, heq⟩
      split at heq
      · cases heq
      · next hne =>
        subst heq
        exact ⟨hslot, fun hm => hne (hm.2.2 ▸ rfl)⟩
    · rintro ⟨hm, hne⟩
      exact ⟨.node m, hm, if_neg fun heq => hne ⟨h.1, h.2, DebugSlot.node.inj heq⟩⟩
  · next h =>
    exact ⟨fun hm => ⟨hm, fun hall => h ⟨hall.1, hall.2.1⟩⟩, fun hm => hm.1⟩

/-- All safepoints that use a node. -/
theorem mem_described_handleAll {l : List ℕ} :
    r ∈ (l.foldl (handleSafepoint res parent) S).described s ↔
      r ∈ S.described s ∨ s ∈ l ∧ r = res := by
  induction l generalizing S with
  | nil => simp
  | cons s₀ l ih =>
    rw [List.foldl_cons, ih, mem_described_handleSafepoint, List.mem_cons]
    tauto

/-- What they keep of their debug info. -/
theorem mem_debug_handleAll {l : List ℕ} :
    .node m ∈ (l.foldl (handleSafepoint res parent) S).debug s ↔
      .node m ∈ S.debug s ∧ ¬ (parent = res ∧ s ∈ l ∧ m = res) := by
  induction l generalizing S with
  | nil => simp
  | cons s₀ l ih =>
    rw [List.foldl_cons, ih, mem_debug_handleSafepoint, List.mem_cons]
    tauto

/-! ## One walk

The walk goes over the nodes that the address flows to, and all safepoints that use one of them are
handled. Only uses of the result itself are replaced on the way. -/

/-- The debug info has no node that is not an input. -/
def Within (P : SafepointGraph) (S : DescriptionState) : Prop :=
  ∀ s n, .node n ∈ S.debug s → some n ∈ P.slots s

/-- The users of a node that are safepoints: with the debug info as it is now, not as it was in the
graph. -/
theorem mem_safepointUses (hS : P.Within S) (hs : P.graph.kind s = .safePoint true) :
    s ∈ P.safepointUses S n ↔ P.UsesNode S s n := by
  rw [safepointUses, List.mem_filter, decide_eq_true_eq]
  refine ⟨fun h => h.2.2, fun h => ⟨?_, hs, h⟩⟩
  rw [P.graph.mem_outs, P.ins_eq s hs, List.mem_append]
  exact h.imp_right (hS s n)

/-- Nothing is added to the debug info but descriptions. -/
theorem Within.registerUses (hS : P.Within S) : P.Within (P.registerUses res S n) := fun s m hm =>
  hS s m (mem_debug_handleAll.1 hm).1

/-- The safepoints that use a node describe the object. -/
theorem mem_described_registerUses (hS : P.Within S) (hs : P.graph.kind s = .safePoint true) :
    r ∈ (P.registerUses res S n).described s ↔
      r ∈ S.described s ∨ P.UsesNode S s n ∧ r = res := by
  rw [registerUses, mem_described_handleAll, List.mem_reverse, mem_safepointUses hS hs]

/-- They lose the result, if the node is the result. -/
theorem mem_debug_registerUses (hS : P.Within S) (hs : P.graph.kind s = .safePoint true) :
    .node m ∈ (P.registerUses res S n).debug s ↔
      .node m ∈ S.debug s ∧ ¬ (n = res ∧ m = res) := by
  rw [registerUses, mem_debug_handleAll, List.mem_reverse, mem_safepointUses hS hs]
  constructor
  · rintro ⟨hm, hne⟩
    refine ⟨hm, ?_⟩
    rintro ⟨rfl, rfl⟩
    exact hne ⟨rfl, .inr hm, rfl⟩
  · rintro ⟨hm, hne⟩
    exact ⟨hm, fun h => hne ⟨h.1, h.2.2⟩⟩

/-- The nodes of a walk. What a safepoint loses is the result, where it is described. -/
theorem registerNodes_spec {l : List ℕ} (hS : P.Within S) (hs : P.graph.kind s = .safePoint true) :
    P.Within (l.foldl (P.registerUses res) S) ∧
      (∀ r, r ∈ (l.foldl (P.registerUses res) S).described s ↔
        r ∈ S.described s ∨ (∃ n ∈ l, P.UsesNode S s n) ∧ r = res) ∧
      ∀ m, .node m ∈ (l.foldl (P.registerUses res) S).debug s ↔
        .node m ∈ S.debug s ∧ ¬ (res ∈ l ∧ m = res) := by
  induction l generalizing S with
  | nil => simp [hS]
  | cons n l ih =>
    obtain ⟨hwithin, hdescribed, hdebug⟩ := ih hS.registerUses
    refine ⟨hwithin, fun r => ?_, fun m => ?_⟩
    · have hkeeps : ∀ m, P.UsesNode (P.registerUses res S n) s m ∨ P.UsesNode S s n ↔
          P.UsesNode S s m ∨ P.UsesNode S s n := by
        intro m
        unfold UsesNode
        rw [mem_debug_registerUses hS hs]
        by_cases hm : n = res ∧ m = res
        · obtain ⟨rfl, rfl⟩ := hm
          tauto
        · tauto
      rw [List.foldl_cons, hdescribed, mem_described_registerUses hS hs]
      constructor
      · rintro ((hr | ⟨hn, rfl⟩) | ⟨⟨m, hm, huse⟩, rfl⟩)
        · exact .inl hr
        · exact .inr ⟨⟨n, List.mem_cons_self, hn⟩, rfl⟩
        · obtain huse | hn := (hkeeps m).1 (.inl huse)
          · exact .inr ⟨⟨m, List.mem_cons_of_mem n hm, huse⟩, rfl⟩
          · exact .inr ⟨⟨n, List.mem_cons_self, hn⟩, rfl⟩
      · rintro (hr | ⟨⟨m, hm, huse⟩, rfl⟩)
        · exact .inl (.inl hr)
        · obtain rfl | hm := List.mem_cons.1 hm
          · exact .inl (.inr ⟨huse, rfl⟩)
          · obtain huse | hn := (hkeeps m).2 (.inl huse)
            · exact .inr ⟨⟨m, hm, huse⟩, rfl⟩
            · exact .inl (.inr ⟨hn, rfl⟩)
    · rw [List.foldl_cons, hdebug, mem_debug_registerUses hS hs, List.mem_cons, and_assoc,
        and_congr_right_iff]
      intro _
      by_cases hn : n = res
      · subst hn
        tauto
      · have hn' : res ≠ n := Ne.symm hn
        tauto

/-- One walk: a safepoint describes the object if it uses a node that the walk reaches, and the
result is in no debug info any more. It is the first node of the walk, so a safepoint that has only
the result is found before it loses it. -/
theorem registerStackAllocated_spec (hres : res < P.graph.size) (hS : P.Within S)
    (hs : P.graph.kind s = .safePoint true) :
    P.Within (P.registerStackAllocated S res) ∧
      (∀ r, r ∈ (P.registerStackAllocated S res).described s ↔ r ∈ S.described s ∨
        (∃ n, Search.Reach (P.graph.pushed P.graph.pushSafepointUse) [res] n ∧ P.UsesNode S s n) ∧
          r = res) ∧
      ∀ m, .node m ∈ (P.registerStackAllocated S res).debug s ↔ .node m ∈ S.debug s ∧ m ≠ res := by
  have hwalk := UseGraph.mem_walk UseGraph.pushes_pushSafepointUse hres
  have hmem : res ∈ P.graph.walk P.graph.pushSafepointUse res :=
    (hwalk res).2 ⟨res, List.mem_singleton.2 rfl, .refl⟩
  obtain ⟨hwithin, hdescribed, hdebug⟩ :=
    @registerNodes_spec P S res s (P.graph.walk P.graph.pushSafepointUse res) hS hs
  refine ⟨hwithin, fun r => ?_, fun m => ?_⟩
  · rw [registerStackAllocated, hdescribed]
    simp only [hwalk]
  · rw [registerStackAllocated, hdebug, and_congr_right_iff]
    exact fun _ => ⟨fun h hm => h ⟨hmem, hm⟩, fun h hall => h hall.2⟩

/-! ## All walks

The allocations are placed in turn, so a walk finds what the earlier ones have left of the debug
info. A safepoint whose only use of an object was a result that has been replaced is still found if
it uses another node that the address flows to. -/

/-- Before the first walk the debug info has its inputs. -/
theorem mem_debug_initialState : .node m ∈ P.initialState.debug s ↔ some m ∈ P.slots s := by
  rw [initialState, List.mem_map]
  constructor
  · rintro ⟨slot, hslot, heq⟩
    cases slot with
    | none => cases heq
    | some n =>
      cases heq
      exact hslot
  · exact fun h => ⟨some m, h, rfl⟩

/-- The allocations that are left, when those of `done` are placed. -/
theorem mem_described_registerRest {l done : List ℕ} (hl : ∀ r ∈ l, r < P.graph.size)
    (hnodup : l.Nodup) (hS : P.Within S) (hs : P.graph.kind s = .safePoint true)
    (hdebug : ∀ m, .node m ∈ S.debug s ↔ some m ∈ P.slots s ∧ m ∉ done) :
    r ∈ (l.foldl P.registerStackAllocated S).described s ↔ r ∈ S.described s ∨ r ∈ l ∧
      ∃ n, Search.Reach (P.graph.pushed P.graph.pushSafepointUse) [r] n ∧
        (some n ∈ P.others s ∨ some n ∈ P.slots s ∧ n ∉ done ++ l.takeWhile fun r' => r' != r) := by
  induction l generalizing S done with
  | nil => simp
  | cons r₀ l ih =>
    obtain ⟨hwithin, hdescribed, hdebug₀⟩ :=
      registerStackAllocated_spec (hl r₀ List.mem_cons_self) hS hs
    obtain ⟨hnot, hnodup⟩ := List.nodup_cons.1 hnodup
    have hdebug' : ∀ m, .node m ∈ (P.registerStackAllocated S r₀).debug s ↔
        some m ∈ P.slots s ∧ m ∉ done ++ [r₀] := by
      intro m
      rw [hdebug₀, hdebug, List.mem_append, List.mem_singleton]
      tauto
    have huse : ∀ n, P.UsesNode S s n ↔ some n ∈ P.others s ∨ some n ∈ P.slots s ∧ n ∉ done :=
      fun n => or_congr_right (hdebug n)
    rw [List.foldl_cons, ih (fun r hr => hl r (List.mem_cons_of_mem r₀ hr)) hnodup hwithin hdebug',
      hdescribed]
    by_cases heq : r = r₀
    · subst heq
      simp only [huse, hnot, List.takeWhile_cons, bne_self_eq_false, Bool.false_eq_true, if_false,
        List.append_nil, List.mem_cons_self, and_true, true_and, false_and, or_false]
    · have hne : (r₀ != r) = true := bne_iff_ne.2 (Ne.symm heq)
      simp only [heq, and_false, or_false, List.mem_cons, false_or, List.takeWhile_cons, hne,
        if_true,
        List.append_assoc, List.singleton_append]

theorem within_initialState : P.Within P.initialState := fun _ _ h => mem_debug_initialState.1 h

/-- The safepoints that describe an object. -/
theorem mem_described_registerAll (hs : P.graph.kind s = .safePoint true) :
    r ∈ P.registerAll.described s ↔ r ∈ P.results ∧ P.Sees s r := by
  have hdebug : ∀ m, .node m ∈ P.initialState.debug s ↔ some m ∈ P.slots s ∧ m ∉ ([] : List ℕ) :=
    fun m => by simp [mem_debug_initialState]
  have hnone : r ∉ P.initialState.described s := List.not_mem_nil
  rw [registerAll, mem_described_registerRest P.results_lt P.nodup within_initialState hs hdebug,
    or_iff_right hnone, and_congr_right_iff]
  intro _
  refine exists_congr fun n => and_congr_left fun _ => ?_
  exact UseGraph.reach_iff_flowsTo UseGraph.pushes_pushSafepointUse

/-- An object that a debug slot may hold is seen, where its address flows plainly. -/
theorem PlainFlows.sees_of_slot (h : P.PlainFlows) (hs : P.graph.kind s = .safePoint true)
    (hr : r ∈ P.results) (hslot : some n ∈ P.slots s) (hholds : P.Holds n r) : P.Sees s r := by
  have hflows := (h.plain r hr).flowsTo UseGraph.passesPointers_toSafepoint hholds
  exact ⟨n, hflows, .inr ⟨hslot, h.slot s n hs hslot r hr hholds⟩⟩

/-- So is an object that is stored to an object that is seen. -/
theorem PlainFlows.sees_of_field (h : P.PlainFlows) (hs : P.graph.kind s = .safePoint true)
    {b : ℕ} (hb : b ∈ P.results) (hsees : P.Sees s b) (hr : r ∈ P.results)
    (hfield : P.FieldHolds b r) : P.Sees s r := by
  obtain ⟨st, v, x, hst, hv, hvr, hx, hxb⟩ := hfield
  obtain ⟨n, hcopy, hkeeps⟩ := h.stored s b st v x hs hb hsees hst hv hx hxb r hr hvr
  have hpasses := UseGraph.passesPointers_toSafepoint
  have hvalue := (h.plain r hr).flowsTo hpasses hvr
  have hbase : P.graph.FlowsTo NodeKind.toSafepoint r x := .base hvalue hst hv hx
  exact ⟨n, hbase.copyOf hpasses hcopy, hkeeps⟩

end SafepointGraph

/-! ## A conditional move

A `CMoveP` with the result of a placed allocation for an input and a safepoint that has it as a
local. The walk does not pass it, and the safepoint does not describe the object. -/

/-- The result of an allocation (1) and another object (3) go to a `CMoveP` (2), which is a local of
a safepoint (4). -/
def cMoveInputs : List (NodeKind × List (Option ℕ)) :=
  [(.proj, []), (.checkCastPP, [none, some 0]), (.cMoveP, [none, none, some 1, some 3]),
    (.other, []),
    (.safePoint true, [none, some 2])]

def cMoveGraph : SafepointGraph where
  graph := .ofInputs cMoveInputs (by decide) (by decide) (fun _ => false) fun _ => false
  results := [1]
  nodup := by decide
  results_lt := by decide
  mayAlias _ _ := true
  others _ := [none]
  slots s := if s = 4 then [some 2] else []
  ins_eq := by
    intro s h
    match s with
    | 0 => cases h
    | 1 => cases h
    | 2 => cases h
    | 3 => cases h
    | 4 => rfl
    | _ + 5 => cases h

end StackAllocation
