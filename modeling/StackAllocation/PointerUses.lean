import StackAllocation.Search
import Mathlib.Data.List.GetD
import Mathlib.Data.Nat.Notation

/-!
# Walks over the uses of an allocation's result

Macro expansion follows the result of an allocation that it places in the frame from user to user,
once to find the safepoints that have to describe the object
(`register_stack_allocated_object_with_safepoints`) and once to find the card marks that may see
its address (`process_write_barriers_on_stack_allocated_objects`). Both walks mark a node when they
take it from the worklist; they differ in the users that they follow.
-/

namespace StackAllocation

/-- The kinds of nodes that the walks tell apart. -/
inductive NodeKind : Type where
  /-- a `SafePoint` or a call, with a `JVMState` or without -/
  | safePoint (hasJvms : Bool)
  | phi
  | checkCastPP
  | castPP
  | cMoveP
  | encodeP
  | decodeN
  | proj
  | castP2X
  | mergeMem
  | memBar
  | storeP
  | loadP
  | addP
  /-- anything else -/
  | other
  deriving DecidableEq, Repr

/-- A node that is one of its inputs. -/
def NodeKind.copies : NodeKind → Bool
  | .phi | .checkCastPP | .castPP | .cMoveP | .encodeP | .decodeN => true
  | _ => false

/-- The nodes through which the safepoints of an object are looked for: the object and what is made
of its address, what is loaded, and the memory after a store; a conditional move is none of them. -/
def NodeKind.toSafepoint : NodeKind → Bool
  | .cMoveP | .safePoint _ | .other => false
  | _ => true

/-- The nodes through which the barriers of an object are looked for, a conditional move and the
memory after a store are none of them. -/
def NodeKind.toBarrier : NodeKind → Bool
  | .cMoveP | .castP2X | .mergeMem | .memBar | .storeP | .other => false
  | _ => true

/-- The nodes, their inputs and their users. -/
structure UseGraph : Type where
  /-- the nodes are numbered below this -/
  size : ℕ
  kind : ℕ → NodeKind
  /-- the inputs of a node, that of control first -/
  ins : ℕ → List (Option ℕ)
  outs : ℕ → List ℕ
  mem_outs : ∀ n m, m ∈ outs n ↔ some n ∈ ins m
  outs_lt : ∀ n, ∀ m ∈ outs n, m < size
  ins_lt : ∀ n m, some m ∈ ins n → m < size
  /-- `uncast()->is_top()` -/
  isTop : ℕ → Bool
  /-- a `CheckCastPP` of an oop to a raw pointer -/
  isRawCast : ℕ → Bool
  /-- how many `AddP`s are chained at most -/
  addpDepth : ℕ → ℕ
  addpDepth_lt : ∀ n a, kind n = .addP → (ins n)[2]? = some (some a) → addpDepth a < addpDepth n

namespace UseGraph

/-- A graph of finitely many nodes, from their inputs; no `AddP` is the address of another. -/
def ofInputs (l : List (NodeKind × List (Option ℕ)))
    (hlt : ∀ p ∈ l, ∀ i ∈ p.2, ∀ m ∈ i, m < l.length)
    (haddp : ∀ p ∈ l, p.1 = .addP → ∀ i ∈ p.2[2]?, ∀ a ∈ i, (l.getD a (.other, [])).1 ≠ .addP)
    (isTop isRawCast : ℕ → Bool) : UseGraph where
  size := l.length
  kind := fun n => (l.getD n (.other, [])).1
  ins := fun n => (l.getD n (.other, [])).2
  outs := fun n => (List.range l.length).filter fun m => some n ∈ (l.getD m (.other, [])).2
  mem_outs := by
    intro n m
    rw [List.mem_filter, List.mem_range, decide_eq_true_eq, and_iff_right_iff_imp]
    intro h
    by_contra hm
    rw [List.getD_eq_default _ _ (Nat.le_of_not_lt hm)] at h
    exact List.not_mem_nil h
  outs_lt := fun n m hm => List.mem_range.1 (List.mem_filter.1 hm).1
  ins_lt := by
    intro n m h
    by_cases hn : n < l.length
    · rw [List.getD_eq_getElem l _ hn] at h
      exact hlt _ (List.getElem_mem hn) _ h m rfl
    · rw [List.getD_eq_default _ _ (Nat.le_of_not_lt hn)] at h
      exact absurd h List.not_mem_nil
  isTop := isTop
  isRawCast := isRawCast
  addpDepth := fun n => if (l.getD n (.other, [])).1 = .addP then 1 else 0
  addpDepth_lt := by
    intro n a hkind ha
    by_cases hn : n < l.length
    · rw [List.getD_eq_getElem l _ hn] at hkind ha
      have hne := haddp _ (List.getElem_mem hn) hkind _ ha a rfl
      rw [List.getD_eq_getElem l _ hn, if_pos hkind, if_neg hne]
      exact Nat.one_pos
    · rw [List.getD_eq_default _ _ (Nat.le_of_not_lt hn)] at ha
      cases ha

variable (G : UseGraph)

/-- `in(i)`. -/
def input (n i : ℕ) : Option ℕ := ((G.ins n)[i]?).join

/-- Down a chain of `AddP`s by `in(AddPNode::Address)`. -/
def addpRoot : ℕ → ℕ → ℕ
  | 0, n => n
  | depth + 1, n =>
    if G.kind n = .addP then
      match G.input n 2 with
      | some a => addpRoot depth a
      | none => n
    else n

/-- The base of an `AddP` (`ConnectionGraph::get_addp_base`). -/
def addpBase (n : ℕ) : Option ℕ :=
  match G.input n 1 with
  | none => none
  | some base =>
    if G.isTop base then
      (G.input n 2).bind fun a =>
        let root := G.addpRoot (G.addpDepth a) a
        if G.kind root = .checkCastPP ∧ G.isRawCast root = true then G.input root 1 else some root
    else some base

/-- The base that a store is made to, if its address is an `AddP`. -/
def storeBase (use : ℕ) : Option ℕ :=
  match G.input use 2 with
  | none => none
  | some adr => if G.kind adr = .addP then G.addpBase adr else none

/-- The nodes that the address of an object flows to through nodes of some kinds: from a node to
what uses it, and from what is stored to the base of the store, whose fields it may be loaded
from. -/
inductive FlowsTo (passes : NodeKind → Bool) (r : ℕ) : ℕ → Prop
  | result : FlowsTo passes r r
  | use {n m : ℕ} (h : FlowsTo passes r n) (hn : some n ∈ G.ins m) (hm : passes (G.kind m) = true) :
    FlowsTo passes r m
  | base {st v x : ℕ} (h : FlowsTo passes r v) (hst : G.kind st = .storeP)
    (hv : G.input st 3 = some v) (hx : G.storeBase st = some x) : FlowsTo passes r x

/-- What `register_stack_allocated_object_with_safepoints` pushes for a user. -/
def pushSafepointUse (n use : ℕ) : List ℕ :=
  match G.kind use with
  | .phi | .checkCastPP | .encodeP | .decodeN | .proj | .castP2X | .mergeMem | .memBar | .castPP
  | .addP | .loadP => [use]
  | .storeP => if G.input use 3 = some n then use :: (G.storeBase use).toList else [use]
  | _ => []

/-- What `process_write_barriers_on_stack_allocated_objects` pushes for a user. -/
def pushBarrierUse (n use : ℕ) : List ℕ :=
  match G.kind use with
  | .phi | .checkCastPP | .encodeP | .decodeN | .safePoint _ | .proj | .castPP | .addP | .loadP =>
    [use]
  | .storeP => if G.input use 3 = some n then (G.storeBase use).toList else []
  | _ => []

/-- What is pushed for all users of a node. -/
def pushed (push : ℕ → ℕ → List ℕ) (n : ℕ) : List ℕ := (G.outs n).flatMap (push n)

/-- Enough steps for a walk. -/
def walkFuel (push : ℕ → ℕ → List ℕ) : ℕ :=
  ((List.range G.size).map fun n => (G.pushed push n).length).sum + 2

/-- The nodes that a walk takes from its worklist, in this order. -/
def walk (push : ℕ → ℕ → List ℕ) (res : ℕ) : List ℕ :=
  ((Search.collect (G.pushed push) (G.walkFuel push) [res] []).getD []).reverse

/-- The users of a node that are safepoints. -/
def safepointUses (n : ℕ) : List ℕ :=
  (G.outs n).filter fun use => decide (G.kind use = .safePoint true)

/-- `register_stack_allocated_object_with_safepoints`: the safepoints that are handed to
`handle_safepoint_for_stack_allocation`, each with the node that it uses. -/
def registered (res : ℕ) : List (ℕ × ℕ) :=
  (G.walk G.pushSafepointUse res).flatMap fun n => (G.safepointUses n).reverse.map fun s => (s, n)

/-- Its result, `found_non_direct_safepoint`. -/
def nonDirectSafepoint (res : ℕ) : Bool := (G.registered res).any fun r => r.2 != res

variable {G}

/-! ## What the walks reach

Both walks push users of some kinds, and for a store its base. What is pushed is again a node of the
graph, so the walk ends, and what it has taken is everything that these steps lead to. -/

/-- What is at an index of the inputs is an input. -/
theorem mem_ins_of_input {n i m : ℕ} (h : G.input n i = some m) : some m ∈ G.ins n :=
  List.mem_of_getElem? (Option.join_eq_some_iff.1 h)

/-- An input is a node of the graph. -/
theorem input_lt {n i m : ℕ} (h : G.input n i = some m) : m < G.size :=
  G.ins_lt n m (mem_ins_of_input h)

/-- So is the root of a chain of `AddP`s. -/
theorem addpRoot_lt {depth n : ℕ} (h : n < G.size) : G.addpRoot depth n < G.size := by
  induction depth generalizing n with
  | zero => exact h
  | succ depth ih =>
    rw [addpRoot]
    split
    · split
      · next a ha => exact ih (input_lt ha)
      · exact h
    · exact h

/-- And the base of an `AddP`. -/
theorem addpBase_lt {n b : ℕ} (h : G.addpBase n = some b) : b < G.size := by
  rw [addpBase] at h
  split at h
  · cases h
  · next base hbase =>
    split at h
    · obtain ⟨a, ha, h⟩ := Option.bind_eq_some_iff.1 h
      dsimp only at h
      split at h
      · exact input_lt h
      · obtain rfl := Option.some.inj h
        exact addpRoot_lt (input_lt ha)
    · obtain rfl := Option.some.inj h
      exact input_lt hbase

/-- And that of a store, so the walks stay in the graph. -/
theorem storeBase_lt {use b : ℕ} (h : G.storeBase use = some b) : b < G.size := by
  rw [storeBase] at h
  split at h
  · cases h
  · split at h
    · exact addpBase_lt h
    · cases h

/-- The specification of what a walk pushes: a user of a kind that it passes through, and the base
of a store, if the node is the value that is stored. -/
def Pushes (G : UseGraph) (push : ℕ → ℕ → List ℕ) (passes : NodeKind → Bool) : Prop :=
  ∀ n use m, m ∈ push n use ↔ m = use ∧ passes (G.kind use) = true ∨
    G.kind use = .storeP ∧ G.input use 3 = some n ∧ G.storeBase use = some m

/-- What the walk for the safepoints pushes: it passes all kinds of `NodeKind.toSafepoint` and no
conditional move. -/
theorem pushes_pushSafepointUse : G.Pushes G.pushSafepointUse NodeKind.toSafepoint := by
  intro n use m
  rw [pushSafepointUse]
  split
  case h_13 => cases hkind : G.kind use <;> simp_all [NodeKind.toSafepoint]
  case h_12 hkind =>
    by_cases hvalue : G.input use 3 = some n
    · simp [hkind, hvalue, NodeKind.toSafepoint]
    · simp [hkind, hvalue, NodeKind.toSafepoint]
  all_goals next hkind => simp [hkind, NodeKind.toSafepoint]

/-- What the walk for the barriers pushes. A store is not passed, but its base is pushed as well. -/
theorem pushes_pushBarrierUse : G.Pushes G.pushBarrierUse NodeKind.toBarrier := by
  intro n use m
  rw [pushBarrierUse]
  split
  case h_11 => cases hkind : G.kind use <;> simp_all [NodeKind.toBarrier]
  case h_10 hkind =>
    by_cases hvalue : G.input use 3 = some n
    · simp [hkind, hvalue, NodeKind.toBarrier]
    · simp [hkind, hvalue, NodeKind.toBarrier]
  all_goals next hkind => simp [hkind, NodeKind.toBarrier]

/-- What a walk reaches is what the address flows to through the kinds of nodes that it passes. -/
theorem reach_iff_flowsTo {push : ℕ → ℕ → List ℕ} {passes : NodeKind → Bool}
    (hpush : G.Pushes push passes) {r n : ℕ} :
    Search.Reach (G.pushed push) [r] n ↔ G.FlowsTo passes r n := by
  constructor
  · rintro ⟨r', hr', hpath⟩
    obtain rfl := List.mem_singleton.1 hr'
    induction hpath with
    | refl => exact .result
    | tail _ hm ih =>
      obtain ⟨use, huse, hm⟩ := List.mem_flatMap.1 hm
      obtain ⟨rfl, hpasses⟩ | ⟨hst, hv, hx⟩ := (hpush _ _ _).1 hm
      · exact .use ih ((G.mem_outs _ _).1 huse) hpasses
      · exact .base ih hst hv hx
  · intro h
    induction h with
    | result => exact ⟨r, List.mem_singleton_self r, .refl⟩
    | @use n m _ hn hm ih =>
      refine ih.step (List.mem_flatMap.2 ⟨m, (G.mem_outs n m).2 hn, ?_⟩)
      exact (hpush n m m).2 (.inl ⟨rfl, hm⟩)
    | @base st v x _ hst hv hx ih =>
      have hout : st ∈ G.outs v := (G.mem_outs v st).2 (mem_ins_of_input hv)
      exact ih.step (List.mem_flatMap.2 ⟨st, hout, (hpush v st x).2 (.inr ⟨hst, hv, hx⟩)⟩)

/-- A walk takes from its worklist what can be reached from the result by what it pushes. -/
theorem mem_walk {push : ℕ → ℕ → List ℕ} {passes : NodeKind → Bool} (hpush : G.Pushes push passes)
    {res : ℕ} (hres : res < G.size) (n : ℕ) :
    n ∈ G.walk push res ↔ Search.Reach (G.pushed push) [res] n := by
  have hnodes : ∀ k ∈ List.range G.size, ∀ m ∈ G.pushed push k, m ∈ List.range G.size := by
    intro k _ m hm
    obtain ⟨use, huse, hm⟩ := List.mem_flatMap.1 hm
    obtain ⟨rfl, -⟩ | ⟨-, -, hbase⟩ := (hpush k use m).1 hm
    · exact List.mem_range.2 (G.outs_lt k m huse)
    · exact List.mem_range.2 (storeBase_lt hbase)
  have hroots : ∀ k ∈ [res], k ∈ List.range G.size := fun k hk =>
    List.mem_range.2 (List.mem_singleton.1 hk ▸ hres)
  have hfuel : [res].length + Search.work (List.range G.size)
      (fun n => (G.pushed push n).length) [] < G.walkFuel push := by
    simp only [Search.work, walkFuel, List.not_mem_nil, if_false, List.length_singleton]
    omega
  obtain ⟨l, hl, hmem⟩ := Search.collect_eq hnodes hroots hfuel
  rw [walk, hl, Option.getD_some, List.mem_reverse]
  exact hmem n

/-- A safepoint is registered with the users of what is reached. -/
theorem mem_registered {res s n : ℕ} (hres : res < G.size) :
    (s, n) ∈ G.registered res ↔ Search.Reach (G.pushed G.pushSafepointUse) [res] n ∧
      s ∈ G.outs n ∧ G.kind s = .safePoint true := by
  rw [registered, List.mem_flatMap]
  constructor
  · rintro ⟨k, hk, hs⟩
    obtain ⟨s', hs', heq⟩ := List.mem_map.1 hs
    obtain ⟨rfl, rfl⟩ := Prod.mk.inj heq
    obtain ⟨huse, hkind⟩ := List.mem_filter.1 (List.mem_reverse.1 hs')
    exact ⟨(mem_walk pushes_pushSafepointUse hres k).1 hk, huse, of_decide_eq_true hkind⟩
  · rintro ⟨hreach, huse, hkind⟩
    refine ⟨n, (mem_walk pushes_pushSafepointUse hres n).2 hreach, List.mem_map.2 ⟨s, ?_, rfl⟩⟩
    exact List.mem_reverse.2 (List.mem_filter.2 ⟨huse, decide_eq_true hkind⟩)

end UseGraph

end StackAllocation
