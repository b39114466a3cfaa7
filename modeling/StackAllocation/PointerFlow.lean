import StackAllocation.PointerUses

/-!
# Where the address of a stack object may flow

At macro expansion the results of some allocations become addresses in the frame. A node may hold
such an address if it is the result, a `Phi`, cast or conditional move of a node that may hold it,
or a load of a field that it may have been stored to. The store and the load may be of any object,
in the frame or in the heap, and of any nodes that may be this object: which stores and loads may be
of the same field is not said here.

The walks over the uses follow such a flow where it is plain. There is no conditional move of a node
that may hold the address, and a load that may give it back is made from the base of the store or
from a copy of this base.
-/

namespace StackAllocation

namespace UseGraph

variable (G : UseGraph)

/-- A node may hold the address of an object, which is called by the result of its allocation.
`mayAlias` tells which stores and loads may be of the same field. -/
inductive Holds (mayAlias : ℕ → ℕ → Bool) (r : ℕ) : ℕ → Prop
  | origin : Holds mayAlias r r
  | copy {n m : ℕ} (h : Holds mayAlias r n) (hm : (G.kind m).copies = true)
    (hn : some n ∈ (G.ins m).drop 1) : Holds mayAlias r m
  /-- stored to a field and loaded back -/
  | load {st v ld : ℕ} (h : Holds mayAlias r v) (hst : G.kind st = .storeP)
    (hv : G.input st 3 = some v) (hld : G.kind ld = .loadP) (hfield : mayAlias st ld = true) :
    Holds mayAlias r ld

/-- The address that a barrier gets may lie in an object: it may be the object, or the address of a
field of it. -/
def MayAddress (mayAlias : ℕ → ℕ → Bool) (r cast : ℕ) : Prop :=
  ∃ adr, G.input cast 1 = some adr ∧ (G.Holds mayAlias r adr ∨
    G.kind adr = .addP ∧ ∃ base, G.addpBase adr = some base ∧ G.Holds mayAlias r base)

/-- A node is a copy of another, by `Phi`s and casts. -/
def CopyOf (n m : ℕ) : Prop :=
  Relation.ReflTransGen (fun n m => (G.kind m).copies = true ∧ G.kind m ≠ .cMoveP ∧
    some n ∈ (G.ins m).drop 1) n m

/-- The address of an object flows without a conditional move, and is loaded from the base of the
store, or from a copy of it. -/
structure PlainFlow (mayAlias : ℕ → ℕ → Bool) (r : ℕ) : Prop where
  noMove : ∀ n m, G.Holds mayAlias r n → some n ∈ (G.ins m).drop 1 → G.kind m ≠ .cMoveP
  throughBase : ∀ st v ld, G.kind st = .storeP → G.input st 3 = some v → G.Holds mayAlias r v →
    G.kind ld = .loadP → mayAlias st ld = true →
    ∃ x y, G.storeBase st = some x ∧ G.storeBase ld = some y ∧ G.CopyOf x y

/-- The copies of a node, addresses of fields and loads are passed through. -/
structure PassesPointers (passes : NodeKind → Bool) : Prop where
  copies : ∀ k : NodeKind, k.copies = true → k ≠ .cMoveP → passes k = true
  addP : passes .addP = true
  loadP : passes .loadP = true

variable {G} {passes : NodeKind → Bool} {mayAlias : ℕ → ℕ → Bool} {r n m : ℕ}

/-- The walk for the safepoints passes all that a plain flow goes through. -/
theorem passesPointers_toSafepoint : PassesPointers NodeKind.toSafepoint where
  copies k hk hmove := by cases k <;> first | rfl | exact absurd rfl hmove | cases hk
  addP := rfl
  loadP := rfl

/-- So does the walk for the barriers. -/
theorem passesPointers_toBarrier : PassesPointers NodeKind.toBarrier where
  copies k hk hmove := by cases k <;> first | rfl | exact absurd rfl hmove | cases hk
  addP := rfl
  loadP := rfl

/-! ## A plain flow is followed

The cases of `Holds` are copies, loads and fields, and each is something that a walk passes through.
The only case that it does not is a conditional move, which a plain flow has none of; a load from
another base than that of the store is excluded as well. -/

/-- An address that flows to a node flows to its copies. -/
theorem FlowsTo.copyOf (hpasses : PassesPointers passes) (h : G.FlowsTo passes r n)
    (hcopy : G.CopyOf n m) : G.FlowsTo passes r m := by
  induction hcopy with
  | refl => exact h
  | tail _ hstep ih =>
    obtain ⟨hcopies, hmove, hn⟩ := hstep
    exact .use ih (List.mem_of_mem_drop hn) (hpasses.copies _ hcopies hmove)

/-- Up a chain of `AddP`s. -/
theorem FlowsTo.addpRoot (hpasses : PassesPointers passes) (depth : ℕ)
    (h : G.FlowsTo passes r (G.addpRoot depth n)) : G.FlowsTo passes r n := by
  induction depth generalizing n with
  | zero => exact h
  | succ depth ih =>
    rw [UseGraph.addpRoot] at h
    split at h
    · next hkind =>
      split at h
      · next a ha => exact .use (ih h) (mem_ins_of_input ha) (hkind ▸ hpasses.addP)
      · exact h
    · exact h

/-- From the base of an `AddP` to the address. -/
theorem FlowsTo.addpBase (hpasses : PassesPointers passes) {b : ℕ} (hkind : G.kind n = .addP)
    (hb : G.addpBase n = some b) (h : G.FlowsTo passes r b) : G.FlowsTo passes r n := by
  rw [UseGraph.addpBase] at hb
  split at hb
  · cases hb
  · next base hbase =>
    split at hb
    · obtain ⟨a, ha, hroot⟩ := Option.bind_eq_some_iff.1 hb
      dsimp only at hroot
      refine .use ?_ (mem_ins_of_input ha) (hkind ▸ hpasses.addP)
      refine FlowsTo.addpRoot hpasses (G.addpDepth a) ?_
      split at hroot
      · next hcast =>
        refine .use h (mem_ins_of_input hroot) ?_
        rw [hcast.1]
        exact hpasses.copies .checkCastPP rfl nofun
      · obtain rfl := Option.some.inj hroot
        exact h
    · obtain rfl := Option.some.inj hb
      exact .use h (mem_ins_of_input hbase) (hkind ▸ hpasses.addP)

/-- From the base of a load to the value that is loaded. -/
theorem FlowsTo.load (hpasses : PassesPointers passes) {ld y : ℕ} (hld : G.kind ld = .loadP)
    (hy : G.storeBase ld = some y) (h : G.FlowsTo passes r y) : G.FlowsTo passes r ld := by
  rw [storeBase] at hy
  split at hy
  · cases hy
  · next adr hadr =>
    split at hy
    · next hkind =>
      exact .use (h.addpBase hpasses hkind hy) (mem_ins_of_input hadr) (hld ▸ hpasses.loadP)
    · cases hy

/-- Where the flow is plain, every node that may hold the address is reached. -/
theorem PlainFlow.flowsTo (hplain : G.PlainFlow mayAlias r) (hpasses : PassesPointers passes)
    (h : G.Holds mayAlias r n) : G.FlowsTo passes r n := by
  induction h with
  | origin => exact .result
  | copy h hm hn ih =>
    exact .use ih (List.mem_of_mem_drop hn) (hpasses.copies _ hm (hplain.noMove _ _ h hn))
  | load h hst hv hld hfield ih =>
    obtain ⟨x, y, hx, hy, hcopy⟩ := hplain.throughBase _ _ _ hst hv h hld hfield
    have hbase : G.FlowsTo passes r x := .base ih hst hv hx
    exact (hbase.copyOf hpasses hcopy).load hpasses hld hy

/-- Then so is the address of a barrier that may lie in the object. -/
theorem PlainFlow.flowsTo_mayAddress (hplain : G.PlainFlow mayAlias r)
    (hpasses : PassesPointers passes) {cast : ℕ} (h : G.MayAddress mayAlias r cast) :
    ∃ adr, G.input cast 1 = some adr ∧ G.FlowsTo passes r adr := by
  obtain ⟨adr, hadr, hholds | ⟨hkind, base, hbase, hholds⟩⟩ := h
  · exact ⟨adr, hadr, hplain.flowsTo hpasses hholds⟩
  · exact ⟨adr, hadr, (hplain.flowsTo hpasses hholds).addpBase hpasses hkind hbase⟩

end UseGraph

/-- The graph at macro expansion. -/
structure PlacedGraph : Type where
  graph : UseGraph
  /-- the `result_cast()` of the allocations that are placed in the frame, in this order -/
  results : List ℕ
  nodup : results.Nodup
  results_lt : ∀ r ∈ results, r < graph.size
  /-- a store and a load may be of the same field -/
  mayAlias : ℕ → ℕ → Bool

namespace PlacedGraph

variable (P : PlacedGraph)

/-- A node may hold the address of an object that is placed. -/
def Holds (n r : ℕ) : Prop := P.graph.Holds P.mayAlias r n

/-- A field of `b` may hold the address of `r`. -/
def FieldHolds (b r : ℕ) : Prop :=
  ∃ st v x, P.graph.kind st = .storeP ∧ P.graph.input st 3 = some v ∧ P.Holds v r ∧
    P.graph.storeBase st = some x ∧ P.Holds x b

end PlacedGraph

end StackAllocation
