import StackAllocation.WriteBarriers
import StackAllocation.UserRemoval

/-!
# Post barriers without the test of the heap range

A post barrier compares the address that is stored to with the range of the card table before it
marks a card. `expand_barriers` replaces the first input of the comparison by zero where the barrier
is still registered, so the comparison folds. `process_barrier_node` finds it from the `CastP2X`:
with the card table by the addition of the offset of the range, with G1 by the region check. The
latter starts with the `CastP2X` of the address and that of the value, and a copy of either is
registered when a loop is copied.

So a barrier keeps its test if it is eliminated, or if the addresses of the objects flow to every
registered `CastP2X` from which the comparison is found (`ExpandedRun.checksKept_iff`). They do
where they flow plainly, without a conditional move and back from no other node than the base that
they were stored to, and where a comparison is found from no `CastP2X` but its own.
-/

namespace StackAllocation

/-- What `process_barrier_node` tells apart besides. -/
structure BarrierExpand : Type extends MacroExpand where
  /-- a projection of an `If` where the test holds -/
  isIfTrue : ℕ → Bool
  /-- a constant other than `byte_map_top_offset() - byte_map_bottom_offset()` -/
  isOtherSize : ℕ → Bool
  /-- `makecon(TypeX_ZERO)` -/
  zeroX : ℕ

namespace BarrierExpand

variable (M : BarrierExpand) (g : MacroGraph)

/-- A comparison with the size of the range, that was not changed before. -/
def rangeCheck (cmp : ℕ) : Option ℕ := do
  let size ← g.input cmp 2
  guard (g.op size = .con ∧ M.isOtherSize size = false)
  let off ← g.input cmp 1
  guard (off ≠ M.zeroX)
  return cmp

/-- `CardTableBarrierSetC2::process_barrier_node` -/
def processCardTableBarrier (node : ℕ) : Option ℕ := do
  guard (g.input node 0).isSome
  let addx ← M.findOutWith g node .addL
  let cmp ← M.uniqueOut g addx
  guard (g.op cmp = .cmp)
  M.rangeCheck g cmp

/-- The `Bool` of the comparison, from the region check or without one. -/
def boundCheck (node : ℕ) : Option ℕ :=
  match M.findOutWith g node .xorX with
  | some xorx => do
    let shift ← M.uniqueOut g xorx
    let cmpx ← M.uniqueOut g shift
    let bol ← M.uniqueOut g cmpx
    guard (g.op cmpx = .cmp ∧ g.op bol = .bool .ne)
    let iff ← M.uniqueOut g bol
    guard (g.op iff = .if_)
    let ifTrue ← (M.outs g iff).find? M.isIfTrue
    let iffCheck ← M.findOutWith g ifTrue .if_
    g.input iffCheck 1
  | none => do
    let addl ← M.findOutWith g node .addL
    let cmpx ← M.uniqueOut g addl
    let bol ← M.uniqueOut g cmpx
    guard (g.op cmpx = .cmp)
    return bol

/-- `G1BarrierSetC2::process_barrier_node` -/
def processG1Barrier (node : ℕ) : Option ℕ := do
  guard (g.input node 0).isSome
  let bol ← M.boundCheck g node
  guard (g.op bol = .bool .le)
  let cmp ← g.input bol 1
  guard (g.op cmp = .cmp)
  M.rangeCheck g cmp

/-- `process_barrier_node`: the comparison that loses its first input. -/
def processBarrierNode (node : ℕ) : Option ℕ :=
  match M.barrierSet with
  | .cardTable => M.processCardTableBarrier g node
  | .g1 => M.processG1Barrier g node

/-- A comparison with the size of the range, that still has its first input. -/
structure RangeTest (cmp : ℕ) : Prop where
  isCmp : g.op cmp = .cmp
  size : ∃ size, g.input cmp 2 = some size ∧ g.op size = .con ∧ M.isOtherSize size = false
  offset : ∃ off, g.input cmp 1 = some off ∧ off ≠ M.zeroX

/-- The nodes from a `CastP2X` to a comparison: the addition of the offset of the range, or with G1
the region check, behind which is the test of the range. -/
inductive LeadsTo : ℕ → ℕ → Prop
  | cardTable {cast addx cmp : ℕ} (hset : M.barrierSet = .cardTable)
    (haddx : M.findOutWith g cast .addL = some addx) (hcmp : M.uniqueOut g addx = some cmp) :
    LeadsTo cast cmp
  | g1Region {cast xorx shift cmpx bol iff ifTrue iffCheck le cmp : ℕ} (hset : M.barrierSet = .g1)
    (hxorx : M.findOutWith g cast .xorX = some xorx) (hshift : M.uniqueOut g xorx = some shift)
    (hcmpx : M.uniqueOut g shift = some cmpx) (hopx : g.op cmpx = .cmp)
    (hbol : M.uniqueOut g cmpx = some bol) (hne : g.op bol = .bool .ne)
    (hiff : M.uniqueOut g bol = some iff) (hopIff : g.op iff = .if_)
    (hifTrue : (M.outs g iff).find? M.isIfTrue = some ifTrue)
    (hcheck : M.findOutWith g ifTrue .if_ = some iffCheck) (hle : g.input iffCheck 1 = some le)
    (hop : g.op le = .bool .le) (hcmp : g.input le 1 = some cmp) : LeadsTo cast cmp
  | g1Address {cast addl cmpx le cmp : ℕ} (hset : M.barrierSet = .g1)
    (hxorx : M.findOutWith g cast .xorX = none) (haddl : M.findOutWith g cast .addL = some addl)
    (hcmpx : M.uniqueOut g addl = some cmpx) (hopx : g.op cmpx = .cmp)
    (hle : M.uniqueOut g cmpx = some le) (hop : g.op le = .bool .le)
    (hcmp : g.input le 1 = some cmp) : LeadsTo cast cmp

/-- A `CastP2X` with a control input, and the test of the range that belongs to it. -/
structure TestOf (cast cmp : ℕ) : Prop where
  control : (g.input cast 0).isSome
  leads : M.LeadsTo g cast cmp
  test : M.RangeTest g cmp

variable {M} {g} {cast cmp : ℕ}

/-! ## The comparisons that are found

The routine looks for the comparison downwards from the `CastP2X`, through nodes that it expects
there. What it returns is a test of the range that belongs to the `CastP2X`; it returns nothing if a
node on the way is another one. -/

/-- A comparison that is found is a test of the range, not changed before. -/
theorem rangeCheck_eq_some {cmp' : ℕ} :
    (g.op cmp = .cmp ∧ M.rangeCheck g cmp = some cmp') ↔ cmp' = cmp ∧ M.RangeTest g cmp := by
  simp only [rangeCheck, Option.bind_eq_bind, Option.bind_eq_some_iff, Option.guard_eq_some',
    Option.pure_def, Option.some.injEq, exists_const]
  constructor
  · rintro ⟨hop, size, hsize, hcon, off, hoff, hzero, rfl⟩
    exact ⟨rfl, hop, ⟨size, hsize, hcon⟩, ⟨off, hoff, hzero⟩⟩
  · rintro ⟨rfl, hop, ⟨size, hsize, hcon⟩, ⟨off, hoff, hzero⟩⟩
    exact ⟨hop, size, hsize, hcon, off, hoff, hzero, rfl⟩

/-- With the card table the test is found by the addition of the offset. -/
theorem processCardTableBarrier_eq_some (hset : M.barrierSet = .cardTable) :
    M.processCardTableBarrier g cast = some cmp ↔ M.TestOf g cast cmp := by
  simp only [processCardTableBarrier, Option.bind_eq_bind, Option.bind_eq_some_iff,
    Option.guard_eq_some', exists_const]
  constructor
  · rintro ⟨hcontrol, addx, haddx, cmp', hcmp', hrange⟩
    obtain ⟨rfl, htest⟩ := rangeCheck_eq_some.1 hrange
    exact ⟨hcontrol, .cardTable hset haddx hcmp', htest⟩
  · rintro ⟨hcontrol, hleads, htest⟩
    cases hleads with
    | cardTable _ haddx hcmp =>
      exact ⟨hcontrol, _, haddx, cmp, hcmp, rangeCheck_eq_some.2 ⟨rfl, htest⟩⟩
    | g1Region hset' => exact nomatch hset.symm.trans hset'
    | g1Address hset' => exact nomatch hset.symm.trans hset'

/-- The way to a test of the range, from the region check or without one. -/
theorem boundCheck_leadsTo (hset : M.barrierSet = .g1) :
    (∃ le, M.boundCheck g cast = some le ∧ g.op le = .bool .le ∧ g.input le 1 = some cmp) ↔
      M.LeadsTo g cast cmp := by
  constructor
  · rintro ⟨le, hbound, hop, hcmp⟩
    rw [boundCheck] at hbound
    split at hbound
    · next xorx hxorx =>
      simp only [Option.bind_eq_bind, Option.bind_eq_some_iff, Option.guard_eq_some',
        exists_const] at hbound
      obtain ⟨shift, hshift, cmpx, hcmpx, bol, hbol, hops, iff, hiff, hopIff, ifTrue, hifTrue,
        iffCheck, hcheck, hle⟩ := hbound
      exact .g1Region hset hxorx hshift hcmpx hops.1 hbol hops.2 hiff hopIff hifTrue hcheck hle hop
        hcmp
    · next hxorx =>
      simp only [Option.bind_eq_bind, Option.bind_eq_some_iff, Option.guard_eq_some', exists_const,
        Option.pure_def, Option.some.injEq] at hbound
      obtain ⟨addl, haddl, cmpx, hcmpx, bol, hbol, hopx, rfl⟩ := hbound
      exact .g1Address hset hxorx haddl hcmpx hopx hbol hop hcmp
  · intro hleads
    cases hleads with
    | cardTable hset' => exact nomatch hset.symm.trans hset'
    | g1Region _ hxorx hshift hcmpx hopx hbol hne hiff hopIff hifTrue hcheck hle hop hcmp =>
      refine ⟨_, ?_, hop, hcmp⟩
      simp only [boundCheck, hxorx, hshift, hcmpx, hbol, hopx, hne, hiff, hopIff, hifTrue, hcheck,
        Option.bind_eq_bind, Option.bind_some, and_self, guard_true, Option.pure_def, hle]
    | g1Address _ hxorx haddl hcmpx hopx hle hop hcmp =>
      refine ⟨_, ?_, hop, hcmp⟩
      simp only [boundCheck, hxorx, haddl, hcmpx, hle, hopx, Option.bind_eq_bind, Option.bind_some,
        guard_true, Option.pure_def]

/-- With G1 it is found by the region check, or without it. -/
theorem processG1Barrier_eq_some (hset : M.barrierSet = .g1) :
    M.processG1Barrier g cast = some cmp ↔ M.TestOf g cast cmp := by
  simp only [processG1Barrier, Option.bind_eq_bind, Option.bind_eq_some_iff, Option.guard_eq_some',
    exists_const]
  constructor
  · rintro ⟨hcontrol, le, hbound, hop, cmp', hcmp', hrange⟩
    obtain ⟨rfl, htest⟩ := rangeCheck_eq_some.1 hrange
    exact ⟨hcontrol, (boundCheck_leadsTo hset).1 ⟨le, hbound, hop, hcmp'⟩, htest⟩
  · rintro ⟨hcontrol, hleads, htest⟩
    obtain ⟨le, hbound, hop, hcmp⟩ := (boundCheck_leadsTo hset).2 hleads
    exact ⟨hcontrol, le, hbound, hop, cmp, hcmp, rangeCheck_eq_some.2 ⟨rfl, htest⟩⟩

/-- The comparison that `process_barrier_node` finds is the test that belongs to the `CastP2X`. -/
theorem processBarrierNode_eq_some :
    M.processBarrierNode g cast = some cmp ↔ M.TestOf g cast cmp := by
  rw [processBarrierNode]
  split
  · next hset => exact processCardTableBarrier_eq_some hset
  · next hset => exact processG1Barrier_eq_some hset

end BarrierExpand

/-- The allocations that are placed, and the graph at the end of macro expansion. -/
structure ExpandedRun : Type extends PlacementRun where
  expand : BarrierExpand
  graph : MacroGraph

namespace ExpandedRun

variable (R : ExpandedRun)

/-- `expand_barriers`: the comparisons that lose their first input. Each is looked up in the graph
that is left of macro expansion, as what is replaced belongs to no other comparison. -/
def expandBarriers : List ℕ := R.final.registered.filterMap (R.expand.processBarrierNode R.graph)

/-- The comparison of a post barrier. -/
def IsCheck (cast cmp : ℕ) : Prop :=
  R.graph.op cmp = .cmp ∧ ∃ off, R.graph.input cmp 1 = some off ∧ R.graph.op off = .addL ∧
    R.graph.input off 1 = some cast

/-- A barrier whose address may lie in an object in the frame is eliminated, or still has its
test. -/
def ChecksKept : Prop :=
  ∀ cast cmp, R.MayAddress cast → R.IsCheck cast cmp →
    cast ∈ R.final.eliminated ∨ cmp ∉ R.expandBarriers

/-- Every registered `CastP2X` to which a comparison belongs is one to which the address of an
object flows without a conditional move. -/
def AllSeen (cmp : ℕ) : Prop :=
  ∀ c ∈ R.registered, R.expand.TestOf R.graph c cmp → ∃ A ∈ R.placements, A.Sees c

/-- A barrier whose address may lie in an object is at the address itself for the first allocation
that it is seen by, or the test is not found from a `CastP2X` that is not seen. -/
def SeesAll : Prop :=
  ∀ cast cmp, R.MayAddress cast → R.IsCheck cast cmp →
    (∃ A, R.FirstDirect A cast) ∨ R.AllSeen cmp

/-- The address of an object that is placed flows plainly, where the barriers that are found
directly are eliminated, and these are on no way to another. A comparison belongs to one
`CastP2X`. -/
structure PlainFlows : Prop where
  plain : ∀ A ∈ R.placements, A.after.PlainFlow A.mayAlias A.res
  stays : ∀ A ∈ R.placements, ∀ cast, A.graph.MayAddress A.mayAlias A.res cast → ¬ A.Direct cast →
    A.after.kind cast = .castP2X ∧ A.after.MayAddress A.mayAlias A.res cast
  single : ∀ cast cmp, R.MayAddress cast → R.IsCheck cast cmp →
    ∀ c ∈ R.registered, R.expand.TestOf R.graph c cmp → c = cast

variable {R} {cast cmp c : ℕ}

/-! ## What stays of the tests

A test loses its first input if some registered `CastP2X` leads to it. So it stays if all of them
are taken off the register, which is what the walks over the uses of the allocations do. -/

/-- A test is kept if every registered `CastP2X` that it is found from is seen by an allocation:
only then is none of them registered in the end. -/
theorem not_mem_expandBarriers : cmp ∉ R.expandBarriers ↔ R.AllSeen cmp := by
  rw [expandBarriers, List.mem_filterMap, AllSeen]
  simp only [PlacementRun.mem_registered_final, BarrierExpand.processBarrierNode_eq_some]
  constructor
  · intro h c hc htest
    by_contra hnone
    exact h ⟨c, ⟨hc, fun A hA hsees => hnone ⟨A, hA, hsees⟩⟩, htest⟩
  · rintro h ⟨c, ⟨hc, hnone⟩, htest⟩
    obtain ⟨A, hA, hsees⟩ := h c hc htest
    exact hnone A hA hsees

/-- A barrier to which the address of an object flows plainly is seen. -/
theorem PlainFlows.sees (h : R.PlainFlows) {A : PlacedAllocation} (hA : A ∈ R.placements)
    (hmay : A.graph.MayAddress A.mayAlias A.res cast) : A.Sees cast := by
  by_cases hdirect : A.Direct cast
  · exact .inl hdirect
  · obtain ⟨hkind, hmay⟩ := h.stays A hA cast hmay hdirect
    obtain ⟨adr, hadr, hflows⟩ :=
      (h.plain A hA).flowsTo_mayAddress UseGraph.passesPointers_toBarrier hmay
    exact .inr ⟨hkind, adr, UseGraph.mem_ins_of_input hadr, hflows⟩

end ExpandedRun

/-! ## A conditional move

The address of a store is a `CMoveP` of a placed result and another object. The walk does not come
to it, its `CastP2X` stays registered, and the test is lost. -/

/-- The nodes of a store to a `CMoveP` (2) of the result of an allocation (1) and another object
(3). Its post barrier is a `CastP2X` (5) with the range check (8) and a card mark (13). -/
def storeNodes : List (NodeKind × MacroOp × List (Option ℕ)) :=
  [(.proj, .proj .parms false, []), (.checkCastPP, .checkCastPP, [none, some 0]),
    (.cMoveP, .other, [none, none, some 1, some 3]), (.other, .other, []), (.other, .other, []),
    (.castP2X, .castP2X, [some 4, some 2]), (.other, .con, []),
    (.other, .addL, [none, some 5, some 6]), (.other, .cmp, [none, some 7, some 6]),
    (.other, .bool .le, [none, some 8]), (.other, .if_, [some 4, some 9]),
    (.other, .uRShiftX, [none, some 5, some 6]), (.addP, .addP, [none, some 6, some 6, some 11]),
    (.other, .store, [some 10, none, some 12, some 6])]

def storeUseGraph : UseGraph :=
  .ofInputs (storeNodes.map fun node => (node.1, node.2.2)) (by decide) (by decide) (fun _ => false)
    fun _ => false

def storeGraph : MacroGraph where
  size := 14
  op n := (storeNodes.getD n (.other, .other, [])).2.1
  ins n := (storeNodes.getD n (.other, .other, [])).2.2
  top := 6
  ins_eq_nil n hn := by rw [List.getD_eq_default _ _ hn]

/-- The one allocation is placed once. -/
theorem storeResults_nodup : [1].Nodup := List.nodup_singleton 1

def storePlacement : PlacedAllocation where
  graph := storeUseGraph
  results := [1]
  nodup := storeResults_nodup
  results_lt := by decide
  mayAlias _ _ := true
  macroGraph := storeGraph
  ins_eq n := by
    have hmap : (storeNodes.map fun node => (node.1, node.2.2)).getD n (.other, []) =
        ((storeNodes.getD n (.other, .other, [])).1,
          (storeNodes.getD n (.other, .other, [])).2.2) :=
      List.getD_map storeNodes (.other, .other, []) fun node => (node.1, node.2.2)
    exact (congrArg Prod.snd hmap).symm
  after := storeUseGraph
  res := 1
  res_mem := List.mem_singleton_self 1
  res_lt := by decide

def storeExpand : BarrierExpand where
  barrierSet := .cardTable
  useCondCardMark := false
  outs := EliminatedAllocation.outsByIndex
  mem_outs := EliminatedAllocation.mem_outsByIndex
  ccEq := 6
  zero := 6
  markingOffset := 6
  alloc := 0
  resProj := 0
  res := 1
  isIfTrue _ := false
  isOtherSize _ := false
  zeroX := 4

def storeRun : ExpandedRun where
  registered := [5]
  nodup := by decide
  placements := [storePlacement]
  expand := storeExpand
  graph := storeGraph

end StackAllocation
