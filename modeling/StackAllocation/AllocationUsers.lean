import StackAllocation.NodeGraph

/-!
# Removing the users of an eliminated allocation

When an allocation has been scalar replaced, `process_users_of_allocation` removes what
still uses its result: stores to its fields, array copies into it, and the card marks and
region checks of the garbage collector, which start with a `CastP2X` of the object or of a
field's address. Then `eliminate_unused_allocation_edges` removes the `Initialize` node.

Each loop takes the last use of a node, lets a routine for its kind remove it, and moves
its index down by the number of uses that are gone. So the index stays at the last use,
and a turn that removes nothing is repeated forever. The loops are modelled as a machine
that makes one turn at a time (`step`).

The graph changes by `PhaseIterGVN::replace_node` and `remove_dead_node` only. The order
of the uses of a node is arbitrary (`outs`). Stack allocation is enabled, and the result has its
projection and a cast of it: without a cast there is the last loop only, without the projection
none.
-/

namespace StackAllocation

/-! ## The graph

The nodes are known by number. What the routines look at is the operation of a node and its inputs;
the operations that they do not tell apart are `other`. The users of a node come in an arbitrary
order, and the last one is the one that the loops look at. -/

/-- `BoolTest::mask`, as far as it is tested. -/
inductive BoolMask : Type where
  | ne | le | other
  deriving DecidableEq, Repr

/-- The projections of a call or memory barrier, in the order of its inputs. -/
inductive TypeFunc : Type where
  | control | iO | memory | parms
  deriving DecidableEq, Repr

/-- What a node is. -/
inductive MacroOp : Type where
  | checkCastPP | addP | store | loadB | load | castP2X | uRShiftX | xorX | addL | cmp
  | bool (test : BoolMask)
  | if_ | ifFalse | region | threadLocal | con
  /-- an `ArrayCopy`; `cloneBasic` is `is_clonebasic()` -/
  | arrayCopy (cloneBasic : Bool)
  /-- a projection, with `_con` and `_is_io_use` -/
  | proj (con : TypeFunc) (isIoUse : Bool)
  | catch_
  /-- a projection of a `Catch`, to where the call returns or where it throws -/
  | catchProj (fallThrough : Bool)
  | memBar | initializeNode | other
  deriving DecidableEq, Repr

namespace MacroOp

/-- `is_CFG()`. -/
def isCFG : MacroOp → Bool
  | if_ | ifFalse | region | arrayCopy _ | proj .control _ | catch_ | catchProj _ | memBar
  | initializeNode => true
  | _ => false

/-- A node whose uses are counted here: a pointer, an integer made of one, or what is
removed through its projections. -/
def isTracked : MacroOp → Bool
  | checkCastPP | addP | castP2X | uRShiftX | addL | arrayCopy _ | initializeNode
  | proj .parms _ => true
  | _ => false

/-- The inputs for control, I/O and memory that replace a node or its projections. -/
def effectInputs : MacroOp → List ℕ
  | store => [1]
  | arrayCopy _ | memBar | initializeNode => [0, 1, 2]
  | _ => []

end MacroOp

/-- A graph of the optimizer. -/
abbrev MacroGraph := NodeGraph MacroOp

/-- The barrier set. -/
inductive BarrierSetC2 : Type where
  | cardTable | g1
  deriving DecidableEq, Repr

/-- `PhaseMacroExpand` at an allocation that was accepted. -/
structure MacroExpand : Type where
  barrierSet : BarrierSetC2
  /-- `UseCondCardMark` -/
  useCondCardMark : Bool
  /-- the nodes that use a node, in the order of its uses -/
  outs : MacroGraph → ℕ → List ℕ
  mem_outs : ∀ g n m, m ∈ outs g n ↔ g.Reads m n
  /-- `makecon(TypeInt::CC_EQ)` -/
  ccEq : ℕ
  /-- `intcon(0)` -/
  zero : ℕ
  /-- `MakeConX(satb_mark_queue_active_offset)` -/
  markingOffset : ℕ
  /-- the allocation -/
  alloc : ℕ
  /-- `_resproj`, its result -/
  resProj : ℕ
  /-- `result_cast()` -/
  res : ℕ

/-- Where the loops are. -/
inductive Phase : Type where
  /-- at the uses of the result -/
  | users
  /-- at the uses of an `AddP`; `oc1` is the number of uses of the result before -/
  | fields (use oc1 : ℕ)
  /-- at the uses of the result projection -/
  | projection
  | done
  deriving DecidableEq, Repr

/-- The graph, the `CastP2X` nodes that are registered as barriers
(`BarrierSetC2State`), and the place in the loops. -/
structure RemovalState : Type where
  graph : MacroGraph
  barriers : List ℕ
  phase : Phase

namespace MacroExpand

variable (M : MacroExpand)

/-- `last_out`. -/
def lastOut (g : MacroGraph) (n : ℕ) : Option ℕ := (M.outs g n).getLast?

/-- `find_out_with`. -/
def findOutWith (g : MacroGraph) (n : ℕ) (op : MacroOp) : Option ℕ :=
  (M.outs g n).find? fun m => g.op m = op

/-- `unique_out`, which requires that there is one use. -/
def uniqueOut (g : MacroGraph) (n : ℕ) : Option ℕ :=
  if g.uses n = 1 then (M.outs g n).head? else none

/-- `unique_ctrl_out`. -/
def uniqueCtrlOut (g : MacroGraph) (n : ℕ) : Option ℕ :=
  (M.outs g n).find? fun m => (g.op m).isCFG

/-- `proj_out_or_null`. -/
def projOut (g : MacroGraph) (n : ℕ) (con : TypeFunc) : Option ℕ :=
  M.findOutWith g n (.proj con false)

/-! ## The barrier sets

Both barrier sets have an `eliminate_gc_barrier` that is given a `CastP2X`. With the card table it
removes the card mark and folds the range check. With G1 it folds the region check and, where a
pre-barrier stands in front, the check of the marking flag; the barrier of a clone has the check of
the card only. A `CastP2X` that is not registered as a potential barrier is left alone. -/

/-- The loop over the uses of a card's address, from the last of `k` on. -/
def removeCardMarks (addp : ℕ) : ℕ → MacroGraph → Option MacroGraph
  | 0, g => some g
  | k + 1, g => do
    let mem ← M.lastOut g addp
    if M.useCondCardMark = true ∧ g.op mem = .loadB then
      removeCardMarks addp k (g.replaceNode mem M.zero)
    else if g.op mem = .store then do
      let memory ← g.input mem 1
      removeCardMarks addp k (g.replaceNode mem memory)
    else none

/-- What `CardTableBarrierSetC2::eliminate_gc_barrier` does for a registered barrier. -/
def removeCardTableBarrier (g : MacroGraph) (node : ℕ) : Option MacroGraph := do
  let shift ← M.findOutWith g node .uRShiftX
  let addp ← M.uniqueOut g shift
  let g ← M.removeCardMarks addp (g.uses addp) g
  let addl ← M.findOutWith g node .addL
  let cmp ← M.uniqueOut g addl
  guard (g.op cmp = .cmp)
  return g.replaceNode cmp M.ccEq

/-- The search for the "if (marking != 0)" check of a G1 pre barrier. -/
def preBarrierCmp (g : MacroGraph) (region : ℕ) : Option ℕ := do
  guard (g.op region = .region ∧ (g.ins region).length = 3)
  let first ← g.input region 1
  let ifFalse ← if g.op first = .ifFalse then some first else g.input region 2
  guard (g.op ifFalse = .ifFalse)
  let iff ← g.input ifFalse 0
  guard (g.op iff = .if_)
  let bol ← g.input iff 1
  let cmpx ← g.input bol 1
  guard (g.op bol = .bool .ne ∧ g.op cmpx = .cmp ∧ g.input cmpx 2 = some M.zero)
  let load ← g.input cmpx 1
  guard (g.op load = .load ∨ g.op load = .loadB)
  let adr ← g.input load 2
  guard (g.op adr = .addP ∧ g.input adr 1 = some g.top)
  let base ← g.input adr 2
  guard (g.op base = .threadLocal ∧ g.input adr 3 = some M.markingOffset)
  return cmpx

/-- The G1 barriers of a store: the region check of the post barrier is removed with the pre
barrier, or the check of the card that a clone has. -/
def collapseG1Barrier (g : MacroGraph) (node thisRegion : ℕ) : Option MacroGraph :=
  match M.findOutWith g node .xorX with
  | some xorx => do
    let shift ← M.uniqueOut g xorx
    let cmpx ← M.uniqueOut g shift
    let bol ← M.uniqueOut g cmpx
    guard (g.op cmpx = .cmp ∧ g.op bol = .bool .ne)
    let g := g.replaceNode cmpx M.ccEq
    match M.preBarrierCmp g thisRegion with
    | some cmpx => return g.replaceNode cmpx M.ccEq
    | none => return g
  | none => do
    let shift ← M.findOutWith g node .uRShiftX
    let addp ← M.uniqueOut g shift
    let load ← M.findOutWith g addp .loadB
    let cmpx ← M.uniqueOut g load
    let bol ← M.uniqueOut g cmpx
    guard (g.op cmpx = .cmp ∧ g.op bol = .bool .ne)
    return g.replaceNode cmpx M.ccEq

/-- What `G1BarrierSetC2::eliminate_gc_barrier` does for a registered barrier. -/
def removeG1Barrier (g : MacroGraph) (node : ℕ) : Option MacroGraph := do
  let thisRegion ← g.input node 0
  let g ← M.collapseG1Barrier g node thisRegion
  return g.replaceNode node g.top

/-- What the barrier set does for a registered barrier. -/
def removeBarrier (g : MacroGraph) (node : ℕ) : Option MacroGraph :=
  match M.barrierSet with
  | .cardTable => M.removeCardTableBarrier g node
  | .g1 => M.removeG1Barrier g node

/-- The uses a barrier may have. -/
def maxUses : ℕ :=
  match M.barrierSet with
  | .cardTable => 2
  | .g1 => 3

/-- `eliminate_gc_barrier`. A `CastP2X` that is not registered is left alone. -/
def eliminateGcBarrier (s : RemovalState) (node : ℕ) : Option RemovalState := do
  guard (s.graph.op node = .castP2X ∧ s.graph.uses node ≤ M.maxUses)
  if node ∈ s.barriers then
    (M.removeBarrier s.graph node).map fun g =>
      { s with graph := g, barriers := s.barriers.erase node }
  else return s

/-! ## Array copies and initialization

An array copy into the object is replaced by what came into it, projection by projection. A
`clonebasic` copy is found through its destination address and goes with it. -/

/-- A projection is replaced by an input of its node, if there is such a projection. -/
def replaceProj (g : MacroGraph) (n : ℕ) (proj : Option ℕ) (i : ℕ) : Option MacroGraph :=
  match proj with
  | some p => (g.input n i).map (g.replaceNode p)
  | none => some g

/-- `disconnect_projections`. -/
def disconnectProjections (g : MacroGraph) (n : ℕ) : Option MacroGraph := do
  let ctlProj := M.projOut g n .control
  let memProj := M.projOut g n .memory
  let g ← replaceProj g n ctlProj 0
  replaceProj g n memProj 2

/-- An `ArrayCopy` for a clone. -/
def removeClone (g : MacroGraph) (ac : ℕ) : Option MacroGraph := do
  let ctl ← M.projOut g ac .control
  let membarAfter ← M.uniqueCtrlOut g ctl
  let g ← M.disconnectProjections g ac
  let memory ← g.input M.alloc 2
  let membarBefore ← g.input memory 0
  guard (g.op membarBefore = .memBar)
  let g ← M.disconnectProjections g membarBefore
  if g.op membarAfter = .memBar then M.disconnectProjections g membarAfter else some g

/-- Any other `ArrayCopy`; its source is the sixth input. -/
def removeArrayCopy (g : MacroGraph) (ac : ℕ) : Option MacroGraph := do
  let ioProj ← M.projOut g ac .iO
  let memProj ← M.projOut g ac .memory
  let ctlProj ← M.projOut g ac .control
  let catch_ ← M.findOutWith g ctlProj .catch_
  let catchProj ← M.findOutWith g catch_ (.catchProj true)
  let g ← replaceProj g ac (some ioProj) 1
  let g ← replaceProj g ac (some memProj) 2
  let g ← replaceProj g ac (some catchProj) 0
  let g := g.setInput ac 0 g.top
  let g := g.replaceEdge ac M.res g.top
  let src ← g.input ac 5
  let g := g.replaceEdge ac src g.top
  return if g.uses src = 0 ∧ src ≠ g.top then g.removeDead [src] else g

/-! ## The loops

The outer loop runs over the uses of the result, an inner one over the uses of an `AddP` of the
result. In both the index is the last use; after a routine has been run it is moved down by the uses
that are gone. The machine keeps which loop it is in, so that one turn is one step. -/

/-- The `AddP`s of raw addresses in `eliminate_unused_allocation_edges`. -/
def disconnectRawAddresses (g : MacroGraph) : MacroGraph :=
  ((M.outs g M.resProj).filter fun n => g.op n = .addP).foldl (fun g n => g.replaceNode n g.top) g

/-- A turn at the uses of the result. -/
def stepUsers (s : RemovalState) : Option RemovalState :=
  match M.lastOut s.graph M.res with
  | none =>
    some { s with
      graph := M.disconnectRawAddresses (s.graph.removeDead [M.res])
      phase := .projection }
  | some use =>
    match s.graph.op use with
    | .addP => some { s with phase := .fields use (s.graph.uses M.res) }
    | .arrayCopy true => (M.removeClone s.graph use).map fun g => { s with graph := g }
    | .arrayCopy false => (M.removeArrayCopy s.graph use).map fun g => { s with graph := g }
    | _ => M.eliminateGcBarrier s use

/-- A turn at the uses of a field's address. -/
def stepFields (s : RemovalState) (use : ℕ) : Option RemovalState :=
  match M.lastOut s.graph use with
  | none => some { s with graph := s.graph.removeDead [use], phase := .users }
  | some n =>
    if s.graph.op n = .store then
      (s.graph.input n 1).map fun memory => { s with graph := s.graph.replaceNode n memory }
    else M.eliminateGcBarrier s n

/-- A turn at the uses of the result projection. -/
def stepProjection (s : RemovalState) : Option RemovalState :=
  match M.lastOut s.graph M.resProj with
  | none => some { s with phase := .done }
  | some use =>
    if s.graph.op use = .initializeNode then
      (M.disconnectProjections s.graph use).map fun g => { s with graph := g }
    else none

/-- A turn of the loops of `process_users_of_allocation`; `none` when an assertion fails or
a node is missing. -/
def step (s : RemovalState) : Option RemovalState :=
  match s.phase with
  | .users => M.stepUsers s
  | .fields use _ => M.stepFields s use
  | .projection => M.stepProjection s
  | .done => none

/-- The state after some turns. -/
inductive Reaches (s : RemovalState) : RemovalState → Prop
  | refl : Reaches s s
  | step {t t' : RemovalState} : Reaches s t → M.step t = some t' → Reaches s t'

end MacroExpand

end StackAllocation
