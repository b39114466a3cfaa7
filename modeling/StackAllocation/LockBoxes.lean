import StackAllocation.Locks
import StackAllocation.OutArrays

/-!
# The boxes of eliminated locks

A `Lock` and the `Unlock`s of its region share a `BoxLock`, which monitors in debug information
refer to. Before locks are eliminated, the box of a lock that will go is marked, so that a
deoptimization knows that the monitor was never taken, and with it go all locks of that box. A
box that is also used for another object is not marked: the users for this object get a new
one, in the locks, the `FastLock`s, and the monitors of every frame of every safepoint. All this
is done in loops over the users of the box that take users away from it. The lock passes of
`LockGraph` are these loops without the graph, as far as marks depend on nothing else.
-/

namespace StackAllocation

/-! ## Nodes

A node has the operations that these routines tell apart. Locks, safepoints with their monitors and
boxes are what matters; the rest is `other`. Which nodes there are changes, since a box may be
copied. -/

/-- `TypeFunc::Control` and `TypeFunc::Memory`, of projections -/
inductive LockProj : Type where
  | control | memory
  deriving DecidableEq, Repr

/-- A node, as far as the elimination of locks looks at it. -/
inductive LockNodeOp : Type where
  /-- with its `stack_slot` -/
  | boxLock (stackSlot : ℤ)
  | lock
  | unlock
  | fastLock
  /-- a `SafePoint` or a call that is no lock -/
  | safePoint
  | memBarAcquireLock
  | memBarReleaseLock
  | proj (con : LockProj)
  | other
  deriving DecidableEq, Repr

namespace LockNodeOp

/-- `is_AbstractLock` -/
def isAbstractLock (op : LockNodeOp) : Bool := decide (op = .lock) || decide (op = .unlock)

/-- `is_SafePoint` -/
def isSafePoint (op : LockNodeOp) : Bool := op.isAbstractLock || decide (op = .safePoint)

/-- `is_BoxLock` -/
def isBoxLock : LockNodeOp → Bool
  | .boxLock _ => true
  | _ => false

/-- `stack_slot` -/
def stackSlot : LockNodeOp → ℤ
  | .boxLock slot => slot
  | _ => 0

end LockNodeOp

/-- `TypeFunc::Parms` -/
def lockParms : ℕ := 5

/-- The monitors of a `JVMState`. -/
structure MonitorArea : Type where
  monoff : ℕ
  scloff : ℕ

namespace MonitorArea

variable (jvms : MonitorArea)

/-- `nof_monitors` -/
def nofMonitors : ℕ := (jvms.scloff - jvms.monoff) / 2

/-- `monitor_box_offset` -/
def monitorBoxOffset (idx : ℕ) : ℕ := jvms.monoff + 2 * idx

/-- `monitor_obj_offset` -/
def monitorObjOffset (idx : ℕ) : ℕ := jvms.monoff + 2 * idx + 1

end MonitorArea

/-- The inputs of a node that are a box and its object. -/
structure BoxEdge : Type where
  box : ℕ
  obj : ℕ
  deriving DecidableEq, Repr

/-- `box_node` and `obj_node` of a `Lock` or `Unlock` -/
def lockEdge : BoxEdge := ⟨lockParms + 1, lockParms⟩

/-- The method whose locks are eliminated, with what does not change meanwhile. -/
structure LockMethod : Type where
  eliminateNestedLocks : Bool
  out : OutArray
  /-- `Node::uncast` -/
  uncast : ℕ → ℕ
  /-- `BarrierSetC2::step_over_gc_barrier` -/
  stepOverGcBarrier : ℕ → ℕ
  /-- `BoxLockNode::is_simple_lock_region` of a box and an object, with the `unique_lock` -/
  isSimpleLockRegion : UserGraph LockNodeOp → ℕ → ℕ → Bool × Option ℕ
  /-- the `JVMState`s of a node, from depth 1 on -/
  jvms : ℕ → Option (List MonitorArea)
  /-- a frame has its inputs behind those of its caller -/
  jvms_sorted : ∀ u areas, jvms u = some areas →
    areas.Pairwise fun area area' => area.scloff ≤ area'.monoff
  /-- `box_node` and `obj_node` of a `FastLock` -/
  fastLockEdge : BoxEdge
  fastLock_apart : fastLockEdge.box ≠ fastLockEdge.obj

/-- The graph, and what is marked. -/
structure LockMarks : Type where
  graph : UserGraph LockNodeOp
  /-- `AbstractLockNode::_kind` -/
  kind : ℕ → LockKind
  /-- `BoxLockNode::is_eliminated` -/
  boxEliminated : ℕ → Bool

namespace LockMethod

open UserGraph

variable (M : LockMethod)

/-- `eqv_uncast`, of an input and a node -/
def eqvUncast (input : Option ℕ) (obj : ℕ) : Bool :=
  match input with
  | some n => decide (M.uncast n = M.uncast obj)
  | none => false

/-- The monitors of the frames of a node. -/
def monitorEdges (u : ℕ) : List BoxEdge :=
  ((M.jvms u).getD []).flatMap fun jvms =>
    (List.range jvms.nofMonitors).map fun idx =>
      ⟨jvms.monitorBoxOffset idx, jvms.monitorObjOffset idx⟩

/-- `LockNode::is_nested_lock_region` -/
def isNestedLockRegion (g : UserGraph LockNodeOp) (lock box obj : ℕ) : Bool :=
  let stkSlot := (g.op box).stackSlot
  -- External lock or it is not Box (Phi node).
  if stkSlot ≤ 0 then false
  else
    match M.isSimpleLockRegion g box obj with
    | (false, _) => false
    | (true, unique) =>
      if unique ≠ some lock then false
      else
        -- Look for external lock for the same object.
        (M.monitorEdges lock).any fun e =>
          decide (((g.input lock e.box).map fun b => (g.op b).stackSlot).getD 0 < stkSlot) &&
            M.eqvUncast ((g.input lock e.obj).map M.stepOverGcBarrier) (M.stepOverGcBarrier obj)

/-! ## Marking

Marking goes from a lock to its box, from the box to its users, and for an object from the object to
all its locks. The loops over users are those of the source, with their indices. -/

section

variable (oldbox newbox obj : ℕ)

/-- The edge is to the box, for the object. -/
def isEdgeOf (g : UserGraph LockNodeOp) (u : ℕ) (e : BoxEdge) : Bool :=
  decide (g.input u e.box = some oldbox) && M.eqvUncast (g.input u e.obj) obj

/-- The new box is used instead, if the edge is to the old one for the object. -/
def replaceBox (u : ℕ) (r : Bool × UserGraph LockNodeOp) (e : BoxEdge) :
    Bool × UserGraph LockNodeOp :=
  if M.isEdgeOf oldbox obj r.2 u e then (false, r.2.setReq M.out u e.box newbox) else r

/-- One turn of the loop that replaces an old box, with `next_edge`. -/
def replaceBoxOf (u : ℕ) (s : LockMarks) : Option (Bool × LockMarks) :=
  let op := s.graph.op u
  let isLock := op.isAbstractLock && M.isEdgeOf oldbox obj s.graph u lockEdge
  -- Replace Box and mark eliminated all related locks and unlocks.
  let kind := if isLock then Function.update s.kind u .nonEscObj else s.kind
  let r := if isLock then (false, s.graph.setReq M.out u lockEdge.box newbox) else (true, s.graph)
  let r :=
    if op = .fastLock ∧ M.eqvUncast (r.2.input u M.fastLockEdge.obj) obj = true then
      (false, r.2.setReq M.out u M.fastLockEdge.box newbox)
    else r
  -- Replace old box in monitor debug info.
  let r := if op.isSafePoint then (M.monitorEdges u).foldl (M.replaceBox oldbox newbox obj u) r
    else r
  some (r.1, { s with graph := r.2, kind := kind })

end

/-- The users of a box that are marked with it. -/
def markUser (kind : LockKind) (p : LockMarks → ℕ → Bool) (u : ℕ) (s : LockMarks) :
    Option (Bool × LockMarks) :=
  some (true, if p s u then { s with kind := Function.update s.kind u kind } else s)

/-- The `Lock` or `Unlock` has the box. -/
def hasBox (box : ℕ) (s : LockMarks) (u : ℕ) : Bool :=
  (s.graph.op u).isAbstractLock && decide (s.graph.input u lockEdge.box = some box)

/-- `mark_eliminated_box` -/
def markEliminatedBox (oldbox obj : ℕ) (s : LockMarks) : Option LockMarks :=
  if s.boxEliminated oldbox then some s -- This BoxLock node was processed already.
  else if M.eliminateNestedLocks || (M.isSimpleLockRegion s.graph oldbox obj).1 then
    -- Box is used only in one lock region. Mark this box as eliminated.
    forAllUses (fun s => s.graph.outs oldbox)
      (markUser .nonEscObj fun s u => decide (s.kind u ≠ .nonEscObj) && hasBox oldbox s u)
      { s with boxEliminated := Function.update s.boxEliminated oldbox true }
  else
    -- Create new "eliminated" BoxLock node and use it instead of oldbox for the same object.
    let newbox := s.graph.size
    forAllUses (fun s => s.graph.outs oldbox) (M.replaceBoxOf oldbox newbox obj)
      { s with
        graph := s.graph.clone M.out oldbox
        boxEliminated := Function.update s.boxEliminated newbox true }

/-- The last part of `mark_eliminated_locking_nodes`: all locks of the object. -/
def markSameObject (obj : ℕ) (s : LockMarks) : Option LockMarks :=
  forAllUses (fun s => s.graph.outs obj)
    (fun o s =>
      if (s.graph.op o).isAbstractLock && M.eqvUncast (s.graph.input o lockEdge.obj) obj then
        match s.graph.input o lockEdge.box with
        | some box => (M.markEliminatedBox box obj s).map fun s => (true, s)
        | none => none
      else some (true, s))
    s

/-- The part of `mark_eliminated_locking_nodes` for nested locks. -/
def markNested (alock box obj : ℕ) (s : LockMarks) : Option LockMarks :=
  if (M.jvms alock).isSome && M.isNestedLockRegion s.graph alock box obj then
    -- Mark eliminated related nested locks and unlocks.
    forAllUses (fun s => s.graph.outs box) (markUser .nested fun s u => hasBox box s u)
      { s with boxEliminated := Function.update s.boxEliminated box true }
  else some s

/-- `mark_eliminated_locking_nodes` -/
def markEliminatedLockingNodes (alock : ℕ) (s : LockMarks) : Option LockMarks :=
  match s.graph.input alock lockEdge.box, s.graph.input alock lockEdge.obj with
  | some box, some obj =>
    if M.eliminateNestedLocks && decide (s.kind alock = .nested) then some s
    else if M.eliminateNestedLocks && decide (s.kind alock ≠ .nonEscObj) then
      M.markNested alock box obj s
    else if s.kind alock = .nonEscObj then M.markSameObject obj s
    else some s
  | _, _ => none

/-- The first loop of `eliminate_macro_nodes`. -/
def markMacroNodes (macroNodes : List ℕ) (s : LockMarks) : Option LockMarks :=
  macroNodes.foldlM
    (fun s n =>
      if (s.graph.op n).isAbstractLock then M.markEliminatedLockingNodes n s else some s) s

end LockMethod

/-! ## Eliminating

A lock that is eliminated is bypassed: the users of its projections get its control and memory. The
memory barrier beside it goes as well. The loop goes round once more after it has found
something. -/

section

open NodeGraph

/-- A projection of a node. -/
def lockProj (g : NodeGraph LockNodeOp) (n : ℕ) (con : LockProj) : Option ℕ :=
  (List.range g.size).find? fun m => decide (g.op m = .proj con) && decide (g.input m 0 = some n)

/-- The `MemBarAcquireLock` after a `Lock`: the `unique_ctrl_out` of its projection. -/
def acquireAfter (g : NodeGraph LockNodeOp) (fallthroughproj : ℕ) : Option ℕ :=
  (List.range g.size).find? fun m =>
    decide (g.op m = .memBarAcquireLock) && decide (g.input m 0 = some fallthroughproj)

/-- The users of two projections get control and memory from elsewhere. -/
def passBy (g : NodeGraph LockNodeOp) (fallthroughproj ctrl memprojFallthrough mem : ℕ) :
    NodeGraph LockNodeOp :=
  (g.redirect fallthroughproj ctrl).redirect memprojFallthrough mem

/-- The part of `eliminate_locking_node` for a `Lock`: the memory barrier after it and its
`FastLock` go too. -/
def deleteAcquire (g : NodeGraph LockNodeOp) (lock fallthroughproj memprojFallthrough : ℕ) :
    NodeGraph LockNodeOp :=
  match acquireAfter g fallthroughproj with
  | none => g -- asserted to be there
  | some membar =>
    match lockProj g membar .control, lockProj g membar .memory with
    | some ctrlproj, some memproj =>
      let g := passBy g ctrlproj fallthroughproj memproj memprojFallthrough
      match g.input lock (lockParms + 2) with
      | some flock =>
        -- a loop peeling may clone a Lock node
        if g.op flock = .fastLock ∧ g.uses flock = 1 then g.redirect flock g.top else g
      | none => g
    | _, _ => g

/-- The `MemBarReleaseLock` before an `Unlock`. -/
def releaseBefore (g : NodeGraph LockNodeOp) (alock ctrl mem : ℕ) : Option ℕ :=
  match g.op alock, g.op ctrl, g.op mem, g.input ctrl 0 with
  | .unlock, .proj .control, .proj .memory, some membar =>
    if g.op membar = .memBarReleaseLock ∧ g.input mem 0 = some membar then some membar else none
  | _, _, _, _ => none

/-- `eliminate_locking_node`, of a node that is to be eliminated: control and memory pass by it,
and without uses it is deleted. -/
def eliminateLockingNode (g : NodeGraph LockNodeOp) (alock : ℕ) : NodeGraph LockNodeOp :=
  match g.input alock 0, g.input alock 2, lockProj g alock .control, lockProj g alock .memory with
  | some ctrl, some mem, some fallthroughproj, some memprojFallthrough =>
    let release := releaseBefore g alock ctrl mem
    let g :=
      if g.op alock = .lock then deleteAcquire g alock fallthroughproj memprojFallthrough else g
    let g := passBy g fallthroughproj ctrl memprojFallthrough mem
    let g :=
      match release.bind fun membar => g.input membar 0,
          release.bind fun membar => g.input membar 2 with
      | some ctrl', some mem' => passBy g ctrl ctrl' mem mem'
      | _, _ => g
    g.clear alock
  | _, _, _, _ => g.clear alock

/-- The macro nodes and the graph, and whether there was progress. -/
structure Elimination : Type where
  macroNodes : List ℕ
  graph : NodeGraph LockNodeOp
  progress : Bool

variable (kind : ℕ → LockKind)

/-- The loop `for (int i = C->macro_count(); i > 0; i--)`. -/
def eliminationPass : ℕ → Elimination → Elimination
  | 0, r => r
  | i + 1, r =>
    match r.macroNodes[i]? with
    | some n =>
      if (r.graph.op n).isAbstractLock && (kind n).isEliminated then
        eliminationPass i ⟨r.macroNodes.erase n, eliminateLockingNode r.graph n, true⟩
      else eliminationPass i r
    | none => eliminationPass i r

/-- The loop `while (progress)`. -/
def eliminateLocks : ℕ → Elimination → Option Elimination
  | 0, _ => none
  | fuel + 1, r =>
    let r := eliminationPass kind r.macroNodes.length { r with progress := false }
    if r.progress then eliminateLocks fuel r else some r

end

end StackAllocation
