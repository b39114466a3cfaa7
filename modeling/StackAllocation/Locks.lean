import StackAllocation.PointsTo
import StackAllocation.StackCandidates

/-!
# Lock elimination

Stack allocation relies on the elimination of the locks of the objects it places. Escape
analysis marks a `Lock` or `Unlock` node when nothing its object may be escapes globally
(`not_global_escape`). Before macro expansion, `mark_eliminated_locking_nodes` spreads
the marks to the nodes that share a `BoxLock`, and marks nested lock regions; then all
marked nodes are removed. The nodes that are left are expanded to code.

The ideal graph does not change in between but for the marks: lock coarsening may mark
more nodes.
-/

namespace StackAllocation

/-- A node that a lock's object is computed by, as far as the lock passes look at it. -/
inductive ObjNode : Type where
  /-- the result of an allocation, a node of the connection graph -/
  | allocation (a : ℕ)
  /-- a `ConstraintCast` or `CheckCastPP` -/
  | cast (in1 : ℕ)
  | phi (ins : List ℕ)
  | cmove (in1 in2 : ℕ)
  | parm
  | con
  /-- a load, a call result, … -/
  | other
  deriving DecidableEq, Repr

/-- The node may be the allocation `a`: directly, through casts, or through merges. -/
inductive MayBe (objNodes : ℕ → ObjNode) (a : ℕ) : ℕ → Prop
  | allocation {n : ℕ} : objNodes n = .allocation a → MayBe objNodes a n
  | cast {n x : ℕ} : objNodes n = .cast x → MayBe objNodes a x → MayBe objNodes a n
  | phi {n x : ℕ} {ins : List ℕ} : objNodes n = .phi ins → x ∈ ins → MayBe objNodes a x →
      MayBe objNodes a n
  | cmove₁ {n x y : ℕ} : objNodes n = .cmove x y → MayBe objNodes a x → MayBe objNodes a n
  | cmove₂ {n x y : ℕ} : objNodes n = .cmove x y → MayBe objNodes a y → MayBe objNodes a n

/-- `AbstractLockNode::_kind`. -/
inductive LockKind : Type where
  | regular | nonEscObj | coarsened | nested
  deriving DecidableEq, Repr

/-- `is_eliminated`. -/
def LockKind.isEliminated (k : LockKind) : Bool := decide (k ≠ .regular)

/-- The `Lock` and `Unlock` nodes of a method when escape analysis is done. -/
structure LockGraph : Type where
  objNodes : ℕ → ObjNode
  /-- `ptnode_adr`; `none` is `NULL` or a node created after the escape computation. -/
  ptnodeAdr : ℕ → Option ℕ
  /-- the `Lock` and `Unlock` nodes, all of them macro nodes -/
  locks : List ℕ
  /-- a `Lock` node -/
  isLock : ℕ → Bool
  /-- `obj_node()` -/
  objNode : ℕ → ℕ
  /-- `box_node()` -/
  boxNode : ℕ → ℕ
  /-- marked by lock coarsening during the first IGVN -/
  isCoarsened : ℕ → Bool
  /-- the `Lock` and `Unlock` nodes among the users of a node -/
  outs : ℕ → List ℕ
  outs_locks : ∀ n, outs n ⊆ locks
  mem_outs_obj : ∀ l ∈ locks, l ∈ outs (objNode l)
  mem_outs_box : ∀ l ∈ locks, l ∈ outs (boxNode l)
  /-- Locking is structured: what an `Unlock` releases, a `Lock` has taken. -/
  unlock_paired : ∀ u ∈ locks, isLock u = false → ∀ a, MayBe objNodes a (objNode u) →
    ∃ l ∈ locks, isLock l = true ∧ MayBe objNodes a (objNode l)
  /-- `BoxLockNode::stack_slot` -/
  stackSlot : ℕ → ℕ
  /-- the monitors of the `JVMState` of a `Lock` and of its callers: object and box -/
  monitors : ℕ → List (ℕ × ℕ)
  /-- `BarrierSetC2::step_over_gc_barrier` -/
  stepOverGcBarrier : ℕ → ℕ
  /-- `BoxLockNode::is_simple_lock_region`, for the boxes as they are, with the `unique_lock`
  it finds -/
  isSimpleLockRegion : (ℕ → ℕ) → ℕ → ℕ → Bool × Option ℕ

/-- The marks of the lock passes. -/
structure LockState : Type where
  kind : ℕ → LockKind
  /-- `box_node()`, which `mark_eliminated_box` changes -/
  boxNode : ℕ → ℕ
  /-- `BoxLockNode::is_eliminated` -/
  boxEliminated : ℕ → Bool
  /-- the index of the next new node -/
  unique : ℕ

section

variable (L : LockGraph)

/-- `Node::uncast`, past at most `fuel` casts. -/
def uncastPast : ℕ → ℕ → ℕ
  | 0, n => n
  | fuel + 1, n =>
    match L.objNodes n with
    | .cast x => uncastPast fuel x
    | _ => n

/-- `Node::uncast`: the inputs of a cast have smaller numbers. -/
def LockGraph.uncast (n : ℕ) : ℕ := uncastPast L n n

/-- `Node::eqv_uncast`. -/
def LockGraph.eqvUncast (n m : ℕ) : Bool := decide (L.uncast n = L.uncast m)

/-- The locks of the graph, as `compute_escape` finds them. -/
def LockGraph.hasLocks : Bool :=
  L.locks.any fun l => L.isLock l &&
    match L.objNodes (L.uncast (L.objNode l)) with
    | .parm | .con => false
    | _ => true

/-- `not_global_escape`. -/
def notGlobalEscape (g : Nodes) (n : ℕ) : Bool :=
  match L.ptnodeAdr n with
  | none => false
  | some ptn =>
    if (g ptn).escapeState = .globalEscape then false
    else if (g ptn).type = .javaObject then true
    else (g ptn).edges.all fun e => decide ((g e).escapeState ≠ .globalEscape)

/-- The kinds before escape analysis. -/
def LockGraph.initialKind (l : ℕ) : LockKind :=
  if L.isCoarsened l then .coarsened else .regular

/-- The loop over the locks in `optimize_ideal_graph`. -/
def optimizeIdealGraph (g : Nodes) (o : StackAllocationOptions) (kind : ℕ → LockKind) :
    ℕ → LockKind := fun n =>
  if o.eliminateLocks && decide (n ∈ L.locks) && decide (kind n ≠ .nonEscObj) &&
      notGlobalEscape L g (L.objNode n) then
    .nonEscObj
  else kind n

/-- Lock coarsening of a set of nodes. -/
def coarsen (nodes : List ℕ) (kind : ℕ → LockKind) : ℕ → LockKind := fun n =>
  if n ∈ nodes ∧ kind n = .regular then .coarsened else kind n

/-- The users of a box that are marked with it. -/
def markUsers (k : LockKind) (p : LockState → ℕ → Bool) (s : LockState) (u : ℕ) : LockState :=
  if p s u then { s with kind := Function.update s.kind u k } else s

/-- `mark_eliminated_box`. -/
def markEliminatedBox (o : StackAllocationOptions) (oldbox obj : ℕ) (s : LockState) : LockState :=
  if s.boxEliminated oldbox then s
  else if o.eliminateNestedLocks || (L.isSimpleLockRegion s.boxNode oldbox obj).1 then
    -- Box is used only in one lock region.
    (L.outs oldbox).foldl
      (markUsers .nonEscObj fun s u =>
        decide (s.kind u ≠ .nonEscObj) && decide (s.boxNode u = oldbox))
      { s with boxEliminated := Function.update s.boxEliminated oldbox true }
  else
    let newbox := s.unique
    (L.outs oldbox).foldl
      (fun s u =>
        if s.boxNode u = oldbox ∧ L.eqvUncast (L.objNode u) obj = true then
          { s with
            kind := Function.update s.kind u .nonEscObj
            boxNode := Function.update s.boxNode u newbox }
        else s)
      { s with
        boxEliminated := Function.update s.boxEliminated newbox true
        unique := newbox + 1 }

/-- `is_nested_lock_region`. -/
def isNestedLockRegion (boxNode : ℕ → ℕ) (lock : ℕ) : Bool :=
  let box := boxNode lock
  let obj := L.objNode lock
  if L.stackSlot box = 0 then false
  else
    match L.isSimpleLockRegion boxNode box obj with
    | (false, _) => false
    | (true, unique) =>
      if unique ≠ some lock then false
      else
        (L.monitors lock).any fun (objNode, box') =>
          decide (L.stackSlot box' < L.stackSlot box) &&
            L.eqvUncast (L.stepOverGcBarrier objNode) (L.stepOverGcBarrier obj)

/-- The last part of `mark_eliminated_locking_nodes`: the locks of the same object. -/
def markSameObject (o : StackAllocationOptions) (alock : ℕ) (s : LockState) : LockState :=
  (L.outs (L.objNode alock)).foldl
    (fun s u =>
      if L.eqvUncast (L.objNode u) (L.objNode alock) then
        markEliminatedBox L o (s.boxNode u) (L.objNode alock) s
      else s) s

/-- `mark_eliminated_locking_nodes`. -/
def markEliminatedLockingNodes (o : StackAllocationOptions) (s : LockState) (alock : ℕ) :
    LockState :=
  if o.eliminateNestedLocks then
    if s.kind alock = .nested then s
    else if s.kind alock ≠ .nonEscObj then
      if L.isLock alock then
        if isNestedLockRegion L s.boxNode alock then
          (L.outs (s.boxNode alock)).foldl
            (markUsers .nested fun s' u => decide (s'.boxNode u = s.boxNode alock))
            { s with boxEliminated := Function.update s.boxEliminated (s.boxNode alock) true }
        else s
      else s
    else markSameObject L o alock s
  else if s.kind alock = .nonEscObj then markSameObject L o alock s
  else s

/-- The first two loops of `eliminate_macro_nodes`, on the macro list `order`: the locks that
are left. -/
def eliminateMacroNodes (o : StackAllocationOptions) (order : List ℕ) (s : LockState) : List ℕ :=
  let marked := order.foldl (markEliminatedLockingNodes L o) s
  order.filter fun l => !(marked.kind l).isEliminated

/-- The state of the locks when macro expansion starts. -/
def lockState (g : Nodes) (o : StackAllocationOptions) (nonEscaped : List ℕ)
    (coarsenedLater : List ℕ) (unique : ℕ) : LockState where
  kind := coarsen coarsenedLater
    (if nonEscaped.length > 0 then optimizeIdealGraph L g o L.initialKind else L.initialKind)
  boxNode := L.boxNode
  boxEliminated := fun _ => false
  unique := unique

end

end StackAllocation
