import StackAllocation.HeapRange
import Mathlib.Data.Nat.Notation
import Mathlib.Logic.Function.Basic

/-!
# Structured control in an `IdealKit`

The barriers of stores and allocations are emitted with a kit that has calls for conditionals and
loops. The kit keeps a state of control, memory, I/O and the variables (a cvstate). A label is a
state with a region: each jump to it enters the region and merges the current state into the label,
with a `Phi` where the values differ. At the top of a loop the values of the back edge are not
known yet, so there every variable gets a `Phi` at once.
-/

namespace StackAllocation

/-- A node of the graph that the kit builds. -/
inductive KitNode (Val : Type) : Type where
  /-- a node from before: a constant, a parameter, the initial memory -/
  | outer
  /-- an operation of its inputs, a load and a store among them -/
  | op (f : Val → Val → Val → Val) (a b c : ℕ)
  | phi (region : ℕ) (ins : List (Option ℕ))
  | region (ins : List (Option ℕ))
  | iff (ctrl bol : ℕ)
  | ifTrue (iff : ℕ)
  | ifFalse (iff : ℕ)
  /-- the control after empty loop predicates -/
  | predicate (ctrl : ℕ)

/-- A cvstate. Of a `MergeMem` the memory of each alias class is kept. -/
structure CvState : Type where
  ctrl : Option ℕ
  io : Option ℕ
  memory : Option (ℕ → ℕ)
  vars : ℕ → Option ℕ

/-- `new_cvstate` -/
def newCvstate : CvState := ⟨none, none, none, fun _ => none⟩

/-! ## What the nodes compute

Nodes are known by number, in the order in which they are made. An operation has older inputs, so
its value can be computed from theirs; what the other nodes stand for (memory at the start, a
projection, a `Phi`) has to be given. -/

section

variable {Val : Type} (node : ℕ → KitNode Val) (ρ : ℕ → Val)

/-- The value of a node, when `ρ` gives the values of the nodes that are no operations; inputs are
followed up to a depth. -/
def evalUpTo : ℕ → ℕ → Val
  | 0, n => ρ n
  | depth + 1, n =>
    match node n with
    | .op f a b c => f (evalUpTo depth a) (evalUpTo depth b) (evalUpTo depth c)
    | _ => ρ n

/-- The value of a node. The inputs of an operation have smaller numbers. -/
def eval (n : ℕ) : Val := evalUpTo node ρ (n + 1) n

end

/-- The inputs of operations are older. -/
def Ordered {Val : Type} (node : ℕ → KitNode Val) (size : ℕ) : Prop :=
  ∀ n < size, ∀ f a b c, node n = .op f a b c → a < n ∧ b < n ∧ c < n

/-- The compiler around the kit: what `CmpI`, `CmpU` and their like compute (of a `left` of any
type), and `Bool`, and the global value numbering, which may know a node with the value of an
operation. With `_delay_all_transforms` it is not asked. -/
structure KitCompiler (Val : Type) : Type where
  cmp : Bool → Val → Val → Val
  bool : BoolTest → Val → Val
  holds : Val → Bool
  gvn : (ℕ → KitNode Val) → ℕ → (Val → Val → Val → Val) → ℕ → ℕ → ℕ → Option ℕ
  gvn_eval : ∀ {node size f a b c n}, Ordered node size → a < size → b < size → c < size →
    gvn node size f a b c = some n →
    n < size ∧ ∀ ρ, eval node ρ n = f (eval node ρ a) (eval node ρ b) (eval node ρ c)

/-! ## The kit

The kit has the graph, the current cvstate, and a stack of cvstates that wait for the end of a
conditional or a loop. `transform` may answer with a node that is there already, so it is a
parameter which one it answers with. -/

/-- The kit, with the graph. -/
structure IdealKit (Val : Type) : Type where
  /-- the number of the next new node -/
  size : ℕ
  node : ℕ → KitNode Val
  cvstate : CvState
  pendingCvstates : List CvState
  varCt : ℕ
  numAliasTypes : ℕ
  useLoopPredicate : Bool

/-- What a kit starts from: a graph, the state of the `GraphKit`, and nodes at hand. -/
structure KitStart : Type where
  size : ℕ
  ctrl : ℕ
  io : ℕ
  memory : ℕ → ℕ
  nodes : List ℕ
  varCt : ℕ
  numAliasTypes : ℕ
  useLoopPredicate : Bool
  ctrl_lt : ctrl < size
  io_lt : io < size
  memory_lt : ∀ i < numAliasTypes, memory i < size
  nodes_lt : ∀ n ∈ nodes, n < size

namespace IdealKit

variable {Val : Type}

/-- `declarations_done` -/
def declarationsDone (start : KitStart) : IdealKit Val where
  size := start.size
  node := fun _ => .outer
  cvstate := { newCvstate with
    ctrl := some start.ctrl
    io := some start.io
    memory := some start.memory }
  pendingCvstates := []
  varCt := start.varCt
  numAliasTypes := start.numAliasTypes
  useLoopPredicate := start.useLoopPredicate

section

variable (kit : IdealKit Val)

/-- The graph so far. -/
def graph (n : ℕ) : KitNode Val := if n < kit.size then kit.node n else .outer

/-- A new node. -/
def addNode (n : KitNode Val) : ℕ × IdealKit Val :=
  (kit.size, { kit with size := kit.size + 1, node := Function.update kit.node kit.size n })

@[simp]
theorem addNode_fst (n : KitNode Val) : (kit.addNode n).1 = kit.size := rfl

@[simp]
theorem addNode_size (n : KitNode Val) : (kit.addNode n).2.size = kit.size + 1 := rfl

@[simp]
theorem addNode_node (n : KitNode Val) :
    (kit.addNode n).2.node = Function.update kit.node kit.size n := rfl

/-- `set_ctrl` -/
def setCtrl (ctrl : ℕ) : IdealKit Val :=
  { kit with cvstate := { kit.cvstate with ctrl := some ctrl } }

@[simp]
theorem setCtrl_node (ctrl : ℕ) : (kit.setCtrl ctrl).node = kit.node := rfl

/-- `transform` of a new operation -/
def transform (K : KitCompiler Val) (f : Val → Val → Val → Val) (a b c : ℕ) : ℕ × IdealKit Val :=
  match K.gvn kit.node kit.size f a b c with
  | some n => (n, kit)
  | none => kit.addNode (.op f a b c)

/-- `set` and `dead` -/
def set (v : ℕ) (rhs : Option ℕ) : IdealKit Val :=
  { kit with cvstate := { kit.cvstate with vars := Function.update kit.cvstate.vars v rhs } }

/-- `set_memory` -/
def setMemory (mem aliasIdx : ℕ) : IdealKit Val :=
  { kit with cvstate :=
    { kit.cvstate with
      memory := kit.cvstate.memory.map fun slices => Function.update slices aliasIdx mem } }

/-- `set_i_o` -/
def setIo (c : ℕ) : IdealKit Val := { kit with cvstate := { kit.cvstate with io := some c } }

/-! ## Conditionals

`if_then` pushes the state of the branch that is not taken yet, with the other projection as its
control. `else_` exchanges it with the current one. -/

/-- `if_then_common` -/
def ifThenCommon (bol : ℕ) : Option (IdealKit Val) :=
  match kit.cvstate.ctrl with
  | none => none
  | some ctrl =>
    let (iff, kit) := kit.addNode (.iff ctrl bol)
    let (then_, kit) := kit.addNode (.ifTrue iff)
    let (elsen, kit) := kit.addNode (.ifFalse iff)
    let elseCvstate := { kit.cvstate with ctrl := some elsen }
    some ({ kit with pendingCvstates := elseCvstate :: kit.pendingCvstates }.setCtrl then_)

/-- `if_then` and `uif_then` -/
def ifThen (K : KitCompiler Val) (unsigned : Bool) (left : ℕ) (relop : BoolTest) (right : ℕ) :
    Option (IdealKit Val) :=
  let (cmp, kit) := kit.transform K (fun l r _ => K.cmp unsigned l r) left right right
  let (bol, kit) := kit.transform K (fun c _ _ => K.bool relop c) cmp cmp cmp
  kit.ifThenCommon bol

/-- `else_` -/
def else_ : Option (IdealKit Val) :=
  match kit.pendingCvstates with
  | elseCvstate :: rest =>
    some { kit with pendingCvstates := kit.cvstate :: rest, cvstate := elseCvstate }
  | [] => none

/-! ## Labels

A label is a cvstate whose control is a region. The first jump gives it the current values, and each
later one makes a `Phi` of what it has and what comes, unless they are the same. With `bind`, and
while a predecessor is to come, a variable gets a `Phi` even if there is one value only. -/

/-- `make_label` -/
def makeLabel (gotoCt : ℕ) : CvState × IdealKit Val :=
  let (reg, kit) := kit.addNode (.region (List.replicate (gotoCt + 1) none))
  ({ newCvstate with ctrl := some reg }, kit)

/-- The control inputs of a region, from slot 1 on. -/
def regionIns (reg : ℕ) : List (Option ℕ) :=
  match kit.node reg with
  | .region ins => ins
  | _ => []

/-- `init_req` of a region -/
def setRegion (reg slot : ℕ) (ctrl : Option ℕ) : IdealKit Val :=
  { kit with node := Function.update kit.node reg (.region ((kit.regionIns reg).set slot ctrl)) }

/-- `was_promoted_to_phi` -/
def wasPromotedToPhi (n reg : ℕ) : Bool :=
  match kit.node n with
  | .phi r _ => decide (r = reg)
  | _ => false

/-- `promote_to_phi`: `PhiNode::make` fills the inputs but those that the region does not have
yet. -/
def promoteToPhi (n reg : ℕ) : ℕ × IdealKit Val :=
  kit.addNode (.phi reg ((kit.regionIns reg).map fun ctrl => ctrl.map fun _ => n))

/-- `set_req` of a `Phi` -/
def setPhi (phi slot n : ℕ) : IdealKit Val :=
  match kit.node phi with
  | .phi reg ins =>
    { kit with node := Function.update kit.node phi (.phi reg (ins.set slot (some n))) }
  | _ => kit

/-- Another value `m` reaches the slot of a label that has the value `l`. -/
def mergeInto (reg slot l m : ℕ) : ℕ × IdealKit Val :=
  let (phi, kit) := if kit.wasPromotedToPhi l reg then (l, kit) else kit.promoteToPhi l reg
  (phi, kit.setPhi phi slot m)

end

/-- One turn of the loop over the variables in `goto_`. -/
def gotoVar (reg slot : ℕ) (bind : Bool) (r : IdealKit Val × CvState) (i : ℕ) :
    IdealKit Val × CvState :=
  let (kit, lab) := r
  let record (n : ℕ) : CvState := { lab with vars := Function.update lab.vars i (some n) }
  let only (m : ℕ) : IdealKit Val × CvState :=
    -- Only one unique value "m" is known to reach this label
    if bind then
      let (phi, kit) := kit.promoteToPhi m reg
      (kit, record phi)
    else (kit, record m)
  match kit.cvstate.vars i, lab.vars i with
  | none, _ => r -- If the var went unused no need for a phi
  | some m, none => only m
  | some m, some l =>
    if m = l then only m
    else
      let (phi, kit) := kit.mergeInto reg slot l m
      (kit, record phi)

/-- One turn of the loop over the slices in `do_memory_merge`. -/
def mergeSlice (reg slot : ℕ) (merging : ℕ → ℕ) (r : IdealKit Val × (ℕ → ℕ)) (i : ℕ) :
    IdealKit Val × (ℕ → ℕ) :=
  let (kit, join) := r
  if join i ≠ merging i then
    let (phi, kit) := kit.mergeInto reg slot (join i) (merging i)
    (kit, Function.update join i phi)
  else r

/-- The last part of `do_memory_merge`. -/
def mergeIo (reg slot : ℕ) (merging : Option ℕ) (kit : IdealKit Val) (join : CvState) :
    IdealKit Val × CvState :=
  match join.io, merging with
  | some joinIo, some mergingIo =>
    if joinIo ≠ mergingIo then
      let (phi, kit) := kit.mergeInto reg slot joinIo mergingIo
      (kit, { join with io := some phi })
    else (kit, join)
  | _, _ => (kit, join)

section

variable (kit : IdealKit Val)

/-- `do_memory_merge`, of the current cvstate into a label -/
def doMemoryMerge (join : CvState) (reg : ℕ) : Option (IdealKit Val × CvState) :=
  let merging := kit.cvstate
  let join := if join.io = none then { join with io := merging.io } else join
  match join.memory, merging.memory with
  | none, _ => some (kit, { join with memory := merging.memory })
  | some _, none => none
  | some joinM, some mergingM =>
    let slot := (kit.regionIns reg).findIdx fun ctrl => decide (ctrl = merging.ctrl)
    if slot = (kit.regionIns reg).length then none -- edge must already exist
    else
      let (kit, joinM) :=
        (List.range kit.numAliasTypes).foldl (mergeSlice reg slot mergingM) (kit, joinM)
      some (mergeIo reg slot merging.io kit { join with memory := some joinM })

/-- `goto_`, with the label after it -/
def goto_ (lab : CvState) (bind : Bool) : Option (IdealKit Val × CvState) :=
  match lab.ctrl with
  | none => none
  | some reg =>
    let ins := kit.regionIns reg
    -- find next empty slot in region
    let slot := ins.findIdx fun ctrl => decide (ctrl = none)
    if slot = ins.length then none -- too many gotos
    else
      -- If this is last predecessor, then don't force phi creation
      let bind := bind && decide (slot ≠ ins.length - 1)
      let kit := kit.setRegion reg slot kit.cvstate.ctrl
      let (kit, lab) := (List.range kit.varCt).foldl (gotoVar reg slot bind) (kit, lab)
      (kit.doMemoryMerge lab reg).map fun (kit, lab) => ({ kit with cvstate := newCvstate }, lab)

/-- `bind` -/
def bind (lab : CvState) : Option (IdealKit Val) :=
  (kit.goto_ lab true).map fun (kit, lab) => { kit with cvstate := lab }

/-- `end_if` -/
def endIf : Option (IdealKit Val) :=
  let (lab, kit) := kit.makeLabel 1
  match kit.goto_ lab false with
  | none => none
  | some (kit, lab) =>
    match kit.pendingCvstates with
    | [] => none
    | cvstate :: rest => { kit with cvstate := cvstate, pendingCvstates := rest }.bind lab

/-! ## Loops

The head is a label that is bound before its second predecessor exists. `loop` pushes the state at
the head and opens a conditional, whose other branch is the exit; `end_loop` jumps to the head and
goes on with the exit. -/

/-- The empty predicates of a loop. -/
def addEmptyPredicates : Option (IdealKit Val) :=
  if kit.useLoopPredicate then
    match kit.cvstate.ctrl with
    | none => none
    | some ctrl =>
      let (predicate, kit) := kit.addNode (.predicate ctrl)
      some (kit.setCtrl predicate)
  else some kit

/-- `loop` -/
def loop (K : KitCompiler Val) (iv init : ℕ) (relop : BoolTest) (limit : ℕ) :
    Option (IdealKit Val) :=
  match kit.addEmptyPredicates with
  | none => none
  | some kit =>
    let kit := kit.set iv (some init)
    let (head, kit) := kit.makeLabel 1
    match kit.bind head with
    | none => none
    | some kit =>
      -- push for use at end_loop; the body starts with a copy
      let kit := { kit with pendingCvstates := kit.cvstate :: kit.pendingCvstates }
      match kit.cvstate.vars iv with
      | none => none
      | some value => kit.ifThen K false value relop limit

/-- `end_loop` -/
def endLoop : Option (IdealKit Val) :=
  match kit.pendingCvstates with
  | exit :: head :: rest =>
    let kit := { kit with pendingCvstates := rest }
    (kit.goto_ head false).map fun r => { r.1 with cvstate := exit }
  | _ => none

end

end IdealKit

/-! ## Sequences of calls

The clients of the kit nest their calls, so a sequence is a tree. An expression stands for what is
computed in between from variables, memory and nodes at hand. A call that the source asserts not to
happen has no result. -/

/-- What is computed between the calls, of nodes at hand, variables, the memory of an alias class
and the I/O state. -/
inductive KitExpr (Val : Type) : Type where
  | node (i : ℕ)
  | value (v : ℕ)
  | memory (aliasIdx : ℕ)
  | io
  /-- a simple operation, or a `load` -/
  | op (f : Val → Val → Val → Val) (a b c : KitExpr Val)

/-- A well-nested sequence of calls. -/
inductive KitCalls (Val : Type) : Type where
  | skip
  | seq (first rest : KitCalls Val)
  /-- a node that the rest of the sequence has at hand -/
  | node (n : KitExpr Val) (rest : KitCalls Val)
  | set (v : ℕ) (rhs : KitExpr Val)
  | dead (v : ℕ)
  /-- a `store`, of the memory, an address and a value -/
  | store (f : Val → Val → Val → Val) (aliasIdx : ℕ) (adr val : KitExpr Val)
  | setIo (c : KitExpr Val)
  /-- from `if_then` or `uif_then` to `end_if` -/
  | ifThen (unsigned : Bool) (left : KitExpr Val) (relop : BoolTest) (right : KitExpr Val)
    (then_ : KitCalls Val)
  /-- the same, with an `else_` -/
  | ifElse (unsigned : Bool) (left : KitExpr Val) (relop : BoolTest) (right : KitExpr Val)
    (then_ orelse : KitCalls Val)
  /-- from `loop` to `end_loop` -/
  | loop (iv : ℕ) (init : KitExpr Val) (relop : BoolTest) (limit : KitExpr Val)
    (body : KitCalls Val)

namespace IdealKit

variable {Val : Type} (K : KitCompiler Val)

/-- The node of an expression. -/
def expr (nodes : List ℕ) : KitExpr Val → IdealKit Val → Option (ℕ × IdealKit Val)
  | .node i, kit => nodes[i]?.map fun n => (n, kit)
  | .value v, kit => if v < kit.varCt then (kit.cvstate.vars v).map fun n => (n, kit) else none
  | .memory aliasIdx, kit =>
    if aliasIdx < kit.numAliasTypes then kit.cvstate.memory.map fun m => (m aliasIdx, kit)
    else none
  | .io, kit => kit.cvstate.io.map fun n => (n, kit)
  | .op f a b c, kit =>
    (expr nodes a kit).bind fun ra => (expr nodes b ra.2).bind fun rb =>
      (expr nodes c rb.2).map fun rc => rc.2.transform K f ra.1 rb.1 rc.1

/-- `store` -/
def store (f : Val → Val → Val → Val) (aliasIdx adr val : ℕ) (kit : IdealKit Val) :
    Option (IdealKit Val) :=
  if aliasIdx < kit.numAliasTypes then
    kit.cvstate.memory.map fun m =>
      let (st, kit) := kit.transform K f (m aliasIdx) adr val
      kit.setMemory st aliasIdx
  else none

/-- `if_then` or `uif_then`, of expressions -/
def openIf (nodes : List ℕ) (unsigned : Bool) (left : KitExpr Val) (relop : BoolTest)
    (right : KitExpr Val) (kit : IdealKit Val) : Option (IdealKit Val) :=
  (expr K nodes left kit).bind fun l => (expr K nodes right l.2).bind fun r =>
    r.2.ifThen K unsigned l.1 relop r.1

/-- `loop`, of expressions -/
def openLoop (nodes : List ℕ) (iv : ℕ) (init : KitExpr Val) (relop : BoolTest)
    (limit : KitExpr Val) (kit : IdealKit Val) : Option (IdealKit Val) :=
  if iv < kit.varCt then
    (expr K nodes init kit).bind fun i => (expr K nodes limit i.2).bind fun l =>
      l.2.loop K iv i.1 relop l.1
  else none

/-- A sequence of calls. -/
def calls : KitCalls Val → List ℕ → IdealKit Val → Option (IdealKit Val)
  | .skip, _, kit => some kit
  | .seq first rest, nodes, kit => (calls first nodes kit).bind (calls rest nodes)
  | .node n rest, nodes, kit =>
    (expr K nodes n kit).bind fun r => calls rest (r.1 :: nodes) r.2
  | .set v rhs, nodes, kit =>
    if v < kit.varCt then (expr K nodes rhs kit).map fun r => r.2.set v (some r.1) else none
  | .dead v, _, kit => if v < kit.varCt then some (kit.set v none) else none
  | .store f aliasIdx adr val, nodes, kit =>
    (expr K nodes adr kit).bind fun a => (expr K nodes val a.2).bind fun v =>
      v.2.store K f aliasIdx a.1 v.1
  | .setIo c, nodes, kit => (expr K nodes c kit).map fun r => r.2.setIo r.1
  | .ifThen unsigned left relop right then_, nodes, kit =>
    (kit.openIf K nodes unsigned left relop right).bind fun kit =>
      (calls then_ nodes kit).bind endIf
  | .ifElse unsigned left relop right then_ orelse, nodes, kit =>
    (kit.openIf K nodes unsigned left relop right).bind fun kit =>
      (calls then_ nodes kit).bind fun kit =>
        kit.else_.bind fun kit => (calls orelse nodes kit).bind endIf
  | .loop iv init relop limit body, nodes, kit =>
    (kit.openLoop K nodes iv init relop limit).bind fun kit =>
      (calls body nodes kit).bind endLoop

end IdealKit

end StackAllocation
