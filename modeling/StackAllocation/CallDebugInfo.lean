import StackAllocation.LinkedCells
import Mathlib.Algebra.Group.Int.Defs
import Mathlib.Algebra.Group.Nat.Defs
import Mathlib.Data.Int.Notation

/-!
# The debug information of a new call

When a macro node is expanded into a call, the call takes over its debug information: the inputs
from the end of the arguments on, and the JVM states that say where in them the locals, the
stack, the monitors and the fields of scalar objects of each frame are
(`copy_call_debug_info`). The new call may have another number of arguments, so the JVM states are
copied and shifted. Each `SafePointScalarObject` is cloned once; it gives the place of its fields
from the start of the scalar area of the youngest frame on, so the clone is right as it is.
-/

namespace StackAllocation

open LinkedCells

/-! ## JVM states

A JVM state is one cell of a chain, from the youngest frame to the oldest. Its offsets are numbers
of inputs. `clone_deep` copies the whole chain, so the states of the old call stay as they are;
`set_bci` and the shifts are made to the copies only. -/

/-- A `ciMethod`. -/
structure JavaMethod : Type where
  id : ℕ
  maxLocals : ℕ
  maxStack : ℕ
  deriving DecidableEq

/-- `JVMState::ReexecuteState` -/
inductive ReexecuteState : Type where
  | reexecuteUndefined | reexecuteFalse | reexecuteTrue
  deriving DecidableEq

/-- A `JVMState`, with its caller, by the address, and its map, by the number of the node. -/
structure CallJvmState : Type where
  caller : Option ℕ
  depth : ℕ
  locoff : ℕ
  stkoff : ℕ
  monoff : ℕ
  scloff : ℕ
  endoff : ℕ
  sp : ℕ
  bci : ℤ
  reexecute : ReexecuteState
  method : Option JavaMethod
  map : Option ℕ
  deriving DecidableEq

/-- `TypeFunc::Parms` -/
def typeFuncParms : ℕ := 5

/-- `InvocationEntryBci` -/
def invocationEntryBci : ℤ := -1

namespace CallJvmState

/-- `JVMState(ciMethod* method, JVMState* caller)`, with the depth of the caller or 0. -/
def ofMethod (method : JavaMethod) (caller : Option ℕ) (callerDepth : ℕ) : CallJvmState where
  caller := caller
  depth := 1 + callerDepth
  locoff := typeFuncParms
  stkoff := typeFuncParms + method.maxLocals
  monoff := typeFuncParms + method.maxLocals + method.maxStack
  scloff := typeFuncParms + method.maxLocals + method.maxStack
  endoff := typeFuncParms + method.maxLocals + method.maxStack
  sp := 0
  bci := invocationEntryBci
  reexecute := .reexecuteUndefined
  method := some method
  map := none

/-- `JVMState(int stack_size)` -/
def ofStackSize (stackSize : ℕ) : CallJvmState where
  caller := none
  depth := 1
  locoff := typeFuncParms
  stkoff := typeFuncParms
  monoff := typeFuncParms + stackSize
  scloff := typeFuncParms + stackSize
  endoff := typeFuncParms + stackSize
  sp := 0
  bci := invocationEntryBci
  reexecute := .reexecuteUndefined
  method := none
  map := none

/-- `set_bci` -/
def setBci (s : CallJvmState) (bci : ℤ) : CallJvmState :=
  { s with
    reexecute := if s.bci ≠ bci then .reexecuteUndefined else s.reexecute
    bci := bci }

/-- The depth of a caller. -/
def depthOf (cells : ℕ → CallJvmState) : Option ℕ → ℕ
  | none => 0
  | some p => (cells p).depth

/-- `clone_shallow` -/
def cloneShallow (cells : ℕ → CallJvmState) (s : CallJvmState) : CallJvmState :=
  let n := match s.method with
    | some method => ofMethod method s.caller (depthOf cells s.caller)
    | none => ofStackSize 0
  { n.setBci s.bci with
    reexecute := s.reexecute
    locoff := s.locoff
    stkoff := s.stkoff
    monoff := s.monoff
    scloff := s.scloff
    endoff := s.endoff
    sp := s.sp
    map := s.map }

/-- JVM states are linked by their callers. -/
def links : Links CallJvmState where
  link := CallJvmState.caller
  relink s c := { s with caller := c }
  copy := cloneShallow
  link_relink _ _ := rfl
  relink_link _ := rfl
  relink_relink _ _ _ := rfl
  copy_congr c c' s h := by
    have hdepth : depthOf c s.caller = depthOf c' s.caller := by
      cases hs : s.caller with
      | none => rfl
      | some p => rw [depthOf, depthOf, h p hs]
    unfold cloneShallow
    rw [hdepth]

/-- `clone_deep`: the address of the copy. -/
def cloneDeep (fuel : ℕ) (A : Store CallJvmState) (p : ℕ) : Option (ℕ × Store CallJvmState) :=
  let (n, A) := A.alloc (cloneShallow A.cell (A.cell p))
  (links.cloneLinks fuel A n).map fun A => (n, A)

/-- An `int` is added to a `uint`. -/
def addInt (off : ℕ) (adj : ℤ) : ℕ := ((off + adj) % 2 ^ 32).toNat

/-- The offsets for another call. -/
def adjust (call : ℕ) (adj : ℤ) (s : CallJvmState) : CallJvmState :=
  { s with
    map := some call
    locoff := addInt s.locoff adj
    stkoff := addInt s.stkoff adj
    monoff := addInt s.monoff adj
    scloff := addInt s.scloff adj
    endoff := addInt s.endoff adj }

end CallJvmState

/-! ## Nodes

A call has its inputs up to `jvms->endoff()`. A scalar object node says where its fields are,
relative to the youngest frame, and is cloned once for each call: `Dict` remembers the clone. -/

/-- A `SafePointScalarObjectNode`, but for its input. -/
structure ScalarObject : Type where
  /-- `_type` -/
  type : ℕ
  firstIndex : ℕ
  nFields : ℕ
  isStackAllocated : Bool
  deriving DecidableEq

/-- A node: its inputs, and what it is besides if it is a `SafePointScalarObject`. -/
structure IdealNode : Type where
  inputs : List (Option ℕ)
  scalarObject : Option ScalarObject
  deriving DecidableEq

/-- The nodes of a compilation, and `C->unique()`. -/
structure NodeStore : Type where
  unique : ℕ
  node : ℕ → IdealNode

/-- `set_req` -/
def NodeStore.setReq (s : NodeStore) (n i : ℕ) (input : Option ℕ) : NodeStore :=
  let node := { s.node n with inputs := (s.node n).inputs.set i input }
  { s with node := Function.update s.node n node }

/-- What is not among the sources: `Node::clone`, and the `Dict` from nodes to nodes. -/
structure NodeLibrary : Type 1 where
  /-- `Node::clone`: the new node -/
  clone : NodeStore → ℕ → ℕ × NodeStore
  clone_new : ∀ s n, s.unique ≤ (clone s n).1 ∧ (clone s n).1 < (clone s n).2.unique
  clone_node : ∀ s n, (clone s n).2.node (clone s n).1 = s.node n
  clone_others : ∀ s n m, m < s.unique → (clone s n).2.node m = s.node m
  Dict : Type
  empty : Dict
  find : Dict → ℕ → Option ℕ
  insert : Dict → ℕ → ℕ → Dict
  find_empty : ∀ k, find empty k = none
  find_insert : ∀ d k v k', find (insert d k v) k' = if k' = k then some v else find d k'

/-- A call with its JVM states: `domainCnt` is `tf()->domain()->cnt()`. -/
structure CallNode : Type where
  id : ℕ
  domainCnt : ℕ
  inputs : List (Option ℕ)
  jvms : Option ℕ

/-- `in(i)` -/
def CallNode.input (call : CallNode) (i : ℕ) : Option ℕ := call.inputs.getD i none

/-! ## `copy_call_debug_info`

The inputs from the end of the arguments on are taken over one by one, then the JVM states are
cloned and every offset is moved by the difference of the numbers of arguments. -/

/-- The state of the loop over the inputs: the nodes, `sosn_map`, and the inputs of the new call. -/
structure InputCopy (L : NodeLibrary) : Type where
  nodes : NodeStore
  sosnMap : L.Dict
  inputs : List (Option ℕ)

section

variable (L : NodeLibrary)

/-- `SafePointScalarObjectNode::clone` -/
def cloneScalarObject (s : NodeStore) (sosnMap : L.Dict) (n : ℕ) : ℕ × NodeStore × L.Dict :=
  match L.find sosnMap n with
  | some cached => (cached, s, sosnMap)
  | none =>
    let (res, s) := L.clone s n
    (res, s, L.insert sosnMap n res)

/-- One input of the old call. -/
def copyInput (root : ℕ) (c : InputCopy L) (oldIn : Option ℕ) : InputCopy L :=
  match oldIn with
  | none => { c with inputs := c.inputs ++ [none] }
  | some n =>
    if (c.nodes.node n).scalarObject.isSome then
      let (newIn, nodes, sosnMap) := cloneScalarObject L c.nodes c.sosnMap n
      -- New node? Reset control edge.
      let nodes := if c.nodes.unique ≠ nodes.unique then nodes.setReq newIn 0 (some root) else nodes
      ⟨nodes, sosnMap, c.inputs ++ [some newIn]⟩
    else { c with inputs := c.inputs ++ [some n] }

/-- `copy_call_debug_info`: the new call, the JVM states and the nodes. The fuel is for the loops
over the callers. -/
def copyCallDebugInfo (fuel root : ℕ) (A : Store CallJvmState) (nodes : NodeStore)
    (oldcall newcall : CallNode) : Option (CallNode × Store CallJvmState × NodeStore) :=
  let jvmsAdj : ℤ := newcall.domainCnt - oldcall.domainCnt
  -- Use Dict to record cloned nodes.
  let c := (oldcall.inputs.drop oldcall.domainCnt).foldl (copyInput L root)
    ⟨nodes, L.empty, newcall.inputs⟩
  -- JVMS may be shared so clone it before we modify it
  let cloned := match oldcall.jvms with
    | none => some (none, A)
    | some p => (CallJvmState.cloneDeep fuel A p).map fun (n, A) => (some n, A)
  match cloned with
  | none => none
  | some (jvms, A) =>
    let adjust := CallJvmState.adjust newcall.id jvmsAdj
    (CallJvmState.links.updateLinks adjust fuel A jvms).map fun A =>
      ({ newcall with inputs := c.inputs, jvms := jvms }, A, c.nodes)

end

/-! ## What a call describes

Two calls describe the same state if their frames have the same methods and positions, and each slot
of one stands for the slot of the other, where a scalar object is compared field by field. Sharing
is part of it: two slots that hold one object in the old call hold one in the new. -/

/-- The areas of a frame. -/
inductive FrameArea : Type where
  | locals | stack | monitors | scalars
  deriving DecidableEq

/-- Where an area starts. -/
def CallJvmState.areaStart (s : CallJvmState) : FrameArea → ℕ
  | .locals => s.locoff
  | .stack => s.stkoff
  | .monitors => s.monoff
  | .scalars => s.scloff

/-- Its size. -/
def CallJvmState.areaSize (s : CallJvmState) : FrameArea → ℕ
  | .locals => s.stkoff - s.locoff
  | .stack => s.monoff - s.stkoff
  | .monitors => s.scloff - s.monoff
  | .scalars => s.endoff - s.scloff

/-- What a slot holds. -/
def CallNode.slot (call : CallNode) (s : CallJvmState) (area : FrameArea) (k : ℕ) : Option ℕ :=
  call.input (s.areaStart area + k)

/-- The inputs for the fields of a scalar object, by the youngest frame. -/
def CallNode.fieldInputs (call : CallNode) (youngest : CallJvmState) (o : ScalarObject) :
    List (Option ℕ) :=
  (List.range o.nFields).map fun k => call.input (youngest.scloff + o.firstIndex + k)

/-- A call whose frames, the youngest first, are at given addresses. -/
structure CallFrames (A : Store CallJvmState) (nodes : NodeStore) (call : CallNode)
    (frames : List ℕ) : Prop where
  chain : CallJvmState.links.Chain A.cell call.jvms frames
  allocated : ∀ p ∈ frames, p < A.next
  /-- the areas are one after the other, behind the arguments -/
  areas : ∀ p ∈ frames, call.domainCnt ≤ (A.cell p).locoff ∧
    (A.cell p).locoff ≤ (A.cell p).stkoff ∧ (A.cell p).stkoff ≤ (A.cell p).monoff ∧
    (A.cell p).monoff ≤ (A.cell p).scloff ∧ (A.cell p).scloff ≤ (A.cell p).endoff ∧
    (A.cell p).endoff ≤ call.inputs.length
  /-- the depth is that of the caller and one -/
  depth : ∀ p ∈ frames,
    (A.cell p).depth = 1 + CallJvmState.depthOf A.cell (A.cell p).caller
  /-- a state without a method is a root -/
  root : ∀ p ∈ frames, (A.cell p).method = none → (A.cell p).caller = none
  inputs_lt : ∀ n, some n ∈ call.inputs → n < nodes.unique

/-- The frame describes the same place in a method. -/
structure SameFrame (s s' : CallJvmState) : Prop where
  method : s'.method = s.method
  bci : s'.bci = s.bci
  reexecute : s'.reexecute = s.reexecute
  sp : s'.sp = s.sp
  depth : s'.depth = s.depth
  areaSize : ∀ area, s'.areaSize area = s.areaSize area

/-- The node that stands for a node of the old call in the new one: a clone if it is a scalar
object. -/
def copyOf (nodes : NodeStore) (cloneOf : ℕ → ℕ) (n : ℕ) : ℕ :=
  if (nodes.node n).scalarObject.isSome then cloneOf n else n

/-- The new call describes the state that the old one describes. -/
structure DescribesSame (root : ℕ) (A A' : Store CallJvmState) (nodes nodes' : NodeStore)
    (oldcall newcall : CallNode) (frames frames' : List ℕ) (cloneOf : ℕ → ℕ) : Prop where
  chain : CallJvmState.links.Chain A'.cell newcall.jvms frames'
  /-- the frames are the same, and are those of the new call -/
  sameFrames : List.Forall₂ (fun p p' => SameFrame (A.cell p) (A'.cell p') ∧
    (A'.cell p').map = some newcall.id) frames frames'
  /-- each slot holds the same node, or the clone of the scalar object -/
  slots : List.Forall₂ (fun p p' => ∀ area k, k < (A.cell p).areaSize area →
    newcall.slot (A'.cell p') area k =
      (oldcall.slot (A.cell p) area k).map (copyOf nodes cloneOf)) frames frames'
  /-- a clone is a new node, as the scalar object is -/
  clones : ∀ n, some n ∈ oldcall.inputs.drop oldcall.domainCnt →
    (nodes.node n).scalarObject.isSome → nodes.unique ≤ cloneOf n ∧ cloneOf n < nodes'.unique ∧
      nodes'.node (cloneOf n) =
        { nodes.node n with inputs := (nodes.node n).inputs.set 0 (some root) }
  /-- slots share a clone exactly if they shared the node -/
  sharing : ∀ i j n m, oldcall.domainCnt ≤ i → oldcall.domainCnt ≤ j → oldcall.input i = some n →
    oldcall.input j = some m → (nodes.node n).scalarObject.isSome →
    (newcall.input (i - oldcall.domainCnt + newcall.domainCnt) =
      newcall.input (j - oldcall.domainCnt + newcall.domainCnt) ↔ n = m)
  /-- the fields that are found for a scalar object and for its clone -/
  fields : ∀ n o p p', (nodes.node n).scalarObject = some o →
    some n ∈ oldcall.inputs.drop oldcall.domainCnt → oldcall.jvms = some p →
    newcall.jvms = some p' →
    (nodes'.node (cloneOf n)).scalarObject = some o ∧
      newcall.fieldInputs (A'.cell p') o =
        (oldcall.fieldInputs (A.cell p) o).map fun x => x.map (copyOf nodes cloneOf)
  /-- the JVM states that were there, and the nodes, are as they were -/
  states : ∀ p, p < A.next → A'.cell p = A.cell p
  nodes : ∀ n, n < nodes.unique → nodes'.node n = nodes.node n

end StackAllocation
