import StackAllocation.EscapeSoundness

/-!
# Construction of the connection graph

The first step of `compute_escape`. Every ideal node that has to do with references gets a node of
the connection graph, or is mapped to the phantom object, and the edges to its inputs
(`add_node_to_connection_graph`). Nodes whose inputs may come later are delayed, and get their
edges afterwards, the last one first (`add_final_edges`); calls then say how far their arguments
escape (`process_call_arguments`).

Ideal nodes are numbered, top is 0 and the constant null 1, and the nodes of the connection graph
have the numbers of the ideal nodes they are made for. An ideal node is what the switches read of
it: its opcode, its inputs, and what types say. Where the source dereferences a node that is not
registered there is no result.
-/

namespace StackAllocation

/-! ## Ideal nodes

An ideal node is its operation with what the construction asks of its inputs. An operation that the
source treats in the same way as another is the same here. -/

/-- An input of a `Phi` or a `CMoveP`. -/
structure MergeInput : Type where
  node : ℕ
  /-- `in->uncast()` -/
  uncast : ℕ
  deriving DecidableEq

/-- A pointer argument of a call to a stub; of an address, its base. -/
structure StubArgument : Type where
  node : ℕ
  /-- it is the argument `TypeFunc::Parms` -/
  isFirst : Bool
  /-- `arg_has_oops` -/
  hasOops : Bool
  deriving DecidableEq

/-- A call to a stub: `ArrayCopy`, `CallLeaf` or `CallLeafNoFP`. -/
structure Stub : Type where
  /-- `is_arraycopy` -/
  isArraycopy : Bool
  /-- a clone of basic type or a validated arraycopy -/
  validated : Bool
  /-- the argument `TypeFunc::Parms`; of an address, its base -/
  src : ℕ
  args : List StubArgument
  deriving DecidableEq

/-- An argument of a call whose method has been analyzed. -/
structure JavaArgument : Type where
  node : ℕ
  /-- `at->isa_ptr()` -/
  isPtr : Bool
  /-- `at->isa_oopptr()` -/
  isOop : Bool
  /-- `is_arg_returned` -/
  returned : Bool
  /-- `is_arg_stack` -/
  stack : Bool
  /-- `is_arg_local` -/
  isLocal : Bool
  deriving DecidableEq

/-- What a Java call says of its arguments. -/
inductive CallArguments : Type where
  /-- a boxing method -/
  | boxing
  /-- a static call with a bytecode escape analysis, and `is_return_local` -/
  | analyzed (args : List JavaArgument) (returnLocal : Bool)
  /-- any other call, with its oop arguments -/
  | others (args : List ℕ)
  deriving DecidableEq

/-- The node that `add_call_node` makes for the result of a Java call. -/
inductive CallResult : Type where
  /-- the phantom object -/
  | unknown
  /-- an object that a static call allocates -/
  | object (escapes scalarReplaceable : Bool)
  /-- a static call that returns arguments -/
  | arguments
  deriving DecidableEq

/-- The memory that a store accesses. -/
inductive Access : Type where
  /-- an oop pointer, or a raw one to an allocation that is initialized -/
  | oop
  /-- a raw pointer -/
  | raw
  /-- none: a dead node, or a displaced header -/
  | skipped
  deriving DecidableEq

/-- An ideal node. -/
inductive IdealOp : Type where
  /-- `AddP`, with its base, offset and what `is_oop_field` says -/
  | addP (base : ℕ) (offset : Option ℤ) (isOop isUnsafe : Bool)
  /-- `CastX2P`, `CreateEx`, `LoadKlass`, `Parm`, `PartialSubtypeCheck` -/
  | unknown
  /-- `CastPP`, `CheckCastPP`, `EncodeP`, `DecodeN` and those of klasses -/
  | cast (input : ℕ)
  /-- `CMoveP`, or a `Phi` of pointers -/
  | merge (inputs : List MergeInput)
  /-- `ConP`, `ConN`, `ConNKlass`, not null -/
  | con
  /-- `LoadP`, `LoadN`, `LoadPLocked` of a pointer -/
  | load (address : ℕ)
  /-- the result `Proj` of a call that returns a pointer -/
  | proj (call : ℕ)
  /-- `Rethrow` or `Return` of an oop -/
  | ret (value : ℕ)
  /-- stores, `CompareAndSwap` and the like -/
  | store (access : Access) (address value : ℕ)
  /-- `CompareAndExchange`, `GetAndSet` -/
  | loadStore (access : Access) (address value : ℕ)
  /-- the intrinsics of strings -/
  | stringIntrinsic (args : List ℕ)
  | threadLocal
  /-- `Allocate`, `AllocateArray` -/
  | allocate (escapes scalarReplaceable : Bool)
  | stub (call : Stub)
  /-- a Java call, with its result if that is used -/
  | call (result : Option CallResult) (args : CallArguments)
  /-- nodes that have nothing to do with references, among them those the collector handles -/
  | other
  deriving DecidableEq

/-- The ideal graph, and the node of the narrow null if there is one. -/
structure IdealNodes : Type where
  kind : ℕ → IdealOp
  narrowNull : Option ℕ

/-! ## The first iteration

One node at a time: what is made for it, and whether it has to wait for its edges. A node of the
graph has the number of the ideal node that it is made for, but what is unknown is mapped to the
phantom object. -/

/-- The state of the construction. -/
structure Construction : Type where
  graph : Nodes
  /-- `_nodes` -/
  node : ℕ → Option ℕ
  /-- `delayed_worklist` -/
  delayed : List ℕ

/-- An escape state that is global or none. -/
def escapesGlobally (escapes : Bool) : EscapeState := if escapes then .globalEscape else .noEscape

/-- A new `JavaObjectNode`. Its constructor clears `ScalarReplaceable` if the object escapes, and
`set_scalar_replaceable(false)` may clear it afterwards. -/
def javaObjectNode (ideal : IdealKind) (es : EscapeState) (scalarReplaceable : Bool) :
    PointsToNode :=
  { blankNode .javaObject ideal es with
    scalarReplaceable := decide (es.toNat ≤ EscapeState.noEscape.toNat) && scalarReplaceable }

namespace Construction

/-- `ConnectionGraph::ConnectionGraph`. -/
def start (G : IdealNodes) : Construction where
  graph n :=
    if n = phantomObj then javaObjectNode .other .globalEscape true
    else if n = nullObj then javaObjectNode .nullConP .noEscape true
    else outside
  node n :=
    if n = phantomObj then some phantomObj
    else if n = nullObj ∨ G.narrowNull = some n then some nullObj
    else none
  delayed := []

variable (c : Construction) (n : ℕ)

/-- `delayed_worklist->push`. -/
def push : Construction :=
  if n ∈ c.delayed then c else { c with delayed := c.delayed ++ [n] }

/-- A new node, unless there is one. -/
def addNode (node : PointsToNode) : Construction :=
  match c.node n with
  | some _ => c
  | none =>
    { c with graph := Function.update c.graph n node, node := Function.update c.node n (some n) }

/-- `add_local_var`. -/
def addLocalVar (es : EscapeState) : Construction :=
  c.addNode n (blankNode .localVar .other es)

/-- `add_java_object`, and `set_scalar_replaceable`. -/
def addJavaObject (ideal : IdealKind) (es : EscapeState) (scalarReplaceable : Bool) :
    Construction :=
  c.addNode n (javaObjectNode ideal es scalarReplaceable)

/-- `add_field`. -/
def addField (offset : Option ℤ) (isOop isUnsafe : Bool) : Construction :=
  c.addNode n
    { blankNode .field .other (escapesGlobally isUnsafe) with offset := offset, isOop := isOop }

/-- `map_ideal_node` to the phantom object. -/
def mapPhantom : Construction := { c with node := Function.update c.node n (some phantomObj) }

/-- `add_edge`, of the connection graph's nodes. -/
def edge (src dst : ℕ) : Construction := { c with graph := (addEdge c.graph src dst).2 }

/-- `add_base`. -/
def base (field b : ℕ) : Construction := { c with graph := (addBase c.graph field b).2 }

/-- `add_local_var_and_edge` in the first iteration. -/
def addLocalVarAndEdge (es : EscapeState) (input : ℕ) : Construction :=
  match c.node input with
  | none => (c.addLocalVar n es).push n
  | some ptn =>
    let c := c.addLocalVar n es
    match c.node n with
    | none => c
    | some src => c.edge src ptn

/-- `add_to_congraph_unsafe_access`. -/
def addUnsafeAccess : Access → Construction
  | .oop | .raw => c.push n
  | .skipped => c

/-- `add_call_node`, for a Java call. -/
def addCallNode : CallResult → Construction
  | .unknown => c.mapPhantom n
  | .object escapes scalarReplaceable =>
    c.addJavaObject n .callStaticJava (escapesGlobally escapes) scalarReplaceable
  | .arguments => c.addLocalVar n .argEscape

/-- `add_node_to_connection_graph`. -/
def addIdealNode (G : IdealNodes) : Construction :=
  match c.node n with
  | some _ => c -- No need to redefine PointsTo node during first iteration.
  | none =>
    match G.kind n with
    | .addP b offset isOop isUnsafe =>
      match c.node b with
      | none => (c.addField n offset isOop isUnsafe).push n
      | some ptn => (c.addField n offset isOop isUnsafe).base n ptn
    | .unknown => c.mapPhantom n
    | .cast input => c.addLocalVarAndEdge n .noEscape input
    | .merge _ => (c.addLocalVar n .noEscape).push n
    | .con => c.addJavaObject n .other .globalEscape true
    | .load address => c.addLocalVarAndEdge n .noEscape address
    | .proj call => c.addLocalVarAndEdge n .noEscape call
    | .ret value => c.addLocalVarAndEdge n .globalEscape value
    | .store access _ _ => c.addUnsafeAccess n access
    | .loadStore access address _ =>
      (c.addLocalVarAndEdge n .noEscape address).addUnsafeAccess n access
    | .stringIntrinsic _ => (c.addLocalVar n .argEscape).push n
    | .threadLocal => c.addJavaObject n .other .argEscape true
    | .allocate escapes scalarReplaceable =>
      c.addJavaObject n .allocate (escapesGlobally escapes) scalarReplaceable
    | .stub _ => c.push n
    | .call result _ =>
      match result with
      | none => c.push n
      | some r => (c.push n).addCallNode n r
    | .other => c

end Construction

/-- The worklists that the loop over the ideal nodes fills. -/
structure Collected : Type where
  ptnodes : List ℕ
  javaObjects : List ℕ
  nonEscaped : List ℕ
  oopFields : List ℕ

/-- Only allocations and java static calls results are interesting. -/
def IdealOp.isCandidate : IdealOp → Bool
  | .allocate _ _ | .call (some (.object _ _)) _ => true
  | _ => false

/-- An ideal node in the loop. -/
def collectNode (G : IdealNodes) (s : Construction × Collected) (n : ℕ) :
    Construction × Collected :=
  let c := s.1.addIdealNode n G
  match c.node n with
  | none => (c, s.2)
  | some ptn =>
    if ptn = phantomObj then (c, s.2)
    else
      let w := { s.2 with ptnodes := s.2.ptnodes ++ [ptn] }
      if (c.graph ptn).type = .javaObject then
        let w := { w with javaObjects := w.javaObjects ++ [ptn] }
        if (G.kind n).isCandidate = true ∧
            (c.graph ptn).escapeState.toNat < EscapeState.globalEscape.toNat then
          (c, { w with nonEscaped := w.nonEscaped ++ [ptn] })
        else (c, w)
      else if (c.graph ptn).type = .field ∧ (c.graph ptn).isOop = true then
        (c, { w with oopFields := w.oopFields ++ [ptn] })
      else (c, w)

/-- The loop over the ideal nodes. -/
def collectNodes (G : IdealNodes) (ideal : List ℕ) : Construction × Collected :=
  ideal.foldl (collectNode G) (Construction.start G, ⟨[phantomObj], [phantomObj], [], []⟩)

/-! ## Final edges

When all nodes are made, the edges to their operands are added, and calls say how far their
arguments escape. Arraycopies are made here, and are on none of the worklists. -/

namespace Construction

variable (c : Construction)

/-- An edge between the nodes of two ideal nodes. -/
def edgeTo (n input : ℕ) : Option Construction :=
  match c.node n, c.node input with
  | some src, some dst => some (c.edge src dst)
  | _, _ => none

/-- `set_escape_state`, of an ideal node. -/
def escape (es : EscapeState) (n : ℕ) : Option Construction :=
  (c.node n).map fun ptn => { c with graph := setEscapeState c.graph ptn es }

/-- `set_fields_escape_state`, of an ideal node. -/
def escapeFields (es : EscapeState) (n : ℕ) : Option Construction :=
  (c.node n).map fun ptn => { c with graph := setFieldsEscapeState c.graph ptn es }

/-- Inputs of a `Phi` or `CMoveP`: ignore top or inputs which go back this node. -/
def mergeEdge (n : ℕ) (input : MergeInput) : Option Construction :=
  if input.uncast = phantomObj ∨ input.uncast = n then some c else c.edgeTo n input.node

/-- `add_final_edges_unsafe_access`, after the load. -/
def finalUnsafeAccess (access : Access) (address value : ℕ) : Option Construction :=
  match access with
  | .oop => c.edgeTo address value
  | .raw =>
    -- Stored value escapes in unsafe access.
    match c.escape .globalEscape value, c.node address with
    | some c, some adr => if (c.graph adr).type = .field then c.edgeTo address value else some c
    | _, _ => none
  | .skipped => none

/-- `add_arraycopy`. -/
def addArraycopy (n : ℕ) (es : EscapeState) (src dst : ℕ) : Construction :=
  match c.node n with
  | some _ => c
  | none =>
    let c := c.addNode n (blankNode .arraycopy .other es)
    -- Add edge from arraycopy node to source object.
    let c := c.edge n src
    let c := { c with graph := setArraycopySrc c.graph src }
    -- Add edge from destination object to arraycopy node.
    let c := c.edge dst n
    { c with graph := setArraycopyDst c.graph dst }

/-- An argument of a stub, and whether the source has oops. -/
def stubArgument (n : ℕ) (call : Stub) (s : Construction × Bool) (arg : StubArgument) :
    Option (Construction × Bool) :=
  match s.1.node arg.node with
  | none => none
  | some ptn =>
    let argEsc := (s.1.graph ptn).escapeState
    if call.isArraycopy = true ∨ argEsc.toNat < EscapeState.argEscape.toNat then
      let srcHasOops := if arg.isFirst then arg.hasOops else s.2
      let isDest := srcHasOops && call.isArraycopy && arg.hasOops && !arg.isFirst
      if EscapeState.argEscape.toNat ≤ argEsc.toNat ∧ isDest = false then some (s.1, srcHasOops)
      else
        let es := if call.validated then EscapeState.noEscape else EscapeState.argEscape
        let c := { s.1 with graph := setEscapeState s.1.graph ptn es }
        if isDest then
          match c.node call.src with
          | none => none
          | some src =>
            if ptn = src then some (c, srcHasOops)
            else some (c.addArraycopy n es src ptn, srcHasOops)
        else some (c, srcHasOops)
    else some s

/-- An argument that the call returns. -/
def returnedArgument (n : ℕ) (arg : JavaArgument) : Option Construction :=
  if arg.isPtr && arg.returned then
    match c.node n with
    | none => some c
    | some _ => c.edgeTo n arg.node
  else some c

/-- How far an argument escapes. -/
def escapingArgument (arg : JavaArgument) : Option Construction :=
  if arg.isOop then
    match c.node arg.node with
    | none => none
    | some ptn =>
      if (c.graph ptn).escapeState.toNat < EscapeState.globalEscape.toNat then
        if arg.stack then
          match c.escape .argEscape arg.node with
          | none => none
          | some c => if arg.isLocal then some c else c.escapeFields .globalEscape arg.node
        else c.escape .globalEscape arg.node
      else some c
  else some c

/-- An argument of a call with a bytecode escape analysis. -/
def javaArgument (n : ℕ) (c : Construction) (arg : JavaArgument) : Option Construction :=
  (c.returnedArgument n arg).bind fun c => c.escapingArgument arg

/-- A call that returns arguments may also return an unknown object. -/
def unknownResult (n : ℕ) (returnLocal : Bool) : Construction :=
  match c.node n with
  | none => c
  | some ptn =>
    if (c.graph ptn).type = .localVar ∧ returnLocal = false then c.edge ptn phantomObj else c

/-- The arguments of a Java call. -/
def javaArguments (n : ℕ) : CallArguments → Option Construction
  | .boxing => some c -- Boxing methods do not modify any oops.
  | .analyzed args returnLocal =>
    (args.foldlM (javaArgument n) c).map fun c => c.unknownResult n returnLocal
  | .others args => args.foldlM (fun c arg => c.escape .globalEscape arg) c

/-- `add_final_edges`, with `process_call_arguments`. -/
def finalEdges (G : IdealNodes) (c : Construction) (n : ℕ) : Option Construction :=
  match G.kind n with
  | .addP b _ _ _ =>
    match c.node n, c.node b with
    | some field, some ptn => some (c.base field ptn)
    | _, _ => none
  | .cast input => c.edgeTo n input
  | .merge inputs => inputs.foldlM (fun c input => c.mergeEdge n input) c
  | .load address => c.edgeTo n address
  | .proj call => c.edgeTo n call
  | .ret value => c.edgeTo n value
  | .store access address value => c.finalUnsafeAccess access address value
  | .loadStore access address value =>
    (c.edgeTo n address).bind fun c => c.finalUnsafeAccess access address value
  | .stringIntrinsic args => args.foldlM (fun c arg => c.edgeTo n arg) c
  | .stub call => (call.args.foldlM (stubArgument n call) (c, false)).map Prod.fst
  | .call _ args => c.javaArguments n args
  | .unknown | .con | .threadLocal | .allocate _ _ | .other => none

end Construction

/-- The first step of `compute_escape`: the connection graph with its worklists. -/
def constructGraph (G : IdealNodes) (ideal : List ℕ) : Option (Construction × Collected) :=
  let s := collectNodes G ideal
  (s.1.delayed.reverse.foldlM (Construction.finalEdges G) s.1).map fun c => (c, s.2)

/-- The first two steps of `compute_escape`: the completed graph, and the objects that do not
escape globally. -/
def computeEscape (fuel : ℕ) (clock : Clock) (I : InitInfo) (G : IdealNodes) (ideal : List ℕ) :
    Option (Ended (Nodes × List ℕ)) :=
  match constructGraph G ideal with
  | none => none
  | some (c, w) =>
    if w.nonEscaped.length = 0 then some .gaveUp
    else
      completeConnectionGraph fuel clock ⟨w.ptnodes, w.javaObjects, w.oopFields⟩ I c.graph
        w.nonEscaped

end StackAllocation
