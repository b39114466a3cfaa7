import StackAllocation.Deoptimization

/-!
# Describing the frames of a safepoint

`Process_OopMap_Node` describes the frames of a compiled safepoint for
deoptimization. It visits the JVM states from the oldest to the youngest and turns
the local variables, the expression stack and the monitors of each into scope
values. A `SafePointScalarObject` among them stands for an object without a heap
representation; it becomes an entry of the object pool `objs`, which all frames of
the safepoint share, and every reference to it becomes a reference to that entry.

An entry is made when the object is first met: from `FillLocArray`, also for a
field of another object, from a monitor, or from the scalar area of a JVM state,
where stack allocation appends the objects it placed. It is entered in the pool
before its fields are described, so that they may refer to it.

This is the 64 bit code. The nodes are those after register allocation; a node
`FillLocArray` cannot describe (`ShouldNotReachHere`) is not a `DebugNode`.
-/

namespace StackAllocation

/-! ## The inputs of a safepoint

The inputs of a safepoint are told apart as `FillLocArray` does: by register, by constant, or as a
scalar object. A `JVMState` says where the parts of a frame begin. -/

/-- `Type::base()` of a value that has a register or stack slot. -/
inductive ValueBase : Type where
  /-- `DoubleBot` or `DoubleCon` -/
  | double
  /-- `Long` -/
  | long
  /-- `RawPtr` -/
  | rawPtr
  /-- `FloatBot` or `FloatCon` -/
  | float
  /-- `Int` -/
  | int
  /-- `NarrowOop` -/
  | narrowOop
  /-- any other pointer -/
  | pointer
  deriving DecidableEq, Repr

/-- A valid `OptoReg::Name`. -/
structure OptoReg : Type where
  /-- `OptoReg::is_reg`; otherwise it is a stack slot -/
  isReg : Bool
  /-- `OptoReg::as_VMReg` or `reg2offset` -/
  number : JInt
  deriving DecidableEq, Repr

/-- A value without a register, which is the constant of its type. `none` is `NULL`. -/
inductive DebugConstant (Jobject : Type) : Type where
  /-- `Top` -/
  | top
  /-- `AnyPtr` -/
  | anyPtr
  /-- `AryPtr` or `InstPtr`, with its `const_oop()` -/
  | oopPtr (oop : Jobject)
  /-- `NarrowOop` -/
  | narrowOop (oop : Option Jobject)
  /-- `Int` -/
  | int (con : JInt)
  /-- `RawPtr`, a return address -/
  | rawPtr (con : JLong)
  /-- `FloatCon`, by its bits -/
  | floatCon (bits : JInt)
  /-- `DoubleCon` -/
  | doubleCon (d : JDouble)
  /-- `Long` -/
  | long (con : JLong)
  deriving DecidableEq, Repr

/-- An input of a safepoint. -/
inductive DebugNode (Jobject : Type) : Type where
  /-- a `SafePointScalarObject`, by its `_idx` -/
  | scalarObject (idx : JInt)
  /-- a value in a register or stack slot; `isOop` is what the register allocator says, and
  `con` is the constant of an `is_Con()` node -/
  | allocated (base : ValueBase) (reg : OptoReg) (isOop : Bool) (con : Option (Option Jobject))
  /-- a value without a register -/
  | constant (con : DebugConstant Jobject)
  deriving DecidableEq, Repr

/-- `C->top()`. -/
abbrev DebugNode.top {Jobject : Type} : DebugNode Jobject := .constant .top

/-- `local == C->top()`. -/
def DebugNode.isTop {Jobject : Type} : DebugNode Jobject → Bool
  | .constant .top => true
  | _ => false

/-- A `SafePointScalarObjectNode`. -/
structure ScalarObjectNode (Jobject : Type) : Type where
  /-- `stack_allocated()` -/
  stackAllocated : Bool
  /-- `_first_index` -/
  firstIndex : ℕ
  /-- `n_fields()` -/
  nFields : ℕ
  /-- `java_mirror()->constant_encoding()` of its klass -/
  mirror : Jobject
  /-- `reg2offset(BoxLockNode::reg(in(1)))`, the place of a stack object -/
  boxOffset : JInt
  deriving DecidableEq, Repr

/-- The `BoxLock` of a monitor. -/
structure MonitorBox : Type where
  /-- `reg2offset(BoxLockNode::reg(box_node))` -/
  offset : JInt
  /-- `is_eliminated()` -/
  eliminated : Bool
  deriving DecidableEq, Repr

/-- A `JVMState`: where its parts begin among the inputs of the safepoint. -/
structure JvmState : Type where
  hasMethod : Bool
  locoff : ℕ
  stkoff : ℕ
  monoff : ℕ
  scloff : ℕ
  endoff : ℕ
  deriving DecidableEq, Repr

namespace JvmState

variable (jvms : JvmState)

/-- `loc_size`. -/
def locSize : ℕ := jvms.stkoff - jvms.locoff

/-- `stk_size`. -/
def stkSize : ℕ := jvms.monoff - jvms.stkoff

/-- `nof_monitors`. -/
def nofMonitors : ℕ := (jvms.scloff - jvms.monoff) / 2

/-- `scl_size`. -/
def sclSize : ℕ := jvms.endoff - jvms.scloff

/-- `monitor_box_offset`. -/
def monitorBoxOffset (idx : ℕ) : ℕ := jvms.monoff + 2 * idx

/-- `monitor_obj_offset`. -/
def monitorObjOffset (idx : ℕ) : ℕ := jvms.monoff + 2 * idx + 1

/-- `num_locs`. -/
def numLocs : ℕ := if jvms.hasMethod then jvms.locSize else 0

/-- `num_exps`. -/
def numExps : ℕ := if jvms.hasMethod then jvms.stkSize else 0

end JvmState

/-- What `FillLocArray` reads of the platform. -/
structure DebugPlatform : Type where
  /-- `Matcher::float_in_double()` -/
  floatInDouble : Bool
  /-- `Matcher::int_in_long` -/
  intInLong : Bool
  deriving DecidableEq, Repr

/-- A `MachSafePointNode` with its JVM states. -/
structure MachSafePoint (Jobject : Type) : Type where
  platform : DebugPlatform
  /-- the inputs -/
  inputs : List (DebugNode Jobject)
  /-- the scalar objects, by `_idx` -/
  scalarObject : JInt → ScalarObjectNode Jobject
  /-- the box of a monitor, by the input it is -/
  monitorBox : ℕ → MonitorBox
  /-- the JVM states of the callers, the oldest first -/
  callers : List JvmState
  /-- `jvms()` -/
  youngest : JvmState

/-- Scope values the compiler creates. A null oop is `none`. -/
abbrev WrittenValue (Jobject : Type) := FrameValue (Option Jobject)

/-- Object descriptions the compiler creates. -/
abbrev WrittenObject (Jobject : Type) := FrameObject (Option Jobject)

/-- A `MonitorValue`. -/
structure MonitorValue (Jobject : Type) : Type where
  owner : WrittenValue Jobject
  basicLock : Location
  eliminated : Bool
  deriving DecidableEq, Repr

/-- What is recorded for a frame: the object pool as it is then, and its scope. -/
structure DescribedScope (Jobject : Type) : Type where
  objects : List (WrittenObject Jobject)
  locals : List (WrittenValue Jobject)
  expressions : List (WrittenValue Jobject)
  monitors : List (MonitorValue Jobject)
  deriving DecidableEq, Repr

variable {Jobject : Type}

/-! ## Values that are no described objects

A value in a register takes one entry or two, by its type; so does a constant. -/

/-- `new_loc_value`. -/
def newLocValue (reg : OptoReg) (type : LocationType) : WrittenValue Jobject :=
  .location ⟨!reg.isReg, type, reg.number⟩

/-- What `FillLocArray` appends for a value with a register. -/
def registerEntries (P : DebugPlatform) (base : ValueBase) (reg : OptoReg) (isOop : Bool) :
    List (WrittenValue Jobject) :=
  match base with
  | .double => [.constantInt 0, newLocValue reg .dbl]
  | .long => [.constantInt 0, newLocValue reg .lng]
  | .rawPtr => [newLocValue reg .lng]
  | .float =>
    if reg.isReg then [newLocValue reg (if P.floatInDouble then .floatInDbl else .normal)]
    else [newLocValue reg (if isOop then .oop else .normal)]
  | .int =>
    if reg.isReg then [newLocValue reg (if P.intInLong then .intInLong else .normal)]
    else [newLocValue reg (if isOop then .oop else .normal)]
  | .narrowOop => [newLocValue reg .narrowoop]
  | .pointer => [newLocValue reg (if isOop then .oop else .normal)]

/-- What `FillLocArray` appends for a constant. -/
def constantEntries : DebugConstant Jobject → List (WrittenValue Jobject)
  | .top => [.location ⟨true, .invalid, 0⟩]
  | .anyPtr => [.constantOopWrite none]
  | .oopPtr oop => [.constantOopWrite (some oop)]
  | .narrowOop oop => [.constantOopWrite oop]
  | .int con => [.constantInt con]
  | .rawPtr con => [.constantLong con]
  | .floatCon bits => [.constantInt bits]
  | .doubleCon d => [.constantInt 0, .constantDouble d]
  | .long con => [.constantInt 0, .constantLong con]

/-- The constant oop of a node, which a monitor is described by. -/
def DebugConstant.constOop : DebugConstant Jobject → Option Jobject
  | .oopPtr oop => some oop
  | .narrowOop oop => oop
  | _ => none

/-! ## The object pool

The descriptions are entered in one pool when they are first met, and found again by id. A stack
object is entered with its place in the frame, any other with the values of its fields, for which
the routine calls itself. -/

/-- `sv_for_node_id`, by the place in the pool. -/
def svForNodeId (objs : List (WrittenObject Jobject)) (id : JInt) : Option ℕ :=
  objs.findIdx? fun sv => sv.id == id

/-- The `StackObjectValue` of a scalar object. -/
def newStackObjectValue (idx : JInt) (spobj : ScalarObjectNode Jobject) :
    WrittenObject Jobject where
  kind := .stackObject
  id := idx
  klass := some (.constantOopWrite (some spobj.mirror))
  fieldValues := []
  location := some ⟨true, .oop, spobj.boxOffset⟩
  fieldLength := some (.constantInt (Int32.ofNat spobj.nFields))

/-- The `ObjectValue` of a scalar object, with its field values. -/
def newObjectValue (idx : JInt) (spobj : ScalarObjectNode Jobject)
    (fieldValues : List (WrittenValue Jobject)) : WrittenObject Jobject where
  kind := .object
  id := idx
  klass := some (.constantOopWrite (some spobj.mirror))
  fieldValues := fieldValues
  location := none
  fieldLength := none

namespace MachSafePoint

variable (sfpt : MachSafePoint Jobject)

/-- `in(i)`. -/
def input (i : ℕ) : DebugNode Jobject := sfpt.inputs.getD i .top

/-- `first_index(jvms)` of a scalar object. -/
def firstIndex (idx : JInt) : ℕ := sfpt.youngest.scloff + (sfpt.scalarObject idx).firstIndex

/-- The inputs that are the fields of a scalar object. -/
def fieldNodes (idx : JInt) : List (DebugNode Jobject) :=
  (List.range (sfpt.scalarObject idx).nFields).map fun i => sfpt.input (sfpt.firstIndex idx + i)

/-- The calls of `FillLocArray` for the fields of an object, given what it does for one
node: their values, and the pool. -/
def fillFields
    (fill : DebugNode Jobject → List (WrittenObject Jobject) →
      Option (List (WrittenValue Jobject) × List (WrittenObject Jobject))) :
    List (DebugNode Jobject) → List (WrittenObject Jobject) →
      Option (List (WrittenValue Jobject) × List (WrittenObject Jobject))
  | [], objs => some ([], objs)
  | fld :: flds, objs => do
    let (entries, objs) ← fill fld objs
    let (rest, objs) ← fillFields fill flds objs
    return (entries ++ rest, objs)

/-- The place of a scalar object in the pool, entered if it is not there yet. The field
values of an entry are not read before they are complete. -/
def svForObject
    (fill : DebugNode Jobject → List (WrittenObject Jobject) →
      Option (List (WrittenValue Jobject) × List (WrittenObject Jobject)))
    (idx : JInt) (objs : List (WrittenObject Jobject)) :
    Option (ℕ × List (WrittenObject Jobject)) :=
  match svForNodeId objs idx with
  | some j => some (j, objs)
  | none =>
    if (sfpt.scalarObject idx).stackAllocated then
      some (objs.length, objs ++ [newStackObjectValue idx (sfpt.scalarObject idx)])
    else do
      let (fieldValues, objs') ← fillFields fill (sfpt.fieldNodes idx)
        (objs ++ [newObjectValue idx (sfpt.scalarObject idx) []])
      return (objs.length,
        objs'.set objs.length (newObjectValue idx (sfpt.scalarObject idx) fieldValues))

/-- What `FillLocArray` appends for a node, and the pool; `none` when the nesting is deeper
than the fuel. -/
def entriesFor : ℕ → DebugNode Jobject → List (WrittenObject Jobject) →
    Option (List (WrittenValue Jobject) × List (WrittenObject Jobject))
  | 0, _, _ => none
  | fuel + 1, .scalarObject idx, objs => do
    let (j, objs) ← sfpt.svForObject (entriesFor fuel) idx objs
    return ([.object j], objs)
  | _ + 1, .allocated base reg isOop _, objs =>
    some (registerEntries sfpt.platform base reg isOop, objs)
  | _ + 1, .constant con, objs => some (constantEntries con, objs)

/-- `FillLocArray` for the local variables and the expression stack, where a value of two
entries is followed by top. -/
def fillLocArray (fuel idx : ℕ) (node : DebugNode Jobject) (array : List (WrittenValue Jobject))
    (objs : List (WrittenObject Jobject)) :
    Option (List (WrittenValue Jobject) × List (WrittenObject Jobject)) :=
  if array.length ≠ idx && node.isTop then some (array, objs)
  else do
    let (entries, objs) ← sfpt.entriesFor fuel node objs
    return ((if array.length ≠ idx then array.dropLast else array) ++ entries, objs)

/-- The loop over the local variables, or the expression stack, from `idx` on. -/
def fillArray (fuel : ℕ) : ℕ → List (DebugNode Jobject) → List (WrittenValue Jobject) →
    List (WrittenObject Jobject) →
      Option (List (WrittenValue Jobject) × List (WrittenObject Jobject))
  | _, [], array, objs => some (array, objs)
  | idx, node :: nodes, array, objs => do
    let (array, objs) ← sfpt.fillLocArray fuel idx node array objs
    fillArray fuel (idx + 1) nodes array objs

/-- The scope value of a locked object. -/
def monitorOwner (fuel : ℕ) (node : DebugNode Jobject) (objs : List (WrittenObject Jobject)) :
    Option (WrittenValue Jobject × List (WrittenObject Jobject)) :=
  match node with
  | .scalarObject idx => do
    let (j, objs) ← sfpt.svForObject (sfpt.entriesFor fuel) idx objs
    return (.object j, objs)
  | .allocated base reg _ none =>
    some (newLocValue reg (if base = .narrowOop then .narrowoop else .oop), objs)
  | .allocated _ _ _ (some con) => some (.constantOopWrite con, objs)
  | .constant con => some (.constantOopWrite con.constOop, objs)

/-- The loop over the monitors, given by their boxes and objects. -/
def fillMonitors (fuel : ℕ) : List (MonitorBox × DebugNode Jobject) →
    List (WrittenObject Jobject) →
      Option (List (MonitorValue Jobject) × List (WrittenObject Jobject))
  | [], objs => some ([], objs)
  | (box, node) :: mons, objs => do
    let (owner, objs) ← sfpt.monitorOwner fuel node objs
    let (rest, objs) ← fillMonitors fuel mons objs
    return (⟨owner, ⟨true, .normal, box.offset⟩, box.eliminated⟩ :: rest, objs)

/-- What the loop over the scalar area does for a node. -/
def addScalar (objs : List (WrittenObject Jobject)) :
    DebugNode Jobject → List (WrittenObject Jobject)
  | .scalarObject idx =>
    match svForNodeId objs idx with
    | some _ => objs
    | none => objs ++ [newStackObjectValue idx (sfpt.scalarObject idx)]
  | _ => objs

/-- The local variables of a frame. -/
def localNodes (jvms : JvmState) : List (DebugNode Jobject) :=
  (List.range jvms.numLocs).map fun idx => sfpt.input (jvms.locoff + idx)

/-- The expression stack of a frame. -/
def stackNodes (jvms : JvmState) : List (DebugNode Jobject) :=
  (List.range jvms.numExps).map fun idx => sfpt.input (jvms.stkoff + idx)

/-- The monitors of a frame. -/
def monitorNodes (jvms : JvmState) : List (MonitorBox × DebugNode Jobject) :=
  (List.range jvms.nofMonitors).map fun idx =>
    (sfpt.monitorBox (jvms.monitorBoxOffset idx), sfpt.input (jvms.monitorObjOffset idx))

/-- The scalar area of a frame. -/
def scalarNodes (jvms : JvmState) : List (DebugNode Jobject) :=
  (List.range jvms.sclSize).map fun idx => sfpt.input (jvms.scloff + idx)

/-- A turn of the loop over the JVM states. -/
def processJvms (fuel : ℕ) (jvms : JvmState) (objs : List (WrittenObject Jobject)) :
    Option (DescribedScope Jobject) := do
  let (locarray, objs) ← sfpt.fillArray fuel 0 (sfpt.localNodes jvms) [] objs
  let (exparray, objs) ← sfpt.fillArray fuel 0 (sfpt.stackNodes jvms) [] objs
  let (monarray, objs) ← sfpt.fillMonitors fuel (sfpt.monitorNodes jvms) objs
  return ⟨(sfpt.scalarNodes jvms).foldl sfpt.addScalar objs, locarray, exparray, monarray⟩

/-- The loop over the JVM states from the oldest to the youngest, with what it records. -/
def processScopes (fuel : ℕ) : List JvmState → List (WrittenObject Jobject) →
    Option (List (DescribedScope Jobject))
  | [], _ => some []
  | jvms :: younger, objs => do
    let scope ← sfpt.processJvms fuel jvms objs
    let scopes ← processScopes fuel younger scope.objects
    return scope :: scopes

/-- The JVM states from the oldest to the youngest. -/
def chain : List JvmState := sfpt.callers ++ [sfpt.youngest]

/-- `Process_OopMap_Node`, as far as it describes the frames. -/
def processOopMapNode (fuel : ℕ) : Option (List (DescribedScope Jobject)) :=
  sfpt.processScopes fuel sfpt.chain []

end MachSafePoint

end StackAllocation
