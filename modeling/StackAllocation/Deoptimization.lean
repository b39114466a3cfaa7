import StackAllocation.Bytes
import StackAllocation.DebugInfo
import StackAllocation.OopMap
import Mathlib.Data.List.Sort

/-!
# Deoptimization of described objects

When a compiled frame is deoptimized, the objects its debug information describes
get a heap object each. `reallocObjects` allocates them (`realloc_objects`), then
`reassignFields` fills them in (`reassign_fields`): a scalar-replaced object from
the scope values of its fields, a stack object from its contents in the frame. A
reference to a described object, by description or by its address in the frame,
becomes a reference to its heap object.

Memory is a function from the addresses of objects to their contents, which are
bytes at offsets. The frames treated here are those of C2, so boxes from a cache
and internal fields do not occur (`is_compiled_by_jvmci()` is false, `skip_internal`
true). Not part of the sources, and parameters: `StackValue::create_stack_value`,
the allocator, the layout of a klass and the encoding of references.
-/

namespace StackAllocation

/-! ## The object model

Objects are bytes with a klass and, for arrays, a length. A klass is known by the fields of each
class on its chain of superclasses, or by the type of its elements. -/

/-- The type of a field or of array elements. -/
inductive BasicType : Type where
  | boolean | char | float | double | byte | short | int | long | object | array
  deriving DecidableEq, Repr

/-- Whether it is `T_OBJECT` or `T_ARRAY`. -/
def BasicType.isReference : BasicType → Bool
  | .object | .array => true
  | _ => false

/-- How references are stored in objects, compressed or not. -/
structure OopEncoding : Type where
  /-- `heapOopSize` -/
  size : ℕ
  /-- what is stored for a reference -/
  encode : Word → ℕ
  /-- the reference that is stored -/
  decode : ℕ → Word
  /-- `oopDesc::is_oop_or_null` -/
  isOopOrNull : Word → Bool
  /-- a heap reference can be stored and loaded again -/
  decode_encode : ∀ v, isOopOrNull v = true → decode (encode v % 256 ^ size) = v

/-- The number of bytes of a value of this type. -/
def BasicType.bytes (E : OopEncoding) : BasicType → ℕ
  | .boolean | .byte => 1
  | .char | .short => 2
  | .float | .int => 4
  | .double | .long => 8
  | .object | .array => E.size

/-- `type2size`: slots of the debug information. -/
def BasicType.type2size : BasicType → ℕ
  | .double | .long => 2
  | _ => 1

/-- A field of a klass. -/
structure Field : Type where
  /-- `offset()` -/
  offset : ℕ
  /-- the basic type of its signature -/
  type : BasicType
  /-- `access_flags().is_static()` -/
  isStatic : Bool
  /-- `access_flags().is_internal()` -/
  isInternal : Bool
  deriving DecidableEq, Repr

/-- A klass: an instance klass by the fields of each klass on its superklass chain, an
array klass by what it has elements of. -/
inductive KlassShape : Type where
  | instanceKlass (chain : List (List Field))
  | typeArrayKlass (elementType : BasicType)
  | objArrayKlass
  deriving DecidableEq, Repr

/-- The klasses of the VM. -/
structure Klasses (K : Type) : Type where
  /-- `java_lang_Class::as_Klass` -/
  asKlass : Word → K
  /-- what kind of klass it is -/
  shape : K → KlassShape
  /-- `arrayOopDesc::base_offset_in_bytes` -/
  arrayBase : ℕ

/-- An object. -/
structure HeapObject (K : Type) : Type where
  /-- its klass -/
  klass : K
  /-- the length of an array -/
  length : ℕ
  /-- its contents by offset -/
  bytes : Bytes.Block

/-! ## The frame

What is in a slot of the frame is evaluated by `create_stack_value`, to a primitive value or a
reference. The objects in the frame are found by their address, which lies between two bounds. -/

/-- `Location::Type`. -/
inductive LocationType : Type where
  | invalid | normal | oop | intInLong | lng | floatInDbl | dbl | addr | narrowoop
  deriving DecidableEq, Repr

/-- `Location`: a stack slot or a register. -/
structure Location : Type where
  /-- `is_stack()`; otherwise it is a register -/
  isStack : Bool
  /-- `type()` -/
  type : LocationType
  /-- `stack_offset()` or `register_number()` -/
  offset : JInt
  deriving DecidableEq, Repr

/-- Scope values of a frame. -/
abbrev FrameValue (Jobject : Type) := ScopeValue Location Jobject Word

/-- Object descriptions of a frame. -/
abbrev FrameObject (Jobject : Type) := ObjectValue Location Jobject Word

/-- A `StackValue`: a primitive value, or a reference. -/
inductive StackValue : Type where
  | int (value : Word)
  | obj (value : Word)
  deriving DecidableEq, Repr

/-- `get_int()`, which requires a value of type `T_INT`. -/
def StackValue.getInt : StackValue → Option Word
  | .int v => some v
  | .obj _ => none

/-- `get_obj()`, which requires a value of type `T_OBJECT`. -/
def StackValue.getObj : StackValue → Option Word
  | .int _ => none
  | .obj v => some v

/-- The frame that is deoptimized. A scope value is evaluated given the heap objects of
the described objects. -/
structure DeoptFrame (Jobject : Type) : Type where
  /-- `fr->unextended_sp()` -/
  spBase : Word
  /-- `sp_base + fr->cb()->frame_size()` -/
  spTop : Word
  /-- the reference in a stack slot or register -/
  oopAt : Location → Word
  /-- `StackValue::create_stack_value` -/
  createStackValue : FrameValue Jobject → (ℕ → Word) → StackValue
  /-- a description evaluates to the object's handle -/
  create_object : ∀ j values, createStackValue (.object j) values = .obj (values j)
  /-- a location of a reference evaluates to the reference there -/
  create_oop : ∀ loc values, loc.type = .oop →
    createStackValue (.location loc) values = .obj (oopAt loc)
  /-- anything else does not depend on the described objects -/
  create_other : ∀ sv, (∀ j, sv ≠ .object j) → ∀ values values',
    createStackValue sv values = createStackValue sv values'

section

variable {K Jobject : Type} (V : Klasses K) (E : OopEncoding) (fr : DeoptFrame Jobject)
  (objects : List (FrameObject Jobject)) (values : ℕ → Word)

/-- `sp_base <= oop_ptr && oop_ptr < sp_top`. -/
def DeoptFrame.inFrame (v : Word) : Bool := decide (fr.spBase ≤ v) && decide (v < fr.spTop)

/-- The address of a stack offset. -/
def DeoptFrame.valueAddr (offset : JInt) : Word := fr.spBase + offset.toInt64.toUInt64

/-! ## Allocation

For each description an object is allocated, in the order of the pool. If an allocation fails, the
loop goes on: the object is null from then on, an exception is pending, and the objects before and
after it are filled in as usual. -/

/-- The klass of a description. -/
def klassOf (sv : FrameObject Jobject) : Option K :=
  match sv.klass with
  | some (.constantOopRead mirror) => some (V.asKlass mirror)
  | _ => none

/-- The length of the array a description describes. -/
def lengthOf (sv : FrameObject Jobject) (slots : ℕ) : Option ℕ :=
  match sv.kind, sv.fieldLength with
  | .stackObject, some (.constantInt n) => some n.toInt.toNat
  | .stackObject, _ => none
  | _, _ => some (sv.fieldValues.length / slots)

/-- The klass and length `realloc_objects` allocates for a description. -/
def allocationOf (sv : FrameObject Jobject) : Option (K × ℕ) := do
  let k ← klassOf V sv
  match V.shape k with
  | .instanceKlass _ => some (k, 0)
  | .typeArrayKlass elementType => return (k, ← lengthOf sv elementType.type2size)
  | .objArrayKlass => return (k, ← lengthOf sv 1)

/-- The exception that is pending. -/
inductive Exception (Exc : Type) : Type where
  /-- `Universe::out_of_memory_error_realloc_objects()` -/
  | outOfMemoryErrorReallocObjects
  | other (exception : Exc)
  deriving DecidableEq, Repr

/-- The outcome of `realloc_objects`: memory, the value of each description (0 is
`NULL`), and whether there were failures. -/
structure Realloc (K : Type) : Type where
  mem : Word → HeapObject K
  values : List Word
  failures : Bool

/-- `sv->value()` of the `j`-th description. -/
def Realloc.value (r : Realloc K) (j : ℕ) : Word := r.values.getD j 0

/-- The loop of `realloc_objects`; `alloc` answers the allocation requests in turn. -/
def reallocLoop (alloc : ℕ → Option Word) :
    List (FrameObject Jobject) → Realloc K → Option (Realloc K)
  | [], r => some r
  | sv :: rest, r => do
    let (k, len) ← allocationOf V sv
    match alloc r.values.length with
    | some obj =>
      reallocLoop alloc rest
        { r with
          mem := Function.update r.mem obj ⟨k, len, fun _ => 0⟩
          values := r.values ++ [obj] }
    | none => reallocLoop alloc rest { r with values := r.values ++ [0], failures := true }

/-- `Deoptimization::realloc_objects`, with the exception pending afterwards. -/
def reallocObjects {Exc : Type} (alloc : ℕ → Option Word) (mem : Word → HeapObject K)
    (pendingException : Option (Exception Exc)) :
    Option (Realloc K × Option (Exception Exc)) := do
  let r ← reallocLoop V alloc objects ⟨mem, [], false⟩
  return (r, if r.failures then some .outOfMemoryErrorReallocObjects else pendingException)

/-! ## Finding the described object

A reference may be a description or an address in the frame. `get_scope_value` turns the latter into
the description of the object at this address, so both are replaced by the copy. -/

/-- `Deoptimization::match_object_to_stack_oop`, by the place of the description. -/
def matchObjectToStackOop (oopPtr : Word) : Option ℕ :=
  objects.findIdx? fun o =>
    o.kind == .stackObject &&
      (match o.location with
      | some loc => loc.offset == (oopPtr - fr.spBase).toInt64.toInt32
      | none => false)

/-- `Deoptimization::get_scope_value`. -/
def getScopeValue (sv : FrameValue Jobject) : FrameValue Jobject :=
  match sv with
  | .location loc =>
    if objects.length = 0 then sv
    else if loc.type = .oop then
      if fr.inFrame (fr.oopAt loc) then
        match matchObjectToStackOop fr objects (fr.oopAt loc) with
        | some j => .object j
        | none => sv
      else sv
    else sv
  | .object j =>
    if fr.inFrame (values j) then
      match matchObjectToStackOop fr objects (values j) with
      | some k => .object k
      | none => sv
    else sv
  | _ => sv

/-- The reference a copy gets for a reference in a stack object. -/
def reassignedOop (o : Word) : Word :=
  if fr.inFrame o then
    match matchObjectToStackOop fr objects o with
    | some j => values j
    | none => o
  else o

/-! ## Filling in scalar-replaced objects

The slots of an object are read in the order of its fields. A long or double takes two of them, and
two ints may have been stored as one long. The bytes of an array may have been stored as wider
values, whose other slots are marked. -/

/-- `obj_field` / `obj_at`. -/
def loadOop (m : Bytes.Block) (off : ℕ) : Word := E.decode (Bytes.get m E.size off)

/-- `obj_field_put` / `obj_at_put`. -/
def storeOop (m : Bytes.Block) (off : ℕ) (v : Word) : Bytes.Block :=
  Bytes.put m E.size off (E.encode v)

/-- The fields `reassign_scalar_replaced_fields_by_klass` collects. -/
def reassignedFields (chain : List (List Field)) : List Field :=
  (chain.flatMap fun fields => fields.filter fun f => !f.isStatic && !f.isInternal).mergeSort
    fun f g => f.offset ≤ g.offset

/-- Whether a slot and the one after it are one long or double: the test for
`big_value`. -/
def isBigValue (sv : FrameValue Jobject) (next : List (FrameValue Jobject)) : Bool :=
  match sv with
  | .location loc => loc.type == .dbl || loc.type == .lng
  | .constantInt _ =>
    match next with
    | .constantLong _ :: _ | .constantDouble _ :: _ => true
    | _ => false
  | _ => false

/-- The loop of `reassign_scalar_replaced_fields_by_klass`: fields in order of offset, and
the slots from `svIndex` on. -/
def reassignScalarReplacedFieldsByKlass :
    List Field → List (FrameValue Jobject) → Bytes.Block → Option Bytes.Block
  | [], _, obj => some obj
  | _ :: _, [], _ => none
  | f :: fields, sv :: svs, obj =>
    let scopeField := getScopeValue fr objects values sv
    let value := fr.createStackValue scopeField values
    match f.type with
    | .object | .array => do
      let o ← value.getObj
      reassignScalarReplacedFieldsByKlass fields svs (storeOop E obj f.offset o)
    | .int | .float => do
      let val ← value.getInt
      if (fields.head?.map Field.type = some .int) ∧ isBigValue scopeField svs = true then do
        -- the second int is written with the first, as for a long
        let low ← svs.head?
        let res ← (fr.createStackValue low values).getInt
        reassignScalarReplacedFieldsByKlass (fields.drop 1) (svs.drop 1)
          (Bytes.put obj 8 f.offset res.toNat)
      else
        reassignScalarReplacedFieldsByKlass fields svs (Bytes.put obj 4 f.offset val.toNat)
    | .long | .double => do
      let _ ← value.getInt
      let low ← svs.head?
      let res ← (fr.createStackValue low values).getInt
      reassignScalarReplacedFieldsByKlass fields (svs.drop 1)
        (Bytes.put obj 8 f.offset res.toNat)
    | .short | .char => do
      let val ← value.getInt
      reassignScalarReplacedFieldsByKlass fields svs (Bytes.put obj 2 f.offset val.toNat)
    | .byte | .boolean => do
      let val ← value.getInt
      reassignScalarReplacedFieldsByKlass fields svs (Bytes.put obj 1 f.offset val.toNat)
  termination_by fields => fields.length
  decreasing_by all_goals simp_wf; try omega

/-- The offset of an element. -/
def elementOffset (t : BasicType) (index : ℕ) : ℕ := V.arrayBase + index * t.bytes E

/-- `is_marker()`. -/
def isMarker : FrameValue Jobject → Bool
  | .marker => true
  | _ => false

/-- `count_number_of_bytes_for_entry`, given the slots after the entry. -/
def countNumberOfBytesForEntry (svs : List (FrameValue Jobject)) : ℕ :=
  1 + (svs.takeWhile isMarker).length

/-- `byte_array_put`. -/
def byteArrayPut (obj : Bytes.Block) (off byteCount : ℕ) (val : Word) : Option Bytes.Block :=
  if byteCount = 1 ∨ byteCount = 2 ∨ byteCount = 4 ∨ byteCount = 8 then
    some (Bytes.put obj byteCount off val.toNat)
  else none

/-- The loop of `reassign_scalar_replaced_type_array_elements`, from the `index`-th element
on. -/
def reassignScalarReplacedTypeArrayElements (t : BasicType) :
    List (FrameValue Jobject) → ℕ → Bytes.Block → Option Bytes.Block
  | [], _, obj => some obj
  | sv :: svs, index, obj => do
    let val ← (fr.createStackValue sv values).getInt
    match t with
    | .long | .double => do
      let low ← svs.head?
      let res ← (fr.createStackValue low values).getInt
      reassignScalarReplacedTypeArrayElements t (svs.drop 1) (index + 1)
        (Bytes.put obj 8 (elementOffset V E t index) res.toNat)
    | .int | .float =>
      if t = .int ∧ svs ≠ [] ∧ isBigValue sv svs = true then do
        let low ← svs.head?
        let res ← (fr.createStackValue low values).getInt
        reassignScalarReplacedTypeArrayElements t (svs.drop 1) (index + 2)
          (Bytes.put (Bytes.put obj 4 (elementOffset V E t index) res.toNat) 4
            (elementOffset V E t (index + 1)) (res.toNat / 256 ^ 4))
      else
        reassignScalarReplacedTypeArrayElements t svs (index + 1)
          (Bytes.put obj 4 (elementOffset V E t index) val.toNat)
    | .short | .char =>
      reassignScalarReplacedTypeArrayElements t svs (index + 1)
        (Bytes.put obj 2 (elementOffset V E t index) val.toNat)
    | .boolean =>
      reassignScalarReplacedTypeArrayElements t svs (index + 1)
        (Bytes.put obj 1 (elementOffset V E t index) val.toNat)
    | .byte => do
      let byteCount := countNumberOfBytesForEntry svs
      let obj' ← byteArrayPut obj (elementOffset V E t index) byteCount val
      reassignScalarReplacedTypeArrayElements t (svs.drop (byteCount - 1)) (index + byteCount)
        obj'
    | .object | .array => none
  termination_by svs => svs.length
  decreasing_by all_goals simp_wf; try omega

/-- The loop of `reassign_scalar_replaced_object_array_elements`. -/
def reassignScalarReplacedObjectArrayElements :
    List (FrameValue Jobject) → ℕ → Bytes.Block → Option Bytes.Block
  | [], _, obj => some obj
  | sv :: svs, i, obj => do
    let o ← (fr.createStackValue (getScopeValue fr objects values sv) values).getObj
    reassignScalarReplacedObjectArrayElements svs (i + 1)
      (storeOop E obj (elementOffset V E .object i) o)

/-- `Deoptimization::reassign_scalar_replaced_fields`. -/
def reassignScalarReplacedFields (sv : FrameObject Jobject) (k : K) (obj : Bytes.Block) :
    Option Bytes.Block :=
  match V.shape k with
  | .instanceKlass chain =>
    reassignScalarReplacedFieldsByKlass E fr objects values (reassignedFields chain)
      sv.fieldValues obj
  | .typeArrayKlass t =>
    reassignScalarReplacedTypeArrayElements V E fr values t sv.fieldValues 0 obj
  | .objArrayKlass =>
    reassignScalarReplacedObjectArrayElements V E fr objects values sv.fieldValues 0 obj

/-! ## Filling in copies of stack objects

The contents of a stack object are in the frame already. They are copied field by field; a reference
to an object in the frame is replaced on the way. -/

/-- `ReassignStackObjectFields::do_field` for a field, or the copy of one element. -/
def doField (orig : Bytes.Block) (obj : Bytes.Block) (off : ℕ) (t : BasicType) : Bytes.Block :=
  if t.isReference then
    storeOop E obj off (reassignedOop fr objects values (loadOop E orig off))
  else Bytes.put obj (t.bytes E) off (Bytes.get orig (t.bytes E) off)

/-- `ik->do_nonstatic_fields(&reassign)`. -/
def doNonstaticFields (chain : List (List Field)) (orig obj : Bytes.Block) : Bytes.Block :=
  (chain.flatMap fun fields => fields.filter fun f => !f.isStatic && !f.isInternal).foldl
    (fun obj f => doField E fr objects values orig obj f.offset f.type) obj

/-- `reassign_stack_allocated_type_array_elements` and
`reassign_stack_allocated_object_array_elements`: the elements from `i` on. -/
def reassignStackAllocatedElements (t : BasicType) (orig : Bytes.Block) :
    ℕ → ℕ → Bytes.Block → Bytes.Block
  | 0, _, obj => obj
  | n + 1, i, obj =>
    reassignStackAllocatedElements t orig n (i + 1)
      (doField E fr objects values orig obj (elementOffset V E t i) t)

/-- `Deoptimization::reassign_stack_allocated_fields`. -/
def reassignStackAllocatedFields (mem : Word → HeapObject K) (sv : FrameObject Jobject) (k : K)
    (obj : Bytes.Block) : Option Bytes.Block := do
  let loc ← sv.location
  let orig := mem (fr.valueAddr loc.offset)
  match V.shape k with
  | .instanceKlass chain => return doNonstaticFields E fr objects values chain orig.bytes obj
  | .typeArrayKlass t =>
    if t.isReference then none
    else return reassignStackAllocatedElements V E fr objects values t orig.bytes orig.length 0 obj
  | .objArrayKlass =>
    return reassignStackAllocatedElements V E fr objects values .object orig.bytes orig.length 0 obj

/-! ## All objects

Each object that was allocated is filled in by the loop for its kind. The objects are filled in one
after the other, which is why a reference can be replaced by the address of a copy that is still
empty. -/

/-- The body of the loop of `reassign_fields` for an object that was allocated. -/
def reassignObject (mem : Word → HeapObject K) (sv : FrameObject Jobject) (obj : Word) :
    Option (Word → HeapObject K) := do
  let k ← klassOf V sv
  let bytes ←
    if sv.kind = .stackObject then
      reassignStackAllocatedFields V E fr objects values mem sv k (mem obj).bytes
    else reassignScalarReplacedFields V E fr objects values sv k (mem obj).bytes
  return Function.update mem obj { mem obj with bytes := bytes }

/-- The loop of `reassign_fields`. -/
def reassignLoop : List (FrameObject Jobject × Word) → (Word → HeapObject K) →
    Option (Word → HeapObject K)
  | [], mem => some mem
  | (sv, obj) :: rest, mem =>
    if obj = 0 then reassignLoop rest mem
    else (reassignObject V E fr objects values mem sv obj).bind (reassignLoop rest)

end

/-- `Deoptimization::reassign_fields`. -/
def reassignFields {K Jobject : Type} (V : Klasses K) (E : OopEncoding) (fr : DeoptFrame Jobject)
    (objects : List (FrameObject Jobject)) (r : Realloc K) : Option (Word → HeapObject K) :=
  reassignLoop V E fr objects r.value (objects.zip r.values) r.mem

end StackAllocation
