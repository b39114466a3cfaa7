import StackAllocation.Codec

/-!
# Scope values and their serialized form

The compiler describes the values of a compiled frame by `ScopeValue`s. Objects
that have no heap representation while compiled code runs are described by
`ObjectValue`s: the fields of a scalar-replaced object one by one, a
stack-allocated object (`StackObjectValue`) by its place in the frame. Such
descriptions refer to each other, with sharing and cycles.

`writeOn` serializes a scope value (every `write_on` of `debugInfo.cpp`),
`readFrom` reads it back (`ScopeValue::read_from`). An object is written in full
the first time it is met and as its id afterwards; the reader registers an
object in its pool before it reads the fields, so that a field may refer to the
object it belongs to.

Streams are lists of code words. What is not part of the sources is a parameter:
the encodings of the compressed stream and of `Location`, and the oop recorder
(`DebugStreams`).
-/

namespace StackAllocation

/-- A Java int. -/
abbrev JInt := Int32

/-- A Java long. -/
abbrev JLong := Int64

/-- A Java double, by its bits. -/
abbrev JDouble := UInt64

/-! ## The descriptions

Values refer to objects by their place in a pool, so a pool with cycles is no infinite term. What of
the compressed streams is not in the sources is a parameter with its laws. -/

/-- A scope value. An object is a reference into the pool of `ObjectValue`s. -/
inductive ScopeValue (Loc Jobject Oop : Type) : Type where
  /-- a value in a register or stack slot -/
  | location : Loc → ScopeValue Loc Jobject Oop
  /-- a constant int -/
  | constantInt : JInt → ScopeValue Loc Jobject Oop
  /-- a constant long -/
  | constantLong : JLong → ScopeValue Loc Jobject Oop
  /-- a constant double -/
  | constantDouble : JDouble → ScopeValue Loc Jobject Oop
  /-- a constant oop as the compiler creates it, a JNI handle -/
  | constantOopWrite : Jobject → ScopeValue Loc Jobject Oop
  /-- a constant oop as the VM reads it -/
  | constantOopRead : Oop → ScopeValue Loc Jobject Oop
  /-- a placeholder -/
  | marker : ScopeValue Loc Jobject Oop
  /-- the described object at this place of the pool -/
  | object : ℕ → ScopeValue Loc Jobject Oop
  deriving DecidableEq, Repr

/-- The class of an object description. -/
inductive ObjectKind : Type where
  /-- `ObjectValue` -/
  | object
  /-- `AutoBoxObjectValue` -/
  | autoBox
  /-- `StackObjectValue` -/
  | stackObject
  deriving DecidableEq, Repr

/-- An `ObjectValue`. `location` and `fieldLength` are used by a
`StackObjectValue` only; `none` is what the constructor for the reader leaves in
a field that `read_object` fills in. -/
structure ObjectValue (Loc Jobject Oop : Type) : Type where
  /-- which class it is -/
  kind : ObjectKind
  /-- the id other descriptions refer to it by -/
  id : JInt
  /-- the java mirror -/
  klass : Option (ScopeValue Loc Jobject Oop)
  /-- the values of the fields, in order -/
  fieldValues : List (ScopeValue Loc Jobject Oop)
  /-- the place of a stack object -/
  location : Option Loc
  /-- the number of fields or elements of a stack object -/
  fieldLength : Option (ScopeValue Loc Jobject Oop)
  deriving DecidableEq, Repr

/-- The constructors for the reader, which know the id only. -/
def ObjectValue.ofId {Loc Jobject Oop : Type} (kind : ObjectKind) (id : JInt) :
    ObjectValue Loc Jobject Oop :=
  ⟨kind, id, none, [], none, none⟩

/-- The codes that tell the kinds of scope value apart in the stream. -/
inductive Code : Type where
  | location | constantInt | constantOop | constantLong | constantDouble
  | object | objectId | autoBoxObject | marker | stackObject
  deriving DecidableEq, Repr

namespace Code

/-- The number of a code. -/
def toInt : Code → JInt
  | location => 0
  | constantInt => 1
  | constantOop => 2
  | constantLong => 3
  | constantDouble => 4
  | object => 5
  | objectId => 6
  | autoBoxObject => 7
  | marker => 8
  | stackObject => 9

/-- The code with this number; `none` is the `default` of the reader's switch. -/
def ofInt? (n : JInt) : Option Code :=
  [location, constantInt, constantOop, constantLong, constantDouble, object, objectId,
    autoBoxObject, marker, stackObject].find? fun c => c.toInt == n

@[simp] theorem ofInt?_toInt (c : Code) : ofInt? c.toInt = some c := by
  cases c <;> rfl

end Code

/-- What the serialization rests on and the sources do not contain: the codecs
of the compressed stream and of `Location`, and the oop recorder with the oop
table of the method it fills. -/
structure DebugStreams (β Loc Jobject Oop : Type) : Type where
  /-- `write_int` / `read_int` -/
  int : Codec β JInt
  /-- `write_signed_int` / `read_signed_int` -/
  signedInt : Codec β JInt
  /-- `write_long` / `read_long` -/
  long : Codec β JLong
  /-- `write_double` / `read_double` -/
  double : Codec β JDouble
  /-- `Location::write_on` / `Location(stream)` -/
  location : Codec β Loc
  /-- `OopRecorder::find_index` -/
  findIndex : Jobject → JInt
  /-- the oop at an index of the method's oop table -/
  oopAt : JInt → Oop
  /-- `JNIHandles::resolve` -/
  resolve : Jobject → Oop
  /-- the table holds the recorded oop at the index the recorder gave out -/
  oopAt_findIndex : ∀ h, oopAt (findIndex h) = resolve h

/-- Why reading or writing stops. -/
inductive DebugInfoError : Type where
  /-- `ShouldNotReachHere()` -/
  | shouldNotReachHere
  /-- a `NULL` scope value is used -/
  | nullValue
  /-- the stream has no value of the expected form -/
  | endOfStream
  /-- the recursion bound of the model is reached -/
  | outOfFuel
  deriving DecidableEq, Repr

section

variable {β Loc Jobject Oop : Type} (S : DebugStreams β Loc Jobject Oop)

/-! ## Writing

The writer appends code words and remembers which objects it has visited. An object that was visited
is written as its id; one that was not is written in full, with its fields. -/

/-- The state of the writer: the output so far and the objects whose `_visited`
flag is set, in the order in which they were met. -/
structure WriteStream (β : Type) : Type where
  /-- what was written -/
  out : List β
  /-- the places of the visited objects -/
  visited : List ℕ
  deriving DecidableEq, Repr

namespace WriteStream

/-- Append code words to the output. -/
def put (s : WriteStream β) (ws : List β) : WriteStream β := { s with out := s.out ++ ws }

/-- `write_int` of a code. -/
def putCode (s : WriteStream β) (c : Code) : WriteStream β := s.put (S.int.write c.toInt)

/-- Set the `_visited` flag of an object. -/
def visit (s : WriteStream β) (r : ℕ) : WriteStream β := { s with visited := s.visited ++ [r] }

end WriteStream

/-- `write_on` of the elements of `_field_values`, in order. -/
def writeValues
    (write : ScopeValue Loc Jobject Oop → WriteStream β → Except DebugInfoError (WriteStream β)) :
    List (ScopeValue Loc Jobject Oop) → WriteStream β → Except DebugInfoError (WriteStream β)
  | [], s => .ok s
  | v :: vs, s => do writeValues write vs (← write v s)

/-- `_klass->write_on(stream)` and the like: a pointer to a scope value is
followed. -/
def writePointer
    (write : ScopeValue Loc Jobject Oop → WriteStream β → Except DebugInfoError (WriteStream β)) :
    Option (ScopeValue Loc Jobject Oop) → WriteStream β → Except DebugInfoError (WriteStream β)
  | none, _ => .error .nullValue
  | some v, s => write v s

/-- The part `ObjectValue::write_on` and `StackObjectValue::write_on` have in
common: `_klass`, the length and the elements of `_field_values`. -/
def writeKlassAndFields
    (write : ScopeValue Loc Jobject Oop → WriteStream β → Except DebugInfoError (WriteStream β))
    (o : ObjectValue Loc Jobject Oop) (s : WriteStream β) :
    Except DebugInfoError (WriteStream β) := do
  let s ← writePointer write o.klass s
  let s := s.put (S.int.write (Int32.ofNat o.fieldValues.length))
  writeValues write o.fieldValues s

/-- `ObjectValue::write_on` for an object at place `r` of the pool. -/
def ObjectValue.writeOn
    (write : ScopeValue Loc Jobject Oop → WriteStream β → Except DebugInfoError (WriteStream β))
    (r : ℕ) (o : ObjectValue Loc Jobject Oop) (s : WriteStream β) :
    Except DebugInfoError (WriteStream β) :=
  if r ∈ s.visited then
    .ok ((s.putCode S .objectId).put (S.int.write o.id))
  else do
    let s := s.visit r
    let s := s.putCode S (if o.kind = .autoBox then .autoBoxObject else .object)
    let s := s.put (S.int.write o.id)
    writeKlassAndFields S write o s

/-- `StackObjectValue::write_on`. -/
def StackObjectValue.writeOn
    (write : ScopeValue Loc Jobject Oop → WriteStream β → Except DebugInfoError (WriteStream β))
    (r : ℕ) (o : ObjectValue Loc Jobject Oop) (s : WriteStream β) :
    Except DebugInfoError (WriteStream β) :=
  if r ∈ s.visited then
    .ok ((s.putCode S .objectId).put (S.int.write o.id))
  else do
    let s := s.visit r
    let s := s.putCode S .stackObject
    let s := s.put (S.int.write o.id)
    let s ← writeKlassAndFields S write o s
    match o.location with
    | none => .error .nullValue
    | some loc => writePointer write o.fieldLength (s.put (S.location.write loc))

/-- `write_on` of a scope value over a pool of object descriptions. -/
def writeOn (pool : List (ObjectValue Loc Jobject Oop)) :
    ℕ → ScopeValue Loc Jobject Oop → WriteStream β → Except DebugInfoError (WriteStream β)
  | 0, _, _ => .error .outOfFuel
  | fuel + 1, v, s =>
    match v with
    | .location loc => .ok ((s.putCode S .location).put (S.location.write loc))
    | .marker => .ok (s.putCode S .marker)
    | .constantInt n => .ok ((s.putCode S .constantInt).put (S.signedInt.write n))
    | .constantLong n => .ok ((s.putCode S .constantLong).put (S.long.write n))
    | .constantDouble d => .ok ((s.putCode S .constantDouble).put (S.double.write d))
    | .constantOopWrite h => .ok ((s.putCode S .constantOop).put (S.int.write (S.findIndex h)))
    | .constantOopRead _ => .error .shouldNotReachHere
    | .object r =>
      match pool[r]? with
      | none => .error .nullValue
      | some o =>
        if o.kind = .stackObject then StackObjectValue.writeOn S (writeOn pool fuel) r o s
        else ObjectValue.writeOn S (writeOn pool fuel) r o s

/-! ## Reading

The reader registers an object before it reads the fields, so a reference back to it finds it. What
it cannot read is an error, and not a default value. -/

/-- The state of the reader: the rest of the stream and the objects read so far. -/
structure ReadStream (β Loc Jobject Oop : Type) : Type where
  /-- what is left to read -/
  rest : List β
  /-- `_obj_pool` -/
  objPool : List (ObjectValue Loc Jobject Oop)
  deriving DecidableEq, Repr

namespace ReadStream

variable {S}

/-- Take one value off the stream. -/
def get {α : Type} (c : Codec β α) (s : ReadStream β Loc Jobject Oop) :
    Except DebugInfoError (α × ReadStream β Loc Jobject Oop) :=
  match c.read s.rest with
  | none => .error .endOfStream
  | some (a, rest) => .ok (a, { s with rest := rest })

/-- Register an object, before its fields are read. -/
def push (s : ReadStream β Loc Jobject Oop) (o : ObjectValue Loc Jobject Oop) :
    ReadStream β Loc Jobject Oop :=
  { s with objPool := s.objPool ++ [o] }

/-- Assign to a field of a registered object. -/
def update (s : ReadStream β Loc Jobject Oop) (i : ℕ)
    (f : ObjectValue Loc Jobject Oop → ObjectValue Loc Jobject Oop) :
    ReadStream β Loc Jobject Oop :=
  { s with objPool := s.objPool.modify i f }

end ReadStream

/-- `DebugInfoReadStream::get_cached_object`, without the read of the id: the
last object of the pool with that id. -/
def cachedObject (id : JInt) (pool : List (ObjectValue Loc Jobject Oop)) : Option ℕ :=
  (List.range pool.length).reverse.find? fun i => (pool[i]?.map ObjectValue.id) == some id

/-- The loop of `ObjectValue::read_object` over the fields of the object at
place `i` of the reader's pool. -/
def readFields
    (read : ReadStream β Loc Jobject Oop →
      Except DebugInfoError (ScopeValue Loc Jobject Oop × ReadStream β Loc Jobject Oop)) (i : ℕ) :
    ℕ → ReadStream β Loc Jobject Oop → Except DebugInfoError (ReadStream β Loc Jobject Oop)
  | 0, s => .ok s
  | n + 1, s => do
    let (v, s) ← read s
    readFields read i n (s.update i fun o => { o with fieldValues := o.fieldValues ++ [v] })

/-- `ObjectValue::read_object`. -/
def ObjectValue.readObject
    (read : ReadStream β Loc Jobject Oop →
      Except DebugInfoError (ScopeValue Loc Jobject Oop × ReadStream β Loc Jobject Oop)) (i : ℕ)
    (s : ReadStream β Loc Jobject Oop) :
    Except DebugInfoError (ReadStream β Loc Jobject Oop) := do
  let (klass, s) ← read s
  let s := s.update i fun o => { o with klass := some klass }
  let (length, s) ← s.get S.int
  readFields read i length.toInt.toNat s

/-- `StackObjectValue::read_object`. -/
def StackObjectValue.readObject
    (read : ReadStream β Loc Jobject Oop →
      Except DebugInfoError (ScopeValue Loc Jobject Oop × ReadStream β Loc Jobject Oop)) (i : ℕ)
    (s : ReadStream β Loc Jobject Oop) :
    Except DebugInfoError (ReadStream β Loc Jobject Oop) := do
  let s ← ObjectValue.readObject S read i s
  let (loc, s) ← s.get S.location
  let s := s.update i fun o => { o with location := some loc }
  let (length, s) ← read s
  .ok (s.update i fun o => { o with fieldLength := some length })

/-- `read_object` is virtual: the class of the object decides. -/
def readObject
    (read : ReadStream β Loc Jobject Oop →
      Except DebugInfoError (ScopeValue Loc Jobject Oop × ReadStream β Loc Jobject Oop)) (i : ℕ)
    (s : ReadStream β Loc Jobject Oop) :
    ObjectKind → Except DebugInfoError (ReadStream β Loc Jobject Oop)
  | .stackObject => StackObjectValue.readObject S read i s
  | _ => ObjectValue.readObject S read i s

/-- `DebugInfoReadStream::read_object_value`. -/
def readObjectValue
    (read : ReadStream β Loc Jobject Oop →
      Except DebugInfoError (ScopeValue Loc Jobject Oop × ReadStream β Loc Jobject Oop))
    (kind : ObjectKind) (s : ReadStream β Loc Jobject Oop) :
    Except DebugInfoError (ScopeValue Loc Jobject Oop × ReadStream β Loc Jobject Oop) := do
  let (id, s) ← s.get S.int
  let i := s.objPool.length
  -- cache the object since an object field could reference it
  let s ← readObject S read i (s.push (.ofId kind id)) kind
  .ok (.object i, s)

/-- `ScopeValue::read_from`. -/
def readFrom : ℕ → ReadStream β Loc Jobject Oop →
    Except DebugInfoError (ScopeValue Loc Jobject Oop × ReadStream β Loc Jobject Oop)
  | 0, _ => .error .outOfFuel
  | fuel + 1, s => do
    let (n, s) ← s.get S.int
    match Code.ofInt? n with
    | some .location => let (loc, s) ← s.get S.location; .ok (.location loc, s)
    | some .constantInt => let (n, s) ← s.get S.signedInt; .ok (.constantInt n, s)
    | some .constantOop => let (n, s) ← s.get S.int; .ok (.constantOopRead (S.oopAt n), s)
    | some .constantLong => let (n, s) ← s.get S.long; .ok (.constantLong n, s)
    | some .constantDouble => let (d, s) ← s.get S.double; .ok (.constantDouble d, s)
    | some .object => readObjectValue S (readFrom fuel) .object s
    | some .autoBoxObject => readObjectValue S (readFrom fuel) .autoBox s
    | some .stackObject => readObjectValue S (readFrom fuel) .stackObject s
    | some .objectId =>
      let (id, s) ← s.get S.int
      match cachedObject id s.objPool with
      | some i => .ok (.object i, s)
      | none => .error .shouldNotReachHere
    | some .marker => .ok (.marker, s)
    | none => .error .shouldNotReachHere

/-- Read a list of scope values. -/
def readValues
    (read : ReadStream β Loc Jobject Oop →
      Except DebugInfoError (ScopeValue Loc Jobject Oop × ReadStream β Loc Jobject Oop)) :
    ℕ → ReadStream β Loc Jobject Oop →
    Except DebugInfoError (List (ScopeValue Loc Jobject Oop) × ReadStream β Loc Jobject Oop)
  | 0, s => .ok ([], s)
  | n + 1, s => do
    let (v, s) ← read s
    let (vs, s) ← readValues read n s
    .ok (v :: vs, s)

end

end StackAllocation
