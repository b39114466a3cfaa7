import StackAllocation.Deoptimization
import Mathlib.Data.List.Pairwise
import Mathlib.Tactic.Basic

/-!
# Deoptimization copies the described object graph

What the debug information of a frame says is a graph of objects
(`DescribedObject`): klasses, lengths, and for each field a primitive value, a
described object, or a reference to something else. A description represents an
object of the graph (`Represents`) when its slots, or the bytes of the stack object
it names, say so; this is where a frame address stands for a described object.

`realloc_objects` and `reassign_fields` make a copy of that graph
(`deoptimization_copies`). Each routine that fills in a copy writes some places of
it, and `Wrote` says which and with what; writes to disjoint places compose
(`Wrote.append`), so one induction for each routine is enough.
-/

namespace StackAllocation

/-! ## The described graph

The graph is what the debug information means, without saying how it is written down: objects, and
in their places values and references to other objects. `Represents` connects a description with an
object of the graph; in a stack object a reference is a word, in a scalar-replaced one a scope
value. -/

/-- A place in an object: offset and type. -/
abbrev Place := ℕ × BasicType

/-- Where a reference of the graph leads. -/
inductive Ref : Type where
  /-- to a described object -/
  | described (j : ℕ)
  /-- to something else -/
  | other (w : Word)
  deriving DecidableEq, Repr

/-- What is in a place. -/
inductive FieldValue : Type where
  | prim (n : ℕ)
  | ref (r : Ref)
  deriving DecidableEq, Repr

/-- An object of the graph. -/
structure DescribedObject (K : Type) : Type where
  /-- its klass -/
  klass : K
  /-- its length, 0 for an instance -/
  length : ℕ
  /-- its fields or elements -/
  fields : List (Place × FieldValue)

section

variable {K Jobject : Type} (V : Klasses K) (E : OopEncoding) (fr : DeoptFrame Jobject)
  (objects : List (FrameObject Jobject)) (mem : Word → HeapObject K)

/-- A reference of the frame, by its word. -/
inductive Refers : Word → Ref → Prop
  | other {w : Word} : fr.inFrame w = false → E.isOopOrNull w = true → Refers w (.other w)
  | described {j : ℕ} {o : FrameObject Jobject} {loc : Location} : objects[j]? = some o →
      o.kind = .stackObject → o.location = some loc →
      fr.inFrame (fr.valueAddr loc.offset) = true →
      Refers (fr.valueAddr loc.offset) (.described j)

/-- A reference of the frame, by its scope value. -/
inductive SlotRefers : FrameValue Jobject → Ref → Prop
  | object {j : ℕ} : j < objects.length → SlotRefers (.object j) (.described j)
  | oop {loc : Location} {r : Ref} : loc.type = .oop → Refers E fr objects (fr.oopAt loc) r →
      SlotRefers (.location loc) r
  | other {sv : FrameValue Jobject} {w : Word} : (∀ j, sv ≠ .object j) →
      (∀ loc, sv = .location loc → loc.type ≠ .oop) →
      (∀ values, fr.createStackValue sv values = .obj w) → fr.inFrame w = false →
      E.isOopOrNull w = true → SlotRefers sv (.other w)

/-- The slots of a scalar-replaced instance: a reference or a small primitive takes one
slot, a long or double two, and one long may stand for two ints in a row. -/
inductive DescribesFields :
    List Field → List (FrameValue Jobject) → List (Place × FieldValue) → Prop
  | nil : DescribesFields [] [] []
  | ref {f : Field} {fs : List Field} {sv : FrameValue Jobject} {svs : List (FrameValue Jobject)}
      {r : Ref} {vs : List (Place × FieldValue)} : f.type.isReference = true →
      SlotRefers E fr objects sv r → DescribesFields fs svs vs →
      DescribesFields (f :: fs) (sv :: svs) (((f.offset, f.type), .ref r) :: vs)
  | prim {f : Field} {fs : List Field} {sv : FrameValue Jobject}
      {svs : List (FrameValue Jobject)} {v : Word} {vs : List (Place × FieldValue)} :
      f.type.isReference = false → f.type.type2size = 1 →
      (∀ values, fr.createStackValue sv values = .int v) → isBigValue sv svs = false →
      DescribesFields fs svs vs →
      DescribesFields (f :: fs) (sv :: svs)
        (((f.offset, f.type), .prim (v.toNat % 256 ^ f.type.bytes E)) :: vs)
  | wide {f : Field} {fs : List Field} {sv low : FrameValue Jobject}
      {svs : List (FrameValue Jobject)} {u v : Word} {vs : List (Place × FieldValue)} :
      f.type.type2size = 2 → (∀ values, fr.createStackValue sv values = .int u) →
      (∀ values, fr.createStackValue low values = .int v) → DescribesFields fs svs vs →
      DescribesFields (f :: fs) (sv :: low :: svs)
        (((f.offset, f.type), .prim (v.toNat % 256 ^ 8)) :: vs)
  | split {f g : Field} {fs : List Field} {sv low : FrameValue Jobject}
      {svs : List (FrameValue Jobject)} {u v : Word} {vs : List (Place × FieldValue)} :
      f.type = .int ∨ f.type = .float → g.type = .int → g.offset = f.offset + 4 →
      isBigValue sv (low :: svs) = true →
      (∀ values, fr.createStackValue sv values = .int u) →
      (∀ values, fr.createStackValue low values = .int v) → DescribesFields fs svs vs →
      DescribesFields (f :: g :: fs) (sv :: low :: svs)
        (((f.offset, f.type), .prim (v.toNat % 256 ^ 4)) ::
          ((g.offset, g.type), .prim (v.toNat / 256 ^ 4 % 256 ^ 4)) :: vs)

/-- The place of an element. -/
def elementPlace (t : BasicType) (index : ℕ) : Place := (elementOffset V E t index, t)

/-- The slots of a scalar-replaced primitive array, from an index on. A byte may take
several slots if it is followed by markers: it is then the first byte of a larger value. -/
inductive DescribesElements (t : BasicType) :
    ℕ → List (FrameValue Jobject) → List (Place × FieldValue) → Prop
  | nil {i : ℕ} : DescribesElements t i [] []
  | prim {i : ℕ} {sv : FrameValue Jobject} {svs : List (FrameValue Jobject)} {v : Word}
      {vs : List (Place × FieldValue)} : t.isReference = false → t ≠ .byte → t.type2size = 1 →
      (∀ values, fr.createStackValue sv values = .int v) → isBigValue sv svs = false →
      DescribesElements t (i + 1) svs vs →
      DescribesElements t i (sv :: svs)
        ((elementPlace V E t i, .prim (v.toNat % 256 ^ t.bytes E)) :: vs)
  | wide {i : ℕ} {sv low : FrameValue Jobject} {svs : List (FrameValue Jobject)} {u v : Word}
      {vs : List (Place × FieldValue)} : t.type2size = 2 →
      (∀ values, fr.createStackValue sv values = .int u) →
      (∀ values, fr.createStackValue low values = .int v) →
      DescribesElements t (i + 1) svs vs →
      DescribesElements t i (sv :: low :: svs)
        ((elementPlace V E t i, .prim (v.toNat % 256 ^ 8)) :: vs)
  | split {i : ℕ} {sv low : FrameValue Jobject} {svs : List (FrameValue Jobject)} {u v : Word}
      {vs : List (Place × FieldValue)} : t = .int → isBigValue sv (low :: svs) = true →
      (∀ values, fr.createStackValue sv values = .int u) →
      (∀ values, fr.createStackValue low values = .int v) →
      DescribesElements t (i + 2) svs vs →
      DescribesElements t i (sv :: low :: svs)
        ((elementPlace V E t i, .prim (v.toNat % 256 ^ 4)) ::
          (elementPlace V E t (i + 1), .prim (v.toNat / 256 ^ 4 % 256 ^ 4)) :: vs)
  | bytes {i n : ℕ} {sv : FrameValue Jobject} {svs : List (FrameValue Jobject)} {v : Word}
      {vs : List (Place × FieldValue)} : t = .byte → n = 1 ∨ n = 2 ∨ n = 4 ∨ n = 8 →
      (∀ values, fr.createStackValue sv values = .int v) → svs.head? ≠ some .marker →
      DescribesElements t (i + n) svs vs →
      DescribesElements t i (sv :: (List.replicate (n - 1) .marker ++ svs))
        ((List.range n).map (fun j =>
          (elementPlace V E t (i + j), FieldValue.prim (v.toNat / 256 ^ j % 256))) ++ vs)

/-- The slots of a scalar-replaced object array, from an index on. -/
inductive DescribesOops :
    ℕ → List (FrameValue Jobject) → List (Place × FieldValue) → Prop
  | nil {i : ℕ} : DescribesOops i [] []
  | cons {i : ℕ} {sv : FrameValue Jobject} {svs : List (FrameValue Jobject)} {r : Ref}
      {vs : List (Place × FieldValue)} : SlotRefers E fr objects sv r →
      DescribesOops (i + 1) svs vs →
      DescribesOops i (sv :: svs) ((elementPlace V E .object i, .ref r) :: vs)

/-- The non-static fields of an instance klass. -/
def nonstaticFields (chain : List (List Field)) : List Field :=
  chain.flatMap fun fields => fields.filter fun f => !f.isStatic && !f.isInternal

/-- The places of an object. -/
def layout (k : K) (length : ℕ) : List Place :=
  match V.shape k with
  | .instanceKlass chain => (nonstaticFields chain).map fun f => (f.offset, f.type)
  | .typeArrayKlass t => (List.range length).map (elementPlace V E t)
  | .objArrayKlass => (List.range length).map (elementPlace V E .object)

/-- A value is in a place, when references are given by `R`. -/
def Holds (R : Word → Ref → Prop) (m : Bytes.Block) (p : Place) : FieldValue → Prop
  | .prim n => p.2.isReference = false ∧ Bytes.get m (p.2.bytes E) p.1 = n
  | .ref r => p.2.isReference = true ∧ R (loadOop E m p.1) r

/-- A description represents an object of the graph. -/
inductive Represents (sv : FrameObject Jobject) (o : DescribedObject K) : Prop
  | stackObject {loc : Location} {n : JInt} : sv.kind = .stackObject →
      sv.location = some loc → fr.inFrame (fr.valueAddr loc.offset) = true →
      sv.fieldLength = some (.constantInt n) →
      (∀ chain, V.shape o.klass = .instanceKlass chain → o.length = 0) →
      ((∀ chain, V.shape o.klass ≠ .instanceKlass chain) →
        n.toInt.toNat = o.length ∧ (mem (fr.valueAddr loc.offset)).length = o.length) →
      (∀ t, V.shape o.klass = .typeArrayKlass t → t.isReference = false) →
      (∀ p v, (p, v) ∈ o.fields →
        Holds E (Refers E fr objects) (mem (fr.valueAddr loc.offset)).bytes p v) →
      Represents sv o
  | scalarInstance {chain : List (List Field)} : sv.kind ≠ .stackObject →
      V.shape o.klass = .instanceKlass chain → o.length = 0 →
      DescribesFields E fr objects (reassignedFields chain) sv.fieldValues o.fields →
      Represents sv o
  | scalarTypeArray {t : BasicType} : sv.kind ≠ .stackObject →
      V.shape o.klass = .typeArrayKlass t → sv.fieldValues.length / t.type2size = o.length →
      DescribesElements V E fr t 0 sv.fieldValues o.fields → Represents sv o
  | scalarObjArray : sv.kind ≠ .stackObject → V.shape o.klass = .objArrayKlass →
      sv.fieldValues.length = o.length → DescribesOops V E fr objects 0 sv.fieldValues o.fields →
      Represents sv o

end

/-- Two places do not overlap. -/
def PlacesDisjoint (E : OopEncoding) (p q : Place) : Prop :=
  p.1 + p.2.bytes E ≤ q.1 ∨ q.1 + q.2.bytes E ≤ p.1

/-- A frame whose objects are described: what its debug information says, and that it says
so. -/
structure DescribedFrame (K Jobject : Type) : Type where
  /-- the klasses -/
  klasses : Klasses K
  /-- the encoding of references -/
  encoding : OopEncoding
  /-- the frame -/
  frame : DeoptFrame Jobject
  /-- the memory, in which the frame's stack objects are -/
  mem : Word → HeapObject K
  /-- the described objects -/
  objects : List (FrameObject Jobject)
  /-- the graph they describe -/
  graph : List (DescribedObject K)
  /-- there is a description of each object of the graph -/
  length_eq : objects.length = graph.length
  /-- the descriptions have the klass of their object -/
  klass : ∀ sv o, (sv, o) ∈ objects.zip graph → klassOf klasses sv = some o.klass
  /-- the descriptions represent the graph -/
  represents : ∀ sv o, (sv, o) ∈ objects.zip graph →
    Represents klasses encoding frame objects mem sv o
  /-- the objects of the graph have the fields of their klass -/
  fields_layout : ∀ o ∈ graph,
    (o.fields.map Prod.fst).Perm (layout klasses encoding o.klass o.length)
  /-- fields do not overlap -/
  disjoint : ∀ o ∈ graph, (o.fields.map Prod.fst).Pairwise (PlacesDisjoint encoding)
  /-- two stack objects are not in one place -/
  locations : ∀ (i j : ℕ) (sv sv' : FrameObject Jobject) (loc loc' : Location),
    objects[i]? = some sv → objects[j]? = some sv' → sv.kind = .stackObject →
      sv'.kind = .stackObject → sv.location = some loc →
    sv'.location = some loc' → loc.offset = loc'.offset → i = j
  /-- `NULL` is not in the frame -/
  null_notInFrame : frame.inFrame 0 = false
  /-- `NULL` can be stored -/
  null_isOopOrNull : encoding.isOopOrNull 0 = true

/-- The allocator as `realloc_objects` uses it: it gives out new heap objects or fails. -/
structure Allocator (E : OopEncoding) {Jobject : Type} (fr : DeoptFrame Jobject) : Type where
  /-- the answer to each request -/
  alloc : ℕ → Option Word
  /-- an object is not at `NULL` -/
  ne_null : ∀ {i a}, alloc i = some a → a ≠ 0
  /-- an object is in the heap -/
  notInFrame : ∀ {i a}, alloc i = some a → fr.inFrame a = false
  /-- references to it can be stored -/
  isOopOrNull : ∀ {i a}, alloc i = some a → E.isOopOrNull a = true
  /-- each object is a new one -/
  fresh : ∀ {i j a}, alloc i = some a → alloc j = some a → i = j

/-! ## References

A reference of the graph leads to another described object or out of them. In the copy it is the
address of the other copy, null if that could not be allocated, or the same word as before. -/

/-- An offset from the stack pointer is found back from the address that it gives. -/
theorem stackOffset_valueAddr {Jobject : Type} (fr : DeoptFrame Jobject) (offset : JInt) :
    (fr.valueAddr offset - fr.spBase).toInt64.toInt32 = offset := by
  have hsub : fr.valueAddr offset - fr.spBase = offset.toInt64.toUInt64 := by
    rw [DeoptFrame.valueAddr, UInt64.add_comm, UInt64.add_sub_cancel]
  rw [hsub]
  exact Int32.toInt32_toInt64 offset

/-- The word of a reference in a copy, given the copies of the described objects. -/
def Ref.target (values : ℕ → Word) : Ref → Word
  | .described j => values j
  | .other w => w

/-! ## Reading scope values

The two functions that read a slot do so in sequence: the first finds the description that an
address in the frame belongs to, the second evaluates it. No copy has an address in the frame, so
the first does not take a copy for a stack object when it is read later. -/

section

variable {Jobject : Type} {E : OopEncoding} {fr : DeoptFrame Jobject}
  {objects : List (FrameObject Jobject)} {values : ℕ → Word}

/-- Two stack objects are not in one place. -/
def PlacesDistinct (objects : List (FrameObject Jobject)) : Prop :=
  ∀ (i j : ℕ) (sv sv' : FrameObject Jobject) (loc loc' : Location),
    objects[i]? = some sv → objects[j]? = some sv' → sv.kind = .stackObject →
    sv'.kind = .stackObject → sv.location = some loc → sv'.location = some loc' →
    loc.offset = loc'.offset → i = j

/-- The address of a stack object leads to its description. -/
theorem matchObjectToStackOop_of_location (hplaces : PlacesDistinct objects) {j : ℕ}
    {o : FrameObject Jobject} {loc : Location} (ho : objects[j]? = some o)
    (hkind : o.kind = .stackObject) (hloc : o.location = some loc) :
    matchObjectToStackOop fr objects (fr.valueAddr loc.offset) = some j := by
  obtain ⟨hj, rfl⟩ := List.getElem?_eq_some_iff.mp ho
  rw [matchObjectToStackOop, List.findIdx?_eq_some_iff_getElem]
  refine ⟨hj, ?_, ?_⟩
  · rw [stackOffset_valueAddr]
    simp [hkind, hloc]
  · intro i hij hi
    rw [stackOffset_valueAddr] at hi
    cases hloc' : objects[i].location with
    | none => simp [hloc'] at hi
    | some loc' =>
      simp only [hloc', Bool.and_eq_true, beq_iff_eq] at hi
      have := hplaces i j _ _ loc' loc (List.getElem?_eq_getElem (by omega)) ho hi.1 hkind
        hloc' hloc hi.2
      omega

/-- `get_scope_value` and `create_stack_value` together find the copy, when the copies are not
in the frame. -/
theorem createStackValue_getScopeValue (hplaces : PlacesDistinct objects)
    (hv : ∀ j, fr.inFrame (values j) = false) {sv : FrameValue Jobject} {r : Ref}
    (h : SlotRefers E fr objects sv r) :
    fr.createStackValue (getScopeValue fr objects values sv) values = .obj (r.target values) := by
  cases h with
  | object _ => rw [getScopeValue, hv, if_neg Bool.false_ne_true, fr.create_object, Ref.target]
  | @oop loc _ htype h =>
    have hcreate := fr.create_oop loc values htype
    rw [getScopeValue, if_pos htype]
    generalize fr.oopAt loc = w at h hcreate ⊢
    cases h with
    | other hin _ =>
      simp only [hin, Bool.false_eq_true, if_false, ite_self]
      exact hcreate
    | described ho hkind hplace hin =>
      have hne : objects.length ≠ 0 := by
        obtain ⟨hj, -⟩ := List.getElem?_eq_some_iff.mp ho
        omega
      rw [if_neg hne, hin, if_pos rfl, matchObjectToStackOop_of_location hplaces ho hkind hplace]
      exact fr.create_object _ values
  | @other sv w hobj hloc hcreate _ _ =>
    have hsame : getScopeValue fr objects values sv = sv := by
      cases sv with
      | location loc => simp [getScopeValue, hloc loc rfl]
      | object j => exact absurd rfl (hobj j)
      | _ => rfl
    rw [hsame, hcreate, Ref.target]

/-- What a reference becomes can be stored, when the copies can. -/
theorem isOopOrNull_target_of_refers (hv : ∀ j, E.isOopOrNull (values j) = true) {w : Word}
    {r : Ref} (h : Refers E fr objects w r) : E.isOopOrNull (r.target values) = true := by
  cases h with
  | other _ hoop => exact hoop
  | described _ _ _ _ => exact hv _

/-- The copy of what a slot refers to is an oop or null, as long as all new values are. -/
theorem isOopOrNull_target (hv : ∀ j, E.isOopOrNull (values j) = true)
    {sv : FrameValue Jobject} {r : Ref} (h : SlotRefers E fr objects sv r) :
    E.isOopOrNull (r.target values) = true := by
  cases h with
  | object _ => exact hv _
  | oop _ href => exact isOopOrNull_target_of_refers hv href
  | other _ _ _ _ hoop => exact hoop

/-- `get_scope_value` does not touch a primitive value. -/
theorem getScopeValue_eq_self {sv : FrameValue Jobject} {v : Word}
    (h : ∀ values, fr.createStackValue sv values = .int v) :
    getScopeValue fr objects values sv = sv := by
  cases sv with
  | location loc =>
    have htype : loc.type ≠ .oop := by
      intro ht
      have := h values
      rw [fr.create_oop loc values ht] at this
      cases this
    simp [getScopeValue, htype]
  | object j =>
    have := h values
    rw [fr.create_object] at this
    cases this
  | _ => rfl

/-! ## One turn of the loops

The equations of the loops, one for each kind of slot: what is stored, and how far the loop goes on.
The proofs below use these and do not unfold the loops. -/

/-- A field that is a reference takes one slot. -/
theorem reassignFields_ref {f : Field} {fs : List Field} {sv : FrameValue Jobject}
    {svs : List (FrameValue Jobject)} {o : Word} {obj : Bytes.Block}
    (hf : f.type.isReference = true)
    (ho : fr.createStackValue (getScopeValue fr objects values sv) values = .obj o) :
    reassignScalarReplacedFieldsByKlass E fr objects values (f :: fs) (sv :: svs) obj =
      reassignScalarReplacedFieldsByKlass E fr objects values fs svs
        (storeOop E obj f.offset o) := by
  rw [reassignScalarReplacedFieldsByKlass, ho]
  cases ht : f.type
  all_goals
    rw [ht] at hf
    first
    | rfl
    | cases hf

/-- A field of one slot that is no reference. An int is asked besides whether its slot is the first
half of a wide value. -/
theorem reassignFields_prim {f : Field} {fs : List Field} {sv : FrameValue Jobject}
    {svs : List (FrameValue Jobject)} {v : Word} {obj : Bytes.Block}
    (hf : f.type.isReference = false) (hsize : f.type.type2size = 1)
    (hv : ∀ values, fr.createStackValue sv values = .int v)
    (hbig : fs.head?.map Field.type = some .int → isBigValue sv svs = false) :
    reassignScalarReplacedFieldsByKlass E fr objects values (f :: fs) (sv :: svs) obj =
      reassignScalarReplacedFieldsByKlass E fr objects values fs svs
        (Bytes.put obj (f.type.bytes E) f.offset v.toNat) := by
  have hno : ¬ (fs.head?.map Field.type = some .int ∧ isBigValue sv svs = true) := by
    rintro ⟨hint, hyes⟩
    rw [hbig hint] at hyes
    cases hyes
  rw [reassignScalarReplacedFieldsByKlass, getScopeValue_eq_self hv, hv]
  simp only [StackValue.getInt, Option.bind_eq_bind, Option.bind_some, if_neg hno]
  cases ht : f.type
  all_goals
    rw [ht] at hf hsize
    first
    | rfl
    | exact absurd hf (by decide)
    | exact absurd hsize (by decide)

/-- A field of two slots is written from the second of them. -/
theorem reassignFields_wide {f : Field} {fs : List Field} {sv low : FrameValue Jobject}
    {svs : List (FrameValue Jobject)} {u v : Word} {obj : Bytes.Block}
    (hsize : f.type.type2size = 2) (hu : ∀ values, fr.createStackValue sv values = .int u)
    (hv : ∀ values, fr.createStackValue low values = .int v) :
    reassignScalarReplacedFieldsByKlass E fr objects values (f :: fs) (sv :: low :: svs) obj =
      reassignScalarReplacedFieldsByKlass E fr objects values fs svs
        (Bytes.put obj 8 f.offset v.toNat) := by
  rw [reassignScalarReplacedFieldsByKlass, getScopeValue_eq_self hu, hu]
  simp only [StackValue.getInt, Option.bind_eq_bind, Option.bind_some, List.head?_cons, hv]
  cases ht : f.type
  all_goals
    rw [ht] at hsize
    first
    | rfl
    | cases hsize

/-- Two ints in one wide slot: the loop takes both fields in one turn. -/
theorem reassignFields_split {f g : Field} {fs : List Field} {sv low : FrameValue Jobject}
    {svs : List (FrameValue Jobject)} {u v : Word} {obj : Bytes.Block}
    (hf : f.type = .int ∨ f.type = .float) (hg : g.type = .int)
    (hbig : isBigValue sv (low :: svs) = true)
    (hu : ∀ values, fr.createStackValue sv values = .int u)
    (hv : ∀ values, fr.createStackValue low values = .int v) :
    reassignScalarReplacedFieldsByKlass E fr objects values (f :: g :: fs) (sv :: low :: svs)
        obj =
      reassignScalarReplacedFieldsByKlass E fr objects values fs svs
        (Bytes.put obj 8 f.offset v.toNat) := by
  rw [reassignScalarReplacedFieldsByKlass, getScopeValue_eq_self hu, hu]
  simp only [StackValue.getInt, Option.bind_eq_bind, Option.bind_some, List.head?_cons, hv,
    hbig, hg, Option.map_some, and_self, if_true]
  rcases hf with hf | hf
  all_goals
    rw [hf]
    rfl

variable {K : Type} {V : Klasses K}

/-- An element of one slot, other than a byte. -/
theorem reassignElements_prim {t : BasicType} {i : ℕ} {sv : FrameValue Jobject}
    {svs : List (FrameValue Jobject)} {v : Word} {obj : Bytes.Block}
    (ht : t.isReference = false) (hbyte : t ≠ .byte) (hsize : t.type2size = 1)
    (hv : ∀ values, fr.createStackValue sv values = .int v)
    (hbig : isBigValue sv svs = false) :
    reassignScalarReplacedTypeArrayElements V E fr values t (sv :: svs) i obj =
      reassignScalarReplacedTypeArrayElements V E fr values t svs (i + 1)
        (Bytes.put obj (t.bytes E) (elementOffset V E t i) v.toNat) := by
  rw [reassignScalarReplacedTypeArrayElements, hv, hbig]
  cases t
  all_goals
    first
    | rfl
    | exact absurd ht (by decide)
    | exact absurd hsize (by decide)
    | exact absurd rfl hbyte
    | simp [StackValue.getInt, BasicType.bytes]

/-- An element of two slots. -/
theorem reassignElements_wide {t : BasicType} {i : ℕ} {sv low : FrameValue Jobject}
    {svs : List (FrameValue Jobject)} {u v : Word} {obj : Bytes.Block}
    (hsize : t.type2size = 2) (hu : ∀ values, fr.createStackValue sv values = .int u)
    (hv : ∀ values, fr.createStackValue low values = .int v) :
    reassignScalarReplacedTypeArrayElements V E fr values t (sv :: low :: svs) i obj =
      reassignScalarReplacedTypeArrayElements V E fr values t svs (i + 1)
        (Bytes.put obj 8 (elementOffset V E t i) v.toNat) := by
  rw [reassignScalarReplacedTypeArrayElements, hu]
  simp only [StackValue.getInt, Option.bind_eq_bind, Option.bind_some, List.head?_cons, hv]
  cases t
  all_goals
    first
    | rfl
    | exact absurd hsize (by decide)

/-- Two int elements in one wide slot. -/
theorem reassignElements_split {i : ℕ} {sv low : FrameValue Jobject}
    {svs : List (FrameValue Jobject)} {u v : Word} {obj : Bytes.Block}
    (hbig : isBigValue sv (low :: svs) = true)
    (hu : ∀ values, fr.createStackValue sv values = .int u)
    (hv : ∀ values, fr.createStackValue low values = .int v) :
    reassignScalarReplacedTypeArrayElements V E fr values .int (sv :: low :: svs) i obj =
      reassignScalarReplacedTypeArrayElements V E fr values .int svs (i + 2)
        (Bytes.put (Bytes.put obj 4 (elementOffset V E .int i) v.toNat) 4
          (elementOffset V E .int (i + 1)) (v.toNat / 256 ^ 4)) := by
  rw [reassignScalarReplacedTypeArrayElements, hu, hbig]
  simp [StackValue.getInt, hv]

/-- The bytes of a virtual byte array that one slot stands for, counted by the markers behind it. -/
theorem countNumberOfBytesForEntry_markers (n : ℕ) {svs : List (FrameValue Jobject)}
    (h : svs.head? ≠ some .marker) :
    countNumberOfBytesForEntry (List.replicate n .marker ++ svs) = n + 1 := by
  rw [countNumberOfBytesForEntry, List.takeWhile_append_of_pos (by simp [isMarker])]
  have hnil : svs.takeWhile isMarker = [] := by
    cases svs with
    | nil => rfl
    | cons sv svs =>
      cases sv with
      | marker => exact absurd rfl h
      | _ => rfl
  rw [hnil, List.append_nil, List.length_replicate, Nat.add_comm]

/-- One slot of a byte array with the markers behind it: all its bytes are written at once. -/
theorem reassignElements_bytes {i n : ℕ} {sv : FrameValue Jobject}
    {svs : List (FrameValue Jobject)} {v : Word} {obj : Bytes.Block}
    (hn : n = 1 ∨ n = 2 ∨ n = 4 ∨ n = 8)
    (hv : ∀ values, fr.createStackValue sv values = .int v)
    (hmarker : svs.head? ≠ some .marker) :
    reassignScalarReplacedTypeArrayElements V E fr values .byte
        (sv :: (List.replicate (n - 1) .marker ++ svs)) i obj =
      reassignScalarReplacedTypeArrayElements V E fr values .byte svs (i + n)
        (Bytes.put obj n (elementOffset V E .byte i) v.toNat) := by
  have hcount := countNumberOfBytesForEntry_markers (n - 1) hmarker
  have hpos : n - 1 + 1 = n := by omega
  rw [hpos] at hcount
  rw [reassignScalarReplacedTypeArrayElements, hv]
  simp only [StackValue.getInt, Option.bind_eq_bind, Option.bind_some, hcount, byteArrayPut,
    if_pos hn]
  rw [List.drop_append_of_le_length (by simp), List.drop_replicate, Nat.sub_self,
    List.replicate_zero, List.nil_append]

end

namespace DescribedFrame

variable {K Jobject : Type} (D : DescribedFrame K Jobject)

/-- The values `realloc_objects` gives descriptions: heap objects, or `NULL`. -/
def HeapValues (values : ℕ → Word) : Prop :=
  ∀ j, D.frame.inFrame (values j) = false ∧ D.encoding.isOopOrNull (values j) = true

variable {D} {values : ℕ → Word}

/-- The address of a stack object leads to its description. -/
theorem matchObjectToStackOop_valueAddr {j : ℕ} {o : FrameObject Jobject} {loc : Location}
    (ho : D.objects[j]? = some o) (hkind : o.kind = .stackObject) (hloc : o.location = some loc) :
    matchObjectToStackOop D.frame D.objects (D.frame.valueAddr loc.offset) = some j :=
  matchObjectToStackOop_of_location D.locations ho hkind hloc

/-- A word that refers to an object is replaced by the address of its copy, or kept if it points out
of the frame. -/
theorem reassignedOop_of_refers {w : Word} {r : Ref}
    (h : Refers D.encoding D.frame D.objects w r) :
    reassignedOop D.frame D.objects values w = r.target values := by
  cases h with
  | other hin _ => rw [reassignedOop, hin, if_neg Bool.false_ne_true, Ref.target]
  | described ho hkind hloc hin =>
    rw [reassignedOop, hin, if_pos rfl,
      matchObjectToStackOop_valueAddr ho hkind hloc, Ref.target]

/-- What it is replaced by is no address of the frame, and an oop or null. -/
theorem target_of_refers {w : Word} {r : Ref} (hv : D.HeapValues values)
    (h : Refers D.encoding D.frame D.objects w r) :
    D.frame.inFrame (r.target values) = false ∧
      D.encoding.isOopOrNull (r.target values) = true := by
  cases h with
  | other hin hoop => exact ⟨hin, hoop⟩
  | described _ _ _ _ => exact hv _

/-- The same for what a slot refers to. -/
theorem target_of_slotRefers {sv : FrameValue Jobject} {r : Ref} (hv : D.HeapValues values)
    (h : SlotRefers D.encoding D.frame D.objects sv r) :
    D.frame.inFrame (r.target values) = false ∧
      D.encoding.isOopOrNull (r.target values) = true := by
  cases h with
  | object _ => exact hv _
  | oop _ h => exact target_of_refers hv h
  | other _ _ _ hin hoop => exact ⟨hin, hoop⟩

/-- `get_scope_value` and `create_stack_value` together find the copy. -/
theorem createStackValue_of_slotRefers {sv : FrameValue Jobject} {r : Ref}
    (hv : D.HeapValues values) (h : SlotRefers D.encoding D.frame D.objects sv r) :
    D.frame.createStackValue (getScopeValue D.frame D.objects values sv) values =
      .obj (r.target values) :=
  createStackValue_getScopeValue D.locations (fun j => (hv j).1) h

/-! ## Writing places

`Wrote` says that some places have their new values and all other bytes are as before. Two such
statements can be put together when the places are apart, so a loop is one induction in which each
turn adds one place. -/

/-- A value is in a place of a copy. -/
def Copied (D : DescribedFrame K Jobject) (values : ℕ → Word) (m : Bytes.Block)
    (pv : Place × FieldValue) : Prop :=
  Holds D.encoding (fun w r => w = r.target values) m pv.1 pv.2

/-- An offset is in a place. -/
def Covers (D : DescribedFrame K Jobject) (p : Place) (i : ℕ) : Prop :=
  p.1 ≤ i ∧ i < p.1 + p.2.bytes D.encoding

/-- Whether a place has been copied depends on the bytes that it covers only. -/
theorem Copied.congr {m m' : Bytes.Block} {pv : Place × FieldValue}
    (h : D.Copied values m pv) (hm : ∀ i, D.Covers pv.1 i → m' i = m i) :
    D.Copied values m' pv := by
  obtain ⟨p, v⟩ := pv
  have hget : Bytes.get m' (p.2.bytes D.encoding) p.1 = Bytes.get m (p.2.bytes D.encoding) p.1 :=
    Bytes.get_congr fun i hi hlt => hm i ⟨hi, hlt⟩
  cases v with
  | prim n => exact ⟨h.1, hget.trans h.2⟩
  | ref r =>
    have hbytes : p.2.bytes D.encoding = D.encoding.size := by
      obtain ⟨hr, -⟩ := h
      cases ht : p.2 <;> simp [ht, BasicType.isReference] at hr <;> rfl
    rw [hbytes] at hget
    refine ⟨h.1, ?_⟩
    rw [loadOop, hget]
    exact h.2

/-- `m'` is `m` with some values written to their places. -/
structure Wrote (D : DescribedFrame K Jobject) (values : ℕ → Word)
    (vs : List (Place × FieldValue)) (m m' : Bytes.Block) : Prop where
  copied : ∀ pv ∈ vs, D.Copied values m' pv
  frame : ∀ i, (∀ pv ∈ vs, ¬ D.Covers pv.1 i) → m' i = m i

theorem Wrote.nil (m : Bytes.Block) : D.Wrote values [] m m :=
  ⟨fun _ h => absurd h List.not_mem_nil, fun _ _ => rfl⟩

/-- Writes to disjoint places compose. -/
theorem Wrote.append {vs ws : List (Place × FieldValue)} {m m₁ m₂ : Bytes.Block}
    (h₁ : D.Wrote values vs m m₁) (h₂ : D.Wrote values ws m₁ m₂)
    (hdisj : ∀ a ∈ vs, ∀ b ∈ ws, PlacesDisjoint D.encoding a.1 b.1) :
    D.Wrote values (vs ++ ws) m m₂ := by
  constructor
  · intro pv hpv
    rcases List.mem_append.mp hpv with hpv | hpv
    · refine (h₁.copied pv hpv).congr fun i hi => h₂.frame i ?_
      rintro qv hqv ⟨hle, hlt⟩
      obtain ⟨hle', hlt'⟩ := hi
      have hd := hdisj pv hpv qv hqv
      rw [PlacesDisjoint] at hd
      omega
    · exact h₂.copied pv hpv
  · intro i hi
    rw [h₂.frame i fun pv hpv => hi pv (List.mem_append_right _ hpv),
      h₁.frame i fun pv hpv => hi pv (List.mem_append_left _ hpv)]

/-- A primitive value is stored. -/
theorem Wrote.prim (m : Bytes.Block) {off n : ℕ} {t : BasicType} (v : ℕ)
    (href : t.isReference = false) (hn : t.bytes D.encoding = n) :
    D.Wrote values [((off, t), .prim (v % 256 ^ n))] m (Bytes.put m n off v) := by
  constructor
  · intro pv hpv
    obtain rfl := List.mem_singleton.mp hpv
    refine ⟨href, ?_⟩
    simp only [hn]
    exact Bytes.get_put_self m n off v
  · intro i hi
    have hnot := hi _ List.mem_cons_self
    simp only [Covers, hn] at hnot
    exact Bytes.put_of_notMem m hnot

/-- A reference is stored. -/
theorem Wrote.ref (m : Bytes.Block) {off : ℕ} {t : BasicType} {r : Ref}
    (href : t.isReference = true) (hoop : D.encoding.isOopOrNull (r.target values) = true) :
    D.Wrote values [((off, t), .ref r)] m (storeOop D.encoding m off (r.target values)) := by
  have hbytes : t.bytes D.encoding = D.encoding.size := by
    cases t <;> first | rfl | cases href
  constructor
  · intro pv hpv
    obtain rfl := List.mem_singleton.mp hpv
    refine ⟨href, ?_⟩
    rw [loadOop, storeOop, Bytes.get_put_self]
    exact D.encoding.decode_encode _ hoop
  · intro i hi
    have hnot := hi _ List.mem_cons_self
    simp only [Covers, hbytes] at hnot
    exact Bytes.put_of_notMem m hnot

/-! ## Scalar-replaced objects

The descriptions of the slots are inductive types with one constructor for each way to write a
value, and the inductions below are on these. Each case is a turn of the loop followed by the
induction hypothesis. -/

/-- The loop over the fields of an instance. -/
abbrev fieldLoop (D : DescribedFrame K Jobject) (values : ℕ → Word) :
    List Field → List (FrameValue Jobject) → Bytes.Block → Option Bytes.Block :=
  reassignScalarReplacedFieldsByKlass D.encoding D.frame D.objects values

/-- The first place is apart from all that are written after it. -/
theorem disjoint_head {p : Place} {v : FieldValue} {vs : List (Place × FieldValue)}
    (h : (((p, v) :: vs).map Prod.fst).Pairwise (PlacesDisjoint D.encoding)) :
    ∀ a ∈ [(p, v)], ∀ b ∈ vs, PlacesDisjoint D.encoding a.1 b.1 := by
  intro a ha b hb
  obtain rfl := List.mem_singleton.mp ha
  exact (List.pairwise_cons.mp h).1 b.1 (List.mem_map_of_mem hb)

/-- The places after the first are apart from one another. -/
theorem disjoint_tail {pv : Place × FieldValue} {vs : List (Place × FieldValue)}
    (h : ((pv :: vs).map Prod.fst).Pairwise (PlacesDisjoint D.encoding)) :
    (vs.map Prod.fst).Pairwise (PlacesDisjoint D.encoding) :=
  (List.pairwise_cons.mp h).2

/-- The types of two slots have eight bytes, and none is a reference. -/
theorem bytes_of_type2size {t : BasicType} (h : t.type2size = 2) :
    t.bytes D.encoding = 8 ∧ t.isReference = false := by
  cases t <;> first | exact ⟨rfl, rfl⟩ | exact absurd h (by decide)

/-- A long over two ints. -/
theorem Wrote.split (m : Bytes.Block) {off : ℕ} {t u : BasicType} (v : ℕ)
    (ht : t = .int ∨ t = .float) (hu : u = .int) :
    D.Wrote values [((off, t), .prim (v % 256 ^ 4)), ((off + 4, u), .prim (v / 256 ^ 4 % 256 ^ 4))]
      m (Bytes.put m 8 off v) := by
  have hget : Bytes.get (Bytes.put m 8 off v) (4 + 4) off = v % 256 ^ (4 + 4) :=
    Bytes.get_put_self m 8 off v
  have htb : t.bytes D.encoding = 4 ∧ t.isReference = false := by
    rcases ht with rfl | rfl <;> exact ⟨rfl, rfl⟩
  subst hu
  constructor
  · intro pv hpv
    simp only [List.mem_cons, List.not_mem_nil, or_false] at hpv
    rcases hpv with rfl | rfl
    · refine ⟨htb.2, ?_⟩
      rw [htb.1, ← Bytes.get_mod _ 4 4, hget]
      omega
    · refine ⟨rfl, ?_⟩
      rw [show BasicType.int.bytes D.encoding = 4 from rfl, ← Bytes.get_div, hget]
      omega
  · intro i hi
    have h₁ := hi _ List.mem_cons_self
    have h₂ := hi _ (List.mem_cons_of_mem _ List.mem_cons_self)
    have hub : BasicType.int.bytes D.encoding = 4 := rfl
    simp only [Covers, htb.1, hub] at h₁ h₂
    exact Bytes.put_of_notMem m (by omega)

/-- The loop over the fields of a scalar replaced object writes all places that are described, each
with its value. The induction is on the description. -/
theorem fieldLoop_wrote {fs : List Field} {svs : List (FrameValue Jobject)}
    {vs : List (Place × FieldValue)} (hv : D.HeapValues values)
    (h : DescribesFields D.encoding D.frame D.objects fs svs vs)
    (hdisj : (vs.map Prod.fst).Pairwise (PlacesDisjoint D.encoding)) :
    ∀ obj, ∃ obj', D.fieldLoop values fs svs obj = some obj' ∧ D.Wrote values vs obj obj' := by
  induction h with
  | nil => exact fun obj => ⟨obj, by rw [fieldLoop, reassignScalarReplacedFieldsByKlass], .nil obj⟩
  | @ref f fs sv svs r vs hf href _ ih =>
    intro obj
    obtain ⟨obj', hrun, hw⟩ := ih (disjoint_tail hdisj)
      (storeOop D.encoding obj f.offset (r.target values))
    refine ⟨obj', ?_,
      (Wrote.ref obj hf (target_of_slotRefers hv href).2).append hw (disjoint_head hdisj)⟩
    exact (reassignFields_ref hf (createStackValue_of_slotRefers hv href)).trans hrun
  | @prim f fs sv svs v vs hf hsize hval hbig _ ih =>
    intro obj
    obtain ⟨obj', hrun, hw⟩ := ih (disjoint_tail hdisj)
      (Bytes.put obj (f.type.bytes D.encoding) f.offset v.toNat)
    refine ⟨obj', ?_, (Wrote.prim obj _ hf rfl).append hw (disjoint_head hdisj)⟩
    exact (reassignFields_prim hf hsize hval fun _ => hbig).trans hrun
  | @wide f fs sv low svs u v vs hsize hu hval _ ih =>
    intro obj
    obtain ⟨hbytes, href⟩ := bytes_of_type2size (D := D) hsize
    obtain ⟨obj', hrun, hw⟩ := ih (disjoint_tail hdisj) (Bytes.put obj 8 f.offset v.toNat)
    refine ⟨obj', ?_, (Wrote.prim obj _ href hbytes).append hw (disjoint_head hdisj)⟩
    exact (reassignFields_wide hsize hu hval).trans hrun
  | @split f g fs sv low svs u v vs hf hg hoff hbig hu hval _ ih =>
    intro obj
    obtain ⟨obj', hrun, hw⟩ := ih (disjoint_tail (disjoint_tail hdisj))
      (Bytes.put obj 8 f.offset v.toNat)
    refine ⟨obj', ?_, Wrote.append (hoff ▸ Wrote.split obj _ hf hg) hw ?_⟩
    · exact (reassignFields_split hf hg hbig hu hval).trans hrun
    · intro a ha b hb
      rcases List.mem_cons.mp ha with rfl | ha
      · exact disjoint_head hdisj _ List.mem_cons_self b (List.mem_cons_of_mem _ hb)
      · exact disjoint_head (disjoint_tail hdisj) a ha b hb

/-- The loop over the elements of a primitive array. -/
abbrev elementLoop (D : DescribedFrame K Jobject) (values : ℕ → Word) (t : BasicType) :
    List (FrameValue Jobject) → ℕ → Bytes.Block → Option Bytes.Block :=
  reassignScalarReplacedTypeArrayElements D.klasses D.encoding D.frame values t

/-- The place of an element. -/
abbrev element (D : DescribedFrame K Jobject) : BasicType → ℕ → ℕ :=
  elementOffset D.klasses D.encoding

/-- Several bytes are stored at once. -/
theorem Wrote.bytes (m : Bytes.Block) (i n v : ℕ) :
    D.Wrote values ((List.range n).map fun j =>
        (elementPlace D.klasses D.encoding .byte (i + j), FieldValue.prim (v / 256 ^ j % 256)))
      m (Bytes.put m n (D.element .byte i) v) := by
  have hplace : ∀ j, D.element .byte (i + j) = D.element .byte i + j := by
    intro j
    simp only [element, elementOffset, BasicType.bytes]
    omega
  constructor
  · intro pv hpv
    obtain ⟨j, hj, rfl⟩ := List.mem_map.mp hpv
    refine ⟨rfl, ?_⟩
    change Bytes.get _ 1 (D.element .byte (i + j)) = _
    rw [hplace, Bytes.get, Bytes.get, Bytes.put_apply m (List.mem_range.mp hj)]
    exact UInt8.toNat_ofNat'
  · intro k hk
    refine Bytes.put_of_notMem m ?_
    rintro ⟨hle, hlt⟩
    refine hk _ (List.mem_map_of_mem (List.mem_range.mpr
      (by omega : k - D.element .byte i < n))) ⟨?_, ?_⟩
    · change D.element .byte (i + (k - D.element .byte i)) ≤ k
      rw [hplace]
      omega
    · change k < D.element .byte (i + (k - D.element .byte i)) + 1
      rw [hplace]
      omega

/-- The loop over the elements of an array of primitives writes them all. -/
theorem elementLoop_wrote (values : ℕ → Word) {t : BasicType} {i : ℕ}
    {svs : List (FrameValue Jobject)}
    {vs : List (Place × FieldValue)} (h : DescribesElements D.klasses D.encoding D.frame t i svs vs)
    (hdisj : (vs.map Prod.fst).Pairwise (PlacesDisjoint D.encoding)) :
    ∀ obj, ∃ obj', D.elementLoop values t svs i obj = some obj' ∧ D.Wrote values vs obj obj' := by
  induction h with
  | nil =>
    exact fun obj => ⟨obj, by rw [elementLoop, reassignScalarReplacedTypeArrayElements], .nil obj⟩
  | @prim i sv svs v vs hf hbyte hsize hval hbig _ ih =>
    intro obj
    obtain ⟨obj', hrun, hw⟩ := ih (disjoint_tail hdisj)
      (Bytes.put obj (t.bytes D.encoding) (D.element t i) v.toNat)
    refine ⟨obj', ?_, (Wrote.prim obj _ hf rfl).append hw (disjoint_head hdisj)⟩
    exact (reassignElements_prim hf hbyte hsize hval hbig).trans hrun
  | @wide i sv low svs u v vs hsize hu hval _ ih =>
    intro obj
    obtain ⟨hbytes, href⟩ := bytes_of_type2size (D := D) hsize
    obtain ⟨obj', hrun, hw⟩ := ih (disjoint_tail hdisj)
      (Bytes.put obj 8 (D.element t i) v.toNat)
    refine ⟨obj', ?_, (Wrote.prim obj _ href hbytes).append hw (disjoint_head hdisj)⟩
    exact (reassignElements_wide hsize hu hval).trans hrun
  | @split i sv low svs u v vs ht hbig hu hval _ ih =>
    intro obj
    subst ht
    obtain ⟨obj', hrun, hw⟩ := ih (disjoint_tail (disjoint_tail hdisj))
      (Bytes.put (Bytes.put obj 4 (D.element .int i) v.toNat) 4 (D.element .int (i + 1))
        (v.toNat / 256 ^ 4))
    refine ⟨obj', ?_, ?_⟩
    · exact (reassignElements_split hbig hu hval).trans hrun
    · have hw' := (Wrote.prim _ _ rfl rfl).append hw (disjoint_head (disjoint_tail hdisj))
      exact (Wrote.prim obj _ rfl rfl).append hw' (disjoint_head hdisj)
  | @bytes i n sv svs v vs ht hn hval hmarker _ ih =>
    intro obj
    subst ht
    rw [List.map_append, List.pairwise_append] at hdisj
    obtain ⟨obj', hrun, hw⟩ := ih hdisj.2.1 (Bytes.put obj n (D.element .byte i) v.toNat)
    refine ⟨obj', ?_, (Wrote.bytes obj i n _).append hw fun a ha b hb =>
      hdisj.2.2 _ (List.mem_map_of_mem ha) _ (List.mem_map_of_mem hb)⟩
    exact (reassignElements_bytes hn hval hmarker).trans hrun

/-- The loop over the elements of an array of references writes the copy of each. -/
theorem oopLoop_wrote {i : ℕ} {svs : List (FrameValue Jobject)}
    {vs : List (Place × FieldValue)} (hv : D.HeapValues values)
    (h : DescribesOops D.klasses D.encoding D.frame D.objects i svs vs)
    (hdisj : (vs.map Prod.fst).Pairwise (PlacesDisjoint D.encoding)) :
    ∀ obj, ∃ obj', reassignScalarReplacedObjectArrayElements D.klasses D.encoding D.frame D.objects
      values svs i obj = some obj' ∧ D.Wrote values vs obj obj' := by
  induction h with
  | nil => exact fun obj => ⟨obj, rfl, .nil obj⟩
  | @cons i sv svs r vs href _ ih =>
    intro obj
    obtain ⟨obj', hrun, hw⟩ := ih (disjoint_tail hdisj)
      (storeOop D.encoding obj (D.element .object i) (r.target values))
    refine ⟨obj', ?_,
      (Wrote.ref obj rfl (target_of_slotRefers hv href).2).append hw (disjoint_head hdisj)⟩
    rw [reassignScalarReplacedObjectArrayElements, createStackValue_of_slotRefers hv href]
    exact hrun

end DescribedFrame

end StackAllocation
