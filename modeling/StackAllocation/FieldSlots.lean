import StackAllocation.ObjectCopies
import StackAllocation.ObjectPools

/-!
# The slots of a scalar-replaced object

`FillLocArray` writes the field values of a scalar-replaced object as a list of
slots; it writes two for a long or double and one for anything else, going by the
type of the value and by the kind of a constant. Deoptimization reads them back by
the declared types of the fields, except that an int or float field followed by an
int field may turn out to be the first half of a long.

The two agree because each value takes as many slots as the type of its field
(`SlotsOf`), and because the first slot of a value never looks like the second half
of a long (`startsValue`), so that two neighbours are never taken for one value.

`StackValue::create_stack_value` is not part of the sources; `ScopeReader` says what
it makes of a slot.
-/

namespace StackAllocation

/-! ## Storing values

The heap object is filled in place by place. Places do not overlap, so a value that was stored is
still there when the others have been stored, and the order of the stores does not matter. -/

section

variable (E : OopEncoding) (values : ℕ → Word)

/-- A value is stored in a place. -/
def storeValue (obj : Bytes.Block) (p : Place) : FieldValue → Bytes.Block
  | .prim n => Bytes.put obj (p.2.bytes E) p.1 n
  | .ref r => storeOop E obj p.1 (r.target values)

/-- Values are stored one after the other. -/
def storeValues (pvs : List (Place × FieldValue)) (obj : Bytes.Block) : Bytes.Block :=
  pvs.foldl (fun obj pv => storeValue E values obj pv.1 pv.2) obj

/-- A value that fits the type. -/
def FitsIn (t : BasicType) : FieldValue → Prop
  | .prim n => t.isReference = false ∧ n < 256 ^ t.bytes E
  | .ref r => t.isReference = true ∧ E.isOopOrNull (r.target values) = true

/-- A value is in a place, where a described object is its copy. -/
abbrev HoldsValue (obj : Bytes.Block) (p : Place) (v : FieldValue) : Prop :=
  Holds E (fun w r => w = r.target values) obj p v

variable {E values}

/-- A reference has the size of an oop in the heap, narrow or not. -/
theorem bytes_of_isReference {t : BasicType} (h : t.isReference = true) : t.bytes E = E.size := by
  cases t
  all_goals
    first
    | rfl
    | exact absurd h (by decide)

/-- A value of two slots has eight bytes, and is no reference. -/
theorem bytes_of_wide {t : BasicType} (h : t.type2size = 2) :
    t.bytes E = 8 ∧ t.isReference = false := by
  cases t
  all_goals
    first
    | exact ⟨rfl, rfl⟩
    | exact absurd h (by decide)

/-- A value that is stored leaves the bytes of all other places. -/
theorem storeValue_of_notCovers {obj : Bytes.Block} {p : Place} {v : FieldValue} {i : ℕ}
    (hv : FitsIn E values p.2 v) (hi : ¬ (p.1 ≤ i ∧ i < p.1 + p.2.bytes E)) :
    storeValue E values obj p v i = obj i := by
  cases v with
  | prim n => exact Bytes.put_of_notMem obj hi
  | ref r =>
    rw [bytes_of_isReference hv.1] at hi
    exact Bytes.put_of_notMem obj hi

/-- The place has the value that was stored. -/
theorem holds_storeValue {obj : Bytes.Block} {p : Place} {v : FieldValue}
    (hv : FitsIn E values p.2 v) : HoldsValue E values (storeValue E values obj p v) p v := by
  cases v with
  | prim n =>
    refine ⟨hv.1, ?_⟩
    rw [storeValue, Bytes.get_put_self, Nat.mod_eq_of_lt hv.2]
  | ref r =>
    refine ⟨hv.1, ?_⟩
    rw [storeValue, loadOop, storeOop, Bytes.get_put_self]
    exact E.decode_encode _ hv.2

/-- Whether it has depends on its bytes. -/
theorem HoldsValue.congr {obj obj' : Bytes.Block} {p : Place} {v : FieldValue}
    (h : HoldsValue E values obj p v)
    (hsame : ∀ i, p.1 ≤ i → i < p.1 + p.2.bytes E → obj' i = obj i) :
    HoldsValue E values obj' p v := by
  have hget : Bytes.get obj' (p.2.bytes E) p.1 = Bytes.get obj (p.2.bytes E) p.1 :=
    Bytes.get_congr hsame
  cases v with
  | prim n => exact ⟨h.1, hget.trans h.2⟩
  | ref r =>
    rw [bytes_of_isReference h.1] at hget
    refine ⟨h.1, ?_⟩
    rw [loadOop, hget]
    exact h.2

/-- Nothing is written outside the places. -/
theorem storeValues_of_notCovers {pvs : List (Place × FieldValue)} {obj : Bytes.Block} {i : ℕ}
    (hfit : ∀ pv ∈ pvs, FitsIn E values pv.1.2 pv.2)
    (hi : ∀ pv ∈ pvs, ¬ (pv.1.1 ≤ i ∧ i < pv.1.1 + pv.1.2.bytes E)) :
    storeValues E values pvs obj i = obj i := by
  induction pvs generalizing obj with
  | nil => rfl
  | cons pv pvs ih =>
    have htail : storeValues E values pvs (storeValue E values obj pv.1 pv.2) i =
        storeValue E values obj pv.1 pv.2 i :=
      ih (fun qv hqv => hfit qv (List.mem_cons_of_mem _ hqv))
        (fun qv hqv => hi qv (List.mem_cons_of_mem _ hqv))
    exact htail.trans
      (storeValue_of_notCovers (hfit pv List.mem_cons_self) (hi pv List.mem_cons_self))

/-- Values stored in disjoint places are all there. -/
theorem holds_storeValues {pvs : List (Place × FieldValue)} {obj : Bytes.Block}
    (hfit : ∀ pv ∈ pvs, FitsIn E values pv.1.2 pv.2)
    (hdisj : (pvs.map Prod.fst).Pairwise (PlacesDisjoint E)) :
    ∀ pv ∈ pvs, HoldsValue E values (storeValues E values pvs obj) pv.1 pv.2 := by
  induction pvs generalizing obj with
  | nil => exact fun pv h => absurd h List.not_mem_nil
  | cons pv pvs ih =>
    obtain ⟨hhead, htail⟩ := List.pairwise_cons.1 hdisj
    have hfit' : ∀ qv ∈ pvs, FitsIn E values qv.1.2 qv.2 :=
      fun qv hqv => hfit qv (List.mem_cons_of_mem _ hqv)
    intro qv hqv
    rcases List.mem_cons.1 hqv with rfl | hqv
    · have hstored : HoldsValue E values (storeValue E values obj qv.1 qv.2) qv.1 qv.2 :=
        holds_storeValue (hfit qv List.mem_cons_self)
      refine hstored.congr fun i hle hlt => storeValues_of_notCovers hfit' ?_
      rintro rv hrv ⟨hle', hlt'⟩
      have hd := hhead rv.1 (List.mem_map_of_mem hrv)
      rw [PlacesDisjoint] at hd
      omega
    · exact ih hfit' htail qv hqv

end

/-! ## Reading slots

`create_stack_value` goes by the kind of the location and knows nothing of the type of the field.
What it makes of each kind is a field of `ScopeReader`: the value, up to the bytes that the field
does not have. -/

/-- How the VM reads the slots of a C2 frame once the described objects have their copies:
what registers and stack slots hold, and what `StackValue::create_stack_value` makes of
it. -/
structure ScopeReader (E : OopEncoding) (Jobject : Type) : Type where
  /-- the frame -/
  frame : DeoptFrame (Option Jobject)
  /-- the descriptions of the frame -/
  objects : List (WrittenObject Jobject)
  /-- the copies -/
  values : ℕ → Word
  /-- the eight bytes in a register or stack slot -/
  contents : OptoReg → Word
  /-- the reference in a register or stack slot of a compressed one -/
  narrowOop : OptoReg → Word
  /-- the bits of `(jfloat) d` -/
  floatOfDouble : Word → Word
  /-- `JNIHandles::resolve`, for a constant -/
  resolve : Option Jobject → Word
  create_normal : ∀ reg, ∃ v, (∀ values, frame.createStackValue (newLocValue reg .normal) values =
    .int v) ∧ v.toNat % 256 ^ 4 = (contents reg).toNat % 256 ^ 4
  create_intInLong : ∀ reg, ∃ v, (∀ values, frame.createStackValue (newLocValue reg .intInLong)
    values = .int v) ∧ v.toNat % 256 ^ 4 = (contents reg).toNat % 256 ^ 4
  create_floatInDbl : ∀ reg, ∃ v, (∀ values, frame.createStackValue (newLocValue reg .floatInDbl)
    values = .int v) ∧ v.toNat % 256 ^ 4 = (floatOfDouble (contents reg)).toNat % 256 ^ 4
  create_lng : ∀ reg values, frame.createStackValue (newLocValue reg .lng) values =
    .int (contents reg)
  create_dbl : ∀ reg values, frame.createStackValue (newLocValue reg .dbl) values =
    .int (contents reg)
  create_narrowoop : ∀ reg values, frame.createStackValue (newLocValue reg .narrowoop) values =
    .obj (narrowOop reg)
  create_constantInt : ∀ c, ∃ v, (∀ values, frame.createStackValue (.constantInt c) values =
    .int v) ∧ v.toNat % 256 ^ 4 = c.toUInt32.toNat
  create_constantLong : ∀ c values, frame.createStackValue (.constantLong c) values =
    .int c.toUInt64
  create_constantDouble : ∀ d values, frame.createStackValue (.constantDouble d) values = .int d
  create_constantOop : ∀ w values, frame.createStackValue (.constantOopRead w) values = .obj w
  /-- two stack objects are not in one place -/
  places : PlacesDistinct objects
  /-- copies and constants are heap objects or `NULL` -/
  values_heap : ∀ j, frame.inFrame (values j) = false ∧ E.isOopOrNull (values j) = true
  resolve_heap : ∀ o, frame.inFrame (resolve o) = false ∧ E.isOopOrNull (resolve o) = true

/-- A type of field or element whose values are ints. -/
def IsIntType (t : BasicType) : Prop :=
  t = .boolean ∨ t = .char ∨ t = .byte ∨ t = .short ∨ t = .int

/-- The types that are kept as ints have at most four bytes. -/
theorem IsIntType.bytes_le {t : BasicType} (h : IsIntType t) (E : OopEncoding) :
    t.isReference = false ∧ t.type2size = 1 ∧ t.bytes E ≤ 4 := by
  rcases h with rfl | rfl | rfl | rfl | rfl <;> exact ⟨rfl, rfl, by simp [BasicType.bytes]⟩

/-- Not the second half of a long or double, nor a part of a wider value. -/
def startsValue {Jobject : Type} : FrameValue Jobject → Bool
  | .constantLong _ | .constantDouble _ | .marker => false
  | _ => true

/-- A slot that is not the first of a long, whatever value follows. -/
def NeverBig {Jobject : Type} (sv : FrameValue Jobject) : Prop :=
  ∀ svs, svs.head?.all startsValue = true → isBigValue sv svs = false

/-- A constant int is not the first half of a wide value. -/
theorem neverBig_constantInt {Jobject : Type} (c : JInt) :
    NeverBig (.constantInt c : FrameValue Jobject) := by
  intro svs h
  cases svs with
  | nil => rfl
  | cons sv svs =>
    cases sv
    all_goals
      first
      | rfl
      | exact absurd h (by simp [startsValue])

/-- Nor is a location, unless it is that of a long or a double. -/
theorem neverBig_newLocValue {Jobject : Type} (reg : OptoReg) {type : LocationType}
    (hdbl : type ≠ .dbl) (hlng : type ≠ .lng) :
    NeverBig (newLocValue reg type : WrittenValue Jobject) := by
  intro svs _
  cases type
  all_goals
    first
    | rfl
    | exact absurd rfl hdbl
    | exact absurd rfl hlng

namespace ScopeReader

variable {E : OopEncoding} {Jobject : Type} (R : ScopeReader E Jobject)

/-- A slot as the VM has it: a handle in a constant is replaced by the oop. -/
def readBack : WrittenValue Jobject → WrittenValue Jobject
  | .constantOopWrite o => .constantOopRead (R.resolve o)
  | sv => sv

/-- The bits of the int or float in a register or stack slot. -/
def wordIn (P : DebugPlatform) (base : ValueBase) (reg : OptoReg) : Word :=
  if base = .float ∧ reg.isReg = true ∧ P.floatInDouble = true then
    R.floatOfDouble (R.contents reg)
  else R.contents reg

/-- What a node is worth as a field or element of some type. A scalar object is the copy
of its entry in the pool. -/
inductive HasValue (P : DebugPlatform) (pool : List (WrittenObject Jobject)) :
    BasicType → DebugNode Jobject → FieldValue → Prop
  | int {t : BasicType} (ht : IsIntType t) (reg : OptoReg) (con : Option (Option Jobject)) :
      HasValue P pool t (.allocated .int reg false con)
        (.prim ((R.wordIn P .int reg).toNat % 256 ^ t.bytes E))
  | intCon {t : BasicType} (ht : IsIntType t) (c : JInt) :
      HasValue P pool t (.constant (.int c)) (.prim (c.toUInt32.toNat % 256 ^ t.bytes E))
  | float (reg : OptoReg) (con : Option (Option Jobject)) :
      HasValue P pool .float (.allocated .float reg false con)
        (.prim ((R.wordIn P .float reg).toNat % 256 ^ 4))
  | floatCon (bits : JInt) :
      HasValue P pool .float (.constant (.floatCon bits)) (.prim bits.toUInt32.toNat)
  | long (reg : OptoReg) (isOop : Bool) (con : Option (Option Jobject)) :
      HasValue P pool .long (.allocated .long reg isOop con) (.prim (R.contents reg).toNat)
  | longCon (c : JLong) : HasValue P pool .long (.constant (.long c)) (.prim c.toUInt64.toNat)
  | double (reg : OptoReg) (isOop : Bool) (con : Option (Option Jobject)) :
      HasValue P pool .double (.allocated .double reg isOop con) (.prim (R.contents reg).toNat)
  | doubleCon (d : JDouble) : HasValue P pool .double (.constant (.doubleCon d)) (.prim d.toNat)
  | object {t : BasicType} (ht : t.isReference = true) {idx : JInt} {j : ℕ}
      (hj : svForNodeId pool idx = some j) :
      HasValue P pool t (.scalarObject idx) (.ref (.described j))
  | oop {t : BasicType} (ht : t.isReference = true) (reg : OptoReg)
      (con : Option (Option Jobject)) {r : Ref}
      (hr : Refers E R.frame R.objects (R.frame.oopAt ⟨!reg.isReg, .oop, reg.number⟩) r) :
      HasValue P pool t (.allocated .pointer reg true con) (.ref r)
  | narrowOop {t : BasicType} (ht : t.isReference = true) (reg : OptoReg) (isOop : Bool)
      (con : Option (Option Jobject)) (hframe : R.frame.inFrame (R.narrowOop reg) = false)
      (hoop : E.isOopOrNull (R.narrowOop reg) = true) :
      HasValue P pool t (.allocated .narrowOop reg isOop con) (.ref (.other (R.narrowOop reg)))
  | null {t : BasicType} (ht : t.isReference = true) :
      HasValue P pool t (.constant .anyPtr) (.ref (.other (R.resolve none)))
  | oopCon {t : BasicType} (ht : t.isReference = true) (oop : Jobject) :
      HasValue P pool t (.constant (.oopPtr oop)) (.ref (.other (R.resolve (some oop))))
  | narrowOopCon {t : BasicType} (ht : t.isReference = true) (oop : Option Jobject) :
      HasValue P pool t (.constant (.narrowOop oop)) (.ref (.other (R.resolve oop)))

/-- The slots of a value of some type, as the VM has them. -/
inductive SlotsOf : BasicType → List (WrittenValue Jobject) → FieldValue → Prop
  | ref {t : BasicType} {sv : WrittenValue Jobject} {r : Ref} (ht : t.isReference = true)
      (hr : SlotRefers E R.frame R.objects sv r) : SlotsOf t [sv] (.ref r)
  | prim {t : BasicType} {sv : WrittenValue Jobject} {v : Word} (ht : t.isReference = false)
      (hsize : t.type2size = 1) (hv : ∀ values, R.frame.createStackValue sv values = .int v)
      (hstart : startsValue sv = true) (hbig : NeverBig sv) :
      SlotsOf t [sv] (.prim (v.toNat % 256 ^ t.bytes E))
  | wide {t : BasicType} {sv low : WrittenValue Jobject} {u v : Word} (hsize : t.type2size = 2)
      (hu : ∀ values, R.frame.createStackValue sv values = .int u)
      (hv : ∀ values, R.frame.createStackValue low values = .int v) :
      SlotsOf t [sv, low] (.prim v.toNat)

variable {R}

/-- A reference takes one slot. -/
theorem type2size_of_isReference {t : BasicType} (h : t.isReference = true) :
    t.type2size = 1 := by
  cases t
  all_goals
    first
    | rfl
    | exact absurd h (by decide)

/-- A value takes as many slots as its type. -/
theorem SlotsOf.length_eq {t : BasicType} {slots : List (WrittenValue Jobject)} {v : FieldValue}
    (h : R.SlotsOf t slots v) : slots.length = t.type2size := by
  cases h with
  | ref ht _ => exact (type2size_of_isReference ht).symm
  | prim _ hsize _ _ _ => exact hsize.symm
  | wide hsize _ _ => exact hsize.symm

/-- A value that slots describe fits in its place. -/
theorem SlotsOf.fitsIn {t : BasicType} {slots : List (WrittenValue Jobject)} {v : FieldValue}
    (h : R.SlotsOf t slots v) : FitsIn E R.values t v := by
  cases h with
  | ref ht hr => exact ⟨ht, isOopOrNull_target (fun j => (R.values_heap j).2) hr⟩
  | prim ht _ _ _ _ => exact ⟨ht, Nat.mod_lt _ (Nat.pow_pos (by decide))⟩
  | @wide _ _ _ v hsize _ _ =>
    obtain ⟨hbytes, href⟩ := @bytes_of_wide E _ hsize
    refine ⟨href, ?_⟩
    rw [hbytes]
    exact v.toNat_lt

/-- The first slot of a value does not look like the second half of a long. -/
theorem SlotsOf.starts {t : BasicType} {slots : List (WrittenValue Jobject)} {v : FieldValue}
    (h : R.SlotsOf t slots v) (ht : t.isReference = false) (hsize : t.type2size = 1)
    (rest : List (WrittenValue Jobject)) : (slots ++ rest).head?.all startsValue = true := by
  cases h with
  | ref hoop _ =>
    rw [ht] at hoop
    cases hoop
  | prim _ _ _ hstart _ => exact hstart
  | @wide _ _ _ _ htwo _ _ =>
    rw [hsize] at htwo
    cases htwo

/-- A slot is read as a word with the right low bytes. -/
theorem slotsOf_prim {t : BasicType} {sv : WrittenValue Jobject} {n : ℕ}
    (ht : t.isReference = false) (hsize : t.type2size = 1) (hbytes : t.bytes E ≤ 4)
    (hsv : ∃ v, (∀ values, R.frame.createStackValue sv values = .int v) ∧
      v.toNat % 256 ^ 4 = n % 256 ^ 4)
    (hstart : startsValue sv = true) (hbig : NeverBig sv) :
    R.SlotsOf t [sv] (.prim (n % 256 ^ t.bytes E)) := by
  obtain ⟨v, hv, hmod⟩ := hsv
  have hdvd : 256 ^ t.bytes E ∣ 256 ^ 4 := Nat.pow_dvd_pow 256 hbytes
  have hlow : v.toNat % 256 ^ t.bytes E = n % 256 ^ t.bytes E := by
    rw [← Nat.mod_mod_of_dvd v.toNat hdvd, hmod, Nat.mod_mod_of_dvd n hdvd]
  rw [← hlow]
  exact .prim ht hsize hv hstart hbig

/-- The slot of an int in a register or stack slot. -/
theorem slotsOf_int (P : DebugPlatform) {t : BasicType} (ht : IsIntType t) (reg : OptoReg) :
    R.SlotsOf t (registerEntries P .int reg false)
      (.prim ((R.wordIn P .int reg).toNat % 256 ^ t.bytes E)) := by
  obtain ⟨href, hsize, hbytes⟩ := ht.bytes_le E
  have hword : R.wordIn P .int reg = R.contents reg := if_neg fun h => by cases h.1
  have hnormal : R.SlotsOf t [newLocValue reg .normal]
      (.prim ((R.contents reg).toNat % 256 ^ t.bytes E)) :=
    slotsOf_prim href hsize hbytes (R.create_normal reg) rfl
      (neverBig_newLocValue reg (by decide) (by decide))
  rw [hword, registerEntries]
  split
  · split
    · exact slotsOf_prim href hsize hbytes (R.create_intInLong reg) rfl
        (neverBig_newLocValue reg (by decide) (by decide))
    · exact hnormal
  · exact hnormal

/-- The slot of a float in a register or stack slot. -/
theorem slotsOf_float (P : DebugPlatform) (reg : OptoReg) :
    R.SlotsOf .float (registerEntries P .float reg false)
      (.prim ((R.wordIn P .float reg).toNat % 256 ^ 4)) := by
  have hnormal : R.SlotsOf .float [newLocValue reg .normal]
      (.prim ((R.contents reg).toNat % 256 ^ 4)) :=
    slotsOf_prim rfl rfl (Nat.le_refl 4) (R.create_normal reg) rfl
      (neverBig_newLocValue reg (by decide) (by decide))
  rw [registerEntries, wordIn]
  by_cases hreg : reg.isReg = true
  · rw [if_pos hreg]
    by_cases hdouble : P.floatInDouble = true
    · rw [if_pos hdouble, if_pos ⟨rfl, hreg, hdouble⟩]
      exact slotsOf_prim rfl rfl (Nat.le_refl 4) (R.create_floatInDbl reg) rfl
        (neverBig_newLocValue reg (by decide) (by decide))
    · rw [if_neg hdouble, if_neg fun h => hdouble h.2.2]
      exact hnormal
  · have hcontents : ¬ (ValueBase.float = .float ∧ reg.isReg = true ∧ P.floatInDouble = true) :=
      fun h => hreg h.2.1
    rw [if_neg hreg, if_neg hcontents]
    exact hnormal

/-- The slot of a constant that is an int. -/
theorem slotsOf_constantInt {t : BasicType} (ht : t.isReference = false) (hsize : t.type2size = 1)
    (hbytes : t.bytes E ≤ 4) (c : JInt) :
    R.SlotsOf t [.constantInt c] (.prim (c.toUInt32.toNat % 256 ^ t.bytes E)) := by
  refine slotsOf_prim ht hsize hbytes ?_ rfl (neverBig_constantInt c)
  obtain ⟨v, hv, hmod⟩ := R.create_constantInt c
  exact ⟨v, hv, hmod.trans (Nat.mod_eq_of_lt c.toUInt32.toNat_lt).symm⟩

/-- The slots of a long or double: a filler and the value. -/
theorem slotsOf_wide {t : BasicType} {low : WrittenValue Jobject} {v : Word}
    (hsize : t.type2size = 2) (hv : ∀ values, R.frame.createStackValue low values = .int v) :
    R.SlotsOf t [.constantInt 0, low] (.prim v.toNat) := by
  obtain ⟨u, hu, -⟩ := R.create_constantInt 0
  exact .wide hsize hu hv

/-- The slot of a constant reference. -/
theorem slotsOf_constantOop {t : BasicType} (ht : t.isReference = true) (oop : Option Jobject) :
    R.SlotsOf t [.constantOopRead (R.resolve oop)] (.ref (.other (R.resolve oop))) :=
  .ref ht (.other nofun nofun (R.create_constantOop (R.resolve oop)) (R.resolve_heap oop).1
    (R.resolve_heap oop).2)

/-- A value takes the slots of its type, as read back. -/
theorem HasValue.slotsOf {sfpt : MachSafePoint Jobject} {pool : List (WrittenObject Jobject)}
    (hpool : pool.length ≤ R.objects.length) {t : BasicType} {node : DebugNode Jobject}
    {v : FieldValue} (h : R.HasValue sfpt.platform pool t node v) :
    R.SlotsOf t ((sfpt.nodeValues pool node).map R.readBack) v := by
  cases h with
  | int ht reg con =>
    have hsame : (registerEntries sfpt.platform .int reg false).map R.readBack =
        registerEntries sfpt.platform .int reg false := by
      rw [registerEntries]
      split <;> rfl
    rw [MachSafePoint.nodeValues, hsame]
    exact slotsOf_int sfpt.platform ht reg
  | intCon ht c =>
    obtain ⟨href, hsize, hbytes⟩ := ht.bytes_le E
    exact slotsOf_constantInt href hsize hbytes c
  | float reg con =>
    have hsame : (registerEntries sfpt.platform .float reg false).map R.readBack =
        registerEntries sfpt.platform .float reg false := by
      rw [registerEntries]
      split <;> rfl
    rw [MachSafePoint.nodeValues, hsame]
    exact slotsOf_float sfpt.platform reg
  | floatCon bits =>
    have hfits : bits.toUInt32.toNat % 256 ^ 4 = bits.toUInt32.toNat :=
      Nat.mod_eq_of_lt bits.toUInt32.toNat_lt
    have hslots : R.SlotsOf .float [.constantInt bits]
        (.prim (bits.toUInt32.toNat % 256 ^ BasicType.float.bytes E)) :=
      @slotsOf_constantInt E Jobject R .float rfl rfl (Nat.le_refl 4) bits
    rw [← hfits]
    exact hslots
  | long reg isOop con => exact slotsOf_wide rfl (R.create_lng reg)
  | longCon c => exact slotsOf_wide rfl (R.create_constantLong c)
  | double reg isOop con => exact slotsOf_wide rfl (R.create_dbl reg)
  | doubleCon d => exact slotsOf_wide rfl (R.create_constantDouble d)
  | @object t ht idx j hj =>
    obtain ⟨hlt, -⟩ := List.findIdx?_eq_some_iff_getElem.1 hj
    rw [MachSafePoint.nodeValues, hj]
    exact .ref ht (.object (hlt.trans_le hpool))
  | oop ht reg con hr => exact .ref ht (.oop rfl hr)
  | narrowOop ht reg isOop con hframe hoop =>
    refine .ref ht (.other (fun _ h => by cases h) ?_ (R.create_narrowoop reg) hframe hoop)
    rintro loc ⟨⟩ hkind
    cases hkind
  | null ht => exact slotsOf_constantOop ht none
  | oopCon ht oop => exact slotsOf_constantOop ht (some oop)
  | narrowOopCon ht oop => exact slotsOf_constantOop ht oop

end ScopeReader

/-! ## Reading the slots of an object

The loops take a slot, look at the type of the field or element, and go on by one slot or two. For
an int they also look at the slot behind, since a long may have been stored over two ints; so the
first slot of the next value must not look like the second half of a long. -/

section

variable {K Jobject : Type} (V : Klasses K) (E : OopEncoding) (fr : DeoptFrame Jobject)
  (objects : List (FrameObject Jobject)) (values : ℕ → Word)

/-- The places of an object that are filled in, in the order of the slots; `n` is the
length of an array. -/
def slotPlaces (shape : KlassShape) (n : ℕ) : List Place :=
  match shape with
  | .instanceKlass chain => (reassignedFields chain).map fun f => (f.offset, f.type)
  | .typeArrayKlass t => (List.range n).map (elementPlace V E t)
  | .objArrayKlass => (List.range n).map (elementPlace V E .object)

/-- The loop for the klass of an object, from the field or element `i` on. -/
def reassignFrom (shape : KlassShape) (i : ℕ) (slots : List (FrameValue Jobject))
    (obj : Bytes.Block) : Option Bytes.Block :=
  match shape with
  | .instanceKlass chain =>
    reassignScalarReplacedFieldsByKlass E fr objects values ((reassignedFields chain).drop i) slots
      obj
  | .typeArrayKlass t => reassignScalarReplacedTypeArrayElements V E fr values t slots i obj
  | .objArrayKlass => reassignScalarReplacedObjectArrayElements V E fr objects values slots i obj

/-- The fields of an object are reassigned by the routine for its kind: by class, by elements of a
primitive type or by references. -/
theorem reassignScalarReplacedFields_eq (sv : FrameObject Jobject) (k : K) (obj : Bytes.Block) :
    reassignScalarReplacedFields V E fr objects values sv k obj =
      reassignFrom V E fr objects values (V.shape k) 0 sv.fieldValues obj := by
  rw [reassignScalarReplacedFields]
  cases V.shape k <;> rfl

/-- At the end, there is nothing left to read. -/
theorem reassignFrom_nil {shape : KlassShape} {n : ℕ}
    (hn : (slotPlaces V E shape n).length ≤ n) (obj : Bytes.Block) :
    reassignFrom V E fr objects values shape n [] obj = some obj := by
  cases shape with
  | instanceKlass chain =>
    rw [slotPlaces, List.length_map] at hn
    rw [reassignFrom, List.drop_eq_nil_of_le hn, reassignScalarReplacedFieldsByKlass]
  | typeArrayKlass t => rw [reassignFrom, reassignScalarReplacedTypeArrayElements]
  | objArrayKlass => rw [reassignFrom, reassignScalarReplacedObjectArrayElements]

end

namespace ScopeReader

variable {K Jobject : Type} {V : Klasses K} {E : OopEncoding} {R : ScopeReader E Jobject}

/-- The fields of a class: the slots of the first one are taken off, and its value is stored. The
next slot must not look like the second half of a wide value. -/
theorem reassignFields_slots {f : Field} {fs : List Field}
    {slots rest : List (WrittenValue Jobject)}
    {v : FieldValue} (h : R.SlotsOf f.type slots v)
    (hnext : fs.head?.map Field.type = some .int → rest.head?.all startsValue = true)
    (obj : Bytes.Block) :
    reassignScalarReplacedFieldsByKlass E R.frame R.objects R.values (f :: fs) (slots ++ rest) obj =
      reassignScalarReplacedFieldsByKlass E R.frame R.objects R.values fs rest
        (storeValue E R.values obj (f.offset, f.type) v) := by
  generalize ht : f.type = t at h
  cases h with
  | ref href hr =>
    exact reassignFields_ref (ht ▸ href)
      (createStackValue_getScopeValue R.places (fun j => (R.values_heap j).1) hr)
  | @prim sv w href hsize hv _ hbig =>
    rw [storeValue, ← ht, Bytes.put_mod]
    exact reassignFields_prim (ht ▸ href) (ht ▸ hsize) hv fun hint => hbig rest (hnext hint)
  | @wide sv low u w hsize hu hv =>
    have hbytes : t.bytes E = 8 := (bytes_of_wide hsize).1
    rw [storeValue, hbytes]
    exact reassignFields_wide (ht ▸ hsize) hu hv

/-- The elements of an array of primitives, in the same way. -/
theorem reassignElements_slots {t : BasicType} (ht : t.isReference = false)
    {slots rest : List (WrittenValue Jobject)} {v : FieldValue} (h : R.SlotsOf t slots v)
    (hnext : t.type2size = 1 → rest.head?.all startsValue = true) (i : ℕ) (obj : Bytes.Block) :
    reassignScalarReplacedTypeArrayElements V E R.frame R.values t (slots ++ rest) i obj =
      reassignScalarReplacedTypeArrayElements V E R.frame R.values t rest (i + 1)
        (storeValue E R.values obj (elementPlace V E t i) v) := by
  cases h with
  | ref href _ =>
    rw [ht] at href
    cases href
  | @prim sv w href hsize hv _ hbig =>
    rw [storeValue, elementPlace, Bytes.put_mod]
    by_cases hbyte : t = .byte
    · subst hbyte
      have hmarker : rest.head? ≠ some .marker := by
        intro hm
        have := hnext hsize
        rw [hm] at this
        cases this
      exact reassignElements_bytes (.inl rfl) hv hmarker
    · exact reassignElements_prim href hbyte hsize hv (hbig rest (hnext hsize))
  | @wide sv low u w hsize hu hv =>
    have hbytes : t.bytes E = 8 := (bytes_of_wide hsize).1
    rw [storeValue, elementPlace, hbytes]
    exact reassignElements_wide hsize hu hv

/-- One turn of the loop reads the slots of one value, if what comes next does not look like
a part of it. -/
theorem reassignFrom_slots {shape : KlassShape} {n i : ℕ} {p : Place}
    (hprim : ∀ t, shape = .typeArrayKlass t → t.isReference = false)
    (hp : (slotPlaces V E shape n)[i]? = some p) {slots rest : List (WrittenValue Jobject)}
    {v : FieldValue} (h : R.SlotsOf p.2 slots v)
    (hnext : ∀ t, (∀ q, (slotPlaces V E shape n)[i + 1]? = some q → q.2 = t) →
      t.isReference = false → t.type2size = 1 → rest.head?.all startsValue = true)
    (obj : Bytes.Block) :
    reassignFrom V E R.frame R.objects R.values shape i (slots ++ rest) obj =
      reassignFrom V E R.frame R.objects R.values shape (i + 1) rest
        (storeValue E R.values obj p v) := by
  cases shape with
  | instanceKlass chain =>
    rw [slotPlaces, List.getElem?_map, Option.map_eq_some_iff] at hp
    obtain ⟨f, hf, rfl⟩ := hp
    obtain ⟨hi, rfl⟩ := List.getElem?_eq_some_iff.1 hf
    rw [reassignFrom, List.drop_eq_getElem_cons hi]
    refine reassignFields_slots h (fun hint => hnext .int ?_ rfl rfl) obj
    intro q hq
    rw [List.head?_drop] at hint
    rw [slotPlaces, List.getElem?_map, Option.map_eq_some_iff] at hq
    obtain ⟨g, hg, rfl⟩ := hq
    rw [hg] at hint
    exact Option.some.inj hint
  | typeArrayKlass t =>
    have htype : ∀ j q, (slotPlaces V E (.typeArrayKlass t) n)[j]? = some q →
        q = elementPlace V E t j := by
      intro j q hq
      rw [slotPlaces, List.getElem?_map, Option.map_eq_some_iff] at hq
      obtain ⟨j', hj', rfl⟩ := hq
      rw [(List.getElem?_eq_some_iff.1 hj').2.symm, List.getElem_range]
    have ht := hprim t rfl
    obtain rfl := htype i p hp
    exact reassignElements_slots ht h
      (fun hsize => hnext t (fun q hq => by rw [htype _ q hq, elementPlace]) ht hsize) i obj
  | objArrayKlass =>
    rw [slotPlaces, List.getElem?_map, Option.map_eq_some_iff] at hp
    obtain ⟨j, hj, rfl⟩ := hp
    obtain ⟨hlt, rfl⟩ := List.getElem?_eq_some_iff.1 hj
    rw [List.getElem_range] at h ⊢
    generalize ht : (elementPlace V E .object i).2 = t at h
    obtain rfl : t = .object := ht.symm
    cases h with
    | ref _ hr =>
      have hread := createStackValue_getScopeValue R.places (fun j => (R.values_heap j).1) hr
      rw [List.singleton_append, reassignFrom, reassignScalarReplacedObjectArrayElements, hread]
      rfl
    | prim href _ _ _ _ => exact absurd href (by decide)
    | wide hsize _ _ => exact absurd hsize (by decide)

end ScopeReader

/-! ## The slots of an object, all together

Writer and reader walk through the same fields with two counters. The invariant is that the reader
is at the slots of the `i`-th value when it is at the `i`-th field; the rest follows from the places
being apart. -/

/-- A place of an object, the node for its value, and the value. -/
abbrev SlotRow (Jobject : Type) := Place × DebugNode Jobject × FieldValue

section

variable {Jobject : Type}

/-- The values with their places. -/
def storedValues (rows : List (SlotRow Jobject)) : List (Place × FieldValue) :=
  rows.map fun row => (row.1, row.2.2)

/-- The slots of some values, as read back. -/
def ScopeReader.slotsFor {E : OopEncoding} (R : ScopeReader E Jobject)
    (sfpt : MachSafePoint Jobject) (pool : List (WrittenObject Jobject))
    (rows : List (SlotRow Jobject)) : List (WrittenValue Jobject) :=
  rows.flatMap fun row => (sfpt.nodeValues pool row.2.1).map R.readBack

end

namespace ScopeReader

variable {K Jobject : Type} {V : Klasses K} {E : OopEncoding} {R : ScopeReader E Jobject}
  {sfpt : MachSafePoint Jobject} {pool : List (WrittenObject Jobject)}
  {rows : List (SlotRow Jobject)} {shape : KlassShape}

/-- After `i` values, the loop is at the slots of the values from `i` on. -/
theorem reassignFrom_inStep (hpool : pool.length ≤ R.objects.length)
    (hprim : ∀ t, shape = .typeArrayKlass t → t.isReference = false)
    (hplaces : rows.map Prod.fst = slotPlaces V E shape rows.length)
    (hrows : ∀ row ∈ rows, R.HasValue sfpt.platform pool row.1.2 row.2.1 row.2.2)
    (obj : Bytes.Block) {i : ℕ} (hi : i ≤ rows.length) :
    reassignFrom V E R.frame R.objects R.values shape 0 (R.slotsFor sfpt pool rows) obj =
      reassignFrom V E R.frame R.objects R.values shape i (R.slotsFor sfpt pool (rows.drop i))
        (storeValues E R.values (storedValues (rows.take i)) obj) := by
  induction i with
  | zero => rfl
  | succ i ih =>
    have hplace : ∀ j (hj : j < rows.length),
        (slotPlaces V E shape rows.length)[j]? = some (rows[j]).1 := by
      intro j hj
      rw [← hplaces, List.getElem?_map, List.getElem?_eq_getElem hj, Option.map_some]
    have hslots : ∀ j (hj : j < rows.length), R.SlotsOf (rows[j]).1.2
        ((sfpt.nodeValues pool (rows[j]).2.1).map R.readBack) (rows[j]).2.2 :=
      fun j hj => (hrows _ (List.getElem_mem hj)).slotsOf hpool
    rw [ih (by omega), List.drop_eq_getElem_cons hi, slotsFor, List.flatMap_cons]
    rw [reassignFrom_slots hprim (hplace i hi) (hslots i hi)]
    · congr 1
      rw [← List.take_concat_get' rows i hi, storedValues, storedValues, List.map_append,
        storeValues, storeValues, List.foldl_append]
      rfl
    · intro t ht href hsize
      by_cases hlast : i + 1 < rows.length
      · rw [List.drop_eq_getElem_cons hlast, List.flatMap_cons]
        have htype := ht _ (hplace (i + 1) hlast)
        exact (hslots (i + 1) hlast).starts (htype ▸ href) (htype ▸ hsize) _
      · rw [List.drop_eq_nil_of_le (by omega)]
        rfl

/-- The slots are exactly those of the values' types. -/
theorem length_slotsFor (hpool : pool.length ≤ R.objects.length)
    (hrows : ∀ row ∈ rows, R.HasValue sfpt.platform pool row.1.2 row.2.1 row.2.2) :
    (R.slotsFor sfpt pool rows).length = (rows.map fun row => row.1.2.type2size).sum := by
  rw [slotsFor, List.length_flatMap]
  congr 1
  exact List.map_congr_left fun row hrow => ((hrows row hrow).slotsOf hpool).length_eq

/-- All values that are stored fit. -/
theorem fitsIn_of_mem_storedValues (hpool : pool.length ≤ R.objects.length)
    (hrows : ∀ row ∈ rows, R.HasValue sfpt.platform pool row.1.2 row.2.1 row.2.2) :
    ∀ pv ∈ storedValues rows, FitsIn E R.values pv.1.2 pv.2 := by
  intro pv hpv
  obtain ⟨row, hrow, rfl⟩ := List.mem_map.1 hpv
  exact ((hrows row hrow).slotsOf hpool).fitsIn

end ScopeReader

/-- Elements do not overlap. -/
theorem placesDisjoint_elementPlace {K : Type} (V : Klasses K) (E : OopEncoding) (t : BasicType)
    {i j : ℕ} (h : i < j) :
    PlacesDisjoint E (elementPlace V E t i) (elementPlace V E t j) := by
  left
  have hmul : (i + 1) * t.bytes E ≤ j * t.bytes E := Nat.mul_le_mul_right _ h
  rw [Nat.succ_mul] at hmul
  simp only [elementPlace, elementOffset]
  omega

/-- The places of an object are apart: the fields by the layout of the class, the elements by their
size. -/
theorem pairwise_slotPlaces {K : Type} (V : Klasses K) (E : OopEncoding) {shape : KlassShape}
    (hfields : ∀ chain, shape = .instanceKlass chain →
      ((reassignedFields chain).map fun f => (f.offset, f.type)).Pairwise (PlacesDisjoint E))
    (n : ℕ) : (slotPlaces V E shape n).Pairwise (PlacesDisjoint E) := by
  have helements : ∀ t, ((List.range n).map (elementPlace V E t)).Pairwise (PlacesDisjoint E) :=
    fun t => List.pairwise_map.2
      (List.pairwise_lt_range.imp fun h => placesDisjoint_elementPlace V E t h)
  cases shape with
  | instanceKlass chain => exact hfields chain rfl
  | typeArrayKlass t => exact helements t
  | objArrayKlass => exact helements .object

section

variable {K Jobject : Type} (V : Klasses K) {E : OopEncoding} (R : ScopeReader E Jobject)
  (sfpt : MachSafePoint Jobject) (pool : List (WrittenObject Jobject))
  (rows : List (SlotRow Jobject)) (k : K) (sv : WrittenObject Jobject) (obj : Bytes.Block)

/-- A description is read back as it was written: the array has the right length, each slot
is read once and by the field or element it was written for, each of these gets its value,
and nothing else is written. -/
structure SlotsAgree : Prop where
  length_eq : sv.fieldValues.length = (rows.map fun row => row.1.2.type2size).sum
  typeArray : ∀ t, V.shape k = .typeArrayKlass t → lengthOf sv t.type2size = some rows.length
  objArray : V.shape k = .objArrayKlass → lengthOf sv 1 = some rows.length
  inStep : ∀ i ≤ rows.length,
    reassignScalarReplacedFields V E R.frame R.objects R.values sv k obj =
      reassignFrom V E R.frame R.objects R.values (V.shape k) i (R.slotsFor sfpt pool (rows.drop i))
        (storeValues E R.values (storedValues (rows.take i)) obj)
  reassigned : ∃ obj', reassignScalarReplacedFields V E R.frame R.objects R.values sv k obj =
      some obj' ∧
    (∀ row ∈ rows, HoldsValue E R.values obj' row.1 row.2.2) ∧
    ∀ i, (∀ row ∈ rows, ¬ (row.1.1 ≤ i ∧ i < row.1.1 + row.1.2.bytes E)) → obj' i = obj i

variable {V R sfpt pool rows k sv}

/-- What is described slot by slot is read back place by place. -/
theorem slotsAgree (hpool : pool.length ≤ R.objects.length)
    (hprim : ∀ t, V.shape k = .typeArrayKlass t → t.isReference = false)
    (hfields : ∀ chain, V.shape k = .instanceKlass chain →
      ((reassignedFields chain).map fun f => (f.offset, f.type)).Pairwise (PlacesDisjoint E))
    (hplaces : rows.map Prod.fst = slotPlaces V E (V.shape k) rows.length)
    (hrows : ∀ row ∈ rows, R.HasValue sfpt.platform pool row.1.2 row.2.1 row.2.2)
    (hkind : sv.kind ≠ .stackObject) (hsv : sv.fieldValues = R.slotsFor sfpt pool rows) :
    SlotsAgree V R sfpt pool rows k sv obj := by
  have hlength : sv.fieldValues.length = (rows.map fun row => row.1.2.type2size).sum := by
    rw [hsv, R.length_slotsFor hpool hrows]
  have hlengthOf : ∀ slots, lengthOf sv slots = some (sv.fieldValues.length / slots) := by
    intro slots
    rw [lengthOf]
    cases hk : sv.kind with
    | stackObject => exact absurd hk hkind
    | object => rfl
    | autoBox => rfl
  have hinStep : ∀ i ≤ rows.length,
      reassignScalarReplacedFields V E R.frame R.objects R.values sv k obj =
        reassignFrom V E R.frame R.objects R.values (V.shape k) i
          (R.slotsFor sfpt pool (rows.drop i))
          (storeValues E R.values (storedValues (rows.take i)) obj) := by
    intro i hi
    rw [reassignScalarReplacedFields_eq, hsv]
    exact R.reassignFrom_inStep hpool hprim hplaces hrows obj hi
  have hsum : ∀ t, (∀ row ∈ rows, row.1.2 = t) →
      sv.fieldValues.length = rows.length * t.type2size := by
    intro t ht
    have hmap : (rows.map fun row => row.1.2.type2size) =
        List.replicate rows.length t.type2size :=
      List.eq_replicate_iff.2 ⟨List.length_map _, fun b hb => by
        obtain ⟨row, hrow, rfl⟩ := List.mem_map.1 hb
        rw [ht row hrow]⟩
    rw [hlength, hmap, List.sum_replicate_nat]
  have helement : ∀ t, rows.map Prod.fst = (List.range rows.length).map (elementPlace V E t) →
      ∀ row ∈ rows, row.1.2 = t := by
    intro t hmap row hrow
    have hmem : row.1 ∈ rows.map Prod.fst := List.mem_map_of_mem hrow
    rw [hmap] at hmem
    obtain ⟨i, -, hi⟩ := List.mem_map.1 hmem
    rw [← hi, elementPlace]
  constructor
  case length_eq => exact hlength
  case typeArray =>
    intro t ht
    rw [ht] at hplaces
    have hpos : 0 < t.type2size := by cases t <;> decide
    rw [hlengthOf, hsum t (helement t hplaces), Nat.mul_div_cancel _ hpos]
  case objArray =>
    intro ht
    rw [ht] at hplaces
    rw [hlengthOf, hsum .object (helement .object hplaces), Nat.div_one]
    exact congrArg some (Nat.mul_one _)
  case inStep => exact hinStep
  case reassigned =>
    have hfit := R.fitsIn_of_mem_storedValues hpool hrows
    have hfst : (storedValues rows).map Prod.fst = rows.map Prod.fst := by
      rw [storedValues, List.map_map]
      rfl
    refine ⟨storeValues E R.values (storedValues rows) obj, ?_, ?_, ?_⟩
    · rw [hinStep rows.length (le_refl _), List.drop_length, List.take_length]
      refine reassignFrom_nil V E R.frame R.objects R.values ?_ _
      rw [← hplaces, List.length_map]
    · intro row hrow
      refine holds_storeValues hfit ?_ (row.1, row.2.2) (List.mem_map_of_mem hrow)
      rw [hfst, hplaces]
      exact pairwise_slotPlaces V E hfields rows.length
    · intro i hi
      refine storeValues_of_notCovers hfit fun pv hpv => ?_
      obtain ⟨row, hrow, rfl⟩ := List.mem_map.1 hpv
      exact hi row hrow

end

/-- The entry of a scalar-replaced object is read back as it was written, whatever its klass
and its values. -/
theorem svForObject_slotsAgree {K Jobject : Type} (V : Klasses K) (E : OopEncoding)
    (sfpt : MachSafePoint Jobject) {objs : List (WrittenObject Jobject)}
    (hnodup : (poolIds objs).Nodup) {fuel : ℕ} (hfuel : sfpt.inputs.length < fuel) {idx : JInt}
    (hinput : .scalarObject idx ∈ sfpt.inputs)
    (hscalar : (sfpt.scalarObject idx).stackAllocated = false)
    (hnew : svForNodeId objs idx = none) {k : K}
    (hprim : ∀ t, V.shape k = .typeArrayKlass t → t.isReference = false)
    (hfields : ∀ chain, V.shape k = .instanceKlass chain →
      ((reassignedFields chain).map fun f => (f.offset, f.type)).Pairwise (PlacesDisjoint E))
    {rows : List (SlotRow Jobject)} (hnodes : (rows.map fun row => row.2.1) = sfpt.fieldNodes idx)
    (hplaces : rows.map Prod.fst = slotPlaces V E (V.shape k) rows.length) :
    ∃ j pool sv, sfpt.svForObject (sfpt.entriesFor fuel) idx objs = some (j, pool) ∧
      pool[j]? = some sv ∧
      ∀ R : ScopeReader E Jobject, pool.length ≤ R.objects.length →
        (∀ row ∈ rows, R.HasValue sfpt.platform pool row.1.2 row.2.1 row.2.2) → ∀ obj,
          SlotsAgree V R sfpt pool rows k
            { sv with fieldValues := sv.fieldValues.map R.readBack } obj := by
  have hcard : (sfpt.unregistered objs).card < fuel + 1 := by
    have := @MachSafePoint.card_unregistered_nil_le _ sfpt
    have := @MachSafePoint.card_unregistered_append_le _ sfpt [] objs
    rw [List.nil_append] at this
    omega
  obtain ⟨j, new, heq, hj, hgrown⟩ :=
    MachSafePoint.svForObject_spec (MachSafePoint.entriesFor_fills fuel) idx objs (.inl hinput)
      hnodup hcard
  obtain ⟨sv, hsv, rfl⟩ := id_of_svForNodeId hj
  have hmem : sv ∈ new := by
    refine (List.mem_append.1 (List.mem_of_getElem? hsv)).resolve_left fun hold => ?_
    exact svForNodeId_eq_none.1 hnew (List.mem_map_of_mem hold)
  obtain ⟨hentry, -⟩ := (hgrown.entryOk sv hmem).object hscalar
  refine ⟨j, objs ++ new, sv, heq, hsv, fun R hpool hrows obj => ?_⟩
  refine slotsAgree obj hpool hprim hfields hplaces hrows ?_ ?_
  · rw [hentry]
    exact nofun
  · change sv.fieldValues.map R.readBack = _
    rw [hentry]
    change ((sfpt.fieldNodes sv.id).flatMap (sfpt.nodeValues (objs ++ new))).map R.readBack = _
    rw [ScopeReader.slotsFor, ← hnodes, List.map_flatMap, List.flatMap_map]

/-- An object with two ints, of which one is in a register, a long, and a reference to
itself. -/
def selfReferring : MachSafePoint ℕ where
  platform := ⟨false, false⟩
  inputs := [.scalarObject 10, .allocated .int ⟨true, 3⟩ false none, .constant (.int 7),
    .constant (.long (-5)), .scalarObject 10]
  scalarObject := fun _ => ⟨false, 0, 4, 1, 0⟩
  monitorBox := fun _ => ⟨0, false⟩
  callers := []
  youngest := ⟨true, 0, 1, 1, 1, 5⟩

/-- Its klass. -/
def selfKlass : Klasses Unit where
  asKlass := fun _ => ()
  shape := fun _ => .instanceKlass [[⟨16, .int, false, false⟩, ⟨20, .int, false, false⟩,
    ⟨24, .long, false, false⟩, ⟨32, .object, false, false⟩]]
  arrayBase := 16

/-- Its fields. -/
def selfRows : List (SlotRow ℕ) :=
  [((16, .int), .allocated .int ⟨true, 3⟩ false none, .prim 1003),
    ((20, .int), .constant (.int 7), .prim 7),
    ((24, .long), .constant (.long (-5)), .prim (2 ^ 64 - 5)),
    ((32, .object), .scalarObject 10, .ref (.described 0))]

/-- A frame in which each register and stack slot holds its number and 1000. -/
def numberedFrame : DeoptFrame (Option ℕ) where
  spBase := 100
  spTop := 200
  oopAt _ := 0
  createStackValue sv values :=
    match sv with
    | .object j => .obj (values j)
    | .location loc =>
      if loc.type = .oop ∨ loc.type = .narrowoop then .obj 0
      else .int (loc.offset.toUInt32.toUInt64 + 1000)
    | .constantInt c => .int c.toUInt32.toUInt64
    | .constantLong c => .int c.toUInt64
    | .constantDouble d => .int d
    | .constantOopRead w => .obj w
    | .constantOopWrite _ | .marker => .int 0
  create_object _ _ := rfl
  create_oop loc values h := by simp [h]
  create_other sv h values values' := by
    cases sv with
    | object j => exact absurd rfl (h j)
    | _ => rfl

/-- The frame with the copy of the object. -/
def numberedReader : ScopeReader DescribedFrame.fullWord ℕ where
  frame := numberedFrame
  objects := [newObjectValue 10 (selfReferring.scalarObject 10)
    [newLocValue ⟨true, 3⟩ .normal, .constantInt 7, .constantInt 0, .constantLong (-5), .object 0]]
  values _ := 4000
  contents reg := reg.number.toUInt32.toUInt64 + 1000
  narrowOop _ := 0
  floatOfDouble w := w
  resolve o := if o.isSome then 3000 else 0
  create_normal _ := ⟨_, fun _ => rfl, rfl⟩
  create_intInLong _ := ⟨_, fun _ => rfl, rfl⟩
  create_floatInDbl _ := ⟨_, fun _ => rfl, rfl⟩
  create_lng _ _ := rfl
  create_dbl _ _ := rfl
  create_narrowoop _ _ := rfl
  create_constantInt c := ⟨_, fun _ => rfl, by
    rw [UInt32.toNat_toUInt64]
    exact Nat.mod_eq_of_lt c.toUInt32.toNat_lt⟩
  create_constantLong _ _ := rfl
  create_constantDouble _ _ := rfl
  create_constantOop _ _ := rfl
  places i j sv sv' loc loc' hi hj hkind := by
    obtain ⟨hlt, rfl⟩ := List.getElem?_eq_some_iff.1 hi
    obtain rfl : i = 0 := by simpa using hlt
    cases hkind
  values_heap _ := ⟨rfl, rfl⟩
  resolve_heap o := by cases o <;> exact ⟨rfl, rfl⟩

/-- An object with a reference to itself is read back too. -/
theorem svForObject_slotsAgree_selfReferring :
    ∃ j pool sv, selfReferring.svForObject (selfReferring.entriesFor 6) 10 [] = some (j, pool) ∧
      pool[j]? = some sv ∧
      SlotsAgree selfKlass numberedReader selfReferring pool selfRows ()
        { sv with fieldValues := sv.fieldValues.map numberedReader.readBack } fun _ => 0 := by
  have hfields : reassignedFields [[⟨16, .int, false, false⟩, ⟨20, .int, false, false⟩,
      ⟨24, .long, false, false⟩, ⟨32, .object, false, false⟩]] =
      [⟨16, .int, false, false⟩, ⟨20, .int, false, false⟩, ⟨24, .long, false, false⟩,
        ⟨32, .object, false, false⟩] :=
    List.mergeSort_of_pairwise (by decide)
  have hdisj : ∀ chain, selfKlass.shape () = .instanceKlass chain →
      ((reassignedFields chain).map fun f => (f.offset, f.type)).Pairwise
        (PlacesDisjoint DescribedFrame.fullWord) := by
    intro chain hchain
    obtain rfl := KlassShape.instanceKlass.inj hchain
    rw [hfields]
    simp [PlacesDisjoint, BasicType.bytes, DescribedFrame.fullWord]
  have hplaces : selfRows.map Prod.fst =
      slotPlaces selfKlass DescribedFrame.fullWord (selfKlass.shape ()) selfRows.length := by
    simp only [slotPlaces, selfKlass, hfields]
    rfl
  obtain ⟨j, pool, sv, heq, hsv, h⟩ := @svForObject_slotsAgree Unit ℕ selfKlass
    DescribedFrame.fullWord selfReferring [] List.nodup_nil 6 (by decide) 10 (by decide) rfl rfl ()
    (fun _ h => by cases h) hdisj selfRows (by decide) hplaces
  have hpool : selfReferring.svForObject (selfReferring.entriesFor 6) 10 [] =
      some (0, numberedReader.objects) := by
    decide
  obtain ⟨rfl, rfl⟩ : 0 = j ∧ _ = pool := by simpa [hpool] using heq
  refine ⟨_, _, sv, heq, hsv, h numberedReader (by decide) ?_ _⟩
  intro row hrow
  simp only [selfRows, List.mem_cons, List.not_mem_nil, or_false] at hrow
  rcases hrow with rfl | rfl | rfl | rfl
  · exact .int (.inr (.inr (.inr (.inr rfl)))) ⟨true, 3⟩ none
  · exact .intCon (.inr (.inr (.inr (.inr rfl)))) 7
  · exact .longCon (-5)
  · exact .object rfl (by decide)

end StackAllocation
