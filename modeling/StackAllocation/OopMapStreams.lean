import StackAllocation.Bytes
import StackAllocation.OopMap
import Mathlib.Data.Int.DivMod
import Mathlib.Data.Int.Notation

/-!
# Oop maps as streams

An entry of an oop map is two shorts: the register above the two bits of its type, and the
content register (`OopMapValue`). A map under construction appends its entries to a compressed
stream of integers, the content register only where the type has one (`OopMap::set_xxx`), and an
`OopMapStream` reads so many entries off the bytes in memory. It reads what was appended
(`OopMapStream.entries_ofData`).
-/

namespace StackAllocation

/-! ## Bytes in memory

What is written is bytes, and what is read is numbers made of bytes. A piece of data is known by the
bytes at its addresses alone. -/

/-- The bytes are in memory from `p` on. -/
def HoldsBytes (m : Bytes.Block) (p : ℕ) (bytes : List UInt8) : Prop :=
  ∀ i b, bytes[i]? = some b → m (p + i) = b

/-- `memcpy` -/
def copyBytes (m : Bytes.Block) (p : ℕ) (bytes : List UInt8) : Bytes.Block :=
  fun i => if p ≤ i then bytes.getD (i - p) (m i) else m i

/-- Two pieces of data, one behind the other. -/
theorem holdsBytes_append {m : Bytes.Block} {p : ℕ} {a b : List UInt8} :
    HoldsBytes m p (a ++ b) ↔ HoldsBytes m p a ∧ HoldsBytes m (p + a.length) b := by
  constructor
  · intro h
    refine ⟨fun i x hx => ?_, fun i x hx => ?_⟩
    · refine h i x ?_
      have hi : i < a.length := (List.getElem?_eq_some_iff.1 hx).1
      rwa [List.getElem?_append_left hi]
    · rw [Nat.add_assoc]
      refine h (a.length + i) x ?_
      rwa [List.getElem?_append_right (Nat.le_add_right _ _), Nat.add_sub_cancel_left]
  · rintro ⟨ha, hb⟩ i x hx
    rcases Nat.lt_or_ge i a.length with hi | hi
    · rw [List.getElem?_append_left hi] at hx
      exact ha i x hx
    · rw [List.getElem?_append_right hi] at hx
      have hbyte := hb _ x hx
      rwa [Nat.add_assoc, Nat.add_sub_cancel' hi] at hbyte

/-- What is in a piece of memory depends on its bytes only. -/
theorem HoldsBytes.congr {m m' : Bytes.Block} {p : ℕ} {bytes : List UInt8}
    (h : HoldsBytes m p bytes) (hsame : ∀ i, p ≤ i → i < p + bytes.length → m' i = m i) :
    HoldsBytes m' p bytes := by
  intro i b hb
  have hi : i < bytes.length := (List.getElem?_eq_some_iff.1 hb).1
  rw [hsame _ (Nat.le_add_right _ _) (by omega)]
  exact h i b hb

/-- What has been copied is there. -/
theorem holdsBytes_copyBytes (m : Bytes.Block) (p : ℕ) (bytes : List UInt8) :
    HoldsBytes (copyBytes m p bytes) p bytes := by
  intro i b hb
  rw [copyBytes, if_pos (Nat.le_add_right _ _), Nat.add_sub_cancel_left,
    List.getD_eq_getElem?_getD, hb, Option.getD_some]

/-- What is not copied to is as before. -/
theorem copyBytes_of_notMem {m : Bytes.Block} {p i : ℕ} {bytes : List UInt8}
    (h : ¬ (p ≤ i ∧ i < p + bytes.length)) : copyBytes m p bytes i = m i := by
  rw [copyBytes]
  split
  · next hle =>
    have hpast : bytes.length ≤ i - p := by omega
    rw [List.getD_eq_getElem?_getD, List.getElem?_eq_none hpast, Option.getD_none]
  · rfl

/-- An `int` in memory. -/
def getInt (m : Bytes.Block) (p : ℕ) : ℤ := Int.bmod (Bytes.get m 4 p) (2 ^ 32)

/-- And stored. -/
def putInt (m : Bytes.Block) (p : ℕ) (v : ℤ) : Bytes.Block := Bytes.put m 4 p (v % 2 ^ 32).toNat

/-- A number of 32 bits is found back from its two's complement. -/
theorem bmod_toNat {v : ℤ} (hlow : -2 ^ 31 ≤ v) (hhigh : v < 2 ^ 31) :
    Int.bmod ((v % 2 ^ 32).toNat : ℤ) (2 ^ 32) = v := by
  rw [Int.bmod_def]
  omega

/-- An int that was put into memory is read back. -/
theorem getInt_putInt {m : Bytes.Block} {p : ℕ} {v : ℤ} (hlow : -2 ^ 31 ≤ v) (hhigh : v < 2 ^ 31) :
    getInt (putInt m p v) p = v := by
  have hmod : (v % 2 ^ 32).toNat % 256 ^ 4 = (v % 2 ^ 32).toNat := by omega
  have hget : Bytes.get (putInt m p v) 4 p = (v % 2 ^ 32).toNat :=
    (Bytes.get_put_self m 4 p _).trans hmod
  have hbmod := bmod_toNat hlow hhigh
  unfold getInt
  rw [hget, hbmod]

/-- It depends on its four bytes only. -/
theorem getInt_congr {m m' : Bytes.Block} {p : ℕ} (h : ∀ i, p ≤ i → i < p + 4 → m' i = m i) :
    getInt m' p = getInt m p := by
  have hget : Bytes.get m' 4 p = Bytes.get m 4 p := Bytes.get_congr h
  unfold getInt
  rw [hget]

/-- Other bytes are as before. -/
theorem putInt_of_notMem {m : Bytes.Block} {p i : ℕ} {v : ℤ} (h : ¬ (p ≤ i ∧ i < p + 4)) :
    putInt m p v i = m i :=
  Bytes.put_of_notMem m h

/-! ## Entries

An entry is written as a number with its type in the two low bits, and for some types a second
number. The stream that packs the numbers is a parameter; its laws are that it reads what it wrote
and that a number takes at least a byte. -/

/-- Compressed streams of integers: `CompressedWriteStream::write_int` and
`CompressedReadStream::read_int`, which gives the value and the position after it. -/
structure CompressedStream : Type where
  write : ℤ → List UInt8
  read : Bytes.Block → ℕ → ℤ × ℕ
  write_pos : ∀ v, 0 < (write v).length
  read_write : ∀ v, -2 ^ 31 ≤ v → v < 2 ^ 31 → ∀ m p, HoldsBytes m p (write v) →
    read m p = (v, p + (write v).length)

/-- A number in at most so many bytes after the first: below 192 it is a byte, else the byte has
six of its bits and the rest follows. -/
def unsigned5Write : ℕ → ℕ → List UInt8
  | 0, v => [UInt8.ofNat v]
  | n + 1, v =>
    if v < 192 then [UInt8.ofNat v]
    else UInt8.ofNat (192 + (v - 192) % 64) :: unsigned5Write n ((v - 192) / 64)

/-- And read. -/
def unsigned5Read : ℕ → Bytes.Block → ℕ → ℕ × ℕ
  | 0, m, p => ((m p).toNat, p + 1)
  | n + 1, m, p =>
    if (m p).toNat < 192 then ((m p).toNat, p + 1)
    else ((m p).toNat + 64 * (unsigned5Read n m (p + 1)).1, (unsigned5Read n m (p + 1)).2)

/-- The first byte of a piece. -/
theorem HoldsBytes.head {m : Bytes.Block} {p : ℕ} {b : UInt8} {bytes : List UInt8}
    (h : HoldsBytes m p (b :: bytes)) : m p = b := h 0 b rfl

/-- The bytes after the first. -/
theorem HoldsBytes.tail {m : Bytes.Block} {p : ℕ} {b : UInt8} {bytes : List UInt8}
    (h : HoldsBytes m p (b :: bytes)) : HoldsBytes m (p + 1) bytes := by
  intro i x hx
  rw [Nat.add_assoc, Nat.add_comm 1 i]
  exact h (i + 1) x hx

/-- A number that was written is read back, and the position after it is where the next one starts.
The induction is on how many digits are left. -/
theorem unsigned5_read_write {m : Bytes.Block} {n v p : ℕ} (hv : v < 256 * 64 ^ n)
    (h : HoldsBytes m p (unsigned5Write n v)) :
    unsigned5Read n m p = (v, p + (unsigned5Write n v).length) := by
  induction n generalizing v p with
  | zero =>
    have hhead : m p = UInt8.ofNat v := h.head
    rw [unsigned5Read, hhead, UInt8.toNat_ofNat', Nat.mod_eq_of_lt (by omega)]
    rfl
  | succ n ih =>
    rw [unsigned5Write] at h ⊢
    rw [unsigned5Read]
    split at h
    · next hlow =>
      rw [h.head, if_pos hlow, UInt8.toNat_ofNat', Nat.mod_eq_of_lt (by omega), if_pos hlow]
      rfl
    · next hhigh =>
      have hrest : (v - 192) / 64 < 256 * 64 ^ n := by
        rw [Nat.pow_succ] at hv
        omega
      rw [h.head, ih hrest h.tail, UInt8.toNat_ofNat', Nat.mod_eq_of_lt (by omega),
        if_neg hhigh, if_neg (by omega), List.length_cons]
      simp only [Prod.mk.injEq]
      omega

/-- A number takes at least one byte. -/
theorem unsigned5Write_pos (n v : ℕ) : 0 < (unsigned5Write n v).length := by
  cases n with
  | zero => exact Nat.one_pos
  | succ n =>
    rw [unsigned5Write]
    split <;> exact Nat.succ_pos _

/-- Streams with at most five bytes for an `int`. -/
def unsigned5 : CompressedStream where
  write v := unsigned5Write 4 (v % 2 ^ 32).toNat
  read m p := (Int.bmod (unsigned5Read 4 m p).1 (2 ^ 32), (unsigned5Read 4 m p).2)
  write_pos _ := unsigned5Write_pos _ _
  read_write v hlow hhigh m p h := by
    have hv : (v % 2 ^ 32).toNat < 256 * 64 ^ 4 := by omega
    have hbmod := bmod_toNat hlow hhigh
    have hread := unsigned5_read_write hv h
    simp only [hread, hbmod]

/-- The conversion to a `short`. -/
def toShort (v : ℤ) : ℤ := Int.bmod v (2 ^ 16)

/-- The number of a type. -/
def OopTypes.code : OopTypes → ℤ
  | .oopValue => 0
  | .narrowoopValue => 1
  | .calleeSavedValue => 2
  | .derivedOopValue => 3

/-- Whether an entry of the type has a content register. -/
def OopTypes.hasContentReg (t : OopTypes) : Bool :=
  decide (t = .calleeSavedValue) || decide (t = .derivedOopValue)

/-- `VMRegImpl::Bad()` -/
def badReg : ℤ := -1

/-- `_value` and `_content_reg` of an `OopMapValue`. -/
structure OopMapValueBits : Type where
  value : ℤ
  contentReg : ℤ
  deriving DecidableEq, Repr

namespace OopMapValueBits

/-- `OopMapValue(VMReg reg, oop_types t, VMReg reg2)` -/
def make (reg : ℤ) (t : OopTypes) (reg2 : ℤ) : OopMapValueBits :=
  ⟨toShort (reg * 4 + t.code), toShort reg2⟩

/-- `type`: the bits of `type_mask_in_place`. -/
def type (v : OopMapValueBits) : OopTypes :=
  if v.value % 4 = 0 then .oopValue
  else if v.value % 4 = 1 then .narrowoopValue
  else if v.value % 4 = 2 then .calleeSavedValue
  else .derivedOopValue

/-- `reg`: the bits of `register_mask_in_place`, the fourteen above the type. -/
def reg (v : OopMapValueBits) : ℤ := v.value % 2 ^ 16 / 4

/-- What the entry says: the register, the type, and the content register if it has one. -/
def entry (v : OopMapValueBits) : OopMapValue ℤ :=
  ⟨v.reg, v.type, if v.type.hasContentReg then v.contentReg else badReg⟩

/-- `write_on` -/
def writeOn (S : CompressedStream) (v : OopMapValueBits) : List UInt8 :=
  S.write v.value ++ if v.type.hasContentReg then S.write v.contentReg else []

/-- `read_from`; a content register that is not read stays. -/
def readFrom (S : CompressedStream) (m : Bytes.Block) (v : OopMapValueBits) (p : ℕ) :
    OopMapValueBits × ℕ :=
  let (value, p) := S.read m p
  let v := { v with value := toShort value }
  if v.type.hasContentReg then
    let (contentReg, p) := S.read m p
    ({ v with contentReg := toShort contentReg }, p)
  else (v, p)

end OopMapValueBits

/-! ## Maps under construction

A map is built by calls that append an entry to its stream and count it. -/

/-- `legal_vm_reg_name`: fourteen bits are enough. -/
def LegalVmRegName (reg : ℤ) : Prop := reg = reg % 2 ^ 14

/-- An `OopMap`: `_omv_count` and what is in `_write_stream`. -/
structure OopMap : Type where
  pcOffset : ℤ
  omvCount : ℕ
  stream : List UInt8
  deriving DecidableEq

/-- What is recorded in a map. -/
inductive OopMapOp : Type where
  | setOop (reg : ℤ)
  | setNarrowoop (reg : ℤ)
  | setCalleeSaved (reg callerMachineRegister : ℤ)
  | setDerivedOop (reg derivedFromLocalRegister : ℤ)

namespace OopMap

variable (S : CompressedStream)

/-- A new map. -/
def empty : OopMap := ⟨0, 0, []⟩

/-- `set_xxx` -/
def setXxx (map : OopMap) (reg : ℤ) (x : OopTypes) (optional : ℤ) : OopMap :=
  { map with
    stream := map.stream ++ (OopMapValueBits.make reg x optional).writeOn S
    omvCount := map.omvCount + 1 }

/-- `set_oop` -/
def setOop (map : OopMap) (reg : ℤ) : OopMap := map.setXxx S reg .oopValue badReg

/-- `set_narrowoop` -/
def setNarrowoop (map : OopMap) (reg : ℤ) : OopMap := map.setXxx S reg .narrowoopValue badReg

/-- `set_callee_saved` -/
def setCalleeSaved (map : OopMap) (reg callerMachineRegister : ℤ) : OopMap :=
  map.setXxx S reg .calleeSavedValue callerMachineRegister

/-- `set_derived_oop` -/
def setDerivedOop (map : OopMap) (reg derivedFromLocalRegister : ℤ) : OopMap :=
  -- Actually an oop, derived shares storage with base
  if reg = derivedFromLocalRegister then map.setOop S reg
  else map.setXxx S reg .derivedOopValue derivedFromLocalRegister

/-- One call. -/
def apply (map : OopMap) : OopMapOp → OopMap
  | .setOop reg => map.setOop S reg
  | .setNarrowoop reg => map.setNarrowoop S reg
  | .setCalleeSaved reg reg2 => map.setCalleeSaved S reg reg2
  | .setDerivedOop reg reg2 => map.setDerivedOop S reg reg2

/-- `add_gc_map` sets the offset of a map that was built by some calls. -/
def build (pcOffset : ℤ) (ops : List OopMapOp) : OopMap :=
  { ops.foldl (apply S) empty with pcOffset := pcOffset }

end OopMap

/-- The entry that is recorded. -/
def OopMapOp.entry : OopMapOp → OopMapValue ℤ
  | .setOop reg => ⟨reg, .oopValue, badReg⟩
  | .setNarrowoop reg => ⟨reg, .narrowoopValue, badReg⟩
  | .setCalleeSaved reg reg2 => ⟨reg, .calleeSavedValue, reg2⟩
  | .setDerivedOop reg reg2 =>
    if reg = reg2 then ⟨reg, .oopValue, badReg⟩ else ⟨reg, .derivedOopValue, reg2⟩

/-- The registers are legal. -/
def OopMapOp.Legal : OopMapOp → Prop
  | .setOop reg => LegalVmRegName reg
  | .setNarrowoop reg => LegalVmRegName reg
  | .setCalleeSaved reg reg2 => LegalVmRegName reg ∧ LegalVmRegName reg2
  | .setDerivedOop reg reg2 => LegalVmRegName reg ∧ LegalVmRegName reg2

/-! ## `OopMapStream`

The stream reads a given number of entries. It is made from data somewhere in memory and has its own
position. -/

/-- An `OopMapStream`, with the position of its stream. -/
structure OopMapStream : Type where
  stream : ℕ
  size : ℤ
  position : ℤ
  validOmv : Bool
  omv : OopMapValueBits

namespace OopMapStream

variable (S : CompressedStream) (m : Bytes.Block)

/-- `OopMapStream(const ImmutableOopMap*)`, of a count and the address of the data. -/
def ofData (count : ℤ) (dataAddr : ℕ) : OopMapStream := ⟨dataAddr, count, 0, false, ⟨0, badReg⟩⟩

/-- `find_next` -/
def findNext (s : OopMapStream) : OopMapStream :=
  if s.position < s.size then
    let (omv, stream) := s.omv.readFrom S m s.stream
    { s with position := s.position + 1, stream := stream, omv := omv, validOmv := true }
  else { s with position := s.position + 1, validOmv := false }

/-- `is_done` -/
def isDone (s : OopMapStream) : Bool × OopMapStream :=
  let s := if s.validOmv then s else s.findNext S m
  (!s.validOmv, s)

/-- The values that a loop `for (; !is_done(); next())` meets. -/
def entries : ℕ → OopMapStream → Option (List OopMapValueBits)
  | 0, _ => none
  | fuel + 1, s =>
    match s.isDone S m with
    | (true, _) => some []
    | (false, s) => (entries fuel (s.findNext S m)).map (s.omv :: ·)

end OopMapStream

/-! ## What is recorded is read

The bits of an entry come apart as they were put together, entry by entry, and the stream reads one
after the other until the count is used up. -/

section

variable {S : CompressedStream} {m : Bytes.Block}

/-- The types fit in the two low bits of an entry. -/
theorem OopTypes.code_lt (t : OopTypes) : 0 ≤ t.code ∧ t.code < 4 := by
  cases t <;> decide

/-- A short is itself. -/
theorem toShort_of_lt {v : ℤ} (hlow : -2 ^ 15 ≤ v) (hhigh : v < 2 ^ 15) : toShort v = v := by
  rw [toShort, Int.bmod_def]
  omega

/-- A short has 16 bits. -/
theorem toShort_range (v : ℤ) : -2 ^ 15 ≤ toShort v ∧ toShort v < 2 ^ 15 := by
  rw [toShort, Int.bmod_def]
  omega

namespace OopMapValueBits

/-- The bits are where they are looked for. -/
theorem make_type {reg : ℤ} (t : OopTypes) (reg2 : ℤ) : (make reg t reg2).type = t := by
  have hmod : (make reg t reg2).value % 4 = t.code := by
    have hcode := t.code_lt
    simp only [make, toShort, Int.bmod_def]
    omega
  rw [type, hmod]
  cases t <;> rfl

/-- The register of an entry is found back from its bits. -/
theorem make_reg {reg : ℤ} (h : LegalVmRegName reg) (t : OopTypes) (reg2 : ℤ) :
    (make reg t reg2).reg = reg := by
  have hcode := t.code_lt
  rw [LegalVmRegName] at h
  unfold OopMapValueBits.reg
  simp only [make, toShort, Int.bmod_def]
  omega

/-- So is the register of the content, of a derived pointer or a callee saved value. -/
theorem make_contentReg {reg2 : ℤ} (hlow : -1 ≤ reg2) (hhigh : reg2 < 2 ^ 14) (reg : ℤ)
    (t : OopTypes) : (make reg t reg2).contentReg = reg2 :=
  toShort_of_lt (by omega) (by omega)

/-- An entry is read back. -/
theorem readFrom_writeOn {v u : OopMapValueBits} {p : ℕ} (hvalue : toShort v.value = v.value)
    (hcontent : toShort v.contentReg = v.contentReg) (h : HoldsBytes m p (v.writeOn S)) :
    (u.readFrom S m p).1.entry = v.entry ∧ (u.readFrom S m p).2 = p + (v.writeOn S).length := by
  have hrange := toShort_range v.value
  have hrange' := toShort_range v.contentReg
  rw [hvalue] at hrange
  rw [hcontent] at hrange'
  obtain ⟨hfirst, hsecond⟩ := holdsBytes_append.1 h
  have hread := S.read_write v.value (by omega) (by omega) m p hfirst
  have htype : ({ u with value := v.value } : OopMapValueBits).type = v.type := rfl
  cases hhas : v.type.hasContentReg with
  | false =>
    simp only [readFrom, hread, hvalue, htype, hhas, Bool.false_eq_true, if_false, writeOn,
      List.append_nil, and_true]
    simp only [entry, htype, hhas, Bool.false_eq_true, if_false]
    rfl
  | true =>
    simp only [hhas, if_true] at hsecond
    have hread' := S.read_write v.contentReg (by omega) (by omega) m _ hsecond
    simp only [readFrom, hread, hvalue, htype, hhas, if_true, hread', hcontent, writeOn,
      List.length_append, Nat.add_assoc, and_true]

end OopMapValueBits

namespace OopMapStream

variable {s : OopMapStream}

/-- At the end a loop ends. -/
theorem entries_of_done {fuel : ℕ} (hdone : s.size ≤ s.position) (hvalid : s.validOmv = false)
    (hfuel : 0 < fuel) : s.entries S m fuel = some [] := by
  obtain ⟨fuel, rfl⟩ := Nat.exists_eq_succ_of_ne_zero (Nat.ne_of_gt hfuel)
  rw [entries, isDone, hvalid]
  simp only [Bool.false_eq_true, if_false, findNext, if_neg (Int.not_lt.2 hdone), Bool.not_false]

/-- After `find_next` a loop meets what is left in the stream. -/
theorem entries_findNext {vs : List OopMapValueBits}
    (hvs : ∀ v ∈ vs, toShort v.value = v.value ∧ toShort v.contentReg = v.contentReg) {fuel : ℕ}
    (hfuel : vs.length < fuel) (hsize : s.size = s.position + vs.length)
    (h : HoldsBytes m s.stream (vs.flatMap (OopMapValueBits.writeOn S))) :
    ∃ us, (s.findNext S m).entries S m fuel = some us ∧
      us.map OopMapValueBits.entry = vs.map OopMapValueBits.entry := by
  induction vs generalizing s fuel with
  | nil =>
    have hdone : ¬ s.position < s.size := by simp [hsize]
    refine ⟨[], ?_, rfl⟩
    rw [findNext, if_neg hdone]
    exact entries_of_done (by simp only; omega) rfl hfuel
  | cons v vs ih =>
    obtain ⟨fuel, rfl⟩ := Nat.exists_eq_succ_of_ne_zero (Nat.ne_of_gt (Nat.zero_lt_of_lt hfuel))
    obtain ⟨⟨hvalue, hcontent⟩, hvs⟩ := List.forall_mem_cons.1 hvs
    rw [List.flatMap_cons, holdsBytes_append] at h
    obtain ⟨hentry, hpos⟩ :=
      OopMapValueBits.readFrom_writeOn (u := s.omv) hvalue hcontent h.1
    have hmore : s.position < s.size := by
      rw [hsize, List.length_cons]
      omega
    obtain ⟨us, hus, hmap⟩ := ih (s := s.findNext S m) hvs (Nat.lt_of_succ_lt_succ hfuel)
      (by rw [findNext, if_pos hmore]; simp only [hsize, List.length_cons]; omega)
      (by rw [findNext, if_pos hmore]; simp only [hpos]; exact h.2)
    refine ⟨(s.findNext S m).omv :: us, ?_, ?_⟩
    · have hvalid : (s.findNext S m).validOmv = true := by rw [findNext, if_pos hmore]
      rw [entries, isDone, hvalid]
      simp only [if_true, hvalid, Bool.not_true, hus, Option.map_some]
    · have homv : (s.findNext S m).omv = (s.omv.readFrom S m s.stream).1 := by
        rw [findNext, if_pos hmore]
      rw [List.map_cons, List.map_cons, hmap, homv, hentry]

/-- A loop over an immutable map meets the entries that were written. -/
theorem entries_ofData {vs : List OopMapValueBits} {p fuel : ℕ}
    (hvs : ∀ v ∈ vs, toShort v.value = v.value ∧ toShort v.contentReg = v.contentReg)
    (hfuel : vs.length < fuel)
    (h : HoldsBytes m p (vs.flatMap (OopMapValueBits.writeOn S))) :
    ∃ us, (ofData vs.length p).entries S m fuel = some us ∧
      us.map OopMapValueBits.entry = vs.map OopMapValueBits.entry := by
  obtain ⟨us, hus, hmap⟩ := entries_findNext (s := ofData vs.length p) hvs hfuel
    (by simp [ofData]) h
  refine ⟨us, ?_, hmap⟩
  obtain ⟨fuel, rfl⟩ := Nat.exists_eq_succ_of_ne_zero (Nat.ne_of_gt (Nat.zero_lt_of_lt hfuel))
  -- the first `is_done` makes the first `find_next`
  cases hvalid : ((ofData vs.length p).findNext S m).validOmv with
  | true =>
    rw [entries, isDone, hvalid] at hus
    rw [entries, isDone]
    simp only [if_true, hvalid, Bool.not_true] at hus
    simp only [ofData, Bool.false_eq_true, if_false] at hvalid hus ⊢
    simp only [hvalid, Bool.not_true, hus]
  | false =>
    have hend : ¬ (ofData vs.length p).position < (ofData vs.length p).size := by
      intro hlt
      rw [findNext, if_pos hlt] at hvalid
      cases hvalid
    rw [entries_of_done (by rw [findNext, if_neg hend]; simp only; omega) hvalid
      (Nat.succ_pos fuel)] at hus
    rw [entries_of_done (Int.not_lt.1 hend) rfl (Nat.succ_pos fuel), hus]

end OopMapStream

/-! ## What a map holds

A map that was built holds the entries of its calls, if the registers are ones that the code asserts
to be legal. -/

/-- The bits of an entry. -/
def OopMapValue.bits (e : OopMapValue ℤ) : OopMapValueBits :=
  OopMapValueBits.make e.reg e.type e.contentReg

/-- A register that the code asserts to be legal fits in the bits of an entry. -/
theorem OopMapOp.Legal.range {reg : ℤ} (h : LegalVmRegName reg) : 0 ≤ reg ∧ reg < 2 ^ 14 := by
  rw [LegalVmRegName] at h
  omega

/-- The entry is in its bits. -/
theorem OopMapOp.Legal.entry_bits {op : OopMapOp} (h : op.Legal) :
    op.entry.bits.entry = op.entry := by
  have hkey : ∀ reg t reg2, LegalVmRegName reg → (t.hasContentReg = true → LegalVmRegName reg2) →
      (t.hasContentReg = false → reg2 = badReg) →
      (OopMapValue.bits ⟨reg, t, reg2⟩).entry = ⟨reg, t, reg2⟩ := by
    intro reg t reg2 hreg hhas hnone
    rw [OopMapValue.bits, OopMapValueBits.entry]
    simp only [OopMapValueBits.make_type, OopMapValueBits.make_reg hreg]
    cases ht : t.hasContentReg with
    | true =>
      have hrange := OopMapOp.Legal.range (hhas ht)
      rw [if_pos rfl, OopMapValueBits.make_contentReg (by omega) hrange.2]
    | false => rw [if_neg Bool.false_ne_true, hnone ht]
  cases op with
  | setOop reg => exact hkey _ _ _ h (fun h => absurd h (by decide)) fun _ => rfl
  | setNarrowoop reg => exact hkey _ _ _ h (fun h => absurd h (by decide)) fun _ => rfl
  | setCalleeSaved reg reg2 => exact hkey _ _ _ h.1 (fun _ => h.2) fun h => absurd h (by decide)
  | setDerivedOop reg reg2 =>
    rw [entry]
    split
    · exact hkey _ _ _ h.1 (fun h => absurd h (by decide)) fun _ => rfl
    · exact hkey _ _ _ h.1 (fun _ => h.2) fun h => absurd h (by decide)

/-- The bits are shorts. -/
theorem OopMapValue.bits_short (e : OopMapValue ℤ) :
    toShort e.bits.value = e.bits.value ∧ toShort e.bits.contentReg = e.bits.contentReg := by
  have hshort : ∀ v, toShort (toShort v) = toShort v := fun v =>
    toShort_of_lt (toShort_range v).1 (toShort_range v).2
  exact ⟨hshort _, hshort _⟩

/-- A map has the bits of its entries. -/
theorem OopMap.build_eq (pcOffset : ℤ) (ops : List OopMapOp) :
    OopMap.build S pcOffset ops = ⟨pcOffset, ops.length,
      ops.flatMap fun op => op.entry.bits.writeOn S⟩ := by
  have happly : ∀ (map : OopMap) op, map.apply S op = ⟨map.pcOffset, map.omvCount + 1,
      map.stream ++ op.entry.bits.writeOn S⟩ := by
    intro map op
    cases op with
    | setOop reg => rfl
    | setNarrowoop reg => rfl
    | setCalleeSaved reg reg2 => rfl
    | setDerivedOop reg reg2 =>
      rw [apply, setDerivedOop, OopMapOp.entry]
      split <;> rfl
  have hfold : ∀ (ops : List OopMapOp) (map : OopMap), ops.foldl (apply S) map =
      ⟨map.pcOffset, map.omvCount + ops.length,
        map.stream ++ ops.flatMap fun op => op.entry.bits.writeOn S⟩ := by
    intro ops
    induction ops with
    | nil =>
      intro map
      simp
    | cons op ops ih =>
      intro map
      rw [List.foldl_cons, ih, happly]
      simp only [List.length_cons, List.flatMap_cons, List.append_assoc, OopMap.mk.injEq, true_and,
        and_true]
      omega
  rw [build, hfold]
  simp [empty]

end

end StackAllocation
