import StackAllocation.AllocationUsers
import Mathlib.Data.BitVec

/-!
# The test of the heap range

With stack allocation a post barrier subtracts the start of the heap from the address that is stored
to, and compares the difference with the size of the heap, unsigned, before it reads or marks the
card. The addresses that pass are those of the heap, and its end (`StorePoint.inRange_iff`); but for
this one address a barrier does in the heap what it does without stack allocation, and nothing
elsewhere (`StorePoint.rangeExact_iff`).
-/

namespace StackAllocation

/-! ## Comparisons

A comparison of two values gives an ordering, of their numbers without a sign or with it, and a test
reads the ordering. `if_then` and `uif_then` differ in the comparison that they make. -/

/-- `BoolTest::mask` -/
inductive BoolTest : Type where
  | eq | ne | lt | le | gt | ge
  deriving DecidableEq, Repr

/-- Whether a test holds of a comparison. -/
def BoolTest.holds : BoolTest → Ordering → Bool
  | .eq, o => o == .eq
  | .ne, o => o != .eq
  | .lt, o => o == .lt
  | .le, o => o != .gt
  | .gt, o => o == .gt
  | .ge, o => o != .lt

/-- A value that the kit compares. -/
inductive IdealValue : Type where
  | int (v : BitVec 32)
  | long (v : BitVec 64)
  | ptr (v : BitVec 64)
  deriving DecidableEq, Repr

/-- `CmpU`, `CmpUL` and `CmpP` -/
def cmpU {w : ℕ} (a b : BitVec w) : Ordering := compare a.toNat b.toNat

/-- `CmpI` and `CmpL` -/
def cmpI {w : ℕ} (a b : BitVec w) : Ordering := compare a.toInt b.toInt

/-- `IdealKit::uif_then` -/
def uifThen (left : IdealValue) (relop : BoolTest) (right : IdealValue) : Bool :=
  match left, right with
  | .int a, .int b => relop.holds (cmpU a b)
  | .long a, .long b => relop.holds (cmpU a b)
  | .ptr a, .ptr b => relop.holds (cmpU a b)
  | _, _ => false

/-- `IdealKit::if_then` -/
def ifThen (left : IdealValue) (relop : BoolTest) (right : IdealValue) : Bool :=
  match left, right with
  | .int a, .int b => relop.holds (cmpI a b)
  | .long a, .long b => relop.holds (cmpI a b)
  | .ptr a, .ptr b => relop.holds (cmpU a b)
  | _, _ => false

/-! ## The barriers

A store of a reference marks the card of the address. What a barrier does at run time is the list of
accesses to cards; with stack allocation one more test stands in front of them. -/

/-- The heap and its cards. -/
structure CardTable : Type where
  /-- `byte_map_bottom_offset()` -/
  bottom : BitVec 64
  /-- `byte_map_top_offset()` -/
  top : BitVec 64
  bottom_le_top : bottom ≤ top
  byteMapBase : BitVec 64
  dirtyCard : BitVec 8
  g1YoungCard : BitVec 8

/-- What is done to a card. -/
inductive CardAccess : Type where
  | load (card : BitVec 64)
  | store (card : BitVec 64)
  deriving DecidableEq, Repr

/-- A store of a reference that a barrier follows, when it is run. -/
structure StorePoint : Type where
  cards : CardTable
  useCondCardMark : Bool
  useReduceInitialCardMarks : Bool
  /-- `obj` is the object that was just allocated -/
  justAllocated : Bool
  /-- `g1_can_remove_post_barrier` -/
  canRemove : Bool
  usePrecise : Bool
  obj : BitVec 64
  adr : BitVec 64
  /-- the value is a constant, and null -/
  nullCon : Bool
  /-- the value; there is none for a clone -/
  val : Option (BitVec 64)
  /-- `HeapRegion::LogOfHRGrainBytes` -/
  logOfHRGrainBytes : ℕ
  /-- the card, when it is loaded -/
  cardVal : BitVec 8
  /-- the card, when it is loaded again -/
  cardValReload : BitVec 8

namespace StorePoint

variable (S : StorePoint)

/-- The address whose card is marked. -/
def address : BitVec 64 := if S.usePrecise then S.adr else S.obj

/-- `card_adr` -/
def cardAdr : BitVec 64 := S.cards.byteMapBase + (S.address >>> 9)

/-- The test of the heap range. -/
def inRange : Bool :=
  uifThen (.long (S.address - S.cards.bottom)) .le (.long (S.cards.top - S.cards.bottom))

/-- A card is loaded as a byte. -/
def loaded (card : BitVec 8) : IdealValue := .int (card.signExtend 32)

/-- `CardTableBarrierSetC2::post_barrier` -/
def cardTablePostBarrier (doStackAllocation : Bool) : List CardAccess :=
  if S.nullCon then []
  else if S.useReduceInitialCardMarks && S.justAllocated then []
  else if doStackAllocation && !S.inRange then []
  else if S.useCondCardMark then
    .load S.cardAdr :: if ifThen (loaded S.cardVal) .ne (.int 0) then [.store S.cardAdr] else []
  else [.store S.cardAdr]

/-- `G1BarrierSetC2::post_barrier` -/
def g1PostBarrier (doStackAllocation : Bool) : List CardAccess :=
  if S.nullCon then []
  else if S.useReduceInitialCardMarks && (S.justAllocated || S.canRemove) then []
  else
    match S.val with
    | some val =>
      if ifThen (.long ((S.address ^^^ val) >>> S.logOfHRGrainBytes)) .ne (.long 0) then
        if doStackAllocation && !S.inRange then []
        else if ifThen (.ptr val) .ne (.ptr 0) then
          .load S.cardAdr ::
            if ifThen (loaded S.cardVal) .ne (loaded S.cards.g1YoungCard) then
              .load S.cardAdr ::
                if ifThen (loaded S.cardValReload) .ne (loaded S.cards.dirtyCard) then
                  [.store S.cardAdr]
                else []
            else []
        else []
      else []
    | none =>
      if doStackAllocation && !S.inRange then []
      else
        .load S.cardAdr ::
          if ifThen (loaded S.cardVal) .ne (loaded S.cards.g1YoungCard) then [.store S.cardAdr]
          else []

/-- `post_barrier` -/
def postBarrier (barrierSet : BarrierSetC2) (doStackAllocation : Bool) : List CardAccess :=
  match barrierSet with
  | .cardTable => S.cardTablePostBarrier doStackAllocation
  | .g1 => S.g1PostBarrier doStackAllocation

/-- The address is in the heap. -/
def InHeap : Prop := S.cards.bottom ≤ S.address ∧ S.address < S.cards.top

instance : Decidable S.InHeap := inferInstanceAs (Decidable (_ ∧ _))

/-- The tests other than that of the heap range let the barrier get to the card. -/
def otherTests (barrierSet : BarrierSetC2) : Bool :=
  match barrierSet with
  | .cardTable => !S.nullCon && !(S.useReduceInitialCardMarks && S.justAllocated)
  | .g1 =>
    !S.nullCon && !(S.useReduceInitialCardMarks && (S.justAllocated || S.canRemove)) &&
      S.val.all fun val =>
        ifThen (.long ((S.address ^^^ val) >>> S.logOfHRGrainBytes)) .ne (.long 0) &&
          ifThen (.ptr val) .ne (.ptr 0)

/-- The test lets the barrier get to the card exactly if the address is in the heap. -/
def RangeExact (barrierSet : BarrierSetC2) : Prop :=
  S.postBarrier barrierSet true = if S.InHeap then S.postBarrier barrierSet false else []

instance (barrierSet : BarrierSetC2) : Decidable (S.RangeExact barrierSet) :=
  inferInstanceAs (Decidable (_ = _))

variable {S}

theorem holds_le_cmpU {w : ℕ} {a b : BitVec w} : BoolTest.le.holds (cmpU a b) = true ↔ a ≤ b := by
  rw [BoolTest.holds, cmpU, bne_iff_ne, BitVec.le_def]
  exact compare_le_iff_le

/-- The subtraction wraps around below the heap. -/
theorem inRange_iff : S.inRange = true ↔ S.cards.bottom ≤ S.address ∧ S.address ≤ S.cards.top := by
  have hle := S.cards.bottom_le_top
  rw [inRange, uifThen, holds_le_cmpU]
  bv_omega

/-- What a barrier does with the test. -/
theorem postBarrier_true (barrierSet : BarrierSetC2) :
    S.postBarrier barrierSet true =
      if S.inRange then S.postBarrier barrierSet false else [] := by
  cases barrierSet with
  | cardTable =>
    simp only [postBarrier, cardTablePostBarrier]
    cases S.inRange <;> simp
  | g1 =>
    simp only [postBarrier, g1PostBarrier]
    cases S.inRange <;> cases S.val <;> simp

/-- Without the test of the heap range a barrier gets to the card as the other tests say. -/
theorem postBarrier_false_eq_nil (barrierSet : BarrierSetC2) :
    S.postBarrier barrierSet false = [] ↔ S.otherTests barrierSet = false := by
  cases barrierSet with
  | cardTable =>
    simp only [postBarrier, cardTablePostBarrier, otherTests]
    cases S.nullCon <;> cases S.useReduceInitialCardMarks && S.justAllocated <;>
      cases S.useCondCardMark <;> simp
  | g1 =>
    simp only [postBarrier, g1PostBarrier, otherTests]
    cases S.nullCon <;>
      cases S.useReduceInitialCardMarks && (S.justAllocated || S.canRemove) <;>
      cases S.val <;> simp

/-- Exactly which addresses the test is right for. -/
theorem rangeExact_iff (S : StorePoint) (barrierSet : BarrierSetC2) : S.RangeExact barrierSet ↔
    (S.address = S.cards.top → S.otherTests barrierSet = false) := by
  have hle := S.cards.bottom_le_top
  rw [RangeExact, postBarrier_true, ← postBarrier_false_eq_nil]
  by_cases htop : S.address = S.cards.top
  · have hin : S.inRange = true := inRange_iff.2 ⟨htop ▸ hle, htop ▸ BitVec.le_refl _⟩
    have hout : ¬ S.InHeap := fun h => BitVec.lt_irrefl _ (htop ▸ h.2)
    rw [if_pos hin, if_neg hout]
    exact (imp_iff_right htop).symm
  · have heq : S.inRange = true ↔ S.InHeap := by
      rw [inRange_iff, InHeap]
      bv_omega
    simp [heq, htop]

end StorePoint

/-! ## The end of the heap

The first address behind the heap, where no object is that the heap has. -/

/-- A store to an object that starts where the heap ends. -/
def endStore : StorePoint where
  cards := ⟨0x80000000, 0x80100000, by decide, 0x1000, 0, 2⟩
  useCondCardMark := false
  useReduceInitialCardMarks := true
  justAllocated := false
  canRemove := false
  usePrecise := false
  obj := 0x80100000
  adr := 0x80100000
  nullCon := false
  val := some 0x80000010
  logOfHRGrainBytes := 20
  cardVal := 0xff
  cardValReload := 0xff

/-- Both barriers mark a card that is not one of the heap's. -/
theorem not_rangeExact_endStore :
    ¬ endStore.RangeExact .cardTable ∧ ¬ endStore.RangeExact .g1 := by
  constructor
  · decide
  · decide

end StackAllocation
