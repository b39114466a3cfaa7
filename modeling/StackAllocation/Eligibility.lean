import StackAllocation.PointsTo

/-!
# Eligible allocations

`ConnectionGraph::eligible_for_stack_allocation`: the checks on the allocation alone, and
then on its users in the connection graph (`all_uses_eligible_for_stack_allocation`). What
the checks look up in the ideal graph is data (`EligibilityInfo`).
-/

namespace StackAllocation

/-- What the checks look up for an allocation or for a local variable that refers to it. -/
structure EligibilityInfo : Type where
  /-- `UseCompressedOops` -/
  useCompressedOops : Bool
  /-- `EliminateAllocationArraySizeLimit` -/
  eliminateAllocationArraySizeLimit : ℤ
  /-- `result_cast()`, and whether it is a `CheckCastPP` -/
  resultCast : ℕ → Option Bool
  /-- the constant size in bytes; `none` is -1 -/
  sizeOfObject : ℕ → Option ℕ
  /-- the constant length of an `AllocateArray`, or -1 -/
  arrayLength : ℕ → Option ℤ
  /-- the class of an `AllocateArray` is an object array -/
  isObjArrayKlass : ℕ → Bool
  /-- `oop_may_be_compressed` -/
  oopMayBeCompressed : ℕ → Bool
  /-- the node is a `Phi`, or a `LoadP` whose memory is a `Phi`, and
  `allocation_lifetime_overlap` returns true for the `Phi` -/
  lifetimeOverlap : ℕ → Bool

/-- `AllocateNode::StackAllocSizeLimit`. -/
def stackAllocSizeLimit : ℕ := 0x100

section

variable (E : EligibilityInfo) (g : Nodes)

/-- The allocation is an array of references. -/
def EligibilityInfo.isObjArray (ptn : ℕ) : Bool :=
  (E.arrayLength ptn).isSome && E.isObjArrayKlass ptn

/-- One use, in `all_uses_eligible_for_stack_allocation`. -/
def useEligible (ptn : ℕ) : Use → Bool
  | .base _ => true
  | .edge use =>
    match (g use).type with
    | .localVar => !E.lifetimeOverlap use
    | .field => !E.useCompressedOops
    -- The System.arraycopy helper has a post store barrier
    | .arraycopy => !((g ptn).arraycopyDst && E.isObjArray ptn)
    | .javaObject => true

/-- `all_uses_eligible_for_stack_allocation`. -/
def allUsesEligible (ptn : ℕ) : Bool := (g ptn).uses.all (useEligible E g ptn)

/-- The constant length of an array is too large, or not known. -/
def EligibilityInfo.hasInvalidLength (ptn : ℕ) : Bool :=
  match E.arrayLength ptn with
  | none => false
  | some length => decide (length < 0 ∨ E.eliminateAllocationArraySizeLimit < length)

/-- `eligible_for_stack_allocation`. -/
def eligibleForStackAllocation (ptn : ℕ) : Bool :=
  match E.resultCast ptn, E.sizeOfObject ptn with
  | some true, some sizeOfObject =>
    if stackAllocSizeLimit < sizeOfObject then false
    else if E.hasInvalidLength ptn then false
    else if E.useCompressedOops && E.oopMayBeCompressed ptn then false
    else allUsesEligible E g ptn
  | _, _ => false

/-- The result, the size and the length of the allocation pass. -/
def EligibilityInfo.shapeEligible (ptn : ℕ) : Bool :=
  decide (E.resultCast ptn = some true) &&
    (E.sizeOfObject ptn).any (fun sizeOfObject => decide (sizeOfObject ≤ stackAllocSizeLimit)) &&
    !E.hasInvalidLength ptn

/-- The checks of the allocation alone and those of its users. -/
theorem eligibleForStackAllocation_iff {ptn : ℕ} :
    eligibleForStackAllocation E g ptn = true ↔ E.shapeEligible ptn = true ∧
      (E.useCompressedOops && E.oopMayBeCompressed ptn) = false ∧
        allUsesEligible E g ptn = true := by
  unfold eligibleForStackAllocation EligibilityInfo.shapeEligible
  obtain _ | _ | _ := E.resultCast ptn
  · simp
  · simp
  obtain _ | size := E.sizeOfObject ptn
  · simp
  by_cases hsize : stackAllocSizeLimit < size
  · simp [hsize, Nat.not_le_of_lt hsize]
  cases hlength : E.hasInvalidLength ptn with
  | true => simp
  | false =>
    cases hcompressed : E.useCompressedOops && E.oopMayBeCompressed ptn with
    | true => simp [hsize]
    | false => simp [hsize, Nat.le_of_not_lt hsize]

end

end StackAllocation
