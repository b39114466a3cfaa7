import StackAllocation.PointsTo
import Mathlib.Logic.Function.Basic

/-!
# Choosing the stack allocations

Step 4 of `ConnectionGraph::compute_escape` marks the allocations that may be placed
in the frame: each by an answer of its own (`eligible_for_stack_allocation`), and then
together, taking back the mark of an object that is stored in an object that is neither
marked nor scalar replaceable (`verify_stack_allocated_object_chains`).

The scalar replaceable ones that get a unique type are marked for macro expansion to
remove (`split_unique_types`), with a mark that is not the one of the connection graph.

Macro expansion places them. The allocations that are left after scalar replacement are
first counted (`estimate_stack_allocation_size`); if one of them cannot be handled as
escape analysis assumed, or they do not all fit, no object that is referenced by another
one is placed. Then each is placed or expanded to a heap allocation.
-/

namespace StackAllocation

/-! ## Escape analysis

Step 4 marks the allocations that do not escape and are eligible, and takes marks back until what
holds a marked object is marked as well, or is scalar replaceable. Step 6 gives some of the scalar
replaceable ones unique types. -/

/-- The options that steps 4 and 6 look at. -/
structure StackAllocationOptions : Type where
  /-- `C->do_stack_allocation()` -/
  doStackAllocation : Bool
  /-- `EliminateAllocations` -/
  eliminateAllocations : Bool
  /-- `C->AliasLevel()` -/
  aliasLevel : ℕ
  /-- `EliminateLocks` -/
  eliminateLocks : Bool
  /-- `EliminateNestedLocks` -/
  eliminateNestedLocks : Bool
  deriving DecidableEq, Repr

/-- The guard of step 4; `hasLocks` is `_has_locks`. -/
def StackAllocationOptions.proceeds (o : StackAllocationOptions) (hasLocks : Bool) : Bool :=
  o.doStackAllocation && (!hasLocks || (o.eliminateLocks && o.eliminateNestedLocks))

/-- The marks of the allocation nodes. -/
structure AllocMarks : Type where
  /-- `_is_stack_allocateable` -/
  isStackAllocateable : ℕ → Bool
  /-- `_is_referenced_stack_allocation` -/
  isReferenced : ℕ → Bool
  /-- `_is_scalar_replaceable` -/
  isScalarReplaceable : ℕ → Bool

/-- The marks of new allocation nodes. -/
def AllocMarks.initial : AllocMarks := ⟨fun _ => false, fun _ => false, fun _ => false⟩

/-- The mark is taken back. -/
def AllocMarks.drop (m : AllocMarks) (ptn : ℕ) : AllocMarks :=
  { m with
    isStackAllocateable := Function.update m.isStackAllocateable ptn false
    isReferenced := Function.update m.isReferenced ptn false }

/-- The object is referenced by another one. -/
def AllocMarks.reference (m : AllocMarks) (ptn : ℕ) : AllocMarks :=
  { m with isReferenced := Function.update m.isReferenced ptn true }

/-- What `split_unique_types` finds for the result of an allocation. -/
inductive ResultCast : Type where
  /-- `result_cast()` is `NULL` -/
  | none
  /-- it is not a `CheckCastPP` -/
  | notCheckCast
  /-- it is a cast to `Object`, and there is no second cast -/
  | noSecondCast
  /-- the cast: its type is a `TypeOopPtr`, its class is exact -/
  | cast (isOopPtr klassIsExact : Bool)
  deriving DecidableEq, Repr

section

variable (g : Nodes) (eligible : ℕ → Bool)

/-- The loop of step 4 over `non_escaped_worklist`. -/
def markEligible : List ℕ → AllocMarks → AllocMarks
  | [], m => m
  | ptn :: rest, m =>
    if (g ptn).escapeState = .argEscape then markEligible rest m
    else if (g ptn).ideal ≠ .allocate then markEligible rest m
    else
      markEligible rest
        { m with isStackAllocateable := Function.update m.isStackAllocateable ptn (eligible ptn) }

/-- The loop over the bases of a field that refers to `ptn`; `true` ends the pass. -/
def verifyBases (ptn : ℕ) : List ℕ → AllocMarks → Bool × AllocMarks
  | [], m => (false, m)
  | base :: rest, m =>
    if (g base).type ≠ .javaObject then verifyBases ptn rest m
    else if base = ptn then verifyBases ptn rest m
    else if (g base).ideal ≠ .allocate then
      if (g base).ideal = .nullConP then
        -- allow NULL ptr ConP
        verifyBases ptn rest m
      else (true, m.drop ptn)
    else if !m.isStackAllocateable base && !(g base).scalarReplaceable then (true, m.drop ptn)
    else verifyBases ptn rest (m.reference ptn)

/-- The loop over the uses of `ptn`. -/
def verifyUses (ptn : ℕ) : List Use → AllocMarks → Bool × AllocMarks
  | [], m => (false, m)
  | .base _ :: rest, m => verifyUses ptn rest m
  | .edge use :: rest, m =>
    if (g use).type = .field then
      match verifyBases g ptn (g use).bases m with
      | (true, m') => (true, m')
      | (false, m') => verifyUses ptn rest m'
    else verifyUses ptn rest m

/-- `ConnectionGraph::verify_stack_allocated_object_chains`. -/
def verifyStackAllocatedObjectChains : List ℕ → AllocMarks → Bool × AllocMarks
  | [], m => (false, m)
  | ptn :: rest, m =>
    if (g ptn).escapeState ≠ .noEscape then verifyStackAllocatedObjectChains rest m
    else if (g ptn).ideal ≠ .allocate then verifyStackAllocatedObjectChains rest m
    else if !m.isStackAllocateable ptn then verifyStackAllocatedObjectChains rest m
    else
      match verifyUses g ptn (g ptn).uses m with
      | (true, m') => (true, m')
      | (false, m') => verifyStackAllocatedObjectChains rest m'

/-- The `while (more_work)` loop of step 4.1. -/
def verifyLoop (nonEscaped : List ℕ) : ℕ → AllocMarks → Option AllocMarks
  | 0, _ => none
  | fuel + 1, m =>
    match verifyStackAllocatedObjectChains g nonEscaped m with
    | (true, m') => verifyLoop nonEscaped fuel m'
    | (false, m') => some m'

/-- Step 4 of `compute_escape`. -/
def stackAllocationAnalysis (o : StackAllocationOptions) (hasLocks : Bool) (nonEscaped : List ℕ)
    (fuel : ℕ) : Option AllocMarks :=
  if o.proceeds hasLocks then
    verifyLoop g nonEscaped fuel (markEligible g eligible nonEscaped .initial)
  else some .initial

/-- The allocation is given a unique type. -/
def ResultCast.isUnique : ResultCast → Bool
  | .none => true
  | .notCheckCast => false
  | .noSecondCast => false
  | .cast isOopPtr klassIsExact => isOopPtr && klassIsExact

/-- `split_unique_types`: the marks it sets. -/
def splitUniqueTypes (resultCast : ℕ → ResultCast) : List ℕ → AllocMarks → AllocMarks
  | [], m => m
  | ptn :: rest, m =>
    if (g ptn).escapeState ≠ .noEscape || !(g ptn).scalarReplaceable then
      splitUniqueTypes resultCast rest m
    else if (g ptn).ideal = .allocate && (resultCast ptn).isUnique then
      splitUniqueTypes resultCast rest
        { m with isScalarReplaceable := Function.update m.isScalarReplaceable ptn true }
    else splitUniqueTypes resultCast rest m

/-- The allocations of `alloc_worklist`: step 3 leaves them scalar replaceable. -/
def allocWorklist (nonEscaped : List ℕ) : List ℕ :=
  nonEscaped.filter fun ptn =>
    decide ((g ptn).escapeState = .noEscape) && (g ptn).scalarReplaceable

/-- Steps 4 to 6 of `compute_escape`. -/
def computeMarks (o : StackAllocationOptions) (hasLocks : Bool) (nonEscaped : List ℕ)
    (resultCast : ℕ → ResultCast) (fuel : ℕ) : Option AllocMarks :=
  (stackAllocationAnalysis g eligible o hasLocks nonEscaped fuel).map fun m =>
    if (allocWorklist g nonEscaped).length > 0 && decide (o.aliasLevel ≥ 3) &&
        o.eliminateAllocations then
      splitUniqueTypes g resultCast (allocWorklist g nonEscaped) m
    else m

end

/-! ## Macro expansion

Expansion visits the allocations from the end of the list. An allocation is placed if it may be and
its slots can be named; it is yanked if its result has no uses left, and else goes to the heap. A
failure that concerns objects that others refer to is known before the first of them is placed. -/

/-- What macro expansion finds: the allocations and what has become of them since escape
analysis. The answers of code that is not modelled, whatever they are. -/
structure MacroPhase : Type where
  /-- the allocations on the macro list once other nodes have been expanded: those that
  were not removed by scalar replacement or otherwise -/
  remaining : List ℕ
  /-- the allocations in the order they are expanded in; some may have gone dead -/
  order : List ℕ
  order_subset : order ⊆ remaining
  order_nodup : order.Nodup
  /-- `result_cast()` is not `NULL` when sizes are estimated -/
  hasResultCast : ℕ → Bool
  /-- `result_cast()` is not `NULL` when the allocation is expanded -/
  hasResultCastAtExpansion : ℕ → Bool
  /-- the constant size in bytes; `none` is -1 -/
  sizeOfObject : ℕ → Option ℕ
  /-- `process_write_barriers_on_stack_allocated_objects` leaves no use of the result -/
  isYanked : ℕ → Bool
  /-- `C->fixed_slots()` before expansion -/
  fixedSlots : ℕ
  /-- the first slot `RegMask` cannot represent -/
  slotLimit : ℕ

/-- What becomes of an allocation. -/
inductive Outcome : Type where
  /-- it is placed in the frame, at this slot -/
  | stack (slot : ℕ)
  /-- it is removed since its result has no uses left -/
  | yanked
  /-- it is expanded without its initialization since its result has no uses left -/
  | unused
  /-- it is expanded to a heap allocation -/
  | heap
  deriving DecidableEq, Repr

section

variable (o : StackAllocationOptions) (m : AllocMarks) (P : MacroPhase)

/-- `stack_allocation_location_representable`; the number added is `STACK_REG_BUFFER`. -/
def MacroPhase.locationRepresentable (slotLocation : ℕ) : Bool :=
  decide (slotLocation + 4 < P.slotLimit)

/-- `can_stack_allocate`. -/
def canStackAllocate (res : Bool) (alloc : ℕ) : Bool :=
  res && m.isStackAllocateable alloc && (P.sizeOfObject alloc).isSome && o.doStackAllocation

/-- `size_of_object >> LogBytesPerInt`. -/
def MacroPhase.slots (alloc : ℕ) : ℕ := (P.sizeOfObject alloc).getD 0 >>> 2

/-- `estimate_stack_allocation_size` for each allocation: the fail flag and
`stack_allocated_slots`. -/
def estimateStackAllocationSize : List ℕ → Bool × ℕ → Bool × ℕ
  | [], e => e
  | alloc :: rest, (fail, slots) =>
    if m.isScalarReplaceable alloc && !m.isStackAllocateable alloc then
      estimateStackAllocationSize rest (true, slots)
    else if m.isStackAllocateable alloc && !canStackAllocate o m P (P.hasResultCast alloc) alloc
      then
      estimateStackAllocationSize rest (true, slots)
    else if !m.isStackAllocateable alloc then estimateStackAllocationSize rest (fail, slots)
    else estimateStackAllocationSize rest (fail, slots + P.slots alloc)

/-- `fail_stack_allocation_with_references` when expansion starts. -/
def failWithReferences : Bool :=
  let e := estimateStackAllocationSize o m P P.remaining (false, 0)
  e.1 || !P.locationRepresentable (P.fixedSlots + e.2)

/-- `stack_allocation`: the outcome if it returns true, and `fixed_slots` afterwards. -/
def stackAllocation (fail : Bool) (alloc fixedSlots : ℕ) : Option Outcome × ℕ :=
  if !canStackAllocate o m P (P.hasResultCastAtExpansion alloc) alloc then (none, fixedSlots)
  else if fail && m.isReferenced alloc then (none, fixedSlots)
  else
    -- `next_stack_allocated_object`
    let next := fixedSlots + P.slots alloc
    if !P.locationRepresentable next then (none, fixedSlots)
    else if P.isYanked alloc then (some .yanked, next)
    else (some (.stack fixedSlots), next)

/-- The expansion of the allocations in turn: the outcome of each. -/
def expandAllocations (fail : Bool) : List ℕ → ℕ → List (ℕ × Outcome)
  | [], _ => []
  | alloc :: rest, fixedSlots =>
    match stackAllocation o m P fail alloc fixedSlots with
    | (some outcome, fixedSlots') => (alloc, outcome) :: expandAllocations fail rest fixedSlots'
    | (none, fixedSlots') =>
      (alloc, if P.hasResultCastAtExpansion alloc then .heap else .unused) ::
        expandAllocations fail rest fixedSlots'

/-- The outcomes of macro expansion. -/
def expandMacroNodes : List (ℕ × Outcome) :=
  expandAllocations o m P (failWithReferences o m P) P.order P.fixedSlots

end

end StackAllocation
