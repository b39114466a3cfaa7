import Mathlib.Data.List.Nodup
import Mathlib.Logic.Function.Basic

/-!
# The scan of a compiled frame

While the collector runs it asks every compiled frame for its references. The
oop map of the call site names the registers and stack slots that hold them
(`OopMapSet::all_do`); a slot that points into the frame itself refers to a stack
object, whose own references are scanned instead (`OopMapSet::stack_oop_do`,
`OopClosureWalker`), recursively and with a list of the objects met so far. The
closure the collector passes may move objects: it overwrites the slot it is
applied to. Derived pointers are put into a table first, by their distance from
their base, and are recomputed when the collector is done
(`DerivedPointerTable`).

Words and addresses are 64-bit, memory is a function from addresses to words.
-/

namespace StackAllocation

/-- A machine word; addresses are words. -/
abbrev Word := UInt64

/-- A slot that holds a reference, `narrow` if it holds it compressed. -/
structure Slot : Type where
  /-- where the slot is -/
  addr : Word
  /-- whether it is a `narrowOop` -/
  narrow : Bool
  deriving DecidableEq, Repr

/-- An `OopClosure`, by the new content of the slot it is applied to. The answer
may depend on everything the closure was applied to before. -/
abbrev OopClosure := List (Slot × Word) → Slot → Word → Word

/-- `OopMapValue::oop_types`. -/
inductive OopTypes : Type where
  | oopValue | narrowoopValue | calleeSavedValue | derivedOopValue
  deriving DecidableEq, Repr

/-- An entry of an oop map. -/
structure OopMapValue (VMReg : Type) : Type where
  /-- the register or stack slot -/
  reg : VMReg
  /-- what is in it -/
  type : OopTypes
  /-- the base of a derived pointer, the saved register of a callee-saved entry -/
  contentReg : VMReg
  deriving DecidableEq, Repr

/-- The switches the scan looks at. -/
structure ScanFlags : Type where
  /-- `UseStackAllocationRuntime` -/
  useStackAllocationRuntime : Bool
  /-- `VerifyStack` -/
  verifyStack : Bool
  /-- `VM_LITTLE_ENDIAN` -/
  littleEndian : Bool
  deriving DecidableEq, Repr

/-- A compiled frame as the scan sees it: its extent, its oop map with the places
of the registers, and what the object model knows of the objects in it. -/
structure FrameInfo (VMReg : Type) : Type where
  /-- `fr->unextended_sp()` -/
  base : Word
  /-- `fr->unextended_sp() + cb->frame_size()` -/
  top : Word
  /-- `cb->oop_map_for_return_address(fr->pc())` -/
  map : List (OopMapValue VMReg)
  /-- `fr->oopmapreg_to_location(reg, reg_map)`; `none` is `NULL` -/
  location : VMReg → Option Word
  /-- `VMReg::is_stack()` -/
  isStack : VMReg → Bool
  /-- `CompressedOops::is_base` -/
  isCompressedBase : Word → Bool
  /-- the value of a narrow oop, as `oop_load` decodes it -/
  decode : Word → Word
  /-- whether the klass of the object is a type array klass -/
  isTypeArray : Word → Bool
  /-- the reference slots `oop_iterate` visits, in order -/
  oopSlots : Word → List Slot
  /-- the stack objects the frame describes at this call site, which `VerifyStack` consults -/
  described : Word → Bool

/-- The state of the scan. -/
structure ScanState : Type where
  /-- the memory -/
  mem : Word → Word
  /-- the slots the closure was applied to, with their contents at that moment -/
  calls : List (Slot × Word)
  /-- `stack_oops` -/
  stackOops : List Word
  /-- `DerivedPointerTable::_active` -/
  active : Bool
  /-- the entries of the table: location and offset, newest first -/
  entries : List (Word × Word)

section

variable {VMReg : Type} (F : FrameInfo VMReg)

/-- `NULL`, or what a narrow `NULL` decodes to when a narrow oop implicit null
check is used. -/
def FrameInfo.isNull (v : Word) : Bool := v == 0 || F.isCompressedBase v

/-- `(base <= oop_ptr) && (oop_ptr < top)`. -/
def FrameInfo.inFrame (v : Word) : Bool := decide (F.base ≤ v) && decide (v < F.top)

/-- The reference in a slot. -/
def FrameInfo.load (mem : Word → Word) (q : Slot) : Word :=
  if q.narrow then F.decode (mem q.addr) else mem q.addr

/-- `_closure->do_oop(o)`. -/
def ScanState.doOop (s : ScanState) (closure : OopClosure) (q : Slot) : ScanState :=
  { s with
    mem := Function.update s.mem q.addr (closure s.calls q (s.mem q.addr))
    calls := s.calls ++ [(q, s.mem q.addr)] }

/-- The loop of `oop_iterate` with an `OopClosureWalker`; `walk` is the recursive
call of `stack_oop_do`. -/
def oopClosureWalker (closure : OopClosure) (walk : Word → ScanState → Option ScanState) :
    List Slot → ScanState → Option ScanState
  | [], s => some s
  | q :: qs, s =>
    if F.inFrame (F.load s.mem q) then
      if q.narrow then
        -- no references to stack allocated oops in UseCompressedOops
        oopClosureWalker closure walk qs s
      else
        (walk (s.mem q.addr) s).bind (oopClosureWalker closure walk qs)
    else
      oopClosureWalker closure walk qs (s.doOop closure q)

/-- `OopMapSet::stack_oop_do` for the object at `o`. -/
def stackOopDo (closure : OopClosure) : ℕ → Word → ScanState → Option ScanState
  | 0, _, _ => none
  | fuel + 1, o, s =>
    if F.isTypeArray o then some s
    else if o ∈ s.stackOops then some s
    else
      oopClosureWalker F closure (stackOopDo closure fuel) (F.oopSlots o)
        { s with stackOops := s.stackOops ++ [o] }

/-- `DerivedPointerTable::add`, which `add_derived_oop` calls with its arguments
the other way round. -/
def ScanState.addDerivedOop (s : ScanState) (baseLoc derivedLoc : Word) : ScanState :=
  if s.active then
    { s with
      mem := Function.update s.mem derivedLoc baseLoc
      entries := (derivedLoc, s.mem derivedLoc - s.mem baseLoc) :: s.entries }
  else s

/-- The first loop of `OopMapSet::all_do`: derived pointers. -/
def derivedLoop (flags : ScanFlags) : List (OopMapValue VMReg) → ScanState → Option ScanState
  | [], s => some s
  | omv :: rest, s =>
    if omv.type ≠ .derivedOopValue then derivedLoop flags rest s
    else
      match F.location omv.reg with
      | none => none
      | some derivedLoc =>
        match F.location omv.contentReg with
        | none => derivedLoop flags rest s
        | some baseLoc =>
          if F.isNull (s.mem baseLoc) then derivedLoop flags rest s
          else if flags.useStackAllocationRuntime && F.inFrame (s.mem baseLoc) then
            -- stack oops do not move
            derivedLoop flags rest s
          else derivedLoop flags rest (s.addDerivedOop baseLoc derivedLoc)

/-- The slot of a narrow oop: in a register of a big-endian machine it is the
other half of the word. -/
def FrameInfo.narrowSlot (flags : ScanFlags) (reg : VMReg) (loc : Word) : Slot :=
  ⟨if flags.littleEndian || F.isStack reg then loc else loc + 4, true⟩

/-- The second loop of `OopMapSet::all_do`: oops and narrow oops. -/
def oopLoop (flags : ScanFlags) (closure : OopClosure) (fuel : ℕ) :
    List (OopMapValue VMReg) → ScanState → Option ScanState
  | [], s => some s
  | omv :: rest, s =>
    match F.location omv.reg with
    | none => none
    | some loc =>
      match omv.type with
      | .oopValue =>
        if F.isNull (s.mem loc) then oopLoop flags closure fuel rest s
        else if flags.useStackAllocationRuntime && F.inFrame (s.mem loc) then
          if flags.verifyStack && !F.described (s.mem loc) then oopLoop flags closure fuel rest s
          else (stackOopDo F closure fuel (s.mem loc) s).bind (oopLoop flags closure fuel rest)
        else oopLoop flags closure fuel rest (s.doOop closure ⟨loc, false⟩)
      | .narrowoopValue =>
        oopLoop flags closure fuel rest (s.doOop closure (F.narrowSlot flags omv.reg loc))
      | _ => oopLoop flags closure fuel rest s

/-- `OopMapSet::oops_do`: `all_do` with `add_derived_oop`. `stack_oops` is local to
the call. -/
def allDo (flags : ScanFlags) (closure : OopClosure) (fuel : ℕ) (s : ScanState) :
    Option ScanState :=
  (derivedLoop F flags F.map s).bind fun s =>
    oopLoop F flags closure fuel F.map { s with stackOops := [] }

end

/-- `DerivedPointerTable::clear`. -/
def ScanState.clear (s : ScanState) : ScanState := { s with active := true, entries := [] }

/-- The loop of `DerivedPointerTable::update_pointers` over the popped entries. -/
def updateEntries : List (Word × Word) → (Word → Word) → Word → Word
  | [], mem => mem
  | (derivedLoc, offset) :: rest, mem =>
    updateEntries rest (Function.update mem derivedLoc (mem (mem derivedLoc) + offset))

/-- `DerivedPointerTable::update_pointers`. -/
def ScanState.updatePointers (s : ScanState) : ScanState :=
  { s with mem := updateEntries s.entries s.mem, active := false, entries := [] }

end StackAllocation
