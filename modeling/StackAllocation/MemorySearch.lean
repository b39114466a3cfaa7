import Mathlib.Data.Int.Notation
import Mathlib.Data.Nat.Notation

/-!
# The search for the value of a field

Scalar replacement looks for the value that a field of an allocation has in a memory state. It walks
up the memory to what wrote the field last (`scan_mem_chain`), and at a `Phi` makes a `Phi` of the
values on its paths (`value_from_mem_phi`), one for each memory `Phi`; for an `ArrayCopy` it loads
from the source (`make_arraycopy_load`). All is for one allocation and one alias index; the offset
changes only where an array is copied to itself.
-/

namespace StackAllocation

/-- An input of an `Initialize`. -/
inductive CapturedInput : Type where
  /-- `zero_memory()` -/
  | zeroMemory
  /-- dead garbage -/
  | dead
  | store (offset : ℤ) (size : ℕ) (st : ℕ)

/-- An `ArrayCopy`, and what it says of the allocation and of an offset. -/
structure CopyNode : Type where
  memory : ℕ
  isClonebasic : Bool
  mayModify : Bool
  /-- `modifies`, if it may modify the offset -/
  modifies : ℤ → Bool
  /-- `modifies`, if it must modify the offset -/
  mustModify : ℤ → Bool
  /-- `(src_pos - dest_pos) << shift` if the positions are constants -/
  shift : Option ℤ
  /-- `in(Src) == in(Dest)` -/
  sameArray : Bool

/-- A memory state, or a node that makes one. -/
inductive ChainNode : Type where
  /-- a `MergeMem`, with its `memory_at(alias_idx)` -/
  | mergeMem (memory : ℕ)
  /-- a memory projection -/
  | proj (parent : ℕ)
  /-- a store, of the alias index or a raw one -/
  | store (inSlice : Bool) (offset : ℤ) (instanceId value memory : ℕ)
  | clearArray (dest memory : ℕ)
  /-- a `SCMemProj`, with the memory of its node -/
  | scMemProj (inSlice : Bool) (memory : ℕ)
  | strInflatedCopy (inSlice : Bool) (memory : ℕ)
  /-- `none` is an input that is null or top -/
  | phi (region : ℕ) (inputs : List (Option ℕ))
  | initializeNode (allocation : Option ℕ) (memory : ℕ) (isComplete : Bool)
    (stores : List CapturedInput) (zeroMemory : ℕ)
  /-- any call but an `ArrayCopy` -/
  | call (memory : ℕ)
  | arrayCopy (copy : CopyNode)
  /-- any barrier but an `Initialize`; if `ArrayCopyNode::may_modify` answers `true`, the copy that
  it finds, if it finds one -/
  | memBar (memory : ℕ) (copy : Option (Option ℕ))
  | top
  /-- anything else -/
  | other

/-- The graph that is searched. -/
structure FieldGraph : Type where
  node : ℕ → ChainNode
  alloc : ℕ
  startMem : ℕ
  /-- the memory of an allocation -/
  allocMemory : ℕ → ℕ
  /-- `AllocateNode::Ideal_allocation` -/
  idealAllocation : ℕ → Option ℕ
  /-- `initialization()` of an allocation -/
  initialization : ℕ → Option ℕ
  /-- the size of the field -/
  fieldSize : ℕ
  fieldSize_pos : 0 < fieldSize
  minimumHeaderSize : ℤ
  /-- `TrackedInitializationLimit`, in bytes -/
  tiLimit : ℤ
  /-- the `Phi` of the region that is for the same instance field, by memory `Phi` and offset -/
  samePhi : ℕ → ℤ → Option ℕ
  valueSearchLimit : ℕ

/-- A node that the search returns. -/
inductive SearchValue : Type where
  /-- `zerocon` -/
  | zero
  | node (n : ℕ)
  /-- the new `Phi` for a memory `Phi` and an offset -/
  | newPhi (mem : ℕ) (offset : ℤ)
  /-- a new load from the source of an `ArrayCopy`, of what the copy takes to the offset -/
  | load (ac : ℕ) (offset : ℤ) (mem : ℕ)
  /-- a path that is never taken -/
  | top
  deriving DecidableEq

/-- The new `Phi`s, and their inputs as far as they are set. -/
structure ValuePhis : Type where
  keys : List (ℕ × ℤ)
  inputs : List ((ℕ × ℤ) × List SearchValue)

/-- No new `Phi`s. -/
def ValuePhis.empty : ValuePhis := ⟨[], []⟩

/-- A step of a scan: on to another memory state, or the end. -/
inductive ScanStep : Type where
  | next (mem : ℕ)
  | stop (result : Option ℕ)

/-- A step of the search: on with another memory state, or the end. -/
inductive SearchStep : Type where
  | goOn (mem : ℕ)
  | done (result : Option ℕ)

namespace FieldGraph

variable (G : FieldGraph)

/-- The memory of the allocation. -/
def allocMem : ℕ := G.allocMemory G.alloc

/-- `start_mem` and `alloc_mem`. -/
def IsSentinel (n : ℕ) : Prop := n = G.startMem ∨ n = G.allocMem

instance (n : ℕ) : Decidable (G.IsSentinel n) := inferInstanceAs (Decidable (_ ∨ _))

/-- `in(MemNode::ValueIn)` -/
def valueIn (n : ℕ) : Option ℕ :=
  match G.node n with
  | .store _ _ _ value _ => some value
  | _ => none

/-- `n == top` -/
def isTop (n : ℕ) : Bool :=
  match G.node n with
  | .top => true
  | _ => false

/-! ## `find_captured_store`

Which input of the initialization the field has: a captured store, or the zeroed memory if none
wrote it. The search may also give up, and then nothing is known of the field. -/

/-- `captured_store_insertion_point`: `none` if it fails, `some none` if there is no store. -/
def capturedStore (offset : ℤ) : List CapturedInput → Option (Option ℕ)
  | [] => some none
  | .zeroMemory :: rest => capturedStore offset rest
  | .dead :: _ => none
  | .store stOff stSize st :: rest =>
    if offset < stOff then
      if stOff < offset + G.fieldSize then none else some none
    else if stOff < offset then
      if G.fieldSize ≠ 0 ∧ offset < stOff + 8 ∧ offset < stOff + stSize then none
      else capturedStore offset rest
    else if G.fieldSize ≠ 0 ∧ stSize ≠ G.fieldSize then none
    else some (some st)

/-- `find_captured_store` -/
def findCapturedStore (isComplete : Bool) (stores : List CapturedInput) (zeroMemory : ℕ)
    (offset : ℤ) : Option ℕ :=
  if isComplete || decide (offset < G.minimumHeaderSize) || decide (G.tiLimit ≤ offset) then none
  else (G.capturedStore offset stores).map fun st => st.getD zeroMemory

/-- The store that an `Initialize` captured; another node is left as it is. -/
def resolveInitialize (offset : ℤ) (n : ℕ) : Option ℕ :=
  match G.node n with
  | .initializeNode _ _ isComplete stores zeroMemory =>
    G.findCapturedStore isComplete stores zeroMemory offset
  | _ => some n

/-! ## `scan_mem_chain`

One step per memory state. A store to the field of this allocation ends the scan; what is known not
to touch the field is gone past, and anything else is where it stops. -/

/-- `ClearArrayNode::step_through` -/
def stepThrough (instanceId dest : ℕ) : Option ℕ :=
  match G.idealAllocation dest with
  | none => none
  | some a =>
    if a = instanceId then none
    else
      match (G.initialization a).map G.node with
      | some (.initializeNode _ memory _ _ _) => some memory
      | _ => some (G.allocMemory a)

/-- A `ClearArray`. The `alloc` of the source is here the allocation of what is cleared. -/
def clearStep (dest : ℕ) : ScanStep :=
  match G.idealAllocation dest with
  | none => .stop (some G.startMem)
  | some alloc =>
    match G.stepThrough alloc dest with
    | some mem => .next mem
    | none =>
      match G.initialization alloc with
      | some init => .stop (some init)
      | none => .stop (some (G.allocMemory alloc))

/-- A memory projection. -/
def projStep (offset : ℤ) (n parent : ℕ) : ScanStep :=
  match G.node parent with
  | .initializeNode allocation memory _ _ _ =>
    if allocation = some G.alloc then .stop (some parent) else .next memory
  | .call memory => .next memory
  | .arrayCopy ac =>
    if ac.mayModify && ac.modifies offset then .stop (some parent) else .next ac.memory
  | .memBar memory copy =>
    match copy with
    | some ac => .stop ac
    | none => .next memory
  | _ => .next n -- an unexpected projection

/-- `scan_mem_chain`, one step. -/
def scanStep (offset : ℤ) (n : ℕ) : ScanStep :=
  if G.IsSentinel n then .stop (some n)
  else
    match G.node n with
    | .mergeMem memory => .next memory
    | .proj parent => G.projStep offset n parent
    | .store inSlice stOffset instanceId _ memory =>
      if inSlice = true ∧ stOffset = offset ∧ instanceId = G.alloc then .stop (some n)
      else .next memory
    | .clearArray dest _ => G.clearStep dest
    | .scMemProj inSlice memory => if inSlice then .stop none else .next memory
    | .strInflatedCopy inSlice memory => if inSlice then .stop none else .next memory
    | _ => .stop (some n)

/-- `scan_mem_chain`, by how many steps it makes at most. -/
def scan (offset : ℤ) : ℕ → ℕ → Option (Option ℕ)
  | 0, _ => none
  | fuel + 1, n =>
    match G.scanStep offset n with
    | .stop result => some result
    | .next mem => scan offset fuel mem

/-! ## `value_from_mem`

A scan stops at a `Phi`, an initialization, an array copy or a store. A `Phi` all of whose paths
lead to one state, or back to it, is gone past; the list of what was visited is for graphs in which
this leads around. -/

section

variable (fuel : ℕ)

/-- The unique input of a `Phi`: `some none` if it has none or several. -/
def uniqueInput (offset : ℤ) (phi : ℕ) : List (Option ℕ) → Option ℕ → Option (Option ℕ)
  | [], unique => some unique
  | none :: rest, unique => uniqueInput offset phi rest unique
  | some i :: rest, unique =>
    match G.scan offset fuel i with
    | none => none
    | some none => uniqueInput offset phi rest unique
    | some (some n) =>
      if G.isTop n = true ∨ n = phi then uniqueInput offset phi rest unique
      else
        match unique with
        | none => uniqueInput offset phi rest (some n)
        | some m => if m = n then uniqueInput offset phi rest unique else some none

/-- What the loop of `value_from_mem` does with what a scan returns. -/
def searchStep (offset : ℤ) (n : ℕ) : Option SearchStep :=
  if G.IsSentinel n then some (.done (some n))
  else
    match G.node n with
    | .initializeNode _ _ isComplete stores zeroMemory =>
      match G.findCapturedStore isComplete stores zeroMemory offset with
      | none => some (.done none)
      | some st => if (G.valueIn st).isSome then some (.done (some st)) else some (.goOn st)
    | .store _ _ _ _ _ => some (.done (some n))
    | .phi _ inputs =>
      (G.uniqueInput fuel offset n inputs none).map fun unique =>
        match unique with
        | some u => .goOn u
        | none => .done (some n)
    | .arrayCopy _ => some (.done (some n))
    | _ => some (.goOn n)

/-- The loop of `value_from_mem`. -/
def searchMem (offset : ℤ) : ℕ → List ℕ → ℕ → Option (Option ℕ)
  | 0, _, _ => none
  | rounds + 1, visited, mem =>
    if mem ∈ visited then some none -- found a loop, give up
    else
      match G.scan offset fuel mem with
      | none => none
      | some none => some none
      | some (some n) =>
        match G.searchStep fuel offset n with
        | none => none
        | some (.done result) => some result
        | some (.goOn mem') => searchMem offset rounds (mem :: visited) mem'

/-! ## `make_arraycopy_load`

At an array copy the field has what the source had at the same distance. Where the array is copied
to itself this is looked for in the memory before the copy; else a load from the source is made. -/

/-- `make_arraycopy_load`; `fromMem` is `value_from_mem`. -/
def makeArraycopyLoad (fromMem : ℕ → ℤ → ValuePhis → Option (SearchValue × ValuePhis)) (n : ℕ)
    (ac : CopyNode) (offset : ℤ) (mem : ℕ) (T : ValuePhis) : Option (SearchValue × ValuePhis) :=
  if ac.isClonebasic then some (.load n offset mem, T)
  else if ac.mustModify offset then
    match ac.shift with
    | some shift =>
      if ac.sameArray then fromMem ac.memory (shift + offset) T else some (.load n offset mem, T)
    | none => if ac.sameArray then none else some (.load n offset mem, T)
  else none

/-! ## `value_from_mem_phi`

A memory `Phi` of several states becomes a `Phi` of the values on its paths. For one that is met
again the same new `Phi` is taken, and the depth of the search is bounded by a level. -/

/-- A `Phi` that is there already. -/
def existingPhi (offset : ℤ) (phi : ℕ) (T : ValuePhis) : Option SearchValue :=
  match G.samePhi phi offset with
  | some p => some (.node p)
  | none => if (phi, offset) ∈ T.keys then some (.newPhi phi offset) else none

/-- The value that a path of a `Phi` takes from the node that it leads to. -/
def pathValue (fromMem : ℕ → ℤ → ValuePhis → Option (SearchValue × ValuePhis))
    (fromPhi : ℕ → ValuePhis → Option (SearchValue × ValuePhis)) (offset : ℤ) (phi val : ℕ)
    (T : ValuePhis) : Option (SearchValue × ValuePhis) :=
  if val = phi then some (.newPhi phi offset, T)
  else
    match G.node val with
    | .store _ _ _ value _ => some (.node value, T)
    | .proj parent => if parent = G.alloc then some (.zero, T) else none
    | .phi _ _ => fromPhi val T
    | .arrayCopy ac => makeArraycopyLoad fromMem val ac offset ac.memory T
    | _ => none

/-- The value on a path of a `Phi`. -/
def phiInput (fromMem : ℕ → ℤ → ValuePhis → Option (SearchValue × ValuePhis))
    (fromPhi : ℕ → ValuePhis → Option (SearchValue × ValuePhis)) (offset : ℤ) (phi i : ℕ)
    (T : ValuePhis) : Option (SearchValue × ValuePhis) :=
  match G.scan offset fuel i with
  | some (some n) =>
    if G.IsSentinel n then some (.zero, T)
    else
      match G.resolveInitialize offset n with
      | none => none
      | some val => G.pathValue fromMem fromPhi offset phi val T
  | _ => none

/-- The values on all paths; `one` is for one path. -/
def phiInputs (one : ℕ → ValuePhis → Option (SearchValue × ValuePhis)) :
    List (Option ℕ) → ValuePhis → Option (List SearchValue × ValuePhis)
  | [], T => some ([], T)
  | none :: rest, T => (phiInputs one rest T).map fun p => (.top :: p.1, p.2)
  | some i :: rest, T =>
    match one i T with
    | none => none
    | some (value, T) => (phiInputs one rest T).map fun p => (value :: p.1, p.2)

/-- `value_from_mem_phi`, by its level. -/
def valueFromMemPhi (fromMem : ℕ → ℤ → ValuePhis → Option (SearchValue × ValuePhis)) (offset : ℤ) :
    ℕ → ℕ → ValuePhis → Option (SearchValue × ValuePhis)
  | 0, phi, T => (G.existingPhi offset phi T).map fun value => (value, T)
  | level + 1, phi, T =>
    match G.existingPhi offset phi T with
    | some value => some (value, T)
    | none =>
      match G.node phi with
      | .phi _ inputs =>
        let one := G.phiInput fuel fromMem (valueFromMemPhi fromMem offset level) offset phi
        (phiInputs one inputs ⟨(phi, offset) :: T.keys, T.inputs⟩).map fun p =>
          (.newPhi phi offset, ⟨p.2.keys, ((phi, offset), p.1) :: p.2.inputs⟩)
      | _ => none

/-- `value_from_mem`, by how deep it calls itself; `trap` if the control is that of an uncommon
trap. -/
def valueFromMem : ℕ → Bool → ℕ → ℤ → ValuePhis → Option (SearchValue × ValuePhis)
  | 0, _, _, _, _ => none
  | depth + 1, trap, sfptMem, offset, T =>
    match if sfptMem = G.allocMem then some (some sfptMem)
      else G.searchMem fuel offset fuel [] sfptMem with
    | some (some n) =>
      if G.IsSentinel n then some (.zero, T)
      else
        match G.node n with
        | .store _ _ _ value _ => some (.node value, T)
        | .phi _ _ =>
          G.valueFromMemPhi fuel (valueFromMem depth false) offset G.valueSearchLimit n T
        | .arrayCopy ac =>
          -- the loads of an uncommon trap are pinned in its path
          makeArraycopyLoad (valueFromMem depth trap) n ac offset
            (if trap then sfptMem else ac.memory) T
        | _ => none
    | _ => none

end

end FieldGraph

end StackAllocation
