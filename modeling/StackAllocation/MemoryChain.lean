import StackAllocation.Dominance
import Mathlib.Data.Int.Notation

/-!
# The search for a previous store

`find_previous_store` walks up the memory of a load or a store, from one memory state to the one
before it, past what cannot have written the bytes of the access: stores at other offsets or into
other objects, allocations, calls, copies and barriers (`MemNode::find_previous_store`). It ends
at a store into the same place, at what may have written it, or where it can tell nothing.
-/

namespace StackAllocation

/-- A memory state. -/
inductive MemNode : Type where
  /-- a store of `size` bytes -/
  | store (adr memory size : ℕ)
  /-- the memory projection of a node -/
  | proj (parent : ℕ)
  | clearArray (dest memory : ℕ)
  /-- a `MergeMem`, by alias index -/
  | mergeMem (memoryAt : ℕ → ℕ)
  /-- anything else -/
  | other

/-- An `ArrayCopy`. -/
structure ArrayCopy : Type where
  memory : ℕ
  dest : ℕ
  isClonebasic : Bool
  /-- a validated `arraycopy`, `copyof` or `copyofrange` -/
  isValidated : Bool

/-- What a memory projection may be of. -/
inductive MemParent : Type where
  /-- an `Initialize`, its allocation, its memory, and that by alias index -/
  | initializeNode (allocation : Option ℕ) (memory : ℕ) (memoryAt : ℕ → ℕ)
  | arrayCopy (ac : ArrayCopy)
  /-- another call -/
  | call (memory : ℕ)
  /-- another barrier; the `ArrayCopy` whose control it has, if it is a `MemBarStoreStore` or a
  `MemBarCPUOrder` -/
  | memBar (memory : ℕ) (copy : Option ℕ)
  | other

open Dominance

/-- The graph above a memory access, of which every node is one that the access depends on. -/
structure MemoryGraph : Type where
  mem : ℕ → MemNode
  parent : ℕ → MemParent
  /-- `AddPNode::Ideal_base_and_offset`, `none` if the base is `NULL` and the offset not constant -/
  baseAndOffset : ℕ → Option (ℕ × ℤ)
  /-- `AllocateNode::Ideal_allocation` -/
  idealAllocation : ℕ → Option ℕ
  /-- `check_if_adr_maybe_raw` -/
  maybeRaw : ℕ → Bool
  /-- the memory that an allocation takes -/
  allocMemory : ℕ → ℕ
  /-- and the memory that its `Initialize` takes -/
  initMemory : ℕ → Option ℕ
  /-- the numbers of the nodes are below this -/
  size : ℕ
  /-- the inputs of a node, that of control first -/
  inputs : ℕ → List (Option ℕ)
  isCFG : ℕ → Bool
  pinned : ℕ → Bool
  isCon : ℕ → Bool
  /-- `is_Start()` or `is_Root()` -/
  isStartOrRoot : ℕ → Bool
  isTop : ℕ → Bool
  /-- `find_exact_control` -/
  exactControl : ℕ → Option ℕ
  /-- `Node::dominates` -/
  dominates : ℕ → ℕ → Bool
  /-- the control flow -/
  flow : ℕ → ℕ → Prop
  start : ℕ
  /-- where the access is run -/
  point : ℕ
  /-- the depth of the data that a node is computed from -/
  rank : ℕ → ℕ
  dominates_sound : ∀ n m, dominates n m = true → Dominates flow start n m
  allocation_dominates : ∀ p a, idealAllocation p = some a → Dominates flow start a point
  init_dominates : ∀ p a memory memoryAt, parent p = .initializeNode (some a) memory memoryAt →
    Dominates flow start a point
  /-- an allocation is run after its control -/
  control_dominates : ∀ p a c m rest, idealAllocation p = some a ∨
    (∃ memory memoryAt, parent p = .initializeNode (some a) memory memoryAt) →
    inputs a = some c :: rest → exactControl c = some m →
    isCFG m = true ∧ Dominates flow start m a ∧ m ≠ a
  rank_lt : ∀ n, isCFG n = false → ∀ m c, some m ∈ inputs n → exactControl m = some c →
    rank c < rank n
  exactControl_lt : ∀ n m, exactControl n = some m → m < size

/-- A memory access at a constant offset. -/
structure MemAccess : Type where
  node : ℕ
  /-- `in(MemNode::Address)` -/
  adr : ℕ
  /-- `in(MemNode::Memory)` -/
  memory : ℕ
  /-- `memory_size()` -/
  size : ℕ
  size_pos : 0 < size
  isLoad : Bool
  /-- `C->get_alias_index(adr_type())` -/
  aliasIdx : ℕ
  /-- it is `AliasIdxRaw` -/
  isRaw : Bool
  /-- the `instance_id` of the address, if it is a known instance field -/
  knownInstance : Option ℕ
  /-- `in(AddPNode::Address)` of the address, if it is an `AddP` -/
  addpBase : Option ℕ
  /-- `CallNode::may_modify` -/
  callMayModify : ℕ → Bool
  /-- `ArrayCopyNode::may_modify`, of a barrier -/
  memBarMayModify : ℕ → Bool
  /-- `ArrayCopyNode::modifies`, of the offsets of the address -/
  modifies : ℕ → Bool

namespace MemoryGraph

variable (G : MemoryGraph)

/-! ## `all_controls_dominate`

Whether all controls that a node depends on dominate another node. A list of nodes is worked through
from the first; a node that is no control pushes its inputs. The answer is no as soon as a control
is met that does not dominate. -/

/-- The exact controls of the inputs of a node. -/
def controlsOf (n : ℕ) : List (Option ℕ) := (G.inputs n).map fun m => m.bind G.exactControl

/-- A node of the list: what is pushed, and whether it sets `only_dominating_controls`; `none`
where the answer is `false`. -/
def visitControl (sub n : ℕ) : Option (List ℕ × Bool) :=
  if !G.isCFG n && G.pinned n then
    match (G.controlsOf n).head?.join with
    | none => none
    | some m => if G.isTop m then none else some ([m], false)
  else if G.isCon n || G.isStartOrRoot n then some ([], true)
  else if G.isCFG n then
    if G.dominates n sub then some ([], true) else none
  else
    if (G.controlsOf n).head?.join.any G.isTop then none
    else some (((G.controlsOf n).filterMap id).filter fun m => !G.isTop m, false)

/-- `dom_list.push`, for nodes that are not on the list yet. -/
def pushControls (ms pending list : List ℕ) : List ℕ × List ℕ :=
  ms.foldl (fun s m => if m ∈ s.2 then s else (s.1 ++ [m], s.2 ++ [m])) (pending, list)

/-- The loop over the list, by how often it goes round: what is left of it, the list itself, and
`only_dominating_controls`. -/
def controlsLoop (origSub sub : ℕ) : ℕ → List ℕ → List ℕ → Bool → Option Bool
  | 0, _, _, _ => none
  | _ + 1, [], _, only => some only
  | fuel + 1, n :: pending, list, only =>
    if n = origSub then some false
    else
      match G.visitControl sub n with
      | none => some false
      | some (ms, sets) =>
        controlsLoop origSub sub fuel (pushControls ms pending list).1
          (pushControls ms pending list).2 (only || sets)

/-- `all_controls_dominate`, with the two nodes not null. -/
def allControlsDominate (dom sub : ℕ) : Bool :=
  if G.isTop dom || G.isTop sub then false
  else
    match G.exactControl dom with
    | none => false
    | some dom =>
      if G.isTop dom || dom == sub then false
      else if G.isCon dom || G.isStartOrRoot dom then true
      else
        match (G.controlsOf sub).head?.join with
        | none => false
        | some ctrl =>
          if G.isTop ctrl then false
          else if ctrl = dom then true
          else if G.isStartOrRoot ctrl then false
          else (G.controlsLoop sub ctrl (G.size + 1) [dom] [dom] false).getD false

/-- `detect_ptr_independence` -/
def detectPtrIndependence (p1 : ℕ) (a1 : Option ℕ) (p2 : ℕ) (a2 : Option ℕ) : Bool :=
  match a1, a2 with
  | none, none => p1 != p2 && G.isCon p1 && G.isCon p2
  | some a1, some a2 => a1 != a2
  | some a1, none => G.allControlsDominate p2 a1
  | none, some a2 => G.allControlsDominate p1 a2

end MemoryGraph

/-! ## `find_previous_store`

The walk goes from one memory state to the one before, as long as it can tell that nothing between
them writes what is accessed. What it has gone past is kept, because the claims about it are about
just these nodes. -/

/-- What the walk does at a memory state. Either way it may have gone past some nodes. -/
inductive ChainStep : Type where
  /-- on to another memory state -/
  | past (ops : List ℕ) (mem : ℕ)
  /-- it ends there -/
  | found (ops : List ℕ) (mem : ℕ)
  /-- it gives up -/
  | stop (ops : List ℕ)

/-- What the walk goes past in a step. -/
def ChainStep.ops : ChainStep → List ℕ
  | .past ops _ => ops
  | .found ops _ => ops
  | .stop ops => ops

/-- `MAX_STORE` -/
def maxStore : ℤ := 8

namespace MemAccess

variable (G : MemoryGraph) (X : MemAccess)

/-- The offsets are taken to be independent. -/
def offsetsApart (offset stOffset : ℤ) (stSize : ℕ) : Bool :=
  stOffset != offset &&
    (decide (stOffset ≥ offset + X.size) || decide (stOffset ≤ offset - maxStore) ||
      decide (stOffset ≤ offset - stSize))

/-- A store. -/
def storeStep (base : ℕ) (offset : ℤ) (st stAdr stMemory stSize : ℕ) : ChainStep :=
  match G.baseAndOffset stAdr with
  | none => .stop []
  | some (stBase, stOffset) =>
    if (G.maybeRaw X.adr || G.maybeRaw stAdr) && stBase != base then .stop []
    else if X.offsetsApart offset stOffset stSize then .past [st] stMemory
    else if stBase != base &&
        G.detectPtrIndependence base (G.idealAllocation base) stBase (G.idealAllocation stBase) then
      .past [st] stMemory
    else if stBase = base ∧ stOffset = offset then .found [] st
    else .stop []

/-- The memory before an `Initialize`, of the slice of the access. -/
def beforeInit (a : ℕ) (memoryAt : ℕ → ℕ) : ℕ :=
  if X.isRaw then G.allocMemory a else memoryAt X.aliasIdx

/-- The projection of an `Initialize`. -/
def initStep (base mem init : ℕ) (allocation : Option ℕ) (memoryAt : ℕ → ℕ) : ChainStep :=
  match allocation with
  | none => .stop []
  | some a =>
    if G.idealAllocation base = some a then .found [] mem
    else if (G.idealAllocation base).isSome || G.allControlsDominate X.node a then
      .past (if X.isRaw then [init, a] else [init]) (X.beforeInit G a memoryAt)
    else .stop []

/-- `find_previous_arraycopy`: what it finds, the nodes that it goes past, and the memory. Only a
load looks for one. -/
def findPreviousArraycopy (base mem : ℕ) : Option ℕ × List ℕ × ℕ :=
  match G.mem mem with
  | .proj p =>
    match G.parent p with
    | .memBar _ (some c) =>
      match G.parent c with
      | .arrayCopy ac =>
        if ac.isClonebasic && (G.idealAllocation ac.dest).isSome &&
            G.idealAllocation ac.dest == G.idealAllocation base then (some c, [], mem)
        else (none, [], mem)
      | _ => (none, [], mem)
    | .arrayCopy ac =>
      if ac.isValidated && X.addpBase == some ac.dest then
        if X.modifies p then (some p, [], mem) else (none, [p], ac.memory)
      else (none, [], mem)
    | _ => (none, [], mem)
  | _ => (none, [], mem)

/-- The memory before a `ClearArray`, if it is of another allocation (`step_through`). -/
def stepThrough (id dest : ℕ) : Option ℕ :=
  match G.idealAllocation dest with
  | none => none
  | some a => if a = id then none else some ((G.initMemory a).getD (G.allocMemory a))

/-- What a known instance field is looked for past; `before` was gone past already. -/
def instanceStep (id : ℕ) (before : List ℕ) (mem : ℕ) : ChainStep :=
  match G.mem mem with
  | .proj p =>
    match G.parent p with
    | .call memory => if X.callMayModify p then .stop before else .past (before ++ [p]) memory
    | .arrayCopy ac => if X.callMayModify p then .stop before else .past (before ++ [p]) ac.memory
    | .memBar memory _ => if X.memBarMayModify p then .stop before else .past (before ++ [p]) memory
    | .initializeNode _ memory _ =>
      if X.memBarMayModify p then .stop before else .past (before ++ [p]) memory
    | .other => .stop before
  | .clearArray dest _ =>
    match stepThrough G id dest with
    | none => .found before mem
    | some memory => .past (before ++ [mem]) memory
  | .mergeMem memoryAt => .past before (memoryAt X.aliasIdx)
  | _ => .stop before

/-- Anything but a store and the projection of an `Initialize`. -/
def otherStep (base mem : ℕ) : ChainStep :=
  match if X.isLoad then X.findPreviousArraycopy G base mem else (none, [], mem) with
  | (some _, before, mem) => .found before mem
  | (none, before, mem) =>
    match X.knownInstance with
    | none => .stop before
    | some id => X.instanceStep G id before mem

/-- The walk at a memory state. -/
def chainStep (base : ℕ) (offset : ℤ) (mem : ℕ) : ChainStep :=
  match G.mem mem with
  | .store stAdr stMemory stSize => X.storeStep G base offset mem stAdr stMemory stSize
  | .proj p =>
    match G.parent p with
    | .initializeNode allocation _ memoryAt => X.initStep G base mem p allocation memoryAt
    | _ => X.otherStep G base mem
  | _ => X.otherStep G base mem

/-- The walk, by how many steps it makes at most: what it returns, and what it went past. -/
def chainWalk (base : ℕ) (offset : ℤ) : ℕ → ℕ → Option ℕ × List ℕ
  | 0, _ => (none, [])
  | cnt + 1, mem =>
    match X.chainStep G base offset mem with
    | .past ops mem =>
      let walk := chainWalk base offset cnt mem
      (walk.1, ops ++ walk.2)
    | .found ops mem => (some mem, ops)
    | .stop ops => (none, ops)

/-- `find_previous_store`, with the nodes that it goes past. -/
def findPreviousStore : Option ℕ × List ℕ :=
  match G.baseAndOffset X.adr with
  | none => (none, [])
  | some (base, offset) => X.chainWalk G base offset 50 X.memory

end MemAccess

end StackAllocation
