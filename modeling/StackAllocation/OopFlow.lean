import StackAllocation.Dataflow
import StackAllocation.OopMap
import Mathlib.Data.Finset.Union
import Mathlib.Data.Fintype.Basic
import Mathlib.Order.Interval.Finset.Nat
import Mathlib.Data.Int.Notation

/-!
# Building the oop maps

When the registers are allocated and the nodes are scheduled, `BuildOopMaps` finds for every
safepoint the registers and stack slots that hold oops. A pass backwards over the blocks
(`do_liveness`) tells which registers are live at the safepoint; a pass forwards
(`OopFlow::compute_reach`) tells which node set each of them, and the type of that node tells
what the register holds (`OopFlow::build_oop_map`). Stack slots are numbered as registers too.
-/

namespace StackAllocation

/-- What `build_oop_map` asks of the type of a node. -/
inductive DefType : Type where
  /-- `isa_oop_ptr()`, with `_offset` -/
  | oopPtr (offset : ℤ)
  /-- `isa_rawptr()`; the offset of a raw pointer is 0 -/
  | rawPtr
  /-- `isa_narrowoop()` -/
  | narrowOop
  | other
  deriving DecidableEq, Repr

/-- `is_ptr()->_offset` -/
def DefType.offset : DefType → ℤ
  | .oopPtr offset => offset
  | _ => 0

/-- A node of the scheduled code. A register is `none` where it is `OptoReg::Bad`. -/
structure MachNode (Reg : Type) : Type where
  /-- `get_reg_first` -/
  first : Option Reg
  /-- `get_reg_second` -/
  second : Option Reg
  /-- `req()` -/
  req : ℕ
  /-- `in(i)`, for `i` below `req` -/
  input : ℕ → ℕ
  /-- the stack slot that a CISC alternate instruction addresses by the frame pointer -/
  ciscSlot : Option Reg
  /-- `bottom_type()` -/
  bottomType : DefType
  /-- the slot of a `BoxLock` -/
  boxLock : Option ℕ
  /-- `is_Copy()`, 0 if it is none -/
  copyIndex : ℕ
  /-- `is_Phi()` -/
  isPhi : Bool
  /-- `is_Proj() && in(0)->is_Start()` -/
  isStartProj : Bool
  /-- `jvms()`, by its `oopoff()` -/
  jvms : Option ℕ
  /-- `is_MachSafePoint()` -/
  isMachSafePoint : Bool
  /-- `is_MachCallLeaf()` -/
  isMachCallLeaf : Bool
  /-- `as_MachCall()->tf()->domain()->cnt()`, for a call -/
  domainCnt : Option ℕ

/-- The code of a method when its registers are allocated: its blocks, with the root block first
and the entry next, and their nodes. -/
structure FlowGraph (VMReg : Type) : Type where
  /-- `_max_reg` -/
  maxReg : ℕ
  /-- the number of blocks, less two -/
  last : ℕ
  node : ℕ → MachNode (Fin maxReg)
  /-- the nodes of a block, in order -/
  nodes : Fin (last + 2) → List ℕ
  succs : Fin (last + 2) → List (Fin (last + 2))
  preds : Fin (last + 2) → List (Fin (last + 2))
  mem_preds : ∀ b c, b ∈ preds c ↔ c ∈ succs b
  /-- a node is in one block, once -/
  nodup : ((List.finRange (last + 2)).flatMap nodes).Nodup
  /-- how many copies a value went through -/
  copies : ℕ → ℕ
  copies_input : ∀ n, (node n).copyIndex ≠ 0 →
    copies ((node n).input (node n).copyIndex) < copies n
  /-- `C->do_stack_allocation()` -/
  doStackAllocation : Bool
  /-- the slots that objects were given -/
  stackSlots : List ℕ
  /-- `OptoReg::as_VMReg` -/
  asVMReg : Option (Fin maxReg) → VMReg
  asVMReg_inj : ∀ q r, asVMReg q = asVMReg r → q = r
  /-- `OopMap::legal_vm_reg_name` -/
  legalVMRegName : Fin maxReg → Bool
  /-- `OptoReg::is_reg` and `is_save_on_entry` -/
  isSaveOnEntry : Fin maxReg → Bool

variable {VMReg : Type}

namespace FlowGraph

variable (G : FlowGraph VMReg)

/-- `OptoReg::Name`, where it is not `Bad`. -/
abbrev Reg : Type := Fin G.maxReg

/-- `Block`. -/
abbrev Block : Type := Fin (G.last + 2)

/-- `cfg->get_root_block()` -/
def rootBlock : G.Block := 0

/-- `cfg->get_block(1)` -/
def entryBlock : G.Block := 1

/-- The registers of a node. -/
def kills (n : ℕ) : Finset G.Reg := (G.node n).first.toFinset ∪ (G.node n).second.toFinset

/-- The registers that a node uses: those of its inputs, and a stack slot that it addresses. -/
def gens (n : ℕ) : Finset G.Reg :=
  (Finset.Ico 1 (G.node n).req).biUnion (fun l => G.kills ((G.node n).input l)) ∪
    (G.node n).ciscSlot.toFinset

/-! ## `do_liveness`

The worklist is first filled with the blocks that leave the method. A block is walked up from what
is live in its successors; if its set has changed its predecessors are put on the list. -/

/-- `safehash`: what is live at the safepoints. -/
abbrev Safehash : Type := ℕ → Option (Finset G.Reg)

/-- The walk up a block. -/
def walkUp : List ℕ → Finset G.Reg × G.Safehash → Finset G.Reg × G.Safehash
  | [], s => s
  | n :: ns, s =>
    let s := walkUp ns s
    let live := (s.1 \ G.kills n) ∪ G.gens n
    (live, if (G.node n).jvms.isSome then Function.update s.2 n (some live) else s.2)

/-- What is live at the end of a block. -/
def liveOut (live : G.Block → Finset G.Reg) (b : G.Block) : Finset G.Reg :=
  (G.succs b).foldl (fun t s => t ∪ live s) ∅

/-- `Block_List::rpop`: the first of the list, the last of which takes its place. -/
def rpop : List G.Block → Option (G.Block × List G.Block)
  | [] => none
  | b :: rest => some (b, rest.getLast?.toList ++ rest.dropLast)

/-- The inner loop, by how often it goes round; `none` if that is not enough. -/
def drain : ℕ → (G.Block → Finset G.Reg) × G.Safehash → List G.Block →
    Option ((G.Block → Finset G.Reg) × G.Safehash)
  | 0, _, _ => none
  | fuel + 1, (live, safehash), worklist =>
    match G.rpop worklist with
    | none => some (live, safehash)
    | some (b, rest) =>
      let top := G.walkUp (G.nodes b) (G.liveOut live b, safehash)
      if top.1 = live b then drain fuel (live, top.2) rest
      else drain fuel (Function.update live b top.1, top.2) (rest ++ G.preds b)

/-- The inner loop goes round at most so often. -/
def drainFuel (worklist : List G.Block) : ℕ :=
  (G.last + 2) * G.maxReg * (1 + ∑ b, (G.preds b).length) + worklist.length + 1

/-- The blocks but the root block. -/
def otherBlocks : List G.Block := (List.finRange (G.last + 2)).tail

/-- A safepoint was missed. The first node of a block is not looked at. -/
def missed (safehash : G.Safehash) : Bool :=
  G.otherBlocks.any fun b =>
    (G.nodes b).tail.any fun n => (G.node n).jvms.isSome && (safehash n).isNone

/-- `do_liveness`. The outer loop goes round twice at most, since no safepoint is missed when
every block is on the list (`FlowGraph.not_missed`). -/
def doLiveness : Option G.Safehash :=
  match G.drain (G.drainFuel (G.preds G.rootBlock)) (fun _ => ∅, fun _ => none)
      (G.preds G.rootBlock) with
  | none => none
  | some s =>
    if G.missed s.2 then (G.drain (G.drainFuel G.otherBlocks) s G.otherBlocks).map (·.2)
    else some s.2

end FlowGraph

/-! ## `OopFlow`

A flow has for each register the node that set it last. Going down a block it meets safepoints, for
which the map is built from what the live registers hold then. -/

/-- `OopFlow`: what the registers hold at the end of a block. The arrays also have a place for
`OptoReg::Bad`. -/
structure OopFlow (G : FlowGraph VMReg) : Type where
  /-- the callee-saved register whose value a register holds -/
  callees : Option G.Reg → Option G.Reg
  /-- the node that set a register -/
  defs : Option G.Reg → Option ℕ
  /-- `_b` -/
  block : Option G.Block

variable (G : FlowGraph VMReg)

/-- `TypeFunc::Parms` -/
def FlowGraph.parms : ℕ := 5

/-- Whether the definition is an outgoing argument of the call. -/
def FlowGraph.isArgument (n d : ℕ) : Bool :=
  match (G.node n).domainCnt with
  | none => false
  | some cnt => (List.range cnt).any fun j => FlowGraph.parms ≤ j && (G.node n).input j == d

/-- A node and the nodes that it copies, one through another; `k` bounds how many. -/
def FlowGraph.copyChain : ℕ → ℕ → List ℕ
  | 0, n => [n]
  | k + 1, n =>
    if (G.node n).copyIndex = 0 then [n]
    else n :: copyChain k ((G.node n).input (G.node n).copyIndex)

/-- `Link through copy`, to the end. -/
def FlowGraph.throughCopies (n : ℕ) : List ℕ := G.copyChain (G.copies n) n

/-- The inputs of a safepoint that are derived pointers; the base of each comes after it. -/
def FlowGraph.derivedInputs (n : ℕ) : List ℕ :=
  match (G.node n).jvms with
  | none => []
  | some oopoff => (List.range (G.node n).req).filter fun i => oopoff ≤ i && (i - oopoff) % 2 == 0

/-- Where the derived pointer is among the inputs of the safepoint. -/
def FlowGraph.findDerived (n d : ℕ) : Option ℕ :=
  match (G.derivedInputs n).find? fun i => (G.node n).input i == d with
  | some i => some i
  | none => (G.derivedInputs n).find? fun i =>
      (G.throughCopies ((G.node n).input i)).any fun m => decide (m ∈ G.throughCopies d)

/-- An oop, a derived pointer, or what is taken for a stack oop. -/
def FlowGraph.isOopOrDerived (d : ℕ) : Bool :=
  match (G.node d).bottomType with
  | .oopPtr _ => true
  | .rawPtr => G.doStackAllocation && (G.node d).boxLock.isSome
  | _ => false

/-- An oop map in the making, and the registers that are taken as live. -/
structure OopMapState (G : FlowGraph VMReg) : Type where
  map : List (OopMapValue VMReg)
  live : Finset G.Reg

variable {G}

/-- An entry of the map for a register, with the content that it has. -/
def OopMapState.set (s : OopMapState G) (reg : G.Reg) (type : OopTypes)
    (content : Option G.Reg) : OopMapState G :=
  { s with map := s.map ++ [⟨G.asVMReg (some reg), type, G.asVMReg content⟩] }

/-- The base of a derived pointer, if it was not taken as live. -/
def OopMapState.addBase (s : OopMapState G) (reg breg : G.Reg) : OopMapState G :=
  if breg ∈ s.live then s
  else
    let s := { s with live := insert breg s.live }
    if breg < reg then s.set breg .oopValue none else s

/-- A register that holds a derived pointer; `none` where the guarantee fails. -/
def OopMapState.derived (s : OopMapState G) (n d : ℕ) (reg : G.Reg) : Option (OopMapState G) :=
  match G.findDerived n d with
  | none => none
  | some i =>
    match (G.node ((G.node n).input (i + 1))).first with
    | none => none
    | some breg => some ((s.addBase reg breg).set reg .derivedOopValue (some breg))

/-- A register that holds an oop or a derived pointer; `none` where the method is given up. -/
def OopMapState.oopOrDerived (s : OopMapState G) (n d : ℕ) (reg : G.Reg) :
    Option (OopMapState G) :=
  if reg.val % 2 = 1 then some s
  else if !G.legalVMRegName reg then none
  else if (G.node d).bottomType.offset = 0 then
    if G.isArgument n d then some s else some (s.set reg .oopValue none)
  else s.derived n d reg

/-- A register that holds a compressed oop. -/
def OopMapState.narrowOop (s : OopMapState G) (n d : ℕ) (reg : G.Reg) : Option (OopMapState G) :=
  if !G.legalVMRegName reg then none
  else if G.isArgument n d then some s
  else some (s.set reg .narrowoopValue none)

namespace OopFlow

/-- One register of the loop of `build_oop_map`; `none` where the method is given up, or the
register has no reaching definition. -/
def classify (f : OopFlow G) (n : ℕ) (s : OopMapState G) (reg : G.Reg) : Option (OopMapState G) :=
  if reg ∉ s.live then some s
  else
    match f.defs (some reg) with
    | none => none
    | some d =>
      if G.isOopOrDerived d then s.oopOrDerived n d reg
      else if (G.node d).bottomType = .narrowOop then s.narrowOop n d reg
      else
        match f.callees (some reg) with
        | none => some s
        | some callee => some (s.set reg .calleeSavedValue (some callee))

/-- `build_oop_map` -/
def buildOopMap (f : OopFlow G) (n : ℕ) (live : Finset G.Reg) :
    Option (List (OopMapValue VMReg)) :=
  ((List.finRange G.maxReg).foldlM (f.classify n) ⟨[], live⟩).map (·.map)

/-- Copies move what is callee-saved. -/
def moveCallee (f : OopFlow G) (n m : ℕ) : Option G.Reg → Option G.Reg :=
  let first := f.callees (G.node m).first
  let second := f.callees (G.node m).second
  let callees := Function.update (Function.update f.callees (G.node m).first none)
    (G.node m).second none
  Function.update (Function.update callees (G.node n).first first) (G.node n).second second

/-- The callee-saved register that a register of a node holds: none but at the start. -/
def savedCallee (node : MachNode G.Reg) (reg : Option G.Reg) : Option G.Reg :=
  if node.isStartProj then reg.filter G.isSaveOnEntry else none

/-- The callee-saved registers after a node. -/
def assignCallees (f : OopFlow G) (n : ℕ) : Option G.Reg → Option G.Reg :=
  let node := G.node n
  if node.copyIndex ≠ 0 then f.moveCallee n (node.input node.copyIndex)
  else if node.isPhi then f.callees
  else
    Function.update (Function.update f.callees node.first (savedCallee node node.first))
      node.second (savedCallee node node.second)

/-- `Assign new reaching def's.` -/
def assign (f : OopFlow G) (n : ℕ) : OopFlow G :=
  { f with
    defs := Function.update (Function.update f.defs (G.node n).first (some n))
      (G.node n).second (some n)
    callees := f.assignCallees n }

/-- Whether an oop map is built at the node. -/
def needsMap (G : FlowGraph VMReg) (n : ℕ) : Bool :=
  (G.node n).jvms.isSome && (G.node n).isMachSafePoint && !(G.node n).isMachCallLeaf

/-- The oop map at a node, if one is needed. -/
def mapAt (f : OopFlow G) (safehash : G.Safehash) (n : ℕ) :
    Option (List (ℕ × List (OopMapValue VMReg))) :=
  if needsMap G n then
    match safehash n with
    | none => none
    | some live => (f.buildOopMap n live).map fun m => [(n, m)]
  else some []

/-- `compute_reach`, with the oop maps that it sets. -/
def computeReach (safehash : G.Safehash) : List ℕ → OopFlow G →
    Option (OopFlow G × List (ℕ × List (OopMapValue VMReg)))
  | [], f => some (f, [])
  | n :: ns, f =>
    match f.mapAt safehash n with
    | none => none
    | some here =>
      match computeReach safehash ns (f.assign n) with
      | none => none
      | some (f, maps) => some (f, here ++ maps)

/-- `OopFlow::make` -/
def make (G : FlowGraph VMReg) : OopFlow G := ⟨fun _ => none, fun _ => none, none⟩

/-- `OopFlow::clone`, which leaves the places for `OptoReg::Bad` as they were. -/
def clone (f flow : OopFlow G) : OopFlow G where
  callees := fun r => if r = none then f.callees r else flow.callees r
  defs := fun r => if r = none then f.defs r else flow.defs r
  block := flow.block

end OopFlow

/-! ## `BuildOopMaps`

A block takes over the flow of a predecessor that is done. If all other successors of that one are
done the flow itself is reused, otherwise it is copied. -/

/-- The flows that were made, which of them each block has, and the maps that were set. -/
structure FlowState (G : FlowGraph VMReg) : Type where
  arena : List (OopFlow G)
  /-- `flows[b->_pre_order]` -/
  flows : G.Block → Option ℕ
  maps : List (ℕ × List (OopMapValue VMReg))

namespace FlowState

/-- `compute_reach` of a block with one of the flows. -/
def compute (s : FlowState G) (safehash : G.Safehash) (b : G.Block) (i : ℕ) (f : OopFlow G) :
    Option (FlowState G) :=
  match OopFlow.computeReach safehash (G.nodes b) { f with block := some b } with
  | none => none
  | some (f, maps) =>
    some ⟨s.arena.set i f, Function.update s.flows b (some i), s.maps ++ maps⟩

/-- All the successors of `p` are done but `b`. -/
def onlyUndone (s : FlowState G) (p b : G.Block) : Bool :=
  (G.succs p).all fun c => (s.flows c).isSome || c == b

/-- The scan for a predecessor that is done: the last of them, or the first of which the flow
can be carried forward. -/
def findPred (s : FlowState G) (b : G.Block) : List G.Block → Option (G.Block × ℕ × Bool) →
    Option (G.Block × ℕ × Bool)
  | [], found => found
  | p :: ps, found =>
    match s.flows p with
    | none => findPred s b ps found
    | some i => if s.onlyUndone p b then some (p, i, true) else findPred s b ps (some (p, i, false))

/-- The flow of a block, from that of a predecessor. The free list is always empty. -/
def carry (s : FlowState G) (safehash : G.Safehash) (b : G.Block) : Option (FlowState G) :=
  match s.findPred b (G.preds b) none with
  | none => none
  | some (_, i, ideal) =>
    match s.arena[i]? with
    | none => none
    | some flow =>
      if ideal then s.compute safehash b i flow
      else
        let fresh := (OopFlow.make G).clone flow
        { s with arena := s.arena ++ [fresh] }.compute safehash b s.arena.length fresh

/-- The loop over the worklist, by how often it goes round. -/
def loop (safehash : G.Safehash) : ℕ → List G.Block → FlowState G → Option (FlowState G)
  | 0, _, _ => none
  | _ + 1, [], s => some s
  | fuel + 1, b :: worklist, s =>
    if b = G.rootBlock then loop safehash fuel worklist s
    else if (s.flows b).isSome then loop safehash fuel worklist s
    else
      match s.carry safehash b with
      | none => none
      | some s => loop safehash fuel ((G.succs b).reverse ++ worklist) s

end FlowState

/-- The loop over the worklist goes round at most so often. -/
def FlowGraph.loopFuel (G : FlowGraph VMReg) : ℕ := ∑ b, (G.succs b).length + 1

/-- `BuildOopMaps`: the maps that are set, by their safepoints; `none` if the method is given up
or a guarantee fails. -/
def FlowGraph.buildOopMaps (G : FlowGraph VMReg) : Option (List (ℕ × List (OopMapValue VMReg))) :=
  match G.doLiveness with
  | none => none
  | some safehash =>
    let start : FlowState G := ⟨[OopFlow.make G], fun _ => none, []⟩
    match start.compute safehash G.entryBlock 0 (OopFlow.make G) with
    | none => none
    | some s =>
      (FlowState.loop safehash G.loopFuel (G.succs G.entryBlock).reverse s).map (·.maps)

end StackAllocation
