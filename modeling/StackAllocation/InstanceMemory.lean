import Mathlib.Data.Nat.Notation

/-!
# The search for the memory of an instance

When the fields of a scalar replaceable allocation get alias indices of their own,
`find_inst_mem` walks from a memory state up to the last one that can have written such a field, and
at a memory `Phi` of a wider slice makes a `Phi` of the instance's slice (`split_memory_phi`), with
the memory of the instance on each path; the two call each other. The new `Phi`s are kept by the
`Phi` that they are split from, which is what cuts the cycles (`create_split_phi`). After the
slices are apart `optimize_simple_memory_chain` makes the same walk for a load, up to a `Phi`.
-/

namespace StackAllocation

/-- A memory state, or a node that makes one. -/
inductive MemoryNode : Type where
  /-- a store, with the alias index of its address, `none` if that is top, and if the address is of
  a known instance -/
  | mem (idx : Option ℕ) (isInstance : Bool) (memory : ℕ)
  /-- a memory projection -/
  | proj (parent : ℕ)
  | mergeMem (base : ℕ) (memoryAt : ℕ → ℕ)
  /-- a memory `Phi`, with the alias index of its `adr_type()`, and its inputs but the region -/
  | phi (region aliasIdx : ℕ) (inputs : List (Option ℕ))
  | clearArray (dest memory : ℕ)
  /-- a `SCMemProj`, with the alias index of what its node writes, and the memory of that node -/
  | scMemProj (idx : Option ℕ) (memory : ℕ)
  | strInflatedCopy (idx : Option ℕ) (memory : ℕ)
  | allocate (memory : ℕ)
  /-- another call, an `ArrayCopy` among them -/
  | call (memory : ℕ)
  | initializeNode (allocation : Option ℕ) (memory : ℕ)
  /-- another barrier, with the `ArrayCopy` that its control comes from, past a GC barrier -/
  | memBar (memory : ℕ) (copy : Option ℕ)
  /-- anything else -/
  | other

/-- The memory graph, with what the compiler tells of its alias indices. -/
structure SliceGraph : Type where
  node : ℕ → MemoryNode
  /-- the numbers of the nodes are below this -/
  size : ℕ
  node_ge : ∀ n, size ≤ n → node n = .other
  startMem : ℕ
  /-- the `instance_id` of the `adr_type` of an alias index, if that is a known instance -/
  instanceOf : ℕ → Option ℕ
  /-- `get_general_index` -/
  generalIdx : ℕ → ℕ
  /-- the `adr_type` is any oop, or an `Object` at an unknown offset -/
  anyOffset : ℕ → Bool
  /-- `CallNode::may_modify`, by alias index -/
  mayModify : ℕ → ℕ → Bool
  /-- `ArrayCopyNode::may_modify` of a barrier, by alias index -/
  memBarMayModify : ℕ → ℕ → Bool
  /-- `AllocateNode::Ideal_allocation` -/
  idealAllocation : ℕ → Option ℕ
  /-- `initialization()` of an allocation -/
  initialization : ℕ → Option ℕ
  /-- `PhiNode::unique_input` -/
  uniqueInput : ℕ → Option ℕ
  /-- the `Phi`s of a region -/
  regionPhis : ℕ → List ℕ
  /-- `live_nodes()` when nothing is split yet -/
  liveNodes : ℕ
  maxNodeLimit : ℕ
  nodeLimitFudgeFactor : ℕ

/-- A memory `Phi` that was split from another. -/
structure SplitPhi : Type where
  region : ℕ
  aliasIdx : ℕ
  orig : ℕ
  inputs : List (Option ℕ)

/-- What the search changes. -/
structure SplitState : Type where
  /-- the new `Phi`s; the first has the number `size` of the graph -/
  phis : List SplitPhi
  /-- `get_map_phi` -/
  mapPhi : ℕ → Option ℕ
  /-- the slices that were set of a `MergeMem` -/
  slots : ℕ → ℕ → Option ℕ
  origPhis : List ℕ
  failing : Bool
  /-- the steps from one memory state to another that were made -/
  passed : List (ℕ × ℕ)

/-- What `create_split_phi` returns. -/
inductive SplitResult : Type where
  | found (phi : ℕ)
  | created (phi : ℕ) (S : SplitState)
  | failed (S : SplitState)

/-- A round of the loop of `find_inst_mem`. -/
inductive FindStep : Type where
  | stop
  | next (memory : ℕ)
  /-- on to the only input of a `Phi` -/
  | unique (memory : ℕ)
  /-- a `MergeMem` without the slice: the general slice is searched -/
  | general (memory : ℕ)

namespace SplitState

variable (S : SplitState)

/-- Before anything is split. -/
def initial : SplitState := ⟨[], fun _ => none, fun _ _ => none, [], false, []⟩

/-- `append_if_missing` to `orig_phis`. -/
def appendOrig (phi : ℕ) : SplitState :=
  { S with origPhis := if phi ∈ S.origPhis then S.origPhis else S.origPhis ++ [phi] }

def pass (n m : ℕ) : SplitState := { S with passed := S.passed ++ [(n, m)] }

/-- `set_memory_at` -/
def setMemoryAt (n a memory : ℕ) : SplitState :=
  { S with slots := fun n' a' => if n' = n ∧ a' = a then some memory else S.slots n' a' }

/-- A new `Phi`, with no inputs yet, in place of the last one that was split from the same. -/
def push (φ : SplitPhi) (N : ℕ) : SplitState :=
  { S with
    phis := S.phis ++ [φ]
    mapPhi := fun n => if n = φ.orig then some N else S.mapPhi n }

end SplitState

namespace SliceGraph

variable (G : SliceGraph) (S : SplitState) (a : ℕ)

/-- A node, the new ones among them. -/
def nodeIn (n : ℕ) : MemoryNode :=
  if n < G.size then G.node n
  else
    match S.phis[n - G.size]? with
    | some φ => .phi φ.region φ.aliasIdx φ.inputs
    | none => .other

/-- The alias index of a `Phi`. -/
def phiIdx (n : ℕ) : Option ℕ :=
  match G.nodeIn S n with
  | .phi _ k _ => some k
  | _ => none

/-- The inputs of a `Phi`. -/
def phiInputs (n : ℕ) : List (Option ℕ) :=
  match G.nodeIn S n with
  | .phi _ _ inputs => inputs
  | _ => []

/-- The numbers of the new `Phi`s of a region. -/
def newPhis (region : ℕ) : List ℕ :=
  (List.range S.phis.length).filterMap fun i =>
    match S.phis[i]? with
    | some φ => if φ.region = region then some (G.size + i) else none
    | none => none

/-- `set_req`, of a new `Phi`. -/
def setInput (N idx : ℕ) (mem : Option ℕ) : SplitState :=
  { S with phis := S.phis.modify (N - G.size) fun φ => { φ with inputs := φ.inputs.set idx mem } }

/-- `MergeMemNode::memory_at` -/
def memoryAt (n : ℕ) (slices : ℕ → ℕ) : ℕ := (S.slots n a).getD (slices a)

/-- The memory before an allocation and its `Initialize`. -/
def beforeAllocation (b : ℕ) : Option ℕ :=
  match (G.initialization b).map G.node with
  | some (.initializeNode _ memory) => some memory
  | _ =>
    match G.node b with
    | .allocate memory => some memory
    | _ => none

/-- `ClearArrayNode::step_through`, with an allocation -/
def stepThrough (id dest : ℕ) : Option ℕ :=
  match G.idealAllocation dest with
  | none => none
  | some b => if b = id then none else G.beforeAllocation b

/-- A memory projection. -/
def findProj (id p : ℕ) : FindStep :=
  match G.node p with
  | .allocate memory => if p = id ∨ G.mayModify p a = true then .stop else .next memory
  | .call memory => if G.mayModify p a then .stop else .next memory
  | .initializeNode allocation memory => if allocation = some id then .stop else .next memory
  | .memBar memory copy => if copy.any fun ac => G.mayModify ac a then .stop else .next memory
  | _ => .stop

/-- A `MergeMem` (`step_through_mergemem`). -/
def findMergeMem (n base : ℕ) (slices : ℕ → ℕ) : FindStep :=
  if G.anyOffset a then .stop
  else if memoryAt S a n slices = base then .general (memoryAt S (G.generalIdx a) n slices)
  else .next (memoryAt S a n slices)

/-- What the loop does with a memory state of an instance that is no store. -/
def findInstance (id n : ℕ) : FindStep :=
  match G.nodeIn S n with
  | .proj p => G.findProj a id p
  | .mergeMem base slices => G.findMergeMem S a n base slices
  | .phi _ k _ =>
    if k = a then .stop
    else
      match G.uniqueInput n with
      | some u => .unique u
      | none => .stop
  | .clearArray dest _ =>
    match G.stepThrough id dest with
    | some memory => .next memory
    | none => .stop
  | .scMemProj idx memory => if idx = some a then .stop else .next memory
  | .strInflatedCopy idx memory => if idx = some a then .stop else .next memory
  | _ => .stop

/-- A round of the loop of `find_inst_mem`; a store and the state above it are two rounds here. -/
def findStep (n : ℕ) : FindStep :=
  if n = G.startMem then .stop
  else
    match G.nodeIn S n with
    | .mem none _ _ => .stop -- dead
    | .mem (some idx) isInstance memory =>
      if idx = a then .stop
      else if (G.instanceOf a).isNone && !isInstance then .stop
      else .next memory
    | _ =>
      match G.instanceOf a with
      | none => .stop
      | some id => G.findInstance S a id n

/-- `create_split_phi` -/
def createSplitPhi (phi : ℕ) : SplitResult :=
  match G.nodeIn S phi with
  | .phi region k inputs =>
    if k = a then .found phi
    else
      match S.mapPhi phi with
      | some result =>
        if G.phiIdx S result = some a then .found result
        else
          match (G.regionPhis region ++ G.newPhis S region).find? fun q =>
            G.phiIdx S q == some a with
          | some q => .found q
          | none => create region inputs
      | none => create region inputs
  | _ => .found phi
where
  create (region : ℕ) (inputs : List (Option ℕ)) : SplitResult :=
    if G.maxNodeLimit < G.liveNodes + S.phis.length + 2 * G.nodeLimitFudgeFactor then
      .failed { S with failing := true }
    else
      .created (G.size + S.phis.length)
        ((S.appendOrig phi).push ⟨region, a, phi, inputs.map fun _ => none⟩
          (G.size + S.phis.length))

/-- What `split_memory_phi` makes of the memory found on a path: a `Phi` is split, anything else is
left. -/
def splitInput (mem : ℕ) : SplitResult :=
  match G.nodeIn S mem with
  | .phi _ _ _ => G.createSplitPhi S a mem
  | _ => .found mem

mutual

/-- `find_inst_mem`, by how deep it goes at most: what it returns, `none` for null. -/
def findInstMem (a : ℕ) : ℕ → Option ℕ → SplitState → Option (Option ℕ × SplitState)
  | 0, _, _ => none
  | _ + 1, none, S => some (none, S)
  | fuel + 1, some mem, S => findLoop a fuel mem S

/-- The loop of `find_inst_mem` and what follows it. -/
def findLoop (a : ℕ) : ℕ → ℕ → SplitState → Option (Option ℕ × SplitState)
  | 0, _, _ => none
  | fuel + 1, n, S =>
    match G.findStep S a n with
    | .next m => findLoop a fuel m (S.pass n m)
    | .unique m => findLoop a fuel m ((S.pass n m).appendOrig n)
    | .general m =>
      match findInstMem a fuel (some m) (S.pass n m) with
      | none => none
      | some (none, S) => some (none, S)
      | some (some result, S) =>
        if S.failing then some (none, S) else findLoop a fuel result (S.setMemoryAt n a result)
    | .stop =>
      match G.phiIdx S n with
      | none => some (some n, S)
      | some k =>
        if (G.instanceOf a).isNone then some (some n, S.appendOrig n)
        else if k = a then some (some n, S)
        else splitMemoryPhi a fuel n S

/-- `split_memory_phi` -/
def splitMemoryPhi (a : ℕ) : ℕ → ℕ → SplitState → Option (Option ℕ × SplitState)
  | 0, _, _ => none
  | fuel + 1, phi, S =>
    match G.createSplitPhi S a phi with
    | .found q => some (some q, S)
    | .failed S => some (none, S)
    | .created N S => splitLoop a fuel phi 0 N [] S

/-- The loops of `split_memory_phi`: the `Phi` and the new one, the input that is next, and the
`Phi`s that wait. -/
def splitLoop (a : ℕ) : ℕ → ℕ → ℕ → ℕ → List (ℕ × ℕ) → SplitState → Option (Option ℕ × SplitState)
  | 0, _, _, _, _, _ => none
  | fuel + 1, phi, idx, result, waiting, S =>
    match (G.phiInputs S phi)[idx]? with
    | some input =>
      match findInstMem a fuel input S with
      | none => none
      | some (none, S) =>
        if S.failing then some (none, S)
        else splitLoop a fuel phi (idx + 1) result waiting (G.setInput S result idx none)
      | some (some mem, S) =>
        match G.splitInput S a mem with
        | .created N S => splitLoop a fuel mem 0 N ((phi, idx) :: waiting) S
        | .failed S => some (none, S)
        | .found q =>
          if S.failing then some (none, S)
          else splitLoop a fuel phi (idx + 1) result waiting (G.setInput S result idx (some q))
    | none =>
      match waiting with
      | [] => some (some result, S)
      | (phi, idx) :: waiting =>
        match S.mapPhi phi with
        | none => none
        | some prev =>
          splitLoop a fuel phi (idx + 1) prev waiting (G.setInput S prev idx (some result))

end

end SliceGraph

/-! ## `optimize_simple_memory_chain`

The same walk for one load, when the slices are apart. It goes past projections that cannot have
written the slice and through `MergeMem`s, and does not split anything. How the walk goes past a
projection depends on whether the load is of an instance or of a boxed value. -/

/-- The type of the address of a load, and what is asked of the load. -/
structure ChainQuery : Type where
  aliasIdx : ℕ
  /-- `is_known_instance_field()` -/
  isInstance : Bool
  isBoxedValueLoad : Bool
  instanceId : ℕ
  /-- an allocation is exactly of another class -/
  unrelated : ℕ → Bool

namespace SliceGraph

variable (G : SliceGraph) (Q : ChainQuery)

/-- `step_through_mergemem`; `transform` is that of the phase. -/
def stepThroughMergemem (transform : ℕ → ℕ) (a n : ℕ) : ℕ :=
  if G.anyOffset a then n
  else
    match G.node (transform n) with
    | .mergeMem _ slices => slices a
    | _ => transform n

/-- A memory projection; `none` where the walk ends. -/
def chainProj (p : ℕ) : Option ℕ :=
  match G.node p with
  | .allocate memory =>
    if p = Q.instanceId ∨ G.mayModify p Q.aliasIdx = true then none else some memory
  | .call memory => if G.mayModify p Q.aliasIdx then none else some memory
  | .initializeNode none _ => none
  | .initializeNode (some b) memory =>
    if b = Q.instanceId then none
    else if Q.isInstance || (Q.isBoxedValueLoad && Q.unrelated b) then some memory
    else none
  | .memBar memory _ => if G.memBarMayModify p Q.aliasIdx then none else some memory
  | _ => none

/-- A round of the loop of `optimize_simple_memory_chain`. -/
def chainStep (transform : ℕ → ℕ) (n : ℕ) : Option ℕ :=
  if n = G.startMem then none
  else
    match G.node n with
    | .proj p => G.chainProj Q p
    | .clearArray dest _ => if Q.isInstance then G.stepThrough Q.instanceId dest else none
    | .mergeMem _ _ =>
      if G.stepThroughMergemem transform Q.aliasIdx n = n then none
      else some (G.stepThroughMergemem transform Q.aliasIdx n)
    | _ => none

/-- The loop, by how often it goes round: where it ends, and the steps that it made. -/
def chainLoop (transform : ℕ → ℕ) : ℕ → ℕ → Option (ℕ × List (ℕ × ℕ))
  | 0, _ => none
  | fuel + 1, n =>
    match G.chainStep Q transform n with
    | none => some (n, [])
    | some m => (chainLoop transform fuel m).map fun r => (r.1, (n, m) :: r.2)

/-- `optimize_simple_memory_chain` -/
def optimizeSimpleMemoryChain (transform : ℕ → ℕ) (fuel n : ℕ) : Option (ℕ × List (ℕ × ℕ)) :=
  if Q.isInstance || Q.isBoxedValueLoad then G.chainLoop Q transform fuel n else some (n, [])

end SliceGraph

end StackAllocation
