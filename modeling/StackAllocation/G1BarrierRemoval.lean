import StackAllocation.CapturedStores
import StackAllocation.PreviousStore

/-!
# Leaving out G1's barriers

G1's pre-barrier is left out of a reference store if the field is known to hold null: the field is
one of a new object, and a walk up the memory gets past stores elsewhere to the `Initialize` of
the object, which has captured no store to the field (`g1_can_remove_pre_barrier`). Its
post-barrier is left out if the store is run right after the `Initialize` of the object that it
stores to (`g1_can_remove_post_barrier`).

The second is right. The first takes a store for one of at most eight bytes, takes the offset of
an address off an arbitrary raw pointer for one off an object, and takes a search among the
captured stores that gives up for one that has found nothing. Where none of the three hides a
store to the field it is right, and nowhere else (`StoreExecution.barriersSound_iff`).
-/

namespace StackAllocation

open Dominance

/-! ## The sources

Both tests are made while the store is parsed. The pre-barrier can go if the previous value is known
to be null, the post-barrier if the object is the last thing that was allocated and no safepoint
lies in between. -/

/-- A control node that is run only after the node whose projection it is, from an allocation on. -/
inductive FollowsAllocation (controlParent : ℕ → Option ℕ) (a : ℕ) : ℕ → Prop
  | allocation : FollowsAllocation controlParent a a
  | proj {n m : ℕ} (h : FollowsAllocation controlParent a m) (hn : controlParent n = some m) :
      FollowsAllocation controlParent a n

/-- The graph above a reference store, with what `Initialize` nodes have captured. -/
structure CapturingGraph : Type extends MemoryGraph where
  /-- the captured stores of an `Initialize` -/
  initInputs : ℕ → InitializeInputs
  /-- the limits at its allocation -/
  tracked : ℕ → TrackedRange
  /-- `type2aelembytes(T_OBJECT)` -/
  heapOopSize : ℕ
  /-- `in(0)` of a projection, and of the `Catch` of a call -/
  controlParent : ℕ → Option ℕ
  isSafepoint : ℕ → Bool
  flow_proj : ∀ c p, controlParent c = some p → ∀ b, flow b c → b = p
  proj_not_safepoint : ∀ c p, controlParent c = some p → isSafepoint c = false
  /-- an allocation is followed by its projections, and these by its `Initialize` -/
  flow_init : ∀ p a memory memoryAt, parent p = .initializeNode (some a) memory memoryAt →
    ∀ b, flow b p → FollowsAllocation controlParent a b
  init_not_safepoint : ∀ p a memory memoryAt, parent p = .initializeNode (some a) memory memoryAt →
    isSafepoint p = false
  start_no_proj : controlParent start = none
  start_no_init : ∀ a memory memoryAt, parent start ≠ .initializeNode a memory memoryAt

/-- A reference store, about to be made at the control `G.point`; its memory is
`kit->memory(adr_idx)`. -/
structure ReferenceStore (G : CapturingGraph) : Type extends MemAccess where
  /-- `type2aelembytes(bt)` is the size of a reference -/
  size_eq : size = G.heapOopSize
  /-- a field is past the header of its object -/
  field_header : ∀ base offset a p memory memoryAt, G.baseAndOffset adr = some (base, offset) →
    G.idealAllocation base = some a → G.parent p = .initializeNode (some a) memory memoryAt →
    (G.tracked p).minimumHeaderSize ≤ offset

namespace ReferenceStore

variable {G : CapturingGraph} (X : ReferenceStore G)

/-- The loop of `g1_can_remove_pre_barrier`, by how often it goes round: the `Initialize` of the
allocation that it gets to, and the stores it goes past. -/
def preBarrierWalk (alloc base : ℕ) (offset : ℤ) : ℕ → ℕ → Option ℕ × List ℕ
  | 0, _ => (none, [])
  | cnt + 1, mem =>
    match G.mem mem with
    | .store stAdr stMemory stSize =>
      match G.baseAndOffset stAdr with
      | none => (none, []) -- inscrutable pointer
      | some (stBase, stOffset) =>
        -- a store with same base and offset as ours
        if stBase = base ∧ stOffset = offset then (none, [])
        else if X.offsetsApart offset stOffset stSize ||
            stBase != base &&
              G.detectPtrIndependence base (some alloc) stBase (G.idealAllocation stBase) then
          let walk := preBarrierWalk alloc base offset cnt stMemory
          (walk.1, mem :: walk.2)
        else (none, [])
    | .proj p =>
      match G.parent p with
      | .initializeNode stAlloc _ _ => if stAlloc = some alloc then (some p, []) else (none, [])
      | _ => (none, [])
    | _ => (none, [])

/-- The address and its allocation. -/
def allocatedBase : Option (ℕ × ℤ × ℕ) :=
  match G.baseAndOffset X.adr with
  | none => none
  | some (base, offset) =>
    match G.idealAllocation base with
    | none => none
    | some alloc => some (base, offset, alloc)

/-- What the captured stores of an `Initialize` are asked for. -/
def capturedStore (offset : ℤ) (p : ℕ) : Option InitInput :=
  (G.initInputs p).findCapturedStore (G.tracked p) offset G.heapOopSize

/-- `g1_can_remove_pre_barrier` -/
def g1CanRemovePreBarrier : Bool :=
  match X.allocatedBase with
  | none => false
  | some (base, offset, alloc) =>
    match (X.preBarrierWalk alloc base offset 50 X.memory).1 with
    | none => false
    | some p =>
      match capturedStore (G := G) offset p with
      | none => true
      | some captured => decide (captured = .zeroMemory)

/-- `g1_can_remove_post_barrier` -/
def g1CanRemovePostBarrier : Bool :=
  match X.allocatedBase with
  | none => false
  | some (_, _, alloc) =>
    match G.controlParent G.point with
    | none => false
    | some p =>
      match G.parent p with
      | .initializeNode stAlloc _ _ => decide (stAlloc = some alloc)
      | _ => false

end ReferenceStore

/-! ## Executions

An execution is a run of the control flow with the bytes that each memory state holds. That a field
is null means that nothing has written any of its bytes since the allocation. -/

/-- An execution that reaches the store. -/
structure StoreExecution (G : CapturingGraph) (X : ReferenceStore G) : Type
    extends Execution G.toMemoryGraph X.toMemAccess where
  /-- what an allocation is found for is the start of the object -/
  delta_allocation : ∀ p a, G.idealAllocation p = some a → delta p = 0
  /-- After an `Initialize` a byte past the header is zero, unless a captured store has written it
  or something else is to initialize the object. -/
  writer_allocation : ∀ n p a memory memoryAt, G.mem n = .proj p →
    G.parent p = .initializeNode (some a) memory memoryAt →
    ∀ d, (G.tracked p).minimumHeaderSize ≤ d →
      (writer n (object a, d) = none ↔ (G.initInputs p).isComplete = false ∧
        ∀ st ∈ liveStores (G.initInputs p).inputs, ¬ (st.offset ≤ d ∧ d < st.offset + st.size))

namespace StoreExecution

variable {G : CapturingGraph} {X : ReferenceStore G} (E : StoreExecution G X)

/-- A byte of a memory state: zero unless something has written it since the allocation. -/
def content (value : ℕ → Byte → ℕ) (mem : ℕ) (b : Byte) : ℕ :=
  match E.writer mem b with
  | none => 0
  | some n => value n b

/-- The field holds null, whatever it is that the stores store. -/
def FieldNull : Prop := ∀ value, ∀ b ∈ E.range, E.content value X.memory b = 0

/-- The store is to the object just allocated, and since then no safepoint was run. -/
def JustAllocated : Prop :=
  ∃ a, E.block X.adr = E.object a ∧
    ∃ since before, G.point :: E.past = since ++ a :: before ∧ ∀ n ∈ since, G.isSafepoint n = false

/-- What leaving out the barriers relies on. -/
def BarriersSound : Prop :=
  (X.g1CanRemovePreBarrier = true → E.FieldNull) ∧
    (X.g1CanRemovePostBarrier = true → E.JustAllocated)

/-- A store whose address is off another pointer that may be raw, and that writes to the field. -/
def ReachesRaw (st base : ℕ) : Prop :=
  ∃ adr memory size stBase offset, G.mem st = .store adr memory size ∧
    G.baseAndOffset adr = some (stBase, offset) ∧ stBase ≠ base ∧ G.maybeRaw adr = true ∧
    ∃ b ∈ E.range, b ∈ E.writes st

/-- No store to the field is overlooked: where the walk gets to the `Initialize`, the search there
finds the store to the field, or there is none, and the walk has gone past no store to it that is of
more than eight bytes or off a raw pointer. -/
def NothingOverlooked : Prop :=
  ∀ base offset alloc p, X.allocatedBase = some (base, offset, alloc) →
    (X.preBarrierWalk alloc base offset 50 X.memory).1 = some p →
    (∃ st, ReferenceStore.capturedStore (G := G) offset p = some (.store st)) ∨
      (G.initInputs p).isComplete = false ∧
        (∀ st ∈ liveStores (G.initInputs p).inputs, ¬ st.Overlaps offset G.heapOopSize) ∧
        ∀ st ∈ (X.preBarrierWalk alloc base offset 50 X.memory).2,
          ¬ E.ReachesOver st ∧ ¬ E.ReachesRaw st base

variable {E}

/-! ## The walk

The walk goes from the memory of the store upwards, past stores that are known to be elsewhere: at
another offset of the same object, or to another object. It ends at the `Initialize` of the
allocation, or gives up. -/

/-- The object that is stored to, if it is a new one at a known offset. -/
theorem allocatedBase_eq_some {base alloc : ℕ} {offset : ℤ} :
    X.allocatedBase = some (base, offset, alloc) ↔
      G.baseAndOffset X.adr = some (base, offset) ∧ G.idealAllocation base = some alloc := by
  unfold ReferenceStore.allocatedBase
  constructor
  · intro h
    split at h
    · cases h
    next base' offset' hbase =>
    split at h
    · cases h
    next alloc' halloc =>
    cases h
    exact ⟨hbase, halloc⟩
  · rintro ⟨hbase, halloc⟩
    simp only [hbase, halloc]

section Walk

variable {base alloc : ℕ} {offset : ℤ} (hbase : G.baseAndOffset X.adr = some (base, offset))
  (halloc : G.idealAllocation base = some alloc)
include hbase halloc

/-- The field, in the object of the allocation. -/
theorem mem_range {b : Byte} : b ∈ E.range ↔
    b.1 = E.object alloc ∧ offset ≤ b.2 ∧ b.2 < offset + G.heapOopSize := by
  obtain ⟨hblock, hdelta⟩ := E.block_base X.adr base offset hbase
  rw [Execution.range, Set.mem_ofPred_eq, hblock, hdelta, E.block_allocation base alloc halloc,
    E.delta_allocation base alloc halloc, X.size_eq, zero_add]

/-- A store that the walk goes past and that writes to the field is too long, or off a raw
pointer. -/
theorem reaches_of_passed {st stAdr stMemory stSize stBase : ℕ} {stOffset : ℤ}
    (hst : G.mem st = .store stAdr stMemory stSize)
    (hstBase : G.baseAndOffset stAdr = some (stBase, stOffset))
    (hpassed : (X.offsetsApart offset stOffset stSize || stBase != base &&
      G.detectPtrIndependence base (some alloc) stBase (G.idealAllocation stBase)) = true)
    {b : Byte} (hb : b ∈ E.range) (hw : b ∈ E.writes st) :
    E.ReachesOver st ∨ E.ReachesRaw st base := by
  by_cases hraw : stBase ≠ base ∧ G.maybeRaw stAdr = true
  · exact .inr ⟨stAdr, stMemory, stSize, stBase, stOffset, hst, hstBase, hraw.1, hraw.2, b, hb, hw⟩
  left
  obtain ⟨hwBlock, hwLow, hwHigh⟩ := (E.writes_store st stAdr stMemory stSize hst b).1 hw
  obtain ⟨hbBlock, hbLow, hbHigh⟩ := hb
  obtain ⟨hblock, hdelta⟩ := E.block_base X.adr base offset hbase
  obtain ⟨hstBlock, hstDelta⟩ := E.block_base stAdr stBase stOffset hstBase
  have hzero := E.delta_allocation base alloc halloc
  have hstart : E.delta stBase = 0 := by
    by_cases hsame : stBase = base
    · rwa [hsame]
    · refine E.delta_base stAdr stBase stOffset hstBase ?_
      exact Bool.eq_false_iff.2 fun hmaybe => hraw ⟨hsame, hmaybe⟩
  have hsameBlock : E.block stBase = E.block base :=
    hstBlock.symm.trans (hwBlock.symm.trans (hbBlock.trans hblock))
  rw [Bool.or_eq_true, Bool.and_eq_true, bne_iff_ne] at hpassed
  rcases hpassed with hapart | ⟨-, hindependent⟩
  · refine ⟨stAdr, stMemory, stSize, hst, ?_⟩
    rw [MemAccess.offsetsApart, maxStore] at hapart
    simp only [Bool.and_eq_true, bne_iff_ne, Bool.or_eq_true, decide_eq_true_eq] at hapart
    obtain ⟨-, (habove | hfar) | hbelow⟩ := hapart
    · omega
    · exact ⟨by omega, hwBlock.symm.trans hbBlock, by omega, by omega⟩
    · omega
  · rw [← halloc] at hindependent
    exact absurd hsameBlock.symm (E.block_ne_of_independent hindependent)

/-- What the walk has gone past. -/
theorem preBarrierWalk_spec {cnt mem p : ℕ}
    (h : (X.preBarrierWalk alloc base offset cnt mem).1 = some p) :
    ∃ m memory memoryAt, G.mem m = .proj p ∧
      G.parent p = .initializeNode (some alloc) memory memoryAt ∧
      (∀ b, (∀ st ∈ (X.preBarrierWalk alloc base offset cnt mem).2, b ∉ E.writes st) →
        E.writer mem b = E.writer m b) ∧
      (∀ b, (E.writer m b ≠ none ∨
          ∃ st ∈ (X.preBarrierWalk alloc base offset cnt mem).2, b ∈ E.writes st) →
        E.writer mem b ≠ none) ∧
      ∀ st ∈ (X.preBarrierWalk alloc base offset cnt mem).2, ∀ b ∈ E.range, b ∈ E.writes st →
        E.ReachesOver st ∨ E.ReachesRaw st base := by
  induction cnt generalizing mem with
  | zero => cases h
  | succ cnt ih =>
    rw [ReferenceStore.preBarrierWalk] at h ⊢
    split at h
    · next stAdr stMemory stSize hmem =>
      split at h
      · cases h
      next stBase stOffset hstBase =>
      split at h
      · cases h
      next hplace =>
      split at h
      swap
      · cases h
      next hpassed =>
      obtain ⟨m, memory, memoryAt, hm, hp, hkeep, hsome, hreach⟩ := ih h
      simp only [if_neg hplace, hpassed, if_true]
      have hwriter := E.writer_store mem stAdr stMemory stSize hmem
      refine ⟨m, memory, memoryAt, hm, hp, fun b hb => ?_, fun b hb => ?_, ?_⟩
      · obtain ⟨hhead, htail⟩ := List.forall_mem_cons.1 hb
        rw [(hwriter b).2 hhead, hkeep b htail]
      · by_cases hw : b ∈ E.writes mem
        · rw [(hwriter b).1 hw]
          exact Option.some_ne_none mem
        · rw [(hwriter b).2 hw]
          refine hsome b (hb.imp_right ?_)
          rintro ⟨st, hst, hwst⟩
          rcases List.mem_cons.1 hst with rfl | hst
          · exact absurd hwst hw
          · exact ⟨st, hst, hwst⟩
      · exact List.forall_mem_cons.2
          ⟨fun b hb hw => reaches_of_passed hbase halloc hmem hstBase hpassed hb hw, hreach⟩
    · next q hmem =>
      split at h
      · next stAlloc memory memoryAt hq =>
        split at h
        · next hsame =>
          obtain rfl := Option.some.inj h
          simp only [hq, if_pos hsame]
          refine ⟨mem, memory, memoryAt, hmem, by rw [hsame], fun b _ => rfl, fun b hb => ?_, ?_⟩
          · refine hb.elim id ?_
            rintro ⟨st, hst, -⟩
            exact absurd hst List.not_mem_nil
          · exact fun st hst => absurd hst List.not_mem_nil
        · cases h
      · cases h
    · cases h

end Walk

/-! ## The two tests

At the `Initialize` the captured stores are asked for the field. The search answers that nothing was
captured there, that a store of the same width was, or that it gives up; the last answer is taken
for the first, and this is the one way in which the test is wrong. -/

/-- A field is null exactly if nothing has written it. -/
theorem fieldNull_iff : E.FieldNull ↔ ∀ b ∈ E.range, E.writer X.memory b = none := by
  constructor
  · intro h b hb
    by_contra hne
    obtain ⟨n, hn⟩ := Option.ne_none_iff_exists'.1 hne
    have hone := h (fun _ _ => 1) b hb
    rw [content, hn] at hone
    exact Nat.one_ne_zero hone
  · intro h value b hb
    rw [content, h b hb]

/-- A captured store that overlaps the field has a byte in common with it. -/
theorem exists_byte_of_overlaps {st : InitStore} {offset : ℤ} {size : ℕ} (hsize : 0 < size)
    (h : st.Overlaps offset size) :
    ∃ d, offset ≤ d ∧ d < offset + size ∧ st.offset ≤ d ∧ d < st.offset + st.size := by
  have hpos := st.size_pos
  obtain ⟨hlow, hhigh⟩ := h
  rcases Int.le_total st.offset offset with hle | hle
  · exact ⟨offset, Int.le_refl _, by omega, hle, hhigh⟩
  · exact ⟨st.offset, hle, hlow, Int.le_refl _, by omega⟩

/-- Where the walk gets to the `Initialize`, the field is null exactly if the object is not left to
something else to initialize, no captured store overlaps the field, and the walk has gone past no
store to it. -/
theorem fieldNull_iff_of_walk {base alloc p : ℕ} {offset : ℤ}
    (hbase : X.allocatedBase = some (base, offset, alloc))
    (hwalk : (X.preBarrierWalk alloc base offset 50 X.memory).1 = some p) :
    E.FieldNull ↔ (G.initInputs p).isComplete = false ∧
      (∀ st ∈ liveStores (G.initInputs p).inputs, ¬ st.Overlaps offset G.heapOopSize) ∧
      ∀ st ∈ (X.preBarrierWalk alloc base offset 50 X.memory).2,
        ¬ E.ReachesOver st ∧ ¬ E.ReachesRaw st base := by
  obtain ⟨hadr, halloc⟩ := allocatedBase_eq_some.1 hbase
  obtain ⟨m, memory, memoryAt, hm, hp, hkeep, hsome, hreach⟩ :=
    preBarrierWalk_spec (E := E) hadr halloc hwalk
  have hheader := X.field_header base offset alloc p memory memoryAt hadr halloc hp
  have hsize : 0 < G.heapOopSize := X.size_eq ▸ X.size_pos
  have hrange := fun b => mem_range (E := E) (b := b) hadr halloc
  rw [fieldNull_iff]
  constructor
  · intro hnull
    -- what is null now was null after the `Initialize`, and was not written since
    have hinit : ∀ d, offset ≤ d → d < offset + G.heapOopSize →
        E.writer m (E.object alloc, d) = none := fun d hlow hhigh => by
      by_contra hne
      exact hsome _ (.inl hne) (hnull _ ((hrange _).2 ⟨rfl, hlow, hhigh⟩))
    have hclean : ∀ st ∈ (X.preBarrierWalk alloc base offset 50 X.memory).2, ∀ b ∈ E.range,
        b ∉ E.writes st := fun st hst b hb hw => hsome b (.inr ⟨st, hst, hw⟩) (hnull b hb)
    refine ⟨?_, fun st hst hover => ?_, fun st hst => ⟨fun hover => ?_, ?_⟩⟩
    · exact ((E.writer_allocation m p alloc memory memoryAt hm hp offset hheader).1
        (hinit offset (Int.le_refl _) (by omega))).1
    · obtain ⟨d, hlow, hhigh, hstLow, hstHigh⟩ := exists_byte_of_overlaps hsize hover
      refine ((E.writer_allocation m p alloc memory memoryAt hm hp d (hheader.trans hlow)).1
        (hinit d hlow hhigh)).2 st hst ⟨hstLow, hstHigh⟩
    · obtain ⟨b, hb, hw⟩ := hover.not_clean
      exact hclean st hst b hb hw
    · rintro ⟨-, -, -, -, -, -, -, -, -, b, hb, hw⟩
      exact hclean st hst b hb hw
  · rintro ⟨hcomplete, hcaptured, hpassed⟩ b hb
    rw [hkeep b fun st hst hw => (hreach st hst b hb hw).elim (hpassed st hst).1 (hpassed st hst).2]
    obtain ⟨hblock, hlow, hhigh⟩ := (hrange b).1 hb
    obtain ⟨block, d⟩ := b
    obtain rfl : block = E.object alloc := hblock
    refine (E.writer_allocation m p alloc memory memoryAt hm hp d (hheader.trans hlow)).2
      ⟨hcomplete, fun st hst hover => hcaptured st hst ⟨?_, ?_⟩⟩
    · exact Int.lt_of_le_of_lt hover.1 hhigh
    · exact Int.lt_of_le_of_lt hlow hover.2

/-- What the search among the captured stores answers. -/
theorem capturedStore_cases (G : CapturingGraph) (offset : ℤ) (p : ℕ) (hsize : 0 < G.heapOopSize) :
    ReferenceStore.capturedStore (G := G) offset p = none ∨
      ReferenceStore.capturedStore (G := G) offset p = some .zeroMemory ∨
      ∃ st, ReferenceStore.capturedStore (G := G) offset p = some (.store st) := by
  unfold ReferenceStore.capturedStore InitializeInputs.findCapturedStore
    InitializeInputs.capturedStoreInsertionPoint
  split
  · exact .inl rfl
  · exact .inr (.inl rfl)
  · next i hi =>
    split at hi
    · cases hi
    split at hi
    · cases hi
    split at hi
    · cases hi
    have hsays : InsertionPoint.Says offset G.heapOopSize 0 (G.initInputs p).inputs
        (insertionLoop offset G.heapOopSize 0 (G.initInputs p).inputs) :=
      insertionLoop_says hsize 0 _
    rw [hi] at hsays
    obtain ⟨pre, st, post, heq, rfl, -, -⟩ := hsays
    refine .inr (.inr ⟨st, ?_⟩)
    rw [heq, Nat.zero_add, List.getElem?_append_right (Nat.le_refl _), Nat.sub_self]
    rfl

/-- The ways that a run goes from a node that follows an allocation back to it. -/
theorem exists_since {controlParent : ℕ → Option ℕ} {flow : ℕ → ℕ → Prop} {start a n : ℕ}
    {isSafepoint : ℕ → Bool} {l : List ℕ} (h : FollowsAllocation controlParent a n)
    (hflow : ∀ c p, controlParent c = some p → ∀ b, flow b c → b = p)
    (hsafe : ∀ c p, controlParent c = some p → isSafepoint c = false)
    (hstart : controlParent start = none) (hrun : Run flow start (n :: l)) :
    ∃ since before, n :: l = since ++ a :: before ∧ ∀ k ∈ since, isSafepoint k = false := by
  induction h generalizing l with
  | allocation => exact ⟨[], l, rfl, fun k hk => absurd hk List.not_mem_nil⟩
  | @proj n m _ hn ih =>
    cases hrun with
    | start =>
      rw [hstart] at hn
      cases hn
    | @step b _ l hrun hbc =>
      obtain rfl := hflow n m hn b hbc
      obtain ⟨since, before, heq, hsince⟩ := ih hrun
      refine ⟨n :: since, before, by rw [heq, List.cons_append], ?_⟩
      exact List.forall_mem_cons.2 ⟨hsafe n b hn, hsince⟩

/-- A store that needs no post-barrier is to the object just allocated. -/
theorem justAllocated (h : X.g1CanRemovePostBarrier = true) : E.JustAllocated := by
  unfold ReferenceStore.g1CanRemovePostBarrier at h
  split at h
  · cases h
  next base offset alloc hbase =>
  obtain ⟨hadr, halloc⟩ := allocatedBase_eq_some.1 hbase
  split at h
  · cases h
  next p hpoint =>
  split at h
  swap
  · cases h
  next stAlloc memory memoryAt hp =>
  obtain rfl := of_decide_eq_true h
  refine ⟨alloc, ?_, ?_⟩
  · rw [(E.block_base X.adr base offset hadr).1, E.block_allocation base alloc halloc]
  -- the store is run after the `Initialize`, and this after projections of the allocation
  obtain ⟨c, hc⟩ : ∃ c, c = G.point := ⟨_, rfl⟩
  have hrun := E.run
  obtain ⟨past, hpast⟩ : ∃ past, past = E.past := ⟨_, rfl⟩
  rw [← hpast, ← hc] at hrun ⊢
  rw [← hc] at hpoint
  cases hrun with
  | start =>
    rw [G.start_no_proj] at hpoint
    cases hpoint
  | @step b _ l hrun hbc =>
    obtain rfl := G.flow_proj c p hpoint b hbc
    cases hrun with
    | start => exact absurd hp (G.start_no_init _ _ _)
    | @step b' _ l hrun hbc' =>
      obtain ⟨since, before, heq, hsince⟩ := exists_since
        (G.flow_init b alloc memory memoryAt hp b' hbc') G.flow_proj G.proj_not_safepoint
        G.start_no_proj hrun
      refine ⟨c :: b :: since, before, by rw [heq]; rfl, ?_⟩
      rw [List.forall_mem_cons, List.forall_mem_cons]
      exact ⟨G.proj_not_safepoint c b hpoint,
        G.init_not_safepoint b alloc memory memoryAt hp, hsince⟩

/-- Leaving out the barriers is sound in an execution exactly if no store to the field is
overlooked. -/
theorem barriersSound_iff (E : StoreExecution G X) : E.BarriersSound ↔ E.NothingOverlooked := by
  have hsize : 0 < G.heapOopSize := X.size_eq ▸ X.size_pos
  constructor
  · rintro ⟨hpre, -⟩ base offset alloc p hbase hwalk
    rcases capturedStore_cases G offset p hsize with hnone | hzero | hfound
    · refine .inr ((fieldNull_iff_of_walk hbase hwalk).1 (hpre ?_))
      simp only [ReferenceStore.g1CanRemovePreBarrier, hbase, hwalk, hnone]
    · refine .inr ((fieldNull_iff_of_walk hbase hwalk).1 (hpre ?_))
      simp only [ReferenceStore.g1CanRemovePreBarrier, hbase, hwalk, hzero, decide_true]
    · exact .inl hfound
  · refine fun hnothing => ⟨fun hpre => ?_, justAllocated⟩
    unfold ReferenceStore.g1CanRemovePreBarrier at hpre
    split at hpre
    · cases hpre
    next base offset alloc hbase =>
    split at hpre
    · cases hpre
    next p hwalk =>
    rcases hnothing base offset alloc p hbase hwalk with ⟨st, hst⟩ | hclean
    · rw [hst] at hpre
      cases of_decide_eq_true hpre
    · exact (fieldNull_iff_of_walk hbase hwalk).2 hclean

end StoreExecution

/-! ## A store to a new object

The object of allocation 1, with `Initialize` 2, whose control is 3 and whose memory is 4. The
store is to its field of four bytes at offset 16. -/

/-- The order in which the nodes are run. -/
theorem newObject_flow {b c : ℕ} (h : b = 1 ∧ c = 7 ∨ b = 7 ∧ c = 2 ∨ b = 2 ∧ c = 3) :
    (c = 3 → b = 2) ∧ (c = 7 → b = 1) ∧ (c = 2 → b = 7) := by
  omega

/-- The graph, by the captured stores. -/
def newObjectGraph (inputs : List InitInput) : CapturingGraph where
  mem := fun n => if n = 4 then .proj 2 else .other
  parent := fun n => if n = 2 then .initializeNode (some 1) 0 fun _ => 0 else .other
  baseAndOffset := fun n => if n = 11 then some (10, 16) else none
  idealAllocation := fun n => if n = 10 then some 1 else none
  maybeRaw := fun _ => false
  allocMemory := fun _ => 0
  initMemory := fun _ => none
  size := 13
  inputs := fun n => if 10 ≤ n then [some 3] else []
  isCFG := fun n => decide (n < 10)
  pinned := fun n => decide (10 ≤ n)
  isCon := fun _ => false
  isStartOrRoot := fun _ => false
  isTop := fun _ => false
  exactControl := fun _ => none
  dominates := fun _ _ => false
  flow := fun b c => b = 1 ∧ c = 7 ∨ b = 7 ∧ c = 2 ∨ b = 2 ∧ c = 3
  start := 1
  point := 3
  rank := fun _ => 0
  dominates_sound := nofun
  allocation_dominates := by
    intro p a h
    split at h
    · obtain rfl := Option.some.inj h
      exact fun l hrun => hrun.start_mem
    · cases h
  init_dominates := by
    intro p a memory memoryAt h
    split at h
    · cases h
      exact fun l hrun => hrun.start_mem
    · cases h
  control_dominates := nofun
  rank_lt := nofun
  exactControl_lt := nofun
  initInputs := fun _ => ⟨false, inputs⟩
  tracked := fun _ => ⟨12, by decide, 50⟩
  heapOopSize := 4
  controlParent := fun n => if n = 3 then some 2 else if n = 7 then some 1 else none
  isSafepoint := fun n => decide (n = 1)
  flow_proj := by
    intro c p h b hflow
    split at h
    · next hc =>
      obtain rfl := Option.some.inj h
      exact (newObject_flow hflow).1 hc
    split at h
    · next hc =>
      obtain rfl := Option.some.inj h
      exact (newObject_flow hflow).2.1 hc
    · cases h
  proj_not_safepoint := by
    intro c p h
    rw [decide_eq_false_iff_not]
    rintro rfl
    cases h
  flow_init := by
    intro p a memory memoryAt h b hflow
    split at h
    · next hp =>
      cases h
      obtain rfl := (newObject_flow hflow).2.2 hp
      exact .proj .allocation rfl
    · cases h
  init_not_safepoint := by
    intro p a memory memoryAt h
    rw [decide_eq_false_iff_not]
    rintro rfl
    cases h
  start_no_proj := rfl
  start_no_init := nofun

/-- The store. -/
def newObjectStore (inputs : List InitInput) : ReferenceStore (newObjectGraph inputs) where
  node := 12
  adr := 11
  memory := 4
  size := 4
  size_pos := Nat.le_add_left 1 3
  isLoad := false
  aliasIdx := 5
  isRaw := false
  knownInstance := none
  addpBase := some 10
  callMayModify := fun _ => true
  memBarMayModify := fun _ => true
  modifies := fun _ => true
  size_eq := rfl
  field_header := by
    intro base offset a p memory memoryAt h _ _
    obtain ⟨-, rfl⟩ := Prod.mk.inj (Option.some.inj h)
    show (12 : ℤ) ≤ 16
    decide

/-- The captured store that has written a byte of the object. -/
def capturedWriter (inputs : List InitInput) (d : ℤ) : Option ℕ :=
  ((liveStores inputs).find? fun st => decide (st.offset ≤ d ∧ d < st.offset + st.size)).map
    InitStore.node

/-- The memory states of the graph. -/
theorem mem_newObjectGraph {inputs : List InitInput} {n : ℕ} {m : MemNode}
    (h : (newObjectGraph inputs).mem n = m) : n = 4 ∧ m = .proj 2 ∨ m = .other := by
  simp only [newObjectGraph] at h
  split at h
  · next hn => exact .inl ⟨hn, h.symm⟩
  · exact .inr h.symm

/-- There is one node that makes memory besides, the initialization. -/
theorem parent_newObjectGraph {inputs : List InitInput} {p : ℕ} {m : MemParent}
    (h : (newObjectGraph inputs).parent p = m) :
    p = 2 ∧ m = .initializeNode (some 1) 0 (fun _ => 0) ∨ m = .other := by
  simp only [newObjectGraph] at h
  split at h
  · next hp => exact .inl ⟨hp, h.symm⟩
  · exact .inr h.symm

theorem run_newObjectGraph (inputs : List InitInput) :
    Run (newObjectGraph inputs).flow 1 [3, 2, 7, 1] :=
  .step (.step (.step .start (.inl ⟨rfl, rfl⟩)) (.inr (.inl ⟨rfl, rfl⟩))) (.inr (.inr ⟨rfl, rfl⟩))

theorem newObject_data {n : ℕ} (h : n = 10 ∨ n = 11) : 10 ≤ n := by omega

theorem newObject_base {n : ℕ} (h : n = 10) : n ≠ 11 := by omega

/-- An execution. -/
def newObjectExecution (inputs : List InitInput) :
    StoreExecution (newObjectGraph inputs) (newObjectStore inputs) where
  past := [2, 7, 1]
  run := run_newObjectGraph inputs
  block := fun n => if n = 10 ∨ n = 11 then 1 else 0
  delta := fun n => if n = 11 then 16 else 0
  object := id
  born := fun b => time b [3, 2, 7, 1]
  newest := fun n => if n < 10 then time n [3, 2, 7, 1] else 4
  writes := fun n => {b | n = 2 ∧ b.1 = 1}
  writer := fun n b => if n = 4 ∧ b.1 = 1 then capturedWriter inputs b.2 else none
  born_object := fun _ _ => rfl
  born_le := by
    intro n
    split
    · next hn =>
      rw [if_neg (Nat.not_lt.2 (newObject_data hn))]
      decide
    · exact Nat.zero_le _
  born_adr := by
    show (1 : ℕ) ≤ 4
    decide
  newest_exact := nofun
  newest_initial := by
    rintro n (h | h)
    · cases h
    · cases h
  newest_cfg := by
    intro n h
    rw [if_pos (of_decide_eq_true h)]
    exact Nat.le_refl _
  newest_pinned := by
    intro n c rest _ h
    simp only [newObjectGraph] at h
    split at h
    · next hn =>
      obtain rfl : 3 = c := Option.some.inj (List.cons.inj h).1
      rw [if_neg (Nat.not_lt.2 hn)]
      decide
    · cases h
  newest_data := by
    intro n t h h'
    have hcfg := of_decide_eq_false h
    have hpinned := of_decide_eq_false h'
    exact absurd (Nat.not_lt.1 hcfg) hpinned
  block_base := by
    intro adr base offset h
    simp only [newObjectGraph] at h
    split at h
    · next hadr =>
      obtain ⟨rfl, rfl⟩ := Prod.mk.inj (Option.some.inj h)
      subst hadr
      exact ⟨rfl, rfl⟩
    · cases h
  delta_base := by
    intro adr base offset h _
    simp only [newObjectGraph] at h
    split at h
    · obtain ⟨rfl, -⟩ := Prod.mk.inj (Option.some.inj h)
      rfl
    · cases h
  block_allocation := by
    intro p a h
    simp only [newObjectGraph] at h
    split at h
    · next hp =>
      obtain rfl := Option.some.inj h
      rw [if_pos (.inl hp)]
      rfl
    · cases h
  block_con := nofun
  block_instance := nofun
  writes_store := by
    intro n adr memory size h
    rcases mem_newObjectGraph h with ⟨-, heq⟩ | heq
    · cases heq
    · cases heq
  writes_init := by
    intro n a memory memoryAt h b hb
    rcases parent_newObjectGraph h with ⟨-, heq⟩ | heq
    · cases heq
      exact hb.elim (fun hb => hb.2) fun hb => hb.2
    · cases heq
  writes_clear := by
    intro n dest memory a h
    rcases mem_newObjectGraph h with ⟨-, heq⟩ | heq
    · cases heq
    · cases heq
  writer_store := by
    intro n adr memory size h
    rcases mem_newObjectGraph h with ⟨-, heq⟩ | heq
    · cases heq
    · cases heq
  writer_init := by
    intro n p a memory memoryAt _ h b hb
    rcases parent_newObjectGraph h with ⟨-, heq⟩ | heq
    · cases heq
      rw [if_neg fun hn => hb hn.2]
      rfl
    · cases heq
  writer_memBar := by
    intro n p memory h hp b hb
    rcases hp with heq | ⟨ac, heq, -⟩ | ⟨copy, heq⟩ | ⟨a, memoryAt, heq⟩
    · rcases parent_newObjectGraph heq with ⟨-, heq⟩ | heq <;> cases heq
    · rcases parent_newObjectGraph heq with ⟨-, heq⟩ | heq <;> cases heq
    · rcases parent_newObjectGraph heq with ⟨-, heq⟩ | heq <;> cases heq
    · rcases parent_newObjectGraph heq with ⟨rfl, heq⟩ | heq
      · cases heq
        rw [if_neg fun hn => hb ⟨rfl, hn.2⟩]
        rfl
      · cases heq
  writer_clear := by
    intro n dest memory a h
    rcases mem_newObjectGraph h with ⟨-, heq⟩ | heq
    · cases heq
    · cases heq
  writer_mergeMem := by
    intro n memoryAt h
    rcases mem_newObjectGraph h with ⟨-, heq⟩ | heq
    · cases heq
    · cases heq
  delta_allocation := by
    intro p a h
    simp only [newObjectGraph] at h
    split at h
    · next hp => rw [if_neg (newObject_base hp)]
    · cases h
  writer_allocation := by
    intro n p a memory memoryAt hn h d _
    rcases mem_newObjectGraph hn with ⟨rfl, -⟩ | heq
    · rcases parent_newObjectGraph h with ⟨-, heq⟩ | heq
      · cases heq
        simp [capturedWriter, newObjectGraph]
      · cases heq
    · cases heq

/-- The object may have captured a store to another field. -/
def lowStore : InitStore := ⟨12, 4, Nat.le_add_left 1 3, 5⟩

/-- Or one of eight bytes, to the field and what is after it. -/
def longStore : InitStore := ⟨16, 8, Nat.le_add_left 1 7, 5⟩

/-- Both barriers are left out after a store to another field, and that is sound. -/
theorem barriersSound_lowStore :
    (newObjectStore [.store lowStore]).g1CanRemovePreBarrier = true ∧
      (newObjectStore [.store lowStore]).g1CanRemovePostBarrier = true ∧
      (newObjectExecution [.store lowStore]).BarriersSound := by
  refine ⟨by decide, by decide, (newObjectExecution [.store lowStore]).barriersSound_iff.2 ?_⟩
  intro base offset alloc p hbase hwalk
  obtain ⟨rfl, rfl, rfl⟩ : base = 10 ∧ offset = 16 ∧ alloc = 1 := by
    cases hbase
    exact ⟨rfl, rfl, rfl⟩
  refine .inr ⟨rfl, fun st hst hover => ?_, fun st hst => absurd hst List.not_mem_nil⟩
  obtain rfl := List.mem_singleton.1 (show st ∈ [lowStore] from hst)
  exact absurd hover.2 (by decide)

/-- The pre-barrier is left out too where the field holds a half of a captured store of eight
bytes: the search gives up at it, as at dead code. -/
theorem not_barriersSound_longStore :
    (newObjectStore [.store longStore]).g1CanRemovePreBarrier = true ∧
      ¬ (newObjectExecution [.store longStore]).BarriersSound := by
  have hremoved : (newObjectStore [.store longStore]).g1CanRemovePreBarrier = true := by decide
  refine ⟨hremoved, fun ⟨hpre, _⟩ => ?_⟩
  have hone := hpre hremoved (fun _ _ => 1) (1, 16) ⟨rfl, by decide, by decide⟩
  exact absurd hone (by decide)

end StackAllocation
