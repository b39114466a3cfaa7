import StackAllocation.WriteBarriers
import StackAllocation.UserRemoval
import Mathlib.Logic.Function.Basic
import Mathlib.Logic.Relation

/-!
# The pre-barriers of G1

While marking is active, a G1 pre-barrier logs the reference that a store is about to overwrite. It
does not test the heap range. `G1BarrierSetC2::eliminate_gc_barrier` looks for it where the control
of the post barrier starts, and folds its check of the marking flag
(`MacroExpand.removeG1Barrier_eq`). So an execution does not log an address in the frame if the
check was folded for each pre-barrier that may see one (`G1Run.neverLogsFrame`).

An execution runs the nodes of the graph in any order. Objects in the frame and in the heap are
stored to alike, and an address in the frame may come to a field of either. What a node may be is
found from where the objects are made, whatever the order of the nodes is (`G1Run.May`).
-/

namespace StackAllocation

/-! ## What is eliminated with a post barrier

With G1 the routine for a post barrier looks upwards, for a region behind the check of the marking
flag. If it finds one, it takes it for the pre-barrier of the same store and folds the check. -/

namespace MacroExpand

variable (M : MacroExpand) {g g' : MacroGraph} {node cmp : ℕ}

/-- The check of the marking flag that `G1BarrierSetC2::eliminate_gc_barrier` folds for a
`CastP2X`. -/
def removedPreBarrier (g : MacroGraph) (node : ℕ) : Option ℕ := do
  let thisRegion ← g.input node 0
  let xorx ← M.findOutWith g node .xorX
  let shift ← M.uniqueOut g xorx
  let cmpx ← M.uniqueOut g shift
  M.preBarrierCmp (g.replaceNode cmpx M.ccEq) thisRegion

/-- A region behind the check of the marking flag: one of its two inputs is the false projection of
the `If`, and what is compared with zero is a load from the thread, at the offset of the flag. -/
def ChecksMarking (g : MacroGraph) (region cmp : ℕ) : Prop :=
  (g.op region = .region ∧ (g.ins region).length = 3) ∧
    ∃ first ifFalse iff bol load adr base, g.input region 1 = some first ∧
      (if g.op first = .ifFalse then some first else g.input region 2) = some ifFalse ∧
      g.op ifFalse = .ifFalse ∧ g.input ifFalse 0 = some iff ∧ g.op iff = .if_ ∧
      g.input iff 1 = some bol ∧ g.input bol 1 = some cmp ∧
      (g.op bol = .bool .ne ∧ g.op cmp = .cmp ∧ g.input cmp 2 = some M.zero) ∧
      g.input cmp 1 = some load ∧ (g.op load = .load ∨ g.op load = .loadB) ∧
      g.input load 2 = some adr ∧ (g.op adr = .addP ∧ g.input adr 1 = some g.top) ∧
      g.input adr 2 = some base ∧ g.op base = .threadLocal ∧ g.input adr 3 = some M.markingOffset

/-- A `CastP2X` behind the check of the marking flag. It is looked for when the region check of the
post barrier, which the `CastP2X` leads to, has been folded. -/
def PreBarrierOf (g : MacroGraph) (cast cmp : ℕ) : Prop :=
  ∃ region xorx shift cmpx, g.input cast 0 = some region ∧ M.findOutWith g cast .xorX = some xorx ∧
    M.uniqueOut g xorx = some shift ∧ M.uniqueOut g shift = some cmpx ∧
    M.ChecksMarking (g.replaceNode cmpx M.ccEq) region cmp

/-- The check is found from the region that stands behind it. -/
theorem preBarrierCmp_eq_some {region : ℕ} (h : M.ChecksMarking g region cmp) :
    M.preBarrierCmp g region = some cmp := by
  obtain ⟨hregion, first, ifFalse, iff, bol, load, adr, base, hfirst, hifFalse, hopFalse, hiff,
    hopIff,
    hbol, hcmp, hops, hload, hopLoad, hadr, hopAdr, hbase, hopBase⟩ := h
  by_cases hop : g.op first = .ifFalse
  · rw [if_pos hop] at hifFalse
    obtain rfl := Option.some.inj hifFalse
    simp only [preBarrierCmp, hregion, hfirst, hop, hiff, hopIff, hbol, hcmp, hops, hload, hopLoad,
      hadr,
      hopAdr, hbase, hopBase, Option.bind_eq_bind, Option.bind_some, and_self, guard_true, if_true,
      Option.pure_def]
  · rw [if_neg hop] at hifFalse
    simp only [preBarrierCmp, hregion, hfirst, hop, hifFalse, hopFalse, hiff, hopIff, hbol, hcmp,
      hops,
      hload, hopLoad, hadr, hopAdr, hbase, hopBase, Option.bind_eq_bind, Option.bind_some, and_self,
      guard_true, if_false, Option.pure_def]

/-- And from the `CastP2X` that starts there. -/
theorem removedPreBarrier_eq_some (h : M.PreBarrierOf g node cmp) :
    M.removedPreBarrier g node = some cmp := by
  obtain ⟨region, xorx, shift, cmpx, hregion, hxorx, hshift, hcmpx, hmarking⟩ := h
  simp only [removedPreBarrier, hregion, hxorx, hshift, hcmpx, Option.bind_eq_bind,
    Option.bind_some,
    preBarrierCmp_eq_some M hmarking]

/-- The barrier set replaces this check by a constant. -/
theorem removeG1Barrier_eq (h : M.removeG1Barrier g node = some g')
    (hcmp : M.removedPreBarrier g node = some cmp) :
    ∃ cmpx, g' = ((g.replaceNode cmpx M.ccEq).replaceNode cmp M.ccEq).replaceNode node
      ((g.replaceNode cmpx M.ccEq).replaceNode cmp M.ccEq).top := by
  simp only [removedPreBarrier, Option.bind_eq_bind, Option.bind_eq_some_iff] at hcmp
  obtain ⟨region, hregion, xorx, hxorx, shift, hshift, cmpx, hcmpx, hpre⟩ := hcmp
  simp only [removeG1Barrier, Option.bind_eq_bind, Option.bind_eq_some_iff, hregion,
    Option.some.injEq, exists_eq_left', collapseG1Barrier, hxorx, hshift, hcmpx, hpre,
    Option.guard_eq_some', Option.pure_def] at h
  obtain ⟨_, ⟨bol, -, -, -, rfl⟩, rfl⟩ := h
  exact ⟨cmpx, rfl⟩

/-- The checks of the marking flag that are folded, when barriers are eliminated one after the
other. -/
def foldedChecks : List ℕ → RemovalState → List ℕ
  | [], _ => []
  | cast :: l, s =>
    (if cast ∈ s.barriers then (M.removedPreBarrier s.graph cast).toList else []) ++
      match M.eliminateGcBarrier s cast with
      | some s' => foldedChecks l s'
      | none => []

/-- A barrier that is registered is so until it is eliminated. -/
theorem mem_barriers_eliminateGcBarrier {s s' : RemovalState} {cast : ℕ} (hne : cast ≠ node)
    (h : M.eliminateGcBarrier s node = some s') (hmem : cast ∈ s.barriers) :
    cast ∈ s'.barriers := by
  simp only [eliminateGcBarrier, Option.bind_eq_bind, Option.bind_eq_some_iff,
    Option.guard_eq_some',
    exists_const] at h
  obtain ⟨-, h⟩ := h
  split at h
  · obtain ⟨g, -, rfl⟩ := Option.map_eq_some_iff.1 h
    exact (List.mem_erase_of_ne hne).2 hmem
  · obtain rfl := Option.some.inj h
    exact hmem

/-- The check of a barrier is folded in the graph that is left when its turn comes. -/
theorem mem_foldedChecks {l : List ℕ} {cast : ℕ} {s s' : RemovalState} (hl : cast ∈ l)
    (hs : (l.takeWhile fun c => c != cast).foldlM M.eliminateGcBarrier s = some s')
    (hmem : cast ∈ s.barriers) (hcmp : M.removedPreBarrier s'.graph cast = some cmp) :
    cmp ∈ M.foldedChecks l s := by
  induction l generalizing s with
  | nil => exact absurd hl List.not_mem_nil
  | cons c l ih =>
    by_cases heq : c = cast
    · subst heq
      rw [List.takeWhile_cons, bne_self_eq_false, if_neg Bool.false_ne_true] at hs
      obtain rfl := Option.some.inj hs
      rw [foldedChecks, if_pos hmem, hcmp]
      exact List.mem_append_left _ (List.mem_singleton_self cmp)
    · have hne : (c != cast) = true := bne_iff_ne.2 heq
      rw [List.takeWhile_cons, if_pos hne, List.foldlM_cons] at hs
      obtain ⟨s₁, hs₁, hs⟩ := Option.bind_eq_some_iff.1 hs
      have hl' : cast ∈ l := (List.mem_cons.1 hl).resolve_left (Ne.symm heq)
      have hfolded := ih hl' hs (M.mem_barriers_eliminateGcBarrier (Ne.symm heq) hs₁ hmem)
      rw [foldedChecks, hs₁]
      exact List.mem_append_right _ hfolded

end MacroExpand

/-! ## The barrier at run time

At run time the barrier compares the flag, and loads and logs the previous value. An execution makes
objects in the frame or in the heap and stores references to either in fields of either. -/

/-- A reference at run time. -/
inductive Reference : Type where
  | null
  | heap (a : ℕ)
  /-- the object in the frame of the allocation -/
  | frame (alloc : ℕ)
  deriving DecidableEq, Repr

/-- The `SATBMarkQueue` of a thread. -/
structure SatbQueue : Type where
  active : Bool
  /-- in bytes, 0 if the buffer is full -/
  index : ℕ
  buffer : ℕ → Reference
  /-- what the runtime was called with -/
  preEntries : List Reference

namespace SatbQueue

/-- What `pre_barrier` emits, when the previous value has been loaded. -/
def preBarrier (q : SatbQueue) (preVal : Reference) : SatbQueue :=
  if q.active = false then q
  else if preVal = .null then q
  else if q.index ≠ 0 then
    { q with index := q.index - 8, buffer := Function.update q.buffer (q.index - 8) preVal }
  else
    -- logging buffer is full, call the runtime
    { q with preEntries := q.preEntries ++ [preVal] }

/-- A reference was enqueued. -/
def Logged (q : SatbQueue) (p : Reference) : Prop := (∃ i, q.buffer i = p) ∨ p ∈ q.preEntries

/-- A barrier logs nothing but the previous value. -/
theorem logged_preBarrier {q : SatbQueue} {preVal p : Reference}
    (h : (q.preBarrier preVal).Logged p) : q.Logged p ∨ p = preVal := by
  rw [preBarrier] at h
  split at h
  · exact .inl h
  split at h
  · exact .inl h
  split at h
  · obtain ⟨i, hi⟩ | hmem := h
    · change Function.update q.buffer (q.index - 8) preVal i = p at hi
      by_cases heq : i = q.index - 8
      · subst heq
        rw [Function.update_self] at hi
        exact .inr hi.symm
      · rw [Function.update_of_ne heq] at hi
        exact .inl (.inl ⟨i, hi⟩)
    · exact .inl (.inr hmem)
  · obtain hbuffer | hmem := h
    · exact .inl (.inl hbuffer)
    · obtain hmem | heq := List.mem_append.1 hmem
      · exact .inl (.inr hmem)
      · exact .inr (List.mem_singleton.1 heq)

end SatbQueue

/-- A pre-barrier in the graph: the comparison of the marking flag, and the previous value. -/
structure PreBarrier : Type where
  cmp : ℕ
  preVal : ℕ
  deriving DecidableEq, Repr

/-- Where a reference may be. -/
inductive PointerPlace : Type where
  | node (n : ℕ)
  | field (b : Reference) (f : ℕ)

/-- The allocations that are placed, and the graph that is left of macro expansion. -/
structure G1Run : Type extends PlacementRun where
  expand : MacroExpand
  graph : UseGraph
  /-- the nodes that are the address of a new object, and the object -/
  address : ℕ → Option ℕ
  /-- the objects in the heap that come to a node or a field from elsewhere: a parameter, the result
  of a call, a constant, or what other code writes -/
  outside : PointerPlace → Set ℕ
  /-- the fields that a load or store may be of -/
  touches : ℕ → Set ℕ
  /-- sources and destinations of the array copies -/
  arrayCopies : List (ℕ × ℕ)
  preBarriers : List PreBarrier

/-- The values of the nodes and of the fields, and the queue. -/
structure G1State : Type where
  value : ℕ → Reference
  field : Reference → ℕ → Reference
  queue : SatbQueue

namespace G1State

variable (s : G1State)

def setValue (n : ℕ) (p : Reference) : G1State := { s with value := Function.update s.value n p }

def setField (base : Reference) (f : ℕ) (p : Reference) : G1State :=
  { s with field := Function.update s.field base (Function.update (s.field base) f p) }

end G1State

namespace G1Run

variable (R : G1Run)

/-- The barriers that are registered when the allocations of a list have been placed. -/
def registeredAfter (l : List PlacedAllocation) : List ℕ :=
  (l.foldl PlacedAllocation.processWriteBarriers ⟨R.registered, []⟩).registered

/-- The checks of the marking flag that are folded when allocations are placed. -/
def foldedBy : List PlacedAllocation → List PlacedAllocation → List ℕ
  | _, [] => []
  | done, A :: l =>
    R.expand.foldedChecks A.barriers.reverse ⟨A.macroGraph, R.registeredAfter done, .users⟩ ++
      foldedBy (done ++ [A]) l

/-- The checks of the marking flag that are folded. -/
def removedChecks : List ℕ := R.foldedBy [] R.placements

/-- The graph that is left when the turn of a barrier comes, of those that are found directly. -/
def graphAt (done : List PlacedAllocation) (A : PlacedAllocation) (cast : ℕ) : Option MacroGraph :=
  ((A.barriers.reverse.takeWhile fun c => c != cast).foldlM R.expand.eliminateGcBarrier
    ⟨A.macroGraph, R.registeredAfter done, .users⟩).map RemovalState.graph

/-- A pre-barrier is removed with a post barrier: the first allocation whose address flows to the
`CastP2X` has it directly, and the check of the marking flag stands before it, in the graph at this
point. -/
def RemovedWith (cast cmp : ℕ) : Prop :=
  ∃ before A after, R.placements = before ++ A :: after ∧ cast ∈ R.registered ∧ A.Direct cast ∧
    (∀ B ∈ before, ¬ B.Sees cast) ∧ ∃ g, R.graphAt before A cast = some g ∧
      R.expand.PreBarrierOf g cast cmp

/-- An object may come to a node, or to a field of an object. -/
inductive May : PointerPlace → Reference → Prop
  | origin {n r : ℕ} (h : R.address n = some r) : May (.node n) (.frame r)
  | outside {place : PointerPlace} {a : ℕ} (h : a ∈ R.outside place) : May place (.heap a)
  | copy {n m : ℕ} {p : Reference} (hm : (R.graph.kind m).copies = true)
    (hn : some n ∈ (R.graph.ins m).drop 1) (h : May (.node n) p) : May (.node m) p
  | store {st v x f : ℕ} {b p : Reference} (hst : R.graph.kind st = .storeP)
    (hv : R.graph.input st 3 = some v) (hx : R.graph.storeBase st = some x) (hf : f ∈ R.touches st)
    (hb : May (.node x) b) (h : May (.node v) p) : May (.field b f) p
  | load {ld y f : ℕ} {b p : Reference} (hld : R.graph.kind ld = .loadP)
    (hy : R.graph.storeBase ld = some y) (hf : f ∈ R.touches ld) (hb : May (.node y) b)
    (h : May (.field b f) p) : May (.node ld) p
  | arraycopy {src dst f f' : ℕ} {b c p : Reference} (hcopy : (src, dst) ∈ R.arrayCopies)
    (hb : May (.node src) b) (hc : May (.node dst) c) (h : May (.field b f) p) : May (.field c f') p

/-- Something else may be at a place: null, or an object in the heap. -/
def Elsewhere (place : PointerPlace) (p : Reference) : Prop :=
  p = .null ∨ ∃ a ∈ R.outside place, p = .heap a

/-- No node has been run, and nothing is in the frame yet. -/
structure Start (s : G1State) : Prop where
  value : ∀ n, s.value n = .null
  field : ∀ base f, R.Elsewhere (.field base f) (s.field base f)
  queue : ∀ r, ¬ s.queue.Logged (.frame r)

/-- An object is made, its fields are zero. -/
def newObject (s : G1State) (r : ℕ) : G1State where
  value n := if R.address n = some r then .frame r else s.value n
  field base := if base = .frame r then fun _ => .null else s.field base
  queue := s.queue

/-- One step of an execution. A field of null is not accessed. -/
inductive Step : G1State → G1State → Prop
  | allocate {s : G1State} (r : ℕ) : Step s (R.newObject s r)
  | copy {s : G1State} {n m : ℕ} (hm : (R.graph.kind m).copies = true)
    (hn : some n ∈ (R.graph.ins m).drop 1) :
    Step s (s.setValue m (s.value n))
  | store {s : G1State} {st v x f : ℕ} (hst : R.graph.kind st = .storeP)
    (hv : R.graph.input st 3 = some v) (hx : R.graph.storeBase st = some x) (hf : f ∈ R.touches st)
    (hbase : s.value x ≠ .null) : Step s (s.setField (s.value x) f (s.value v))
  | load {s : G1State} {ld y f : ℕ} (hld : R.graph.kind ld = .loadP)
    (hy : R.graph.storeBase ld = some y) (hf : f ∈ R.touches ld) (hbase : s.value y ≠ .null) :
    Step s (s.setValue ld (s.field (s.value y) f))
  /-- one element of an array copy -/
  | arraycopy {s : G1State} {src dst : ℕ} (f f' : ℕ) (hcopy : (src, dst) ∈ R.arrayCopies)
    (hsrc : s.value src ≠ .null) (hdst : s.value dst ≠ .null) :
    Step s (s.setField (s.value dst) f' (s.field (s.value src) f))
  /-- a node gets what comes from elsewhere -/
  | other {s : G1State} (n : ℕ) {p : Reference} (hp : R.Elsewhere (.node n) p) :
    Step s (s.setValue n p)
  /-- a field is written by something else -/
  | write {s : G1State} (base : Reference) (f : ℕ) {p : Reference}
    (hp : R.Elsewhere (.field base f) p) : Step s (s.setField base f p)
  /-- marking starts or ends, or the buffer is replaced -/
  | marking {s : G1State} (active : Bool) (index : ℕ) :
    Step s { s with queue := { s.queue with active := active, index := index } }
  | preBarrier {s : G1State} {p : PreBarrier} (hp : p ∈ R.preBarriers)
    (hcmp : p.cmp ∉ R.removedChecks) :
    Step s { s with queue := s.queue.preBarrier (s.value p.preVal) }

/-- No execution logs an address in the frame. -/
def NeverLogsFrame : Prop :=
  ∀ s s', R.Start s → Relation.ReflTransGen R.Step s s' → ∀ r, ¬ s'.queue.Logged (.frame r)

/-- What is where, in every state of an execution. -/
structure Invariant (s : G1State) : Prop where
  value : ∀ n, s.value n ≠ .null → R.May (.node n) (s.value n)
  field : ∀ b f, s.field b f ≠ .null → R.May (.field b f) (s.field b f)
  queue : ∀ r, ¬ s.queue.Logged (.frame r)

variable {R} {s s' : G1State}

/-! ## What is folded

A check is folded if the post barrier in front of which it stands is found directly when its
allocation has its turn. The graph has changed till then, but the inputs that lead to the check are
those that `ChecksMarking` names. -/

/-- What is folded with one allocation is folded in the end, whatever is placed before it and after
it. -/
theorem mem_foldedBy {done before after : List PlacedAllocation} {A : PlacedAllocation} {cmp : ℕ}
    (h : cmp ∈ R.expand.foldedChecks A.barriers.reverse
      ⟨A.macroGraph, R.registeredAfter (done ++ before), .users⟩) :
    cmp ∈ R.foldedBy done (before ++ A :: after) := by
  induction before generalizing done with
  | nil =>
    rw [List.append_nil] at h
    exact List.mem_append_left _ h
  | cons B before ih =>
    refine List.mem_append_right _ (ih ?_)
    rwa [List.append_assoc]

/-- The check before a post barrier that is found directly is folded. -/
theorem RemovedWith.mem_removedChecks {cast cmp : ℕ} (h : R.RemovedWith cast cmp) :
    cmp ∈ R.removedChecks := by
  obtain ⟨before, A, after, hplacements, hregistered, hdirect, hbefore, g, hg, hpre⟩ := h
  obtain ⟨s, hs, rfl⟩ := Option.map_eq_some_iff.1 hg
  have hmem : cast ∈ A.barriers.reverse :=
    List.mem_reverse.2 (PlacedAllocation.mem_barriers.2 hdirect)
  have hat : cast ∈ R.registeredAfter before :=
    (PlacementRun.foldl_spec before R.nodup).1.2 ⟨hregistered, hbefore⟩
  rw [removedChecks, hplacements]
  refine mem_foldedBy ?_
  rw [List.nil_append]
  exact R.expand.mem_foldedChecks hmem hs hat (R.expand.removedPreBarrier_eq_some hpre)

/-! ## Every step

A node or field holds only what may come to it. A barrier that is left never sees an address in the
frame, so nothing of the frame is ever logged. -/

/-- What comes from elsewhere may be where it comes to. -/
theorem Elsewhere.may {place : PointerPlace} {p : Reference} (h : R.Elsewhere place p)
    (hnull : p ≠ .null) : R.May place p := by
  obtain rfl | ⟨a, ha, rfl⟩ := h
  · exact absurd rfl hnull
  · exact .outside ha

/-- The invariant holds before the first node is run. -/
theorem start_invariant (h : R.Start s) : R.Invariant s where
  value n hn := absurd (h.value n) hn
  field b f hf := (h.field b f).may hf
  queue := h.queue

/-- A new object comes to the nodes that are its address, and its fields are null. -/
theorem Invariant.newObject (h : R.Invariant s) (r : ℕ) : R.Invariant (R.newObject s r) where
  value n hn := by
    change (if R.address n = some r then Reference.frame r else s.value n) ≠ .null at hn
    change R.May (.node n) (if R.address n = some r then .frame r else s.value n)
    split at hn
    · next hr =>
      rw [if_pos hr]
      exact .origin hr
    · next hr =>
      rw [if_neg hr]
      exact h.value n hn
  field b f hf := by
    change (if b = .frame r then fun _ => Reference.null else s.field b) f ≠ .null at hf
    change R.May (.field b f) ((if b = .frame r then fun _ => .null else s.field b) f)
    split at hf
    · exact absurd rfl hf
    · next hb =>
      rw [if_neg hb]
      exact h.field b f hf
  queue := h.queue

/-- A node gets another value. -/
theorem Invariant.setValue {n : ℕ} {p : Reference} (h : R.Invariant s)
    (hp : p ≠ .null → R.May (.node n) p) : R.Invariant (s.setValue n p) where
  value m hm := by
    change Function.update s.value n p m ≠ .null at hm
    change R.May (.node m) (Function.update s.value n p m)
    by_cases hmn : m = n
    · subst hmn
      rw [Function.update_self] at hm ⊢
      exact hp hm
    · rw [Function.update_of_ne hmn] at hm ⊢
      exact h.value m hm
  field := h.field
  queue := h.queue

/-- A field gets another value. -/
theorem Invariant.setField {base p : Reference} {f : ℕ} (h : R.Invariant s)
    (hp : p ≠ .null → R.May (.field base f) p) : R.Invariant (s.setField base f p) where
  value := h.value
  field b f' hf := by
    change Function.update s.field base (Function.update (s.field base) f p) b f' ≠ .null at hf
    change R.May (.field b f')
      (Function.update s.field base (Function.update (s.field base) f p) b f')
    by_cases hb : b = base
    · subst hb
      rw [Function.update_self] at hf ⊢
      by_cases hff : f' = f
      · subst hff
        rw [Function.update_self] at hf ⊢
        exact hp hf
      · rw [Function.update_of_ne hff] at hf ⊢
        exact h.field b f' hf
    · rw [Function.update_of_ne hb] at hf ⊢
      exact h.field b f' hf
  queue := h.queue

/-- Every step keeps the invariant, if no barrier that is left may see an address in the frame. -/
theorem Step.invariant (hleft : ∀ p ∈ R.preBarriers, p.cmp ∉ R.removedChecks →
    ∀ r, ¬ R.May (.node p.preVal) (.frame r)) (h : R.Invariant s) (hstep : R.Step s s') :
    R.Invariant s' := by
  cases hstep with
  | allocate r => exact h.newObject r
  | copy hm hn => exact h.setValue fun hnull => .copy hm hn (h.value _ hnull)
  | store hst hv hx hf hbase =>
    exact h.setField fun hnull => .store hst hv hx hf (h.value _ hbase) (h.value _ hnull)
  | load hld hy hf hbase =>
    exact h.setValue fun hnull => .load hld hy hf (h.value _ hbase) (h.field _ _ hnull)
  | arraycopy f f' hcopy hsrc hdst =>
    exact h.setField fun hnull =>
      .arraycopy hcopy (h.value _ hsrc) (h.value _ hdst) (h.field _ f hnull)
  | other n hp => exact h.setValue hp.may
  | write base f hp => exact h.setField hp.may
  | marking active index => exact ⟨h.value, h.field, h.queue⟩
  | @preBarrier p hp hcmp =>
    refine ⟨h.value, h.field, fun r hlogged => ?_⟩
    obtain hlogged | heq := SatbQueue.logged_preBarrier hlogged
    · exact h.queue r hlogged
    · have hmay := h.value p.preVal (heq ▸ nofun)
      exact hleft p hp hcmp r (heq ▸ hmay)

end G1Run

/-! ## A field that is overwritten

The field of one object in the frame (1) refers to another (2), and is overwritten. The pre-barrier
loads it (6) if the marking flag (11) is set. -/

/-- The nodes up to the region where the pre-barrier ends. -/
def preBarrierNodes : List (NodeKind × MacroOp × List (Option ℕ)) :=
  [(.proj, .proj .parms false, []), (.checkCastPP, .checkCastPP, [none, some 0]),
    (.checkCastPP, .checkCastPP, []), (.addP, .addP, [none, some 1, some 1, some 4]),
    (.other, .con, []), (.storeP, .store, [none, none, some 3, some 2]),
    (.loadP, .load, [none, none, some 3]), (.other, .threadLocal, []),
    (.addP, .addP, [none, some 9, some 7, some 4]), (.other, .other, []),
    (.other, .load, [none, none, some 8]), (.other, .cmp, [none, some 10, some 4]),
    (.other, .bool .ne, [none, some 11]), (.other, .if_, [none, some 12]),
    (.other, .ifFalse, [some 13]), (.other, .region, [none, some 14, some 13])]

/-- The post barrier starts with a `CastP2X` (16) of the address. A store of null has none. -/
def overwriteNodes (post : Bool) : List (NodeKind × MacroOp × List (Option ℕ)) :=
  preBarrierNodes ++
    if post then
      [(.castP2X, .castP2X, [some 15, some 3]), (.other, .xorX, [none, some 16, some 4]),
        (.other, .uRShiftX, [none, some 17, some 4]), (.other, .cmp, [none, some 18, some 4]),
        (.other, .bool .ne, [none, some 19]), (.other, .uRShiftX, [none, some 16, some 4]),
        (.storeP, .store, [none, none, some 3, some 7])]
    else [(.storeP, .store, [none, none, some 3, some 4])]

def overwriteUseGraph (post : Bool) : UseGraph :=
  .ofInputs ((overwriteNodes post).map fun node => (node.1, node.2.2)) (by revert post; decide)
    (by revert post; decide) (fun _ => false) fun _ => false

def overwriteGraph (post : Bool) : MacroGraph where
  size := (overwriteNodes post).length
  op n := ((overwriteNodes post).getD n (.other, .other, [])).2.1
  ins n := ((overwriteNodes post).getD n (.other, .other, [])).2.2
  top := 9
  ins_eq_nil n hn := by rw [List.getD_eq_default _ _ hn]

def overwritePlacement (post : Bool) (res : ℕ) (hres : res ∈ [1, 2]) : PlacedAllocation where
  graph := overwriteUseGraph post
  results := [1, 2]
  nodup := by decide
  results_lt := by revert post; decide
  mayAlias _ _ := true
  macroGraph := overwriteGraph post
  ins_eq n := by
    have hmap : ((overwriteNodes post).map fun node => (node.1, node.2.2)).getD n (.other, []) =
        (((overwriteNodes post).getD n (.other, .other, [])).1,
          ((overwriteNodes post).getD n (.other, .other, [])).2.2) :=
      List.getD_map (overwriteNodes post) (.other, .other, []) fun node => (node.1, node.2.2)
    exact (congrArg Prod.snd hmap).symm
  after := overwriteUseGraph post
  res := res
  res_mem := hres
  res_lt := by revert post res; decide

def overwriteExpand : MacroExpand where
  barrierSet := .g1
  useCondCardMark := false
  outs := EliminatedAllocation.outsByIndex
  mem_outs := EliminatedAllocation.mem_outsByIndex
  ccEq := 4
  zero := 4
  markingOffset := 4
  alloc := 0
  resProj := 0
  res := 1

def overwriteRun (post : Bool) : G1Run where
  registered := if post then [16] else []
  nodup := by revert post; decide
  placements := [overwritePlacement post 1 (by decide), overwritePlacement post 2 (by decide)]
  expand := overwriteExpand
  graph := overwriteUseGraph post
  address n := if n = 1 ∨ n = 2 then some n else none
  outside _ := Set.univ
  touches _ := {0}
  arrayCopies := []
  preBarriers := [⟨11, 6⟩]

/-- The region check is removed with what it was made of. -/
theorem replaceNode_overwriteGraph : (overwriteGraph true).replaceNode 19 4 =
    ((((overwriteGraph true).redirect 19 4).clear 19).clear 18).clear 17 := by
  have h₁ : ((overwriteGraph true).redirect 19 4).newlyDead 19 = [18] := by decide +kernel
  have h₂ : (((overwriteGraph true).redirect 19 4).clear 19).newlyDead 18 = [17] := by
    decide +kernel
  have h₃ : ((((overwriteGraph true).redirect 19 4).clear 19).clear 18).newlyDead 17 = [] := by
    decide +kernel
  simp only [NodeGraph.replaceNode, NodeGraph.removeDead, h₁, h₂, h₃, List.append_nil]

/-- The `CastP2X` stands behind the check of the marking flag. -/
theorem preBarrierOf_overwriteGraph :
    overwriteExpand.PreBarrierOf (overwriteGraph true) 16 11 := by
  have hregion : (overwriteGraph true).input 16 0 = some 15 := rfl
  have hxorx : overwriteExpand.findOutWith (overwriteGraph true) 16 .xorX = some 17 := rfl
  have hshift : overwriteExpand.uniqueOut (overwriteGraph true) 17 = some 18 := by decide +kernel
  have hcmpx : overwriteExpand.uniqueOut (overwriteGraph true) 18 = some 19 := by decide +kernel
  refine ⟨15, 17, 18, 19, hregion, hxorx, hshift, hcmpx, ?_⟩
  change overwriteExpand.ChecksMarking ((overwriteGraph true).replaceNode 19 4) 15 11
  rw [replaceNode_overwriteGraph]
  exact ⟨⟨rfl, rfl⟩, 14, 14, 13, 12, 10, 8, 7, rfl, rfl, rfl, rfl, rfl, rfl, rfl, ⟨rfl, rfl, rfl⟩,
    rfl,
    .inl rfl, rfl, ⟨rfl, rfl⟩, rfl, rfl, rfl⟩

end StackAllocation
