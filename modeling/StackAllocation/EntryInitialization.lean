import StackAllocation.Dominance
import StackAllocation.PointerUses
import StackAllocation.ZeroedStores
import Mathlib.Tactic.FinCases

/-!
# What a stack object holds where it is described

The slots of a frame hold arbitrary bits until something is stored in them. An object that is placed
there gets its header and its zeroes where its allocation was (`initialize_object`). If some
safepoint is reached from the result only through other nodes, the length of an array is stored on
entry to the method as well (`stack_allocation_init_array_length_on_entry`); that the fields are
cleared there too (`stack_allocation_clear_object_data`) is compiled into the builds that are not
product builds only. So in a product build the fields are safe exactly where the allocation comes
before (`PlacedObject.initialized_iff`).
-/

namespace StackAllocation

open Bytes Dominance

/-! ## Effects on a block

A piece of code that stores to the object is a function on its bytes. For a single byte it either
determines the value or leaves it alone; this is kept under composition, and is all that is needed
to say whether the old contents can be seen. -/

/-- What an effect leaves in a byte does not depend on what was in the block before. -/
def Determined (f : Block → Block) (b : ℕ) : Prop := ∀ m m', f m b = f m' b

/-- An effect leaves a byte alone. -/
def Kept (f : Block → Block) (b : ℕ) : Prop := ∀ m, f m b = m b

/-- Each byte is determined or left alone. -/
def Local (f : Block → Block) : Prop := ∀ b, Determined f b ∨ Kept f b

section

variable {f g : Block → Block} {b : ℕ}

/-- A byte that keeps what was there is not determined. -/
theorem Kept.not_determined (h : Kept f b) : ¬ Determined f b := by
  intro hs
  have heq := hs (fun _ => 0) fun _ => 1
  rw [h, h] at heq
  exact absurd heq (by decide)

/-- A byte that is determined by the last effect is so by both. -/
theorem Determined.comp (h : Determined g b) : Determined (g ∘ f) b := fun m m' => h (f m) (f m')

/-- A byte that both effects keep. -/
theorem Kept.comp (hg : Kept g b) (hf : Kept f b) : Kept (g ∘ f) b :=
  fun m => (hg (f m)).trans (hf m)

/-- What is determined stays determined. -/
theorem Local.determined_comp (hg : Local g) (hf : Determined f b) : Determined (g ∘ f) b := by
  obtain h | h := hg b
  · exact h.comp
  · exact fun m m' => (h (f m)).trans ((hf m m').trans (h (f m')).symm)

/-- Effects on single bytes, one after the other. -/
theorem Local.comp (hg : Local g) (hf : Local f) : Local (g ∘ f) := by
  intro b
  obtain h | h := hf b
  · exact .inl (hg.determined_comp h)
  · exact (hg b).imp Determined.comp fun hg => hg.comp h

theorem local_id : Local fun m => m := fun _ => .inr fun _ => rfl

/-- A byte that no store covers is kept. -/
theorem kept_runStores {l : List RawStore} (h : ∀ st ∈ l, ¬ st.Covers b) : Kept (runStores l) b :=
  fun _ => runStores_of_not_covers h

/-- A byte that some store covers is determined. -/
theorem determined_runStores {l : List RawStore} (h : ∃ st ∈ l, st.Covers b) :
    Determined (runStores l) b := fun _ _ => runStores_of_covers h

/-- Stores work on single bytes. -/
theorem local_runStores (l : List RawStore) : Local (runStores l) := by
  intro b
  by_cases h : ∃ st ∈ l, st.Covers b
  · exact .inl (determined_runStores h)
  · exact .inr (kept_runStores fun st hst hcov => h ⟨st, hst, hcov⟩)

/-- So does a piece of zeroing code. -/
theorem local_exec (E : InitializeEnv) (op : ZeroOp) : Local (op.exec E) := by
  intro b
  cases op with
  | storeI offset => exact local_runStores [⟨.storeI, offset, none, 0⟩] b
  | clearArray offset count =>
    by_cases hin : offset ≤ b ∧ b < offset + if E.initArrayCountIsInBytes then count else 8 * count
    · exact .inl fun _ _ => (if_pos hin).trans (if_pos hin).symm
    · exact .inr fun _ => if_neg hin

/-- And several of them. -/
theorem local_runZeroing (E : InitializeEnv) (l : List ZeroOp) : Local (runZeroing E l) := by
  induction l with
  | nil => exact local_id
  | cons op l ih => exact Local.comp ih (local_exec E op)

end

/-! ## An object in the frame

The slots are there from the start of the method, with whatever was in them. On entry some stores
may have been added, at the allocation there is the code that initializes the object, and the rest
of the program stores to it as well. -/

/-- The `Initialize` of an allocation. -/
inductive InitState : Type where
  /-- it has disappeared -/
  | absent
  /-- `is_complete()` -/
  | complete
  /-- it has captured stores -/
  | captured (stores : List RawStore)

/-- An allocation that is placed in the frame. -/
structure PlacedObject : Type where
  graph : UseGraph
  /-- `result_cast()` -/
  res : ℕ
  res_lt : res < graph.size
  /-- the allocation, in the control flow -/
  alloc : ℕ
  flow : ℕ → ℕ → Prop
  /-- `Start`, or the end of the OSR migration -/
  start : ℕ
  /-- a node is used after it is run -/
  res_dominates : ∀ s ∈ graph.outs res, graph.kind s = .safePoint true → s ≠ alloc →
    Dominates flow start alloc s
  /-- the safepoints of other allocations, where these are removed -/
  isRemoved : ℕ → Bool
  env : InitializeEnv
  wellSized : env.WellSized
  init : InitState
  captured : ∀ stores, init = .captured stores → Captured env stores
  mark : ℕ
  /-- compressed or not -/
  klassOpcode : StoreOpcode
  klass : ℕ
  klass_le : 8 + klassOpcode.memorySize ≤ env.headerSize
  /-- the length of an array -/
  length : Option ℕ
  /-- `arrayOopDesc::length_offset_in_bytes()` -/
  lengthOffset : ℕ
  length_le : lengthOffset + 4 ≤ env.headerSize
  /-- the bytes of the reference fields or elements -/
  isReference : ℕ → Bool
  reference_body : ∀ b, isReference b = true →
    env.headerSize ≤ b ∧ b < env.sizeInBytes ∧ ¬ env.Padding b
  /-- the stores through the result that the program makes at a node -/
  stores : ℕ → List RawStore
  stores_dominated : ∀ c, stores c ≠ [] → c ≠ alloc ∧ Dominates flow start alloc c

namespace PlacedObject

variable (P : PlacedObject)

/-- The store of the length. -/
def lengthStores : List RawStore :=
  match P.length with
  | none => []
  | some length => [⟨.storeI, P.lengthOffset, none, length⟩]

/-- The stores of the header. -/
def headerStores : List RawStore :=
  [⟨.storeL, 0, none, P.mark⟩, ⟨P.klassOpcode, 8, none, P.klass⟩] ++ P.lengthStores

/-- `clear_memory` of all but the header. -/
def clearBody (m : Block) : Block :=
  runZeroing P.env (clearMemoryTo P.env P.env.headerSize P.env.sizeInBytes) m

/-- What `initialize_object` does to the body. -/
def initializeBody (m : Block) : Block :=
  match P.init with
  | .absent => if P.env.isZeroed then m else P.clearBody m
  | .complete => m
  | .captured stores =>
    match completeStores P.env stores with
    | some (zeroing, inits) => runStores inits (runZeroing P.env zeroing m)
    | none => m

/-- `initialize_object` -/
def initializeObject (m : Block) : Block := P.initializeBody (runStores P.headerStores m)

/-- `stack_allocation_clear_object_data`, which product builds do not have. -/
def clearObjectData (product : Bool) (m : Block) : Block := if product then m else P.clearBody m

/-- What `stack_allocation` adds on entry to the method. -/
def onEntry (product : Bool) (m : Block) : Block :=
  if P.graph.nonDirectSafepoint P.res then runStores P.lengthStores (P.clearObjectData product m)
  else m

/-- What happens to the object at a node; `extra` are the stores through other pointers that are to
the object this time. -/
def visit (c : ℕ) (extra : List RawStore) (m : Block) : Block :=
  runStores extra (if c = P.alloc then P.initializeObject m else runStores (P.stores c) m)

/-- What the object holds after some nodes, the latest first, if it held `m` when the frame was
created. -/
def contents (product : Bool) : List (ℕ × List RawStore) → Block → Block
  | [], m => P.onEntry product m
  | (c, extra) :: way, m => P.visit c extra (contents product way m)

/-- The safepoints at which the object is described. -/
def describedSafepoints : List ℕ :=
  ((P.graph.registered P.res).map Prod.fst).filter fun s => s != P.alloc && !P.isRemoved s

/-- A byte of the length or of a reference. -/
def IsRead (b : ℕ) : Prop := (∃ st ∈ P.lengthStores, st.Covers b) ∨ P.isReference b = true

/-- On every way to a safepoint at which the object is described, its length and its references have
been written. -/
def InitializedWhereDescribed (product : Bool) : Prop :=
  ∀ s ∈ P.describedSafepoints, ∀ way, Run P.flow P.start (s :: way.map Prod.fst) →
    ∀ b, P.IsRead b → Determined (P.contents product way) b

/-! ## When it is initialized

A byte must not show the old contents at any safepoint that describes the object. The three ways for
this are that the allocation comes before on every way, that the program stores the byte on every
way, or that it is stored on entry. -/

/-- A user of what is reached from the result is a safepoint that stays. -/
def Described (s : ℕ) : Prop :=
  (∃ n, Search.Reach (P.graph.pushed P.graph.pushSafepointUse) [P.res] n ∧ s ∈ P.graph.outs n) ∧
    P.graph.kind s = .safePoint true ∧ s ≠ P.alloc ∧ P.isRemoved s = false

/-- The stores of the `Initialize`, the constants combined. -/
def completedStores (stores : List RawStore) : List RawStore :=
  (if P.env.reduceFieldZeroing || P.env.reduceBulkZeroing then coalesceSubwordStores P.env stores
    else some stores).getD []

/-- The allocation zeroes a byte or stores it. -/
def InitializedAtAllocation (b : ℕ) : Prop :=
  match P.init with
  | .absent => P.env.isZeroed = false
  | .complete => False
  | .captured stores => P.env.isZeroed = false ∨ ∃ st ∈ P.completedStores stores, st.Covers b

/-- On every way to a node the program stores a byte. -/
def StoredOnEveryWay (s b : ℕ) : Prop :=
  ∀ l, Run P.flow P.start (s :: l) → ∃ c ∈ l, ∃ st ∈ P.stores c, st.Covers b

/-- Every way to a safepoint at which the object is described goes through the allocation, which
initializes the references, or they are stored on every way from there. -/
def AllocatedBefore : Prop :=
  ∀ s, P.Described s → ∀ b, P.isReference b = true →
    Dominates P.flow P.start P.alloc s ∧ (P.InitializedAtAllocation b ∨ P.StoredOnEveryWay s b)

variable {P}

/-- The safepoints that describe the object. -/
theorem mem_describedSafepoints {s : ℕ} : s ∈ P.describedSafepoints ↔ P.Described s := by
  rw [describedSafepoints, List.mem_filter, List.mem_map, Bool.and_eq_true, bne_iff_ne,
    Bool.not_eq_true']
  constructor
  · rintro ⟨⟨⟨s', n⟩, hmem, rfl⟩, hne, hstays⟩
    obtain ⟨hreach, huse, hkind⟩ := (UseGraph.mem_registered P.res_lt).1 hmem
    exact ⟨⟨n, hreach, huse⟩, hkind, hne, hstays⟩
  · rintro ⟨⟨n, hreach, huse⟩, hkind, hne, hstays⟩
    exact ⟨⟨(s, n), (UseGraph.mem_registered P.res_lt).2 ⟨hreach, huse, hkind⟩, rfl⟩, hne, hstays⟩

/-! ### The effects of the code

What the initialization and the stores do to a byte, one after the other: the header, the zeroes and
stores of `complete_stores`, and the two pieces of code on entry. -/

/-- At the allocation the header is stored, and the body after it. -/
theorem visit_alloc (extra : List RawStore) :
    P.visit P.alloc extra = runStores extra ∘ P.initializeBody ∘ runStores P.headerStores := by
  funext m
  rw [visit, if_pos rfl]
  rfl

/-- Elsewhere the stores of the code are run. -/
theorem visit_of_ne {c : ℕ} (hc : c ≠ P.alloc) (extra : List RawStore) :
    P.visit c extra = runStores extra ∘ runStores (P.stores c) := by
  funext m
  rw [visit, if_neg hc]
  rfl

/-- With a safepoint that is reached through another node than the result, the length is stored on
entry and, in debug builds, the body is cleared. -/
theorem onEntry_of_nonDirect {product : Bool} (h : P.graph.nonDirectSafepoint P.res = true) :
    P.onEntry product = runStores P.lengthStores ∘ P.clearObjectData product := by
  funext m
  rw [onEntry, if_pos h]
  rfl

variable (P) in
/-- The initialization works on single bytes. -/
theorem local_initializeBody : Local P.initializeBody := by
  unfold initializeBody
  split
  · split
    · exact local_id
    · exact local_runZeroing _ _
  · exact local_id
  · split
    · exact (local_runStores _).comp (local_runZeroing _ _)
    · exact local_id

variable (P) in
/-- And so does each node of the code. -/
theorem local_visit (c : ℕ) (extra : List RawStore) : Local (P.visit c extra) := by
  by_cases hc : c = P.alloc
  · rw [hc, visit_alloc]
    exact (local_runStores extra).comp (P.local_initializeBody.comp (local_runStores _))
  · rw [visit_of_ne hc]
    exact (local_runStores extra).comp (local_runStores _)

/-- What is determined on entry or at a node stays so. -/
theorem determined_contents {product : Bool} {way : List (ℕ × List RawStore)} {b : ℕ}
    (h : Determined (P.onEntry product) b ∨
      ∃ c extra, (c, extra) ∈ way ∧ Determined (P.visit c extra) b) :
    Determined (P.contents product way) b := by
  induction way with
  | nil => exact h.resolve_right fun ⟨_, _, hmem, _⟩ => List.not_mem_nil hmem
  | cons step way ih =>
    obtain ⟨c, extra⟩ := step
    have hrest : Determined (P.contents product way) b →
        Determined (P.contents product ((c, extra) :: way)) b :=
          (P.local_visit c extra).determined_comp
    obtain h | ⟨c', extra', hmem, h⟩ := h
    · exact hrest (ih (.inl h))
    · obtain heq | hmem := List.mem_cons.1 hmem
      · obtain ⟨rfl, rfl⟩ := Prod.mk.inj heq
        exact h.comp
      · exact hrest (ih (.inr ⟨c', extra', hmem, h⟩))

/-- What is left alone everywhere is arbitrary. -/
theorem kept_contents {product : Bool} {l : List ℕ} {b : ℕ} (h : Kept (P.onEntry product) b)
    (hl : ∀ c ∈ l, Kept (P.visit c []) b) : Kept (P.contents product (l.map (·, []))) b := by
  induction l with
  | nil => exact h
  | cons c l ih =>
    exact (hl c List.mem_cons_self).comp (ih fun c' hc' => hl c' (List.mem_cons_of_mem c hc'))

variable (P) in
/-- To clear the body determines all bytes behind the header. -/
theorem determined_clearBody {b : ℕ} (hle : P.env.headerSize ≤ b) (hlt : b < P.env.sizeInBytes) :
    Determined P.clearBody b := by
  have hclear := clears_clearMemoryTo (E := P.env) P.wellSized.header_dvd P.wellSized.size_dvd
    P.wellSized.header_le
  intro m m'
  rw [clearBody, clearBody, hclear, hclear, if_pos ⟨hle, hlt⟩, if_pos ⟨hle, hlt⟩]

/-- The stores of the header end before the body. -/
theorem kept_headerStores {b : ℕ} (hb : P.env.headerSize ≤ b) :
    Kept (runStores P.headerStores) b ∧ Kept (runStores P.lengthStores) b := by
  have hklass := P.klass_le
  have hlength := P.length_le
  have hlen : ∀ st ∈ P.lengthStores, ¬ st.Covers b := by
    intro st hst hcov
    rw [lengthStores] at hst
    split at hst
    · exact List.not_mem_nil hst
    · obtain rfl := List.mem_singleton.1 hst
      have hlt : b < P.lengthOffset + 4 := hcov.2
      omega
  refine ⟨kept_runStores fun st hst => ?_, kept_runStores hlen⟩
  obtain hst | hst := List.mem_append.1 hst
  · intro hcov
    obtain rfl | hst := List.mem_cons.1 hst
    · have hlt : b < 0 + 8 := hcov.2
      have hpos := P.klassOpcode.memorySize_pos
      omega
    · obtain rfl := List.mem_singleton.1 hst
      have hlt : b < 8 + P.klassOpcode.memorySize := hcov.2
      omega
  · exact hlen st hst

/-- Without zeroing nothing is on the zeroing chain. -/
theorem rawmem_loop (E : InitializeEnv) (l : List RawStore) (z : Zeroing)
    (h : z.doZeroing = false) :
    (Zeroing.loop E l z).rawmem = z.rawmem := by
  induction l generalizing z with
  | nil => rfl
  | cons st l ih =>
    have hstep : (z.step E st l).rawmem = z.rawmem ∧ (z.step E st l).doZeroing = false := by
      rw [Zeroing.step]
      simp only [h, Bool.false_eq_true, false_and, if_false]
      split
      · exact ⟨rfl, rfl⟩
      · exact ⟨rfl, h⟩
    rw [Zeroing.loop, ih _ hstep.2, hstep.1]

/-- `complete_stores` with zeroing left to the TLAB. -/
theorem completeStores_of_isZeroed {stores : List RawStore} (hc : Captured P.env stores)
    (hzeroed : P.env.isZeroed = true) :
    completeStores P.env stores = some ([], P.completedStores stores) := by
  have hsome : ∃ inits, (if P.env.reduceFieldZeroing || P.env.reduceBulkZeroing then
      coalesceSubwordStores P.env stores else some stores) = some inits := by
    split
    · obtain ⟨inits, hinits, -⟩ := coalesceSubwordStores_eq hc P.wellSized
      exact ⟨inits, hinits⟩
    · exact ⟨stores, rfl⟩
  obtain ⟨inits, hinits⟩ := hsome
  rw [completeStores, completedStores, hinits, Option.map_some, Option.getD_some, hzeroed]
  dsimp only
  rw [if_pos rfl, rawmem_loop _ _ _ rfl]

/-- What the allocation leaves in a byte of the body. -/
theorem initializeBody_cases {b : ℕ} (hle : P.env.headerSize ≤ b) (hlt : b < P.env.sizeInBytes)
    (hpad : ¬ P.env.Padding b) :
    (P.InitializedAtAllocation b → Determined P.initializeBody b) ∧
      (¬ P.InitializedAtAllocation b → Kept P.initializeBody b) := by
  unfold InitializedAtAllocation initializeBody
  cases hinit : P.init with
  | absent =>
    dsimp only
    cases hzeroed : P.env.isZeroed with
    | true => exact ⟨fun h => absurd h (by decide), fun _ _ => rfl⟩
    | false => exact ⟨fun _ => P.determined_clearBody hle hlt, fun h => absurd rfl h⟩
  | complete => exact ⟨False.elim, fun _ _ => rfl⟩
  | captured stores =>
    have hc := P.captured stores hinit
    dsimp only
    cases hzeroed : P.env.isZeroed with
    | true =>
      rw [completeStores_of_isZeroed hc hzeroed]
      refine ⟨fun h => ?_, fun h => ?_⟩
      · exact (determined_runStores (h.resolve_left (by decide))).comp
      · exact kept_runStores fun st hst hcov => h (.inr ⟨st, hst, hcov⟩)
    | false =>
      refine ⟨fun _ m m' => ?_, fun h => absurd (.inl rfl) h⟩
      obtain ⟨zeroing, inits, heq, hbody, -⟩ :=
        completeStores_spec P.env stores P.wellSized hc hzeroed
      rw [heq]
      dsimp only
      exact (hbody m b hle hlt hpad).trans (hbody m' b hle hlt hpad).symm

/-- The length is written where the allocation was. -/
theorem determined_visit_length {b : ℕ} (h : ∃ st ∈ P.lengthStores, st.Covers b)
    (extra : List RawStore) : Determined (P.visit P.alloc extra) b := by
  have hheader : Determined (runStores P.headerStores) b := by
    obtain ⟨st, hst, hcov⟩ := h
    exact determined_runStores ⟨st, List.mem_append_right _ hst, hcov⟩
  rw [visit_alloc]
  exact (local_runStores extra).determined_comp (P.local_initializeBody.determined_comp hheader)

/-- Of the references nothing is written where no store of the program or the allocation does. -/
theorem kept_visit {b : ℕ} (hb : P.isReference b = true) (c : ℕ)
    (halloc : c = P.alloc → ¬ P.InitializedAtAllocation b)
    (hstores : ∀ st ∈ P.stores c, ¬ st.Covers b) : Kept (P.visit c []) b := by
  obtain ⟨hle, hlt, hpad⟩ := P.reference_body b hb
  have hnone : Kept (runStores []) b := fun _ => rfl
  by_cases hc : c = P.alloc
  · rw [hc, visit_alloc]
    have hbody : Kept P.initializeBody b := (initializeBody_cases hle hlt hpad).2 (halloc hc)
    exact hnone.comp (hbody.comp (kept_headerStores hle).1)
  · rw [visit_of_ne hc]
    exact hnone.comp (kept_runStores hstores)

/-! ### The result

Each byte of the object that a safepoint describes is looked at alone. It is determined in one of
three ways, and if it is in none the old contents of the slot are there. -/

/-- If no described safepoint uses anything but the result, the allocation comes before all. -/
theorem Described.dominated {s : ℕ} (hs : P.Described s)
    (hdirect : P.graph.nonDirectSafepoint P.res = false) : Dominates P.flow P.start P.alloc s := by
  obtain ⟨⟨n, hreach, huse⟩, hkind, hne, -⟩ := hs
  have hmem := (UseGraph.mem_registered P.res_lt).2 ⟨hreach, huse, hkind⟩
  have hn : n = P.res := by
    rw [UseGraph.nonDirectSafepoint, List.any_eq_false] at hdirect
    have hres := hdirect (s, n) hmem
    rwa [bne_iff_ne, not_not] at hres
  exact P.res_dominates s (hn ▸ huse) hkind hne

/-- The allocation is on a way to a node that it dominates. -/
theorem exists_alloc_mem {s : ℕ} {way : List (ℕ × List RawStore)}
    (hdom : Dominates P.flow P.start P.alloc s) (hne : s ≠ P.alloc)
    (hway : Run P.flow P.start (s :: way.map Prod.fst)) : ∃ extra, (P.alloc, extra) ∈ way := by
  have hmem := (List.mem_cons.1 (hdom _ hway)).resolve_left (Ne.symm hne)
  obtain ⟨⟨c, extra⟩, hstep, rfl⟩ := List.mem_map.1 hmem
  exact ⟨extra, hstep⟩

/-- The length is written on every way, in any build. -/
theorem determined_length {product : Bool} {s b : ℕ} {way : List (ℕ × List RawStore)}
    (hs : P.Described s) (hway : Run P.flow P.start (s :: way.map Prod.fst))
    (hb : ∃ st ∈ P.lengthStores, st.Covers b) : Determined (P.contents product way) b := by
  refine determined_contents ?_
  cases hdirect : P.graph.nonDirectSafepoint P.res with
  | true =>
    refine .inl ?_
    rw [onEntry_of_nonDirect hdirect]
    exact (determined_runStores hb).comp
  | false =>
    obtain ⟨extra, hstep⟩ := exists_alloc_mem (hs.dominated hdirect) hs.2.2.1 hway
    exact .inr ⟨P.alloc, extra, hstep, determined_visit_length hb extra⟩

/-- In a product build nothing is stored in the references on entry. -/
theorem kept_onEntry {b : ℕ} (hb : P.isReference b = true) : Kept (P.onEntry true) b := by
  intro m
  rw [onEntry]
  split
  · exact (kept_headerStores (P.reference_body b hb).1).2 m
  · rfl

variable (P) in
/-- In a product build an object is initialized at all the safepoints at which it is described
exactly if its allocation comes before them and initializes the references, or they are stored on
every way. -/
theorem initialized_iff : P.InitializedWhereDescribed true ↔ P.AllocatedBefore := by
  constructor
  · intro h s hs b hb
    -- a way with no other stores on which nothing is written leaves the byte as it was
    have hwritten : ∀ l, Run P.flow P.start (s :: l) → ¬ ∀ c ∈ l, Kept (P.visit c []) b := by
      intro l hrun hkept
      have hway : Run P.flow P.start
        (s :: (l.map fun c => (c, ([] : List RawStore))).map Prod.fst) := by
        rwa [List.map_map, show Prod.fst ∘ (fun c => (c, ([] : List RawStore))) = id from rfl,
          List.map_id]
      exact (kept_contents (kept_onEntry hb) hkept).not_determined
        (h s (mem_describedSafepoints.2 hs) _ hway b (.inr hb))
    constructor
    · intro l hrun
      by_contra hnot
      rw [List.mem_cons, not_or] at hnot
      refine hwritten l hrun fun c hc => kept_visit hb c (fun heq => absurd (heq ▸ hc) hnot.2) ?_
      intro st hst hcov
      obtain ⟨hne, hdom⟩ := P.stores_dominated c (List.ne_nil_of_mem hst)
      obtain ⟨pre, post, rfl⟩ := List.append_of_mem hc
      have hsuffix : Run P.flow P.start (c :: post) := by
        rw [← List.cons_append] at hrun
        exact hrun.suffix
      refine hnot.2 (List.mem_append_right pre (hdom post hsuffix))
    · by_contra hnot
      rw [not_or] at hnot
      refine hnot.2 fun l hrun => ?_
      by_contra hnone
      refine hwritten l hrun fun c hc => kept_visit hb c (fun _ => hnot.1) ?_
      exact fun st hst hcov => hnone ⟨c, hc, st, hst, hcov⟩
  · intro h s hs way hway b hb
    replace hs := mem_describedSafepoints.1 hs
    obtain hlength | href := hb
    · exact determined_length hs hway hlength
    obtain ⟨hdom, hstored⟩ := h s hs b href
    obtain ⟨hle, hlt, hpad⟩ := P.reference_body b href
    refine determined_contents (.inr ?_)
    obtain hat | hevery := hstored
    · obtain ⟨extra, hstep⟩ := exists_alloc_mem hdom hs.2.2.1 hway
      refine ⟨P.alloc, extra, hstep, ?_⟩
      have hbody : Determined P.initializeBody b := (initializeBody_cases hle hlt hpad).1 hat
      rw [visit_alloc]
      exact (local_runStores extra).determined_comp hbody.comp
    · obtain ⟨c, hc, st, hst, hcov⟩ := hevery _ hway
      obtain ⟨⟨c, extra⟩, hstep, rfl⟩ := List.mem_map.1 hc
      refine ⟨c, extra, hstep, ?_⟩
      have hne := (P.stores_dominated c (List.ne_nil_of_mem hst)).1
      rw [visit_of_ne hne]
      exact (local_runStores extra).determined_comp (determined_runStores ⟨st, hst, hcov⟩)

/-- In the other builds the references are cleared on entry as soon as a safepoint uses anything but
the result. -/
theorem initialized_of_clearObjectData (h : P.graph.nonDirectSafepoint P.res = true) :
    P.InitializedWhereDescribed false := by
  intro s hs way hway b hb
  obtain hlength | href := hb
  · exact determined_length (mem_describedSafepoints.1 hs) hway hlength
  obtain ⟨hle, hlt, -⟩ := P.reference_body b href
  refine determined_contents (.inl ?_)
  rw [onEntry_of_nonDirect h]
  exact (local_runStores _).determined_comp (P.determined_clearBody hle hlt)

end PlacedObject

/-! ## An object on one side of a merge

The object is allocated on one side of a merge, and a safepoint after the merge describes it. In a
product build the references of the object are not cleared on entry. -/

/-- An allocation 1 with a store 8 into its field on one side of a branch, and after the merge 4 a
safepoint 5, which has the merged memory 9. -/
def branchGraph : UseGraph :=
  .ofInputs [(.other, []), (.other, [some 0]), (.other, [some 1]), (.other, [some 0]),
    (.other, [some 2, some 3]), (.safePoint true, [some 4, none, some 9]),
    (.checkCastPP, [some 1, some 1]), (.addP, [none, some 6, some 6, none]),
    (.storeP, [some 2, none, some 7, some 10]), (.phi, [some 4, some 8, none]), (.other, [])]
    (by decide) (by decide) (fun _ => false) fun _ => false

/-- The control flow. -/
def branchFlow (c d : ℕ) : Prop := (c, d) ∈ [(0, 1), (1, 2), (0, 3), (2, 4), (3, 4), (4, 5)]

/-- An instance with one reference field. -/
def branchObject : PlacedObject where
  graph := branchGraph
  res := 6
  res_lt := by decide
  alloc := 1
  flow := branchFlow
  start := 0
  res_dominates := by
    have hnone : ∀ s ∈ branchGraph.outs 6, branchGraph.kind s ≠ .safePoint true := by decide
    exact fun s hs hkind => absurd hkind (hnone s hs)
  isRemoved := fun _ => false
  env := { byteArrayEnv with
    minimumHeaderSize := 16, sizeInBytes := 24, isInstance := true, layoutHelper := 24 }
  wellSized := ⟨by decide, by decide, by decide, by decide, by decide, by decide⟩
  init := .captured []
  captured := by
    intro stores h
    injection h with h
    subst h
    exact ⟨fun _ hst => absurd hst List.not_mem_nil, .nil⟩
  mark := 1
  klassOpcode := .storeP
  klass := 0
  klass_le := by decide
  length := none
  lengthOffset := 12
  length_le := by decide
  isReference := fun b => decide (16 ≤ b) && decide (b < 24)
  reference_body := by
    intro b hb
    rw [Bool.and_eq_true, decide_eq_true_eq, decide_eq_true_eq] at hb
    exact ⟨hb.1, hb.2, fun hpad => Nat.not_le_of_lt hb.2 hpad.2.2.1⟩
  stores := fun c => if c = 2 then [⟨.storeP, 16, none, 0⟩] else []
  stores_dominated := by
    intro c hc
    split at hc
    · next h =>
      subst h
      refine ⟨by decide, fun l hrun => ?_⟩
      cases hrun with
      | step _ hflow =>
        simp only [branchFlow, List.mem_cons, Prod.mk.injEq] at hflow
        simp_all
    · exact absurd rfl hc

/-- On the way that does not go through the allocation the field is never written. -/
theorem not_initialized_branchObject : ¬ branchObject.InitializedWhereDescribed true := by
  intro h
  have hway : Run branchFlow 0 [5, 4, 3, 0] := by
    refine .step (.step (.step .start ?_) ?_) ?_
    · simp [branchFlow]
    · simp [branchFlow]
    · simp [branchFlow]
  have href : branchObject.isReference 16 = true := by decide
  have hkept : ∀ c ∈ [4, 3, 0], Kept (branchObject.visit c []) 16 := by
    intro c hc
    have hne : c ≠ 1 ∧ branchObject.stores c = [] := by
      fin_cases hc
      · exact ⟨by decide, rfl⟩
      · exact ⟨by decide, rfl⟩
      · exact ⟨by decide, rfl⟩
    refine PlacedObject.kept_visit href c (fun heq => absurd heq hne.1) ?_
    rw [hne.2]
    exact fun st hst => absurd hst List.not_mem_nil
  refine (PlacedObject.kept_contents (PlacedObject.kept_onEntry href) hkept).not_determined ?_
  exact h 5 (by decide) ([4, 3, 0].map (·, [])) hway 16 (.inr href)

end StackAllocation
