import StackAllocation.Executions
import StackAllocation.MemorySearch
import Mathlib.Logic.Relation

/-!
# What a field holds in a memory state

The memory of an execution is kept for each memory state apart, as it was when the state was last
made. A cell that nothing has written since its object was allocated is `none` and reads as zero.
`FieldGraph.Same` is the memory that a node leaves as it is for the field of the allocation; along a
chain of such steps the field holds the same (`SsaFlow.cell_chain`). `Reads` are the values that a
search may find, and they are what the field holds, in every execution (`SsaFlow.reads_sound`).
-/

namespace StackAllocation

open Dominance

/-! ## The graph

Which states leave a field alone is said by one relation on the nodes, with a case for each kind of
node that may be gone past. The laws of the flow are those of SSA form: what a node is made of was
made before on every way. -/

namespace FieldGraph

variable (G : FieldGraph)

/-- For the field of the allocation at an offset, `m` is the memory that `n` leaves as it is. -/
inductive Same (o : ℤ) : ℕ → ℕ → Prop
  | mergeMem {n m : ℕ} (h : G.node n = .mergeMem m) : Same o n m
  | proj {n p : ℕ} (h : G.node n = .proj p) : Same o n p
  | call {n m : ℕ} (h : G.node n = .call m) : Same o n m
  /-- the `Initialize` of another allocation -/
  | otherInitialize {n a m c st z} (h : G.node n = .initializeNode a m c st z)
      (ha : a ≠ some G.alloc) :
    Same o n m
  /-- no captured store is into the field -/
  | uncaptured {n m st z} (h : G.node n = .initializeNode (some G.alloc) m false st z)
    (hst : ∀ (off : ℤ) (size x : ℕ), .store off size x ∈ st →
      o + G.fieldSize ≤ off ∨ off + size ≤ o) : Same o n z
  | arrayCopy {n ac} (h : G.node n = .arrayCopy ac)
      (hno : (ac.mayModify && ac.modifies o) = false) :
    Same o n ac.memory
  | memBar {n m : ℕ} (h : G.node n = .memBar m none) : Same o n m
  /-- the barrier after a clone -/
  | clone {n m ac : ℕ} (h : G.node n = .memBar m (some (some ac))) : Same o n ac
  /-- a store to another field or another object -/
  | store {n off a v m s} (h : G.node n = .store s off a v m)
    (hne : ¬ (s = true ∧ off = o ∧ a = G.alloc)) : Same o n m
  /-- the allocation is cleared as its `Initialize` says -/
  | clearOwn {n dest m i} (h : G.node n = .clearArray dest m)
    (ha : G.idealAllocation dest = some G.alloc) (hi : G.initialization G.alloc = some i) :
    Same o n i
  | clearOwn' {n dest m} (h : G.node n = .clearArray dest m)
    (ha : G.idealAllocation dest = some G.alloc) (hi : G.initialization G.alloc = none) :
    Same o n G.allocMem
  /-- another object is cleared -/
  | clearOther {n dest m} (h : G.node n = .clearArray dest m)
    (ha : G.idealAllocation dest ≠ some G.alloc) : Same o n m
  | scMemProj {n m : ℕ} (h : G.node n = .scMemProj false m) : Same o n m
  | strInflatedCopy {n m : ℕ} (h : G.node n = .strInflatedCopy false m) : Same o n m

/-- A chain of such steps, up to a sentinel. -/
def Chain (o : ℤ) : ℕ → ℕ → Prop :=
  Relation.ReflTransGen fun n m => ¬ G.IsSentinel n ∧ G.Same o n m

/-- `n` is made from `m`. -/
inductive Depends : ℕ → ℕ → Prop
  | same {o n m} (h : G.Same o n m) : Depends n m
  | value {n s off a v m} (h : G.node n = .store s off a v m) : Depends n v
  | captured {n a m c st z off size x v} (h : G.node n = .initializeNode a m c st z)
    (hx : .store off size x ∈ st) (hv : G.valueIn x = some v) : Depends n v
  | copy {n ac} (h : G.node n = .arrayCopy ac) : Depends n ac.memory

/-- `m` is above `n` in the memory of the field. -/
inductive Above : ℕ → ℕ → Prop
  | same {o n m} (h : G.Same o n m) : Above n m
  | phi {n r inputs i} (h : G.node n = .phi r inputs) (hi : some i ∈ inputs) : Above n i
  | copy {n ac} (h : G.node n = .arrayCopy ac) (hself : ac.sameArray = true) : Above n ac.memory

/-- The node is no `Initialize`, or that of the allocation. -/
def IsOwn (n : ℕ) : Prop := ∀ a m c st z, G.node n = .initializeNode a m c st z → a = some G.alloc

end FieldGraph

/-- The control flow of a graph in SSA form. -/
structure SsaFlow (G : FieldGraph) : Type where
  flow : ℕ → ℕ → Prop
  start : ℕ
  /-- where a node is made, a `Phi` at its region -/
  defAt : ℕ → ℕ
  /-- the nodes that the control of a region comes from -/
  preds : ℕ → List ℕ
  alloc_ne_start : defAt G.alloc ≠ start
  depends_dominates : ∀ n m, G.Depends n m → Dominates flow start (defAt m) (defAt n)
  defAt_phi : ∀ n r inputs, G.node n = .phi r inputs → defAt n = r ∧ r ≠ defAt G.alloc
  /-- a path that the control may take has a memory -/
  phi_edge : ∀ n r inputs b, G.node n = .phi r inputs → flow b r →
    ∃ j i : ℕ, (preds r)[j]? = some b ∧ inputs[j]? = some (some i)
  phi_dominates : ∀ n r inputs (j i b : ℕ), G.node n = .phi r inputs → inputs[j]? = some (some i) →
    (preds r)[j]? = some b → Dominates flow start (defAt i) b
  defAt_samePhi : ∀ n o p, G.samePhi n o = some p → defAt p = defAt n
  sentinel_dominates : ∀ n, G.IsSentinel n → Dominates flow start (defAt n) (defAt G.alloc)
  /-- the memory of the field goes through the allocation -/
  passes : ∀ n m, G.Above n m → ¬ G.IsSentinel n → Dominates flow start (defAt G.alloc) (defAt n) →
    G.IsSentinel m ∨ Dominates flow start (defAt G.alloc) (defAt m)
  /-- a sentinel is a memory state, and no state is an `Initialize` -/
  parent_ne : ∀ n p, G.node n = .proj p → ¬ G.IsSentinel p
  above_own : ∀ n m, G.Above n m → (∀ p, G.node n ≠ .proj p) → G.IsOwn m
  initialization_node : ∀ i, G.initialization G.alloc = some i →
    ∃ m c st z, G.node i = .initializeNode (some G.alloc) m c st z
  clone_node : ∀ n m ac, G.node n = .memBar m (some (some ac)) → ∃ c, G.node ac = .arrayCopy c
  alloc_node : G.node G.alloc = .call G.allocMem
  /-- no `LoadStore`, inflation or partial copy accesses the field -/
  scalar_replaceable : ∀ n m, G.node n ≠ .scMemProj true m ∧ G.node n ≠ .strInflatedCopy true m ∧
    G.node n ≠ .memBar m (some none)
  top_dead : ∀ n l, G.node n = .top → ¬ Run flow start (defAt n :: l)
  zeroMemory_proj : ∀ n a m c st z, G.node n = .initializeNode (some a) m c st z →
    G.node z = .proj a
  captured_store : ∀ n a m c st z off size x, G.node n = .initializeNode a m c st z →
    .store off size x ∈ st → size ≤ 8 ∧ (G.valueIn x).isSome ∧ ¬ G.IsSentinel x
  captured_sorted : ∀ n a m c st z, G.node n = .initializeNode a m c st z →
    st.Pairwise fun x y => ∀ (off : ℤ) (size k : ℕ) (off' : ℤ) (size' k' : ℕ),
      x = .store off size k → y = .store off' size' k' → off ≤ off'

/-! ## The states of an execution

An execution makes nodes again and again. A state has for each node the value and the memory of the
last time; a memory state can be used only where it was made on every way since the allocation. -/

/-- The values of the nodes and the memories of the memory states, when they were last made. -/
structure FieldState : Type where
  env : ℕ → ℕ
  /-- a memory state, a block and an offset; `none` if nothing wrote it since it was allocated -/
  heap : ℕ → ℕ → ℤ → Option ℕ
  /-- the object that the allocation made last -/
  obj : ℕ
  /-- where an `ArrayCopy` took what it copied to an offset -/
  source : ℕ → ℤ → ℕ × ℤ
  /-- the new `Phi`s -/
  phis : ℕ → ℤ → ℕ

namespace FieldState

variable (s : FieldState)

/-- What the field holds in a memory state. -/
def cell (n : ℕ) (o : ℤ) : Option ℕ := s.heap n s.obj o

/-- The value of a node that the search returns. -/
def value : SearchValue → ℕ
  | .zero => 0
  | .node n => s.env n
  | .newPhi mem o => s.phis mem o
  | .load ac o mem => (s.heap mem (s.source ac o).1 (s.source ac o).2).getD 0
  | .top => 0

end FieldState

/-- The inputs of a new `Phi`. -/
def ValuePhis.lookup (T : ValuePhis) (k : ℕ × ℤ) : Option (List SearchValue) := T.inputs.lookup k

namespace SsaFlow

variable {G : FieldGraph} (F : SsaFlow G)

/-- `c` is run after `b`. -/
structure Step (T : ValuePhis) (b c : ℕ) (s s' : FieldState) : Prop where
  env : ∀ n, F.defAt n ≠ c → s'.env n = s.env n
  heap : ∀ n, F.defAt n ≠ c → s'.heap n = s.heap n
  source : ∀ n, F.defAt n ≠ c → s'.source n = s.source n
  phis : ∀ n, F.defAt n ≠ c → s'.phis n = s.phis n
  obj : F.defAt G.alloc ≠ c → s'.obj = s.obj
  /-- a new object: no memory has anything of it -/
  fresh : F.defAt G.alloc = c → ∀ n o, s'.heap n s'.obj o = none
  same : ∀ o n m, F.defAt n = c → G.Same o n m → s'.cell n o = s'.cell m o
  store : ∀ o n v m, F.defAt n = c → G.node n = .store true o G.alloc v m →
    s'.cell n o = some (s'.env v)
  captured : ∀ o n m st z x v, F.defAt n = c →
    G.node n = .initializeNode (some G.alloc) m false st z → .store o G.fieldSize x ∈ st →
    G.valueIn x = some v → s'.cell n o = some (s'.env v)
  copy : ∀ o n ac, F.defAt n = c → G.node n = .arrayCopy ac →
    ac.isClonebasic = true ∨ ac.mustModify o = true →
    s'.cell n o = s'.heap ac.memory (s'.source n o).1 (s'.source n o).2
  selfCopy : ∀ o n ac d, F.defAt n = c → G.node n = .arrayCopy ac → ac.sameArray = true →
    ac.shift = some d → s'.source n o = (s'.obj, d + o)
  /-- a `Phi` that is there already is for the same field -/
  samePhi : ∀ n o p, F.defAt n = c → G.samePhi n o = some p → s'.env p = (s'.cell n o).getD 0
  /-- all `Phi`s of a region take the input of the same path -/
  phi : ∃ j : ℕ, (∀ n inputs, G.node n = .phi c inputs →
      ∃ i : ℕ, (F.preds c)[j]? = some b ∧ inputs[j]? = some (some i) ∧ s'.heap n = s.heap i) ∧
    ∀ n o values, F.defAt n = c → T.lookup (n, o) = some values →
      ∃ v, values[j]? = some v ∧ s'.phis n o = s.value v

/-- The executions. -/
abbrev Exec (T : ValuePhis) : List ℕ → FieldState → Prop :=
  Dominance.Exec F.flow F.start (fun _ => True) (F.Step T)

/-- Every run to `c` goes through where `n` is made. -/
abbrev Available (n c : ℕ) : Prop := Dominates F.flow F.start (F.defAt n) c

/-- A node after the allocation, or a sentinel. -/
def Anchored (n : ℕ) : Prop := G.IsSentinel n ∨ F.Available G.alloc (F.defAt n)

variable {F} {T : ValuePhis} {p : ℕ} {l : List ℕ} {s : FieldState} {o : ℤ}

/-- A state that is made after the allocation is not the one at the start. -/
theorem defAt_ne_start {n : ℕ} (h : F.Available G.alloc (F.defAt n)) : F.defAt n ≠ F.start :=
  h.ne_start F.alloc_ne_start

/-- What a state depends on has been made where the state can be used. -/
theorem available_of_depends {n m c : ℕ} (h : G.Depends n m) (hn : F.Available n c) :
    F.Available m c := (F.depends_dominates n m h).trans hn

/-- What is true of some nodes when one of them is made stays true where that one is available. -/
theorem stable {P : FieldState → Prop} (n : ℕ) (deps : List ℕ) (h : F.Exec T (p :: l) s)
    (hA : F.Available G.alloc (F.defAt n)) (hn : F.Available n p)
    (hdeps : ∀ m ∈ deps, G.Depends n m)
    (hafter : ∀ b l' s₁ s₂, (F.defAt n :: b :: l') <:+ (p :: l) → F.Exec T (b :: l') s₁ →
      F.Step T b (F.defAt n) s₁ s₂ → P s₂)
    (hkeep : ∀ s₁ s₂ : FieldState, s₂.obj = s₁.obj →
      (∀ m ∈ n :: deps, s₂.env m = s₁.env m ∧ s₂.heap m = s₁.heap m ∧ s₂.source m = s₁.source m ∧
        s₂.phis m = s₁.phis m) → P s₁ → P s₂) : P s := by
  refine Exec.stable (fun k => k = F.defAt G.alloc ∨ ∃ m ∈ deps, k = F.defAt m) h hn
    (defAt_ne_start hA) ?_ hafter ?_
  · rintro k (rfl | ⟨m, hm, rfl⟩)
    · exact hA
    · exact F.depends_dominates n m (hdeps m hm)
  · intro b c s₁ s₂ hc hK hstep
    have hother : ∀ m ∈ n :: deps, F.defAt m ≠ c := by
      intro m hm heq
      obtain rfl | hm := List.mem_cons.1 hm
      · exact hc heq.symm
      · exact hK (.inr ⟨m, hm, heq.symm⟩)
    refine hkeep s₁ s₂ (hstep.obj fun heq => hK (.inl heq.symm)) fun m hm => ?_
    have hne := hother m hm
    exact ⟨hstep.env m hne, hstep.heap m hne, hstep.source m hne, hstep.phis m hne⟩

/-! ## Along a chain

One step along the relation keeps what the field holds, and a chain is many steps. What is at its
end has been made on every way to its beginning, so the two are compared in one state of the
execution. -/

/-- In a sentinel nothing is written of the object. -/
theorem cell_sentinel {n : ℕ} (h : F.Exec T (p :: l) s) (hA : F.Available G.alloc p)
    (hn : G.IsSentinel n) : s.cell n o = none := by
  refine Exec.stable (fun k => k = F.defAt n) h hA F.alloc_ne_start ?_ ?_ ?_
    (P := fun s => s.cell n o = none)
  · rintro k rfl
    exact F.sentinel_dominates n hn
  · intro b l' s₁ s₂ _ _ hstep
    exact hstep.fresh rfl n o
  · intro b c s₁ s₂ hc hK hstep hcell
    rw [FieldState.cell, hstep.obj (Ne.symm hc), hstep.heap n (Ne.symm hK)]
    exact hcell

/-- A state that leaves the field has the value of the state before it. -/
theorem cell_same {n m : ℕ} (h : F.Exec T (p :: l) s) (hA : F.Available G.alloc (F.defAt n))
    (hn : F.Available n p) (hsame : G.Same o n m) : s.cell n o = s.cell m o := by
  refine stable n [m] h hA hn ?_ ?_ ?_ (P := fun s => s.cell n o = s.cell m o)
  · exact fun k hk => List.mem_singleton.1 hk ▸ .same hsame
  · exact fun b l' s₁ s₂ _ _ hstep => hstep.same o n m rfl hsame
  · intro s₁ s₂ hobj hkeep hcell
    obtain ⟨-, hheap, -⟩ := hkeep n List.mem_cons_self
    obtain ⟨-, hheap', -⟩ := hkeep m (List.mem_cons_of_mem n (List.mem_singleton.2 rfl))
    rw [FieldState.cell, FieldState.cell, hobj, hheap, hheap']
    exact hcell

/-- Along a chain each state is made on every way to the next. -/
theorem chain_dominates {n x : ℕ} (h : G.Chain o n x) :
    Dominates F.flow F.start (F.defAt x) (F.defAt n) := by
  induction h with
  | refl => exact fun _ _ => List.mem_cons_self
  | tail _ hstep ih => exact (F.depends_dominates _ _ (.same hstep.2)).trans ih

/-- So if one of them is made after the allocation, the ones before it are or the chain ends
there. -/
theorem chain_anchored {n x : ℕ} (h : G.Chain o n x) (hn : F.Anchored n) : F.Anchored x := by
  induction h with
  | refl => exact hn
  | tail _ hstep ih => exact F.passes _ _ (.same hstep.2) hstep.1 (ih.resolve_left hstep.1)

/-- Along a chain the field holds the same. -/
theorem cell_chain {n x : ℕ} (h : F.Exec T (p :: l) s) (hchain : G.Chain o n x)
    (hn : F.Anchored n) (hp : F.Available n p) : s.cell n o = s.cell x o := by
  induction hchain with
  | refl => rfl
  | @tail a b hchain hstep ih =>
    have ha : F.Available a p := (chain_dominates hchain).trans hp
    have hanchored := (chain_anchored hchain hn).resolve_left hstep.1
    exact ih.trans (cell_same h hanchored ha hstep.2)

end SsaFlow

/-! ## What a search may find

The values that a search may answer with are given by cases, as the search has them: a stored value,
a captured store, the zero of the allocation, a load from the source of a copy, or a `Phi`. Each
case is right by itself. -/

/-- The value `v` is what the field holds in `n`. -/
inductive Reads (G : FieldGraph) (T : ValuePhis) : ℕ → ℤ → SearchValue → Prop
  | chain {n x o v} (h : G.Chain o n x) (hx : Reads G T x o v) : Reads G T n o v
  | sentinel {n o} (h : G.IsSentinel n) : Reads G T n o .zero
  | store {n o v m} (hn : ¬ G.IsSentinel n) (h : G.node n = .store true o G.alloc v m) :
    Reads G T n o (.node v)
  | captured {n o m st z x v} (hn : ¬ G.IsSentinel n)
    (h : G.node n = .initializeNode (some G.alloc) m false st z)
    (hx : .store o G.fieldSize x ∈ st) (hv : G.valueIn x = some v) : Reads G T n o (.node v)
  | load {n o ac} (hn : ¬ G.IsSentinel n) (h : G.node n = .arrayCopy ac)
    (hcopy : ac.isClonebasic = true ∨ ac.mustModify o = true) : Reads G T n o (.load n o ac.memory)
  /-- an array is copied to itself -/
  | selfCopy {n o ac d v} (hn : ¬ G.IsSentinel n) (h : G.node n = .arrayCopy ac)
    (hcopy : ac.isClonebasic = true ∨ ac.mustModify o = true) (hself : ac.sameArray = true)
    (hshift : ac.shift = some d) (hx : Reads G T ac.memory (d + o) v) : Reads G T n o v
  | newPhi {n o} (hn : ¬ G.IsSentinel n) (h : (n, o) ∈ T.keys) : Reads G T n o (.newPhi n o)
  | samePhi {n o p} (hn : ¬ G.IsSentinel n) (h : G.samePhi n o = some p) : Reads G T n o (.node p)
  /-- all paths of a `Phi` lead to the same node, or back to the `Phi` -/
  | unique {n o r inputs x v} (hn : ¬ G.IsSentinel n) (h : G.node n = .phi r inputs)
    (hi : ∀ i, some i ∈ inputs →
      (∃ t, G.Chain o i t ∧ G.node t = .top) ∨ G.Chain o i n ∨ G.Chain o i x)
    (hx : Reads G T x o v) : Reads G T n o v

/-- The inputs of a new `Phi` are what the field holds on the paths. -/
def ClosedAt (G : FieldGraph) (T : ValuePhis) (n : ℕ) (o : ℤ) : Prop :=
  ∃ r inputs values, G.node n = .phi r inputs ∧ T.lookup (n, o) = some values ∧
    ∀ (j i : ℕ), inputs[j]? = some (some i) → ∃ v, values[j]? = some v ∧ Reads G T i o v

namespace SsaFlow

variable {G : FieldGraph} {F : SsaFlow G} {T : ValuePhis} {p : ℕ} {l : List ℕ} {s : FieldState}
  {o : ℤ} {n : ℕ}

/-- The value of `v` is what the field holds, and it is not the zero constant if something wrote the
field. -/
def Holds (s : FieldState) (n : ℕ) (o : ℤ) (v : SearchValue) : Prop :=
  s.value v = (s.cell n o).getD 0 ∧ (v = .zero → s.cell n o = none)

/-- At a store to the field the value is what is stored. -/
theorem holds_store {v m : ℕ} (h : F.Exec T (p :: l) s) (hA : F.Available G.alloc (F.defAt n))
    (hp : F.Available n p) (hn : G.node n = .store true o G.alloc v m) : Holds s n o (.node v) := by
  have hcell : s.cell n o = some (s.env v) := by
    refine stable n [v] h hA hp ?_ ?_ ?_ (P := fun s => s.cell n o = some (s.env v))
    · exact fun k hk => List.mem_singleton.1 hk ▸ .value hn
    · exact fun b l' s₁ s₂ _ _ hstep => hstep.store o n v m rfl hn
    · intro s₁ s₂ hobj hkeep hcell
      obtain ⟨-, hheap, -⟩ := hkeep n List.mem_cons_self
      obtain ⟨henv, -⟩ := hkeep v (List.mem_cons_of_mem n (List.mem_singleton.2 rfl))
      rw [FieldState.cell, hobj, hheap, henv]
      exact hcell
  rw [Holds, hcell]
  exact ⟨rfl, nofun⟩

/-- At the initialization it is the value of a captured store. -/
theorem holds_captured {m z x v : ℕ} {st : List CapturedInput} (h : F.Exec T (p :: l) s)
    (hA : F.Available G.alloc (F.defAt n)) (hp : F.Available n p)
    (hn : G.node n = .initializeNode (some G.alloc) m false st z)
    (hx : .store o G.fieldSize x ∈ st) (hv : G.valueIn x = some v) : Holds s n o (.node v) := by
  have hcell : s.cell n o = some (s.env v) := by
    refine stable n [v] h hA hp ?_ ?_ ?_ (P := fun s => s.cell n o = some (s.env v))
    · exact fun k hk => List.mem_singleton.1 hk ▸ .captured hn hx hv
    · exact fun b l' s₁ s₂ _ _ hstep => hstep.captured o n m st z x v rfl hn hx hv
    · intro s₁ s₂ hobj hkeep hcell
      obtain ⟨-, hheap, -⟩ := hkeep n List.mem_cons_self
      obtain ⟨henv, -⟩ := hkeep v (List.mem_cons_of_mem n (List.mem_singleton.2 rfl))
      rw [FieldState.cell, hobj, hheap, henv]
      exact hcell
  rw [Holds, hcell]
  exact ⟨rfl, nofun⟩

/-- At an array copy it is what the copy loads from its source. -/
theorem holds_load {ac : CopyNode} (h : F.Exec T (p :: l) s)
    (hA : F.Available G.alloc (F.defAt n)) (hp : F.Available n p) (hn : G.node n = .arrayCopy ac)
    (hcopy : ac.isClonebasic = true ∨ ac.mustModify o = true) :
    Holds s n o (.load n o ac.memory) := by
  have hcell : s.cell n o = s.heap ac.memory (s.source n o).1 (s.source n o).2 := by
    refine stable n [ac.memory] h hA hp ?_ ?_ ?_
      (P := fun s => s.cell n o = s.heap ac.memory (s.source n o).1 (s.source n o).2)
    · exact fun k hk => List.mem_singleton.1 hk ▸ .copy hn
    · exact fun b l' s₁ s₂ _ _ hstep => hstep.copy o n ac rfl hn hcopy
    · intro s₁ s₂ hobj hkeep hcell
      obtain ⟨-, hheap, hsource, -⟩ := hkeep n List.mem_cons_self
      obtain ⟨-, hheap', -⟩ := hkeep ac.memory (List.mem_cons_of_mem n (List.mem_singleton.2 rfl))
      rw [FieldState.cell, hobj, hheap, hsource, hheap']
      exact hcell
  rw [Holds, hcell]
  exact ⟨rfl, nofun⟩

/-- At a copy from the array to itself it is the element at the distance of the copy. -/
theorem cell_selfCopy {ac : CopyNode} {d : ℤ} (h : F.Exec T (p :: l) s)
    (hA : F.Available G.alloc (F.defAt n)) (hp : F.Available n p) (hn : G.node n = .arrayCopy ac)
    (hcopy : ac.isClonebasic = true ∨ ac.mustModify o = true) (hself : ac.sameArray = true)
    (hshift : ac.shift = some d) : s.cell n o = s.cell ac.memory (d + o) := by
  refine stable n [ac.memory] h hA hp ?_ ?_ ?_
    (P := fun s => s.cell n o = s.cell ac.memory (d + o))
  · exact fun k hk => List.mem_singleton.1 hk ▸ .copy hn
  · intro b l' s₁ s₂ _ _ hstep
    rw [hstep.copy o n ac rfl hn hcopy, hstep.selfCopy o n ac d rfl hn hself hshift]
    rfl
  · intro s₁ s₂ hobj hkeep hcell
    obtain ⟨-, hheap, -⟩ := hkeep n List.mem_cons_self
    obtain ⟨-, hheap', -⟩ := hkeep ac.memory (List.mem_cons_of_mem n (List.mem_singleton.2 rfl))
    rw [FieldState.cell, FieldState.cell, hobj, hheap, hheap']
    exact hcell

/-- The value of a `Phi` that is for the same field; it is made with the memory `Phi`. -/
theorem holds_samePhi {q : ℕ} (h : F.Exec T (p :: l) s) (hA : F.Available G.alloc (F.defAt n))
    (hp : F.Available n p) (hsame : G.samePhi n o = some q) : Holds s n o (.node q) := by
  refine ⟨?_, nofun⟩
  have hdef := F.defAt_samePhi n o q hsame
  refine Exec.stable (fun k => k = F.defAt G.alloc) h hp (defAt_ne_start hA) ?_ ?_ ?_
    (P := fun s => s.env q = (s.cell n o).getD 0)
  · rintro k rfl
    exact hA
  · exact fun b l' s₁ s₂ _ _ hstep => hstep.samePhi n o q rfl hsame
  · intro b c s₁ s₂ hc hK hstep hcell
    rw [FieldState.cell, hstep.obj (Ne.symm hK), hstep.heap n (Ne.symm hc),
      hstep.env q (hdef ▸ Ne.symm hc)]
    exact hcell

/-! ### At a `Phi`

When a `Phi` is made control comes from a predecessor, and it takes what the field held there. The
new `Phi` of values does the same at the same time. -/

section Phi

variable {r : ℕ} {inputs : List (Option ℕ)} (hn : G.node n = .phi r inputs)
include hn

/-- Where the control comes from, the allocation has been run. -/
theorem available_pred {b : ℕ} (hA : F.Available G.alloc (F.defAt n)) (hbr : F.flow b r) :
    F.Available G.alloc b := by
  obtain ⟨hdef, hne⟩ := F.defAt_phi n r inputs hn
  exact (hdef ▸ hA).of_edge hbr (Ne.symm hne)

/-- The inputs of a `Phi` are made after the allocation, unless one of them is where the search
ends. -/
theorem anchored_input {i : ℕ} (hs : ¬ G.IsSentinel n) (hA : F.Available G.alloc (F.defAt n))
    (hi : some i ∈ inputs) : F.Anchored i := F.passes n i (.phi hn hi) hs hA

/-- All paths of a `Phi` lead to `x` or back, so `x` was made before. -/
theorem unique_dominates {x : ℕ} (hA : F.Available G.alloc (F.defAt n))
    (hi : ∀ i, some i ∈ inputs →
      (∃ t, G.Chain o i t ∧ G.node t = .top) ∨ G.Chain o i n ∨ G.Chain o i x) :
    Dominates F.flow F.start (F.defAt x) r ∧ ∀ l, Run F.flow F.start (r :: l) →
      F.defAt x ≠ r ∧ ∃ i, some i ∈ inputs ∧ G.Chain o i x := by
  obtain ⟨hdef, -⟩ := F.defAt_phi n r inputs hn
  -- the first time that the region is run, the control comes from where it has not been run yet
  have hfirst : ∀ l, Run F.flow F.start (r :: l) → ∃ b l', (b :: l') <:+ l ∧
      F.defAt x ∈ b :: l' ∧ r ∉ b :: l' ∧ ∃ i, some i ∈ inputs ∧ G.Chain o i x := by
    intro l hrun
    obtain ⟨pre, post, heq, hpost⟩ := exists_first (m := r) (l := r :: l) List.mem_cons_self
    have hrunFirst : Run F.flow F.start (r :: post) := (heq ▸ hrun).suffix
    cases hrunFirst with
    | start => exact absurd hdef (defAt_ne_start hA)
    | @step b _ l' hrunPred hedge =>
      obtain ⟨j, i, hb, hin⟩ := F.phi_edge n r inputs b hn hedge
      have hdom := F.phi_dominates n r inputs j i b hn hin hb
      have hsuffix : (b :: l') <:+ l := by
        cases pre with
        | nil =>
          obtain ⟨-, rfl⟩ := List.cons.inj heq
          exact List.suffix_refl _
        | cons c pre =>
          obtain ⟨-, rfl⟩ := List.cons.inj heq
          exact ⟨pre ++ [r], by rw [List.append_assoc]; rfl⟩
      have hmem := List.mem_of_getElem? hin
      obtain ⟨t, hchain, htop⟩ | hchain | hchain := hi i hmem
      · have ht := ((chain_dominates hchain).trans hdom) l' hrunPred
        obtain ⟨pre', post', heq'⟩ := List.append_of_mem ht
        exact absurd (heq' ▸ hrunPred).suffix (F.top_dead t post' htop)
      · have hr := ((chain_dominates hchain).trans hdom) l' hrunPred
        exact absurd (hdef ▸ hr) hpost
      · exact ⟨b, l', hsuffix, ((chain_dominates hchain).trans hdom) l' hrunPred, hpost, i, hmem,
          hchain⟩
  constructor
  · intro l hrun
    obtain ⟨b, l', hsuffix, hx, -⟩ := hfirst l hrun
    exact List.mem_cons_of_mem r (hsuffix.subset hx)
  · intro l hrun
    obtain ⟨b, l', -, hx, hr, hi⟩ := hfirst l hrun
    exact ⟨fun heq => hr (heq ▸ hx), hi⟩

/-- A `Phi` all of whose paths lead to `x` or back holds what `x` holds. -/
theorem cell_unique {x : ℕ} (hs : ¬ G.IsSentinel n)
    (hi : ∀ i, some i ∈ inputs →
      (∃ t, G.Chain o i t ∧ G.node t = .top) ∨ G.Chain o i n ∨ G.Chain o i x)
    (h : F.Exec T (p :: l) s) (hA : F.Available G.alloc (F.defAt n)) (hp : F.Available n p) :
    s.cell n o = s.cell x o := by
  obtain ⟨hdef, hne⟩ := F.defAt_phi n r inputs hn
  obtain ⟨hdom, hxne⟩ := unique_dominates hn hA hi
  -- on the length of the run: on a path that leads back the `Phi` held it when it was made before
  induction hlen : l.length using Nat.strongRecOn generalizing p l s with
  | _ k ih =>
    subst hlen
    refine Exec.stable (fun k => k = F.defAt x ∨ k = F.defAt G.alloc) h hp (defAt_ne_start hA)
      ?_ ?_ ?_ (P := fun s => s.cell n o = s.cell x o)
    · rintro k (rfl | rfl)
      · exact hdef ▸ hdom
      · exact hA
    · intro b l' s₁ s₂ hsuffix hexec hstep
      rw [hdef] at hstep hsuffix
      have hedge : F.flow b r := by
        obtain ⟨pre, heq⟩ := hsuffix
        have hrun : Run F.flow F.start (pre ++ r :: b :: l') := heq ▸ h.run
        cases hrun.suffix with
        | step _ hedge => exact hedge
      obtain ⟨j, hphi, -⟩ := hstep.phi
      obtain ⟨i, hb, hin, hheap⟩ := hphi n inputs hn
      have hmem := List.mem_of_getElem? hin
      have hib := F.phi_dominates n r inputs j i b hn hin hb
      have hanchored := anchored_input hn hs hA hmem
      have hobj : s₂.obj = s₁.obj := hstep.obj (Ne.symm hne)
      have hx : s₂.heap x = s₁.heap x := by
        exact hstep.heap x (hxne (b :: l') (hexec.run.step hedge)).1
      have hkept : s₂.cell n o = s₁.cell i o ∧ s₂.cell x o = s₁.cell x o := by
        rw [FieldState.cell, FieldState.cell, FieldState.cell, FieldState.cell, hobj, hheap, hx]
        exact ⟨rfl, rfl⟩
      rw [hkept.1, hkept.2]
      obtain ⟨t, hchain, htop⟩ | hchain | hchain := hi i hmem
      · have ht := ((chain_dominates hchain).trans hib) l' hexec.run
        obtain ⟨pre, post, heq⟩ := List.append_of_mem ht
        exact absurd (heq ▸ hexec.run).suffix (F.top_dead t post htop)
      · have hback : F.Available n b := (chain_dominates hchain).trans hib
        have hlt : l'.length < l.length := by
          have hle := hsuffix.length_le
          simp only [List.length_cons] at hle
          omega
        exact (cell_chain hexec hchain hanchored hib).trans (ih _ hlt hexec hback rfl)
      · exact cell_chain hexec hchain hanchored hib
    · intro b c s₁ s₂ hc hK hstep hcell
      rw [not_or] at hK
      rw [FieldState.cell, FieldState.cell, hstep.obj (Ne.symm hK.2), hstep.heap n (Ne.symm hc),
        hstep.heap x (Ne.symm hK.1)]
      exact hcell

/-- A new `Phi` holds what the field holds in its memory `Phi`, if its inputs do on the paths. -/
theorem holds_newPhi (hs : ¬ G.IsSentinel n) (hclosed : ClosedAt G T n o)
    (ih : ∀ b l' s', (r :: b :: l') <:+ (p :: l) → F.Exec T (b :: l') s' → F.Available G.alloc b →
      ∀ i v, F.Anchored i → F.Available i b → Reads G T i o v → Holds s' i o v)
    (h : F.Exec T (p :: l) s) (hA : F.Available G.alloc (F.defAt n)) (hp : F.Available n p) :
    Holds s n o (.newPhi n o) := by
  refine ⟨?_, nofun⟩
  obtain ⟨hdef, hne⟩ := F.defAt_phi n r inputs hn
  refine Exec.stable (fun k => k = F.defAt G.alloc) h hp (defAt_ne_start hA) ?_ ?_ ?_
    (P := fun s => s.phis n o = (s.cell n o).getD 0)
  · rintro k rfl
    exact hA
  · intro b l' s₁ s₂ hsuffix hexec hstep
    rw [hdef] at hstep hsuffix
    have hedge : F.flow b r := by
      obtain ⟨pre, heq⟩ := hsuffix
      have hrun : Run F.flow F.start (pre ++ r :: b :: l') := heq ▸ h.run
      cases hrun.suffix with
      | step _ hedge => exact hedge
    obtain ⟨r', inputs', values, hn', hlookup, hvalues⟩ := hclosed
    obtain ⟨rfl, rfl⟩ : r = r' ∧ inputs = inputs' := by
      rw [hn] at hn'
      injection hn' with hr hinputs
      exact ⟨hr, hinputs⟩
    obtain ⟨j, hphi, hnew⟩ := hstep.phi
    obtain ⟨i, hb, hin, hheap⟩ := hphi n inputs hn
    obtain ⟨v, hv, hvalue⟩ := hnew n o values hdef hlookup
    obtain ⟨v', hv', hreads⟩ := hvalues j i hin
    obtain rfl := Option.some.inj (hv.symm.trans hv')
    have hmem := List.mem_of_getElem? hin
    have hib := F.phi_dominates n r inputs j i b hn hin hb
    obtain ⟨heq, -⟩ := ih b l' s₁ hsuffix hexec (available_pred hn hA hedge) i v
      (anchored_input hn hs hA hmem) hib hreads
    rw [hvalue, heq, FieldState.cell, FieldState.cell, hstep.obj (Ne.symm hne), hheap]
  · intro b c s₁ s₂ hc hK hstep hcell
    rw [FieldState.cell, hstep.obj (Ne.symm hK), hstep.heap n (Ne.symm hc),
      hstep.phis n (Ne.symm hc)]
    exact hcell

end Phi

/-! ### The result

Whatever a search answers is one of the cases, so the induction is on the derivation of `Reads`, for
all states of an execution at once. -/

/-- What a search may find is what the field holds, in every execution. -/
theorem reads_sound (hT : ∀ k ∈ T.keys, ClosedAt G T k.1 k.2) {v : SearchValue}
    (hreads : Reads G T n o v) (hn : F.Anchored n) (h : F.Exec T (p :: l) s)
    (hA : F.Available G.alloc p) (hp : F.Available n p) : Holds s n o v := by
  induction hlen : l.length using Nat.strongRecOn generalizing p l s n o v with
  | _ k ih =>
    subst hlen
    induction hreads with
    | chain hchain _ ihx =>
      have hx := ihx (chain_anchored hchain hn) ((chain_dominates hchain).trans hp)
      rw [Holds, cell_chain h hchain hn hp]
      exact hx
    | @sentinel n o hsentinel =>
      have hcell := cell_sentinel (o := o) h hA hsentinel
      rw [Holds, hcell]
      exact ⟨rfl, fun _ => rfl⟩
    | store hs hnode => exact holds_store h (hn.resolve_left hs) hp hnode
    | captured hs hnode hx hv => exact holds_captured h (hn.resolve_left hs) hp hnode hx hv
    | load hs hnode hcopy => exact holds_load h (hn.resolve_left hs) hp hnode hcopy
    | @selfCopy n o ac d v hs hnode hcopy hself hshift _ ihx =>
      have hn' := hn.resolve_left hs
      have hx := ihx (F.passes n _ (.copy hnode hself) hs hn')
        (available_of_depends (.copy hnode) hp)
      rw [Holds, cell_selfCopy h hn' hp hnode hcopy hself hshift]
      exact hx
    | @newPhi n o hs hkey =>
      obtain ⟨r, inputs, values, hnode, hrest⟩ := hT (n, o) hkey
      refine holds_newPhi hnode hs ⟨r, inputs, values, hnode, hrest⟩ ?_ h (hn.resolve_left hs) hp
      intro b l' s' hsuffix hexec hb i v hi hib hreads
      have hlt : l'.length < l.length := by
        have hle := hsuffix.length_le
        simp only [List.length_cons] at hle
        omega
      exact ih _ hlt hreads hi hexec hb hib rfl
    | samePhi hs hsame => exact holds_samePhi h (hn.resolve_left hs) hp hsame
    | @unique n o r inputs x v hs hnode hi _ ihx =>
      have hn' := hn.resolve_left hs
      obtain ⟨hdef, -⟩ := F.defAt_phi n r inputs hnode
      obtain ⟨hdom, hleads⟩ := unique_dominates hnode hn' hi
      have hrp : Dominates F.flow F.start r p := by
        rw [← hdef]
        exact hp
      -- the region is on the run
      obtain ⟨pre, post, heq⟩ := List.append_of_mem (hrp l h.run)
      have hrun : Run F.flow F.start (pre ++ r :: post) := by
        rw [← heq]
        exact h.run
      obtain ⟨-, i, hmem, hchain⟩ := hleads post hrun.suffix
      have hx := ihx (chain_anchored hchain (anchored_input hnode hs hn' hmem)) (hdom.trans hrp)
      rw [Holds, cell_unique hnode hs hi h hn' hp]
      exact hx

end SsaFlow

end StackAllocation
