import StackAllocation.Executions
import StackAllocation.InstanceMemory
import Mathlib.Logic.Relation

/-!
# What the fields of an instance hold in a memory state

The memory of an execution is kept for each memory state apart, as it was when the state was last
made: a state is the memory that it is made from, but for the cells that its node writes, and a
`Phi` is the memory of the path that was taken. The analyses are taken at their word: a node writes
only cells whose alias index its address has, or for which `may_modify` answers `true`. `Kept` says
that a memory state holds of a slice what another holds; along it the contents are the same in every
execution (`SliceFlow.contents_kept`).
-/

namespace StackAllocation

open Dominance

namespace SliceGraph

variable (G : SliceGraph)

/-- The memory that the node of a projection takes. -/
def parentMemory (p : ℕ) : Option ℕ :=
  match G.node p with
  | .allocate memory => some memory
  | .call memory => some memory
  | .initializeNode _ memory => some memory
  | .memBar memory _ => some memory
  | _ => none

/-- The memory that a state is made from; `mergeSlice` is that of a `MergeMem`, by alias index. -/
def memoryOf (mergeSlice : ℕ → ℕ → ℕ) (a n : ℕ) : Option ℕ :=
  match G.node n with
  | .mem _ _ memory => some memory
  | .proj p => G.parentMemory p
  | .mergeMem _ _ => some (mergeSlice n a)
  | .clearArray _ memory => some memory
  | .scMemProj _ memory => some memory
  | .strInflatedCopy _ memory => some memory
  | _ => none

/-- The node that writes a memory state. -/
def writer (n : ℕ) : ℕ :=
  match G.node n with
  | .proj p => p
  | _ => n

variable {G}

theorem lt_size {n : ℕ} (h : G.node n ≠ .other) : n < G.size :=
  Nat.lt_of_not_le fun hle => h (G.node_ge n hle)

end SliceGraph

/-- A memory graph in SSA form, and what its nodes write. -/
structure SliceFlow (G : SliceGraph) : Type 1 where
  flow : ℕ → ℕ → Prop
  start : ℕ
  /-- where a node is made, a `Phi` at its region -/
  defAt : ℕ → ℕ
  /-- the nodes that the control of a region comes from -/
  preds : ℕ → List ℕ
  /-- the depth of a memory state in the node that makes it -/
  rank : ℕ → ℕ
  Cell : Type
  Val : Type
  /-- the alias index of a cell -/
  idxOf : Cell → ℕ
  /-- what a node may write -/
  writes : ℕ → Cell → Prop
  /-- the memory that a `MergeMem` has of an alias index -/
  mergeSlice : ℕ → ℕ → ℕ
  /-- a node is a state of the memory of an alias index -/
  IsState : ℕ → ℕ → Prop
  state_lt : ∀ a n, IsState a n → n < G.size
  state_memory : ∀ a n m, IsState a n → G.memoryOf mergeSlice a n = some m → IsState a m
  state_input : ∀ a n r k inputs i, IsState a n → G.node n = .phi r k inputs → some i ∈ inputs →
    IsState a i
  state_own : ∀ a n r inputs, G.node n = .phi r a inputs → IsState a n
  state_reached : ∀ a n, IsState a n → ∃ l, Run flow start (defAt n :: l)
  memory_ne_start : ∀ a n m, G.memoryOf mergeSlice a n = some m → defAt n ≠ start
  memory_dominates : ∀ a n m, IsState a n → G.memoryOf mergeSlice a n = some m →
    Dominates flow start (defAt m) (defAt n)
  memory_rank : ∀ a n m, IsState a n → G.memoryOf mergeSlice a n = some m → rank m < rank n
  defAt_phi : ∀ n r k inputs, G.node n = .phi r k inputs → defAt n = r ∧ r ≠ start
  phi_dominates : ∀ n r k inputs (j i b : ℕ), G.node n = .phi r k inputs →
    inputs[j]? = some (some i) → (preds r)[j]? = some b → Dominates flow start (defAt i) b
  /-- a path that the control may take has a memory -/
  phi_edge : ∀ n r k inputs b, G.node n = .phi r k inputs → flow b r →
    ∃ j i : ℕ, (preds r)[j]? = some b ∧ inputs[j]? = some (some i)
  region_phi : ∀ n r, n ∈ G.regionPhis r → ∃ k inputs, G.node n = .phi r k inputs
  general_instance : ∀ a, G.instanceOf (G.generalIdx a) = none
  /-- `unique_input` passes over the `Phi` itself and over paths that are never taken -/
  unique_mem : ∀ n r k inputs u, G.node n = .phi r k inputs → G.uniqueInput n = some u →
    some u ∈ inputs
  unique_input : ∀ n r k inputs u (j i b : ℕ), G.node n = .phi r k inputs →
    G.uniqueInput n = some u → flow b r → (preds r)[j]? = some b → inputs[j]? = some (some i) →
    i = u ∨ i = n
  /-- the alias indices are sound -/
  mem_writes : ∀ n idx isInstance m x, G.node n = .mem idx isInstance m → writes n x →
    idx = some (idxOf x)
  scMemProj_writes : ∀ n idx m x, G.node n = .scMemProj idx m → writes n x → idx = some (idxOf x)
  strInflatedCopy_writes : ∀ n idx m x, G.node n = .strInflatedCopy idx m → writes n x →
    idx = some (idxOf x)
  mergeMem_writes : ∀ n base slices x, G.node n = .mergeMem base slices → ¬ writes n x
  /-- `may_modify` is sound -/
  allocate_writes : ∀ p m x, G.node p = .allocate m → writes p x →
    G.instanceOf (idxOf x) = some p ∨ G.mayModify p (idxOf x) = true
  call_writes : ∀ p m x, G.node p = .call m → writes p x → G.mayModify p (idxOf x) = true
  initialize_writes : ∀ p allocation m x id, G.node p = .initializeNode allocation m → writes p x →
    G.instanceOf (idxOf x) = some id → allocation = some id
  /-- a barrier has the writes of the clone before it -/
  memBar_writes : ∀ p m copy x, G.node p = .memBar m copy → writes p x →
    G.memBarMayModify p (idxOf x) = true ∧ ∃ ac, copy = some ac ∧ G.mayModify ac (idxOf x) = true
  /-- a `ClearArray` follows its allocation: since then only the new object was written -/
  clearArray_follows : ∀ a n dest m b k, IsState a n → G.node n = .clearArray dest m →
    G.idealAllocation dest = some b → G.beforeAllocation b = some k →
    Relation.TransGen (fun n m => G.memoryOf mergeSlice a n = some m ∧
      ∀ x, writes (G.writer n) x → G.instanceOf (idxOf x) = some b) n k

namespace SliceFlow

variable {G : SliceGraph} (F : SliceFlow G) (S : SplitState)

/-- Where a node is made, the new ones among them. -/
def place (n : ℕ) : ℕ :=
  if n < G.size then F.defAt n
  else
    match S.phis[n - G.size]? with
    | some φ => φ.region
    | none => F.start

/-- `c` is run after `b`. The state is what is in the cells, by memory state. -/
structure Step (b c : ℕ) (s s' : ℕ → F.Cell → F.Val) : Prop where
  keep : ∀ n, F.place S n ≠ c → s' n = s n
  memory : ∀ a n m x, F.defAt n = c → G.memoryOf F.mergeSlice a n = some m → F.idxOf x = a →
    ¬ F.writes (G.writer n) x → s' n x = s' m x
  /-- a region merges the memory of an alias index once -/
  merges : ∀ n m k k' inputs inputs' x, G.node n = .phi c k inputs → G.node m = .phi c k' inputs' →
    F.IsState (F.idxOf x) n → F.IsState (F.idxOf x) m → s' n x = s' m x
  /-- all `Phi`s of a region take the input of the same path -/
  phi : ∃ j : ℕ, (∀ n k inputs, G.node n = .phi c k inputs →
      ∃ i : ℕ, (F.preds c)[j]? = some b ∧ inputs[j]? = some (some i) ∧ s' n = s i) ∧
    ∀ (i : ℕ) φ m, S.phis[i]? = some φ → φ.region = c → φ.inputs[j]? = some (some m) →
      s' (G.size + i) = s m

/-- The executions. -/
abbrev Exec : List ℕ → (ℕ → F.Cell → F.Val) → Prop :=
  Dominance.Exec F.flow F.start (fun _ => True) (F.Step S)

/-- Every run to `c` goes through where `n` is made. -/
abbrev Available (n c : ℕ) : Prop := Dominates F.flow F.start (F.place S n) c

/-- `n` is made from `m`, and nothing of the alias index is written. -/
def Quiet (a n m : ℕ) : Prop :=
  G.memoryOf F.mergeSlice a n = some m ∧ ∀ x, F.idxOf x = a → ¬ F.writes (G.writer n) x

/-- The memory state `m` holds of the alias index what `n` holds. -/
inductive Kept (a : ℕ) : ℕ → ℕ → Prop
  | refl {n : ℕ} : Kept a n n
  /-- nothing is written in between -/
  | quiet {n k m : ℕ} (h : Relation.TransGen (F.Quiet a) n k) (hk : Kept a k m) : Kept a n m
  /-- a `Phi` has only one input -/
  | unique {n r k inputs u m} (h : G.node n = .phi r k inputs) (hu : G.uniqueInput n = some u)
    (hk : Kept a u m) : Kept a n m
  /-- a new `Phi`, of the same region -/
  | split {n r k inputs i φ} (h : G.node n = .phi r k inputs) (hi : S.phis[i]? = some φ)
    (hr : φ.region = r) (ha : φ.aliasIdx = a) : Kept a n (G.size + i)
  /-- a `Phi` of the alias index, of the same region -/
  | own {n m r k inputs inputs'} (h : G.node n = .phi r k inputs)
      (hm : G.node m = .phi r a inputs') :
    Kept a n m

/-- The inputs of a new `Phi` hold what those of the other do. -/
def Equivalent (φ : SplitPhi) : Prop :=
  ∃ k inputs, G.node φ.orig = .phi φ.region k inputs ∧ φ.inputs.length = inputs.length ∧
    ∀ (j : ℕ) (i i' : Option ℕ), inputs[j]? = some i → φ.inputs[j]? = some i' →
      Option.Rel (F.Kept S φ.aliasIdx) i i'

/-- Every new `Phi` has its inputs. -/
def Closed : Prop :=
  ∀ (i : ℕ) φ, S.phis[i]? = some φ → F.IsState φ.aliasIdx φ.orig ∧ F.Equivalent S φ

variable {F} {S} {a n m p : ℕ} {l : List ℕ} {s : ℕ → F.Cell → F.Val}

theorem place_lt (h : n < G.size) : F.place S n = F.defAt n := if_pos h

/-- The states of the slice are where they were in the graph. -/
theorem place_state (h : F.IsState a n) : F.place S n = F.defAt n := place_lt (F.state_lt a n h)

/-- A `Phi` is at its region. -/
theorem place_phi {r k : ℕ} {inputs : List (Option ℕ)} (h : G.node n = .phi r k inputs) :
    F.place S n = r := by
  have hother : G.node n ≠ .other := by
    rw [h]
    exact nofun
  exact (place_lt (SliceGraph.lt_size hother)).trans (F.defAt_phi n r k inputs h).1

/-- And so is a `Phi` that is made for it. -/
theorem place_split {i : ℕ} {φ : SplitPhi} (h : S.phis[i]? = some φ) :
    F.place S (G.size + i) = φ.region := by
  rw [place, if_neg (Nat.not_lt.2 (Nat.le_add_right _ _)), Nat.add_sub_cancel_left, h]

/-! ## Where nothing is written

A node that is gone past and the state that it goes on with are related by `Quiet`. The cells of the
slice are the same in both, and the state before is made on every way. -/

/-- Past a node that does not write the slice, the state before is one of the slice. -/
theorem Quiet.state (h : F.Quiet a n m) (hn : F.IsState a n) : F.IsState a m :=
  F.state_memory a n m hn h.1

/-- Past any number of such nodes. -/
theorem quiet_state (h : Relation.TransGen (F.Quiet a) n m) (hn : F.IsState a n) :
    F.IsState a m := by
  induction h with
  | single h => exact h.state hn
  | tail _ h ih => exact h.state ih

/-- The state before is made on every way to the state after it. -/
theorem quiet_dominates (h : Relation.TransGen (F.Quiet a) n m) (hn : F.IsState a n) :
    Dominates F.flow F.start (F.defAt m) (F.defAt n) := by
  induction h with
  | single h => exact F.memory_dominates a n _ hn h.1
  | tail hq h ih => exact (F.memory_dominates a _ _ (quiet_state hq hn) h.1).trans ih

/-- And it is further up, so going past quiet nodes ends. -/
theorem quiet_rank (h : Relation.TransGen (F.Quiet a) n m) (hn : F.IsState a n) :
    F.rank m < F.rank n := by
  induction h with
  | single h => exact F.memory_rank a n _ hn h.1
  | tail hq h ih => exact (F.memory_rank a _ _ (quiet_state hq hn) h.1).trans ih

variable {x : F.Cell}

/-- A memory state that does not write a cell leaves it as it is. -/
theorem contents_memory (h : F.Exec S (p :: l) s) (hn : F.IsState a n) (hq : F.Quiet a n m)
    (hp : F.Available S n p) (hx : F.idxOf x = a) : s n x = s m x := by
  have hm := hq.state hn
  refine Exec.stable (fun k => k = F.place S m) h hp ?_ ?_ ?_ ?_ (P := fun s => s n x = s m x)
  · rw [place_state hn]
    exact F.memory_ne_start a n m hq.1
  · rintro k rfl
    rw [place_state hn, place_state hm]
    exact F.memory_dominates a n m hn hq.1
  · intro b l' s₁ s₂ _ _ hstep
    exact hstep.memory a n m x (place_state hn).symm hq.1 hx (hq.2 x hx)
  · intro b c s₁ s₂ hc hK hstep hcell
    rw [hstep.keep n (Ne.symm hc), hstep.keep m (Ne.symm hK)]
    exact hcell

/-- In every execution the two states have the same contents of the slice: what was written between
was written elsewhere. -/
theorem contents_quiet (h : F.Exec S (p :: l) s) (hn : F.IsState a n)
    (hq : Relation.TransGen (F.Quiet a) n m) (hp : F.Available S n p) (hx : F.idxOf x = a) :
    s n x = s m x := by
  induction hq with
  | single hq => exact contents_memory h hn hq hp hx
  | @tail k m hnk hq ih =>
    have hk := quiet_state hnk hn
    have hpk : F.Available S k p := by
      rw [Available, place_state hk]
      rw [Available, place_state hn] at hp
      exact (quiet_dominates hnk hn).trans hp
    exact ih.trans (contents_memory h hk hq hpk hx)

/-! ## At a `Phi`

A `Phi` with one input other than itself is that input; two `Phi`s of one region and slice are one.
Both are facts of every execution, shown for the moment the region is run. -/

section Phi

variable {r k u : ℕ} {inputs : List (Option ℕ)} (hn : G.node n = .phi r k inputs)
include hn

/-- The only input of a `Phi` is made before the region is run. -/
theorem unique_before (hu : G.uniqueInput n = some u) {way : List ℕ}
    (hrun : Run F.flow F.start (r :: way)) : F.defAt u ∈ way := by
  obtain ⟨hdef, hstart⟩ := F.defAt_phi n r k inputs hn
  induction hlen : way.length using Nat.strong_induction_on generalizing way with
  | _ len ih =>
    cases hrun with
    | start => exact absurd rfl hstart
    | @step b _ way hrun hbc =>
      obtain ⟨j, i, hb, hi⟩ := F.phi_edge n r k inputs b hn hbc
      have hdom := F.phi_dominates n r k inputs j i b hn hi hb
      obtain rfl | rfl := F.unique_input n r k inputs u j i b hn hu hbc hb hi
      · exact hdom way hrun
      · -- the `Phi` was there already, and so was its input
        obtain ⟨pre, post, heq⟩ := List.append_of_mem (hdom way hrun)
        rw [heq, hdef] at hrun
        rw [heq]
        refine List.mem_append_right pre
          (List.mem_cons_of_mem _ (ih post.length ?_ hrun.suffix rfl))
        rw [← hlen, heq, List.length_append, List.length_cons]
        omega

/-- The only input of a `Phi` is made on every way to its region. -/
theorem unique_dominates (hu : G.uniqueInput n = some u) :
    Dominates F.flow F.start (F.defAt u) r :=
  fun _ hrun => List.mem_cons_of_mem r (unique_before hn hu hrun)

/-- It is not the `Phi` itself. -/
theorem unique_ne (hu : G.uniqueInput n = some u) (hs : F.IsState a n) : F.defAt u ≠ r := by
  obtain ⟨way, hrun⟩ := F.state_reached a n hs
  rw [(F.defAt_phi n r k inputs hn).1] at hrun
  obtain ⟨once, hrun, hnot⟩ := hrun.exists_once
  exact fun heq => hnot (heq ▸ unique_before hn hu hrun)

/-- It is a state of the slice. -/
theorem unique_state (hu : G.uniqueInput n = some u) (hs : F.IsState a n) : F.IsState a u :=
  F.state_input a n r k inputs u hs hn (F.unique_mem n r k inputs u hn hu)

/-- A `Phi` with only one input is that input. -/
theorem contents_unique (hu : G.uniqueInput n = some u) (hs : F.IsState a n)
    (h : F.Exec S (p :: l) s) (hp : F.Available S n p) : s n = s u := by
  have hplace : F.place S n = r := place_phi hn
  have hus := unique_state hn hu hs
  induction hlen : l.length using Nat.strong_induction_on generalizing p l s with
  | _ len ih =>
    refine Exec.stable (fun c => c = F.place S u) h hp ?_ ?_ ?_ ?_ (P := fun s => s n = s u)
    · rw [hplace]
      exact (F.defAt_phi n r k inputs hn).2
    · rintro c rfl
      rw [hplace, place_state hus]
      exact unique_dominates hn hu
    · intro b l' s₁ s₂ hsuffix hexec hstep
      rw [hplace] at hstep hsuffix
      obtain ⟨j, hphi, -⟩ := hstep.phi
      obtain ⟨i, hb, hi, heq⟩ := hphi n k inputs hn
      have hkeep : s₂ u = s₁ u := hstep.keep u (place_state hus ▸ unique_ne hn hu hs)
      have hdom := F.phi_dominates n r k inputs j i b hn hi hb
      have hbc : F.flow b r := by
        have hrun : Run F.flow F.start (r :: b :: l') := by
          obtain ⟨pre, hpre⟩ := hsuffix
          have hrun := h.run
          rw [← hpre] at hrun
          exact hrun.suffix
        cases hrun with
        | step _ hbc => exact hbc
      obtain rfl | rfl := F.unique_input n r k inputs u j i b hn hu hbc hb hi
      · exact heq.trans hkeep.symm
      · have hlt : l'.length < len := by
          have hle := hsuffix.length_le
          simp only [List.length_cons] at hle
          omega
        have hib : F.Available S i b := by
          rw [Available, place_state hs]
          exact hdom
        exact heq.trans ((ih l'.length hlt hexec hib rfl).trans hkeep.symm)
    · intro b c s₁ s₂ hc hK hstep hcell
      rw [hstep.keep n (Ne.symm hc), hstep.keep u (Ne.symm hK)]
      exact hcell

/-- The `Phi`s of a region that are states of an alias index are the same. -/
theorem contents_own {k' : ℕ} {inputs' : List (Option ℕ)} (hm : G.node m = .phi r k' inputs')
    (hs : F.IsState a n) (hs' : F.IsState a m) (h : F.Exec S (p :: l) s) (hp : F.Available S n p)
    (hx : F.idxOf x = a) : s n x = s m x := by
  have hplace : F.place S n = r := place_phi hn
  have hplace' : F.place S m = r := place_phi hm
  refine Exec.stable (fun _ => False) h hp ?_ nofun ?_ ?_ (P := fun s => s n x = s m x)
  · rw [hplace]
    exact (F.defAt_phi n r k inputs hn).2
  · intro b l' s₁ s₂ _ _ hstep
    rw [hplace] at hstep
    exact hstep.merges n m k k' inputs inputs' x hn hm (hx ▸ hs) (hx ▸ hs')
  · intro b c s₁ s₂ hc _ hstep hcell
    rw [hplace] at hc
    rw [hstep.keep n (hplace ▸ Ne.symm hc), hstep.keep m (hplace' ▸ Ne.symm hc)]
    exact hcell

end Phi

/-! ## What is kept

Chains of such steps, and of new `Phi`s for old ones. A new `Phi` takes its inputs when the old one
does, so the two hold the same if their inputs do, which is an induction on the execution. -/

/-- What holds the contents is made no later. -/
theorem kept_dominates (h : F.Kept S a n m) (hn : F.IsState a n) :
    Dominates F.flow F.start (F.place S m) (F.place S n) := by
  induction h with
  | refl => exact fun _ _ => List.mem_cons_self
  | quiet hq _ ih =>
    have hk := quiet_state hq hn
    refine (ih hk).trans ?_
    rw [place_state hk, place_state hn]
    exact quiet_dominates hq hn
  | unique hphi hu _ ih =>
    have hu' := unique_state hphi hu hn
    refine (ih hu').trans ?_
    rw [place_state hu', place_phi hphi]
    exact unique_dominates hphi hu
  | split hphi hi hr _ =>
    rw [place_split hi, place_phi hphi, hr]
    exact fun _ _ => List.mem_cons_self
  | own hphi hm =>
    rw [place_phi hphi, place_phi hm]
    exact fun _ _ => List.mem_cons_self

/-- Where a state can be used, so can the one that is kept for it. -/
theorem kept_available (h : F.Kept S a n m) (hn : F.IsState a n) (hp : F.Available S n p) :
    F.Available S m p := (kept_dominates h hn).trans hp

/-- If the new `Phi`s are what the others are, what is kept is the same. -/
theorem contents_kept_of_phis (h : F.Exec S (p :: l) s) (hclosed : F.Closed S)
    (hphis : ∀ (i : ℕ) φ, S.phis[i]? = some φ → F.Available S φ.orig p →
      ∀ x, F.idxOf x = φ.aliasIdx → s φ.orig x = s (G.size + i) x)
    (hk : F.Kept S a n m) (hn : F.IsState a n) (hp : F.Available S n p) (hx : F.idxOf x = a) :
    s n x = s m x := by
  induction hk with
  | refl => rfl
  | quiet hq _ ih =>
    have hk := quiet_state hq hn
    have hpk := (kept_dominates (.quiet hq .refl) hn).trans hp
    exact (contents_quiet h hn hq hp hx).trans (ih hk hpk)
  | unique hphi hu _ ih =>
    have hus := unique_state hphi hu hn
    have hpu := (kept_dominates (.unique hphi hu .refl) hn).trans hp
    exact (congrFun (contents_unique hphi hu hn h hp) x).trans (ih hus hpu)
  | @split n r k inputs i φ hphi hi hr ha =>
    obtain ⟨horig, k', inputs', horigPhi, -⟩ := hclosed i φ hi
    rw [hr] at horigPhi
    rw [ha] at horig
    have hpo : F.Available S φ.orig p := by
      rw [Available, place_phi horigPhi]
      rw [Available, place_phi hphi] at hp
      exact hp
    exact (contents_own hphi horigPhi hn horig h hp hx).trans
      (hphis i φ hi hpo x (hx.trans ha.symm))
  | own hphi hm => exact contents_own hphi hm hn (F.state_own _ _ _ _ hm) h hp hx

/-- A new `Phi` is what the one is that it was split from. -/
theorem contents_split (hclosed : F.Closed S) {i : ℕ} {φ : SplitPhi} (h : F.Exec S (p :: l) s)
    (hi : S.phis[i]? = some φ) (hp : F.Available S φ.orig p) (hx : F.idxOf x = φ.aliasIdx) :
    s φ.orig x = s (G.size + i) x := by
  induction hlen : l.length using Nat.strong_induction_on generalizing p l s i φ x with
  | _ len ih =>
    obtain ⟨hs, k, inputs, horig, hlength, hinputs⟩ := hclosed i φ hi
    have hplace : F.place S φ.orig = φ.region := place_phi horig
    refine Exec.stable (fun _ => False) h hp ?_ nofun ?_ ?_
      (P := fun s => s φ.orig x = s (G.size + i) x)
    · rw [hplace]
      exact (F.defAt_phi _ _ _ _ horig).2
    · intro b l' s₁ s₂ hsuffix hexec hstep
      rw [hplace] at hstep hsuffix
      obtain ⟨j, hphi, hnew⟩ := hstep.phi
      obtain ⟨i₀, hb, hi₀, heq⟩ := hphi φ.orig k inputs horig
      -- the input of the new `Phi` on that path
      obtain ⟨hj, -⟩ := List.getElem?_eq_some_iff.1 hi₀
      obtain ⟨i', hj'⟩ : ∃ i', φ.inputs[j]? = some i' :=
        ⟨_, List.getElem?_eq_getElem (hlength ▸ hj)⟩
      cases hinputs j _ _ hi₀ hj' with
      | @some _ m hkept =>
        have hlt : l'.length < len := by
          have hle := hsuffix.length_le
          simp only [List.length_cons] at hle
          omega
        have hstate : F.IsState φ.aliasIdx i₀ :=
          F.state_input _ _ _ _ _ _ hs horig (List.mem_of_getElem? hi₀)
        have hib : F.Available S i₀ b := by
          rw [Available, place_state hstate]
          exact F.phi_dominates _ _ _ _ j i₀ b horig hi₀ hb
        have hcell := contents_kept_of_phis hexec hclosed
          (fun i' φ' hi' hp' x' hx' => ih l'.length hlt hexec hi' hp' hx' rfl) hkept hstate hib hx
        rw [heq, hnew i φ m hi rfl hj']
        exact hcell
    · intro b c s₁ s₂ hc _ hstep hcell
      rw [hplace] at hc
      rw [hstep.keep _ (hplace ▸ Ne.symm hc), hstep.keep _ (place_split hi ▸ Ne.symm hc)]
      exact hcell

/-- What is kept is the same in every execution. -/
theorem contents_kept (hclosed : F.Closed S) (h : F.Exec S (p :: l) s) (hk : F.Kept S a n m)
    (hn : F.IsState a n) (hp : F.Available S n p) (hx : F.idxOf x = a) : s n x = s m x :=
  contents_kept_of_phis h hclosed
    (fun _ _ hi hp' _ hx' => contents_split hclosed h hi hp' hx') hk hn hp hx

end SliceFlow

end StackAllocation
