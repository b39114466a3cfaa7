import StackAllocation.NodeGraph
import Mathlib.Logic.Function.Iterate

/-!
# Nodes that know their users

A node keeps an array of the nodes that have it for an input, one entry for each input. To replace
an input deletes an entry from one array and adds one to another. A loop over the users of a node
that replaces inputs on its way reads an array that changes under it: after a turn that has
deleted entries it stays where it is, else it goes on. It ends, and misses no user, if deleting
an entry leaves those before it in place (`forUses_spec`).
-/

/-- The index is before every entry of the user. -/
def BeforeUser (u : ℕ) (l : List ℕ) (i : ℕ) : Prop := ∀ j, j ≤ i → ∃ v, l[j]? = some v ∧ v ≠ u

/-- The arrays of users: how an entry is added and deleted. -/
structure OutArray : Type where
  addOut : List ℕ → ℕ → List ℕ
  delOut : List ℕ → ℕ → List ℕ
  addOut_perm : ∀ l u, (addOut l u).Perm (u :: l)
  delOut_perm : ∀ l u, u ∈ l → (u :: delOut l u).Perm l
  delOut_stable : ∀ l u i, BeforeUser u l i → (delOut l u)[i]? = l[i]?

namespace OutArray

variable (D : OutArray)

/-- A user that is added has one more entry, and every other user as many as before. -/
theorem count_addOut (l : List ℕ) (u v : ℕ) :
    (D.addOut l u).count v = l.count v + if u = v then 1 else 0 := by
  rw [(D.addOut_perm l u).count_eq, List.count_cons]
  simp only [beq_iff_eq]

/-- A user that is deleted has one entry less. It has to be in the array. -/
theorem count_delOut {l : List ℕ} {u : ℕ} (h : u ∈ l) (v : ℕ) :
    (D.delOut l u).count v + (if u = v then 1 else 0) = l.count v := by
  rw [← (D.delOut_perm l u h).count_eq, List.count_cons]
  simp only [beq_iff_eq]

/-- To delete an entry makes the array shorter, which is why a loop that stays at its index ends. -/
theorem length_delOut {l : List ℕ} {u : ℕ} (h : u ∈ l) : (D.delOut l u).length < l.length := by
  have hlen := (D.delOut_perm l u h).length_eq
  rw [List.length_cons] at hlen
  omega

/-- A user that is added several times, once for each input that it reads a node by. -/
theorem count_iterate_addOut (l : List ℕ) (u v k : ℕ) :
    ((D.addOut · u)^[k] l).count v = l.count v + if u = v then k else 0 := by
  induction k with
  | zero => simp
  | succ k ih =>
    rw [Function.iterate_succ_apply', count_addOut, ih]
    split <;> omega

/-- Some entries of the user are deleted. -/
structure Deleted (u : ℕ) (l l' : List ℕ) : Prop where
  length_le : l'.length ≤ l.length
  stable : ∀ i, BeforeUser u l i → l'[i]? = l[i]?

namespace Deleted

variable {u : ℕ} {l l' l'' : List ℕ}

theorem refl (u : ℕ) (l : List ℕ) : Deleted u l l := ⟨Nat.le_refl _, fun _ _ => rfl⟩

/-- An index before every entry of the user is so after some entries of it are deleted. -/
theorem before (h : Deleted u l l') {i : ℕ} (hi : BeforeUser u l i) : BeforeUser u l' i := by
  intro j hj
  rw [h.stable j fun k hk => hi k (Nat.le_trans hk hj)]
  exact hi j hj

/-- Entries of one user are deleted in several steps, as a visit does that replaces several
inputs. -/
theorem trans (h : Deleted u l l') (h' : Deleted u l' l'') : Deleted u l l'' :=
  ⟨Nat.le_trans h'.length_le h.length_le, fun i hi =>
    (h'.stable i (h.before hi)).trans (h.stable i hi)⟩

end Deleted

/-- To delete one entry is a case of this. -/
theorem deleted_delOut {l : List ℕ} {u : ℕ} (h : u ∈ l) : Deleted u l (D.delOut l u) :=
  ⟨Nat.le_of_lt (D.length_delOut h), D.delOut_stable l u⟩

end OutArray

/-- The last entry of the user is deleted, and the last of all moves there. -/
def moveLast : List ℕ → ℕ → List ℕ
  | [], _ => []
  | x :: l, u =>
    if u ∈ l then x :: moveLast l u
    else if x = u then
      match l.getLast? with
      | none => []
      | some y => y :: l.dropLast
    else x :: l

/-- Arrays where the last entry fills the gap. -/
def OutArray.moving : OutArray where
  addOut l u := l ++ [u]
  delOut := moveLast
  addOut_perm l u := List.perm_append_singleton u l
  delOut_perm l u h := by
    induction l with
    | nil => exact absurd h List.not_mem_nil
    | cons x l ih =>
      rw [moveLast]
      split
      · next hmem => exact (List.Perm.swap x u _).trans ((ih hmem).cons x)
      · next hmem =>
        rcases List.mem_cons.1 h with rfl | h
        · rw [if_pos rfl]
          refine List.Perm.cons u ?_
          rcases List.eq_nil_or_concat l with rfl | ⟨l, y, rfl⟩
          · rfl
          · simp only [List.concat_eq_append, List.getLast?_append, List.getLast?_singleton,
              Option.some_or, List.dropLast_concat]
            exact (List.perm_append_singleton y l).symm
        · exact absurd h hmem
  delOut_stable l u := by
    induction l with
    | nil =>
      intro i h
      obtain ⟨v, hv, -⟩ := h i (Nat.le_refl i)
      rw [List.getElem?_nil] at hv
      cases hv
    | cons x l ih =>
      intro i h
      have hx : x ≠ u := by
        obtain ⟨v, hv, hne⟩ := h 0 (Nat.zero_le i)
        obtain rfl := Option.some.inj hv
        exact hne
      rw [moveLast, if_neg hx]
      split
      · cases i with
        | zero => rfl
        | succ i => exact ih i fun j hj => h (j + 1) (Nat.succ_le_succ hj)
      · rfl

/-- A graph of nodes with the arrays of their users. -/
structure UserGraph (Op : Type) : Type extends NodeGraph Op where
  outs : ℕ → List ℕ
  count_outs : ∀ n u, (outs n).count u = (ins u).count (some n)
  outs_eq_nil : ∀ n, size ≤ n → outs n = []

namespace UserGraph

open NodeGraph

variable {Op : Type}

/-- The array of a node has its users, whatever their order in it. -/
theorem mem_outs (g : UserGraph Op) (n u : ℕ) : u ∈ g.outs n ↔ g.Reads u n := by
  rw [← List.count_pos_iff, g.count_outs, List.count_pos_iff]
  rfl

/-- What a node reads is a node of the graph, as nodes beyond the size have no users. -/
theorem lt_size_of_reads (g : UserGraph Op) {n u : ℕ} (h : g.Reads u n) : n < g.size := by
  by_contra hle
  have hmem := (g.mem_outs n u).2 h
  rw [g.outs_eq_nil n (Nat.le_of_not_lt hle)] at hmem
  exact absurd hmem List.not_mem_nil

/-- The arrays of a graph, with the users in order. -/
def ofNodeGraph (g : NodeGraph Op) (hclosed : ∀ u n, g.Reads u n → n < g.size) : UserGraph Op where
  toNodeGraph := g
  outs n := (List.range g.size).flatMap fun u => List.replicate ((g.ins u).count (some n)) u
  count_outs n u := by
    have hcount : ∀ k, ((List.range k).flatMap fun u =>
        List.replicate ((g.ins u).count (some n)) u).count u =
          if u < k then (g.ins u).count (some n) else 0 := by
      intro k
      induction k with
      | zero => rfl
      | succ k ih =>
        rw [List.range_succ, List.flatMap_append, List.count_append, ih, List.flatMap_singleton,
          List.count_replicate]
        by_cases hu : u = k
        · simp [hu]
        · have hne : ¬ k = u := fun h => hu h.symm
          have hlt : u < k + 1 ↔ u < k := by omega
          simp only [beq_iff_eq, hne, if_false, hlt, Nat.add_zero]
    rw [hcount]
    split
    · rfl
    · next hle => rw [g.ins_eq_nil u (Nat.le_of_not_lt hle), List.count_nil]
  outs_eq_nil n hn := by
    refine List.flatMap_eq_nil_iff.2 fun u _ => (List.replicate_eq_nil_iff u).2 ?_
    exact List.count_eq_zero.2 fun hmem => absurd (hclosed u n hmem) (Nat.not_lt.2 hn)

/-! ## Replacing an input

To replace an input deletes one entry in the array of the old input and adds one in that of the new.
Counting the entries is enough to know that the arrays are still right. -/

/-- The arrays when a node no longer has its `i`-th input. -/
def outsWithout (D : OutArray) (g : UserGraph Op) (u i : ℕ) : ℕ → List ℕ :=
  match g.input u i with
  | some old => Function.update g.outs old (D.delOut (g.outs old) u)
  | none => g.outs

/-- Without its `i`-th input, a user has one entry less in the array of that input and as many as
before in all others. -/
theorem count_outsWithout (D : OutArray) (g : UserGraph Op) (u i n v : ℕ) :
    (g.outsWithout D u i n).count v + (if u = v ∧ g.input u i = some n then 1 else 0) =
      (g.outs n).count v := by
  unfold outsWithout
  cases hin : g.input u i with
  | none => simp
  | some old =>
    have hmem : u ∈ g.outs old := (g.mem_outs old u).2 (reads_of_input hin)
    by_cases hn : n = old
    · simp only [hn, Function.update_self, and_true]
      exact D.count_delOut hmem v
    · have hne : ¬ (u = v ∧ some old = some n) := fun h => hn (Option.some.inj h.2).symm
      simp only [Function.update_of_ne hn, if_neg hne, Nat.add_zero]

/-- How often a node reads another when one of its inputs is replaced: what was there is read once
less, and what is put there once more. -/
theorem count_setInput (g : UserGraph Op) {u i : ℕ} (h : i < (g.ins u).length) (n k v : ℕ) :
    ((g.setInput u i n).ins v).count (some k) + (if u = v ∧ g.input u i = some k then 1 else 0) =
      (g.ins v).count (some k) + if u = v ∧ n = k then 1 else 0 := by
  by_cases hv : v = u
  · have hin : g.input u i = (g.ins u)[i] := by
      rw [input, List.getElem?_eq_getElem h, Option.join_some]
    have hpos : (g.ins u)[i] = some k → 0 < (g.ins u).count (some k) := fun heq =>
      List.count_pos_iff.2 (heq ▸ List.getElem_mem h)
    rw [hv, setInput_ins_self, List.count_set h]
    simp only [beq_iff_eq, hin, true_and, Option.some.injEq]
    by_cases hk : (g.ins u)[i] = some k
    · rw [if_pos hk]
      have hpos := hpos hk
      omega
    · rw [if_neg hk]
      omega
  · have hne : ¬ (u = v) := fun h => hv h.symm
    rw [setInput_ins_of_ne _ hv, if_neg (fun h => hne h.1), if_neg (fun h => hne h.1)]

/-- A node gets another `i`-th input. -/
def setReq (D : OutArray) (g : UserGraph Op) (u i n : ℕ) : UserGraph Op :=
  if h : i < (g.ins u).length ∧ n < g.size then
    { g.setInput u i n with
      outs := Function.update (g.outsWithout D u i) n (D.addOut (g.outsWithout D u i n) u)
      count_outs := fun k v => by
        have hcount := g.count_outsWithout D u i k v
        have hset := g.count_setInput h.1 n k v
        rw [g.count_outs k v] at hcount
        by_cases hk : k = n
        · rw [hk, Function.update_self, D.count_addOut]
          rw [hk] at hcount hset
          simp only [and_true] at hset
          omega
        · rw [Function.update_of_ne hk]
          have hne : ¬ (u = v ∧ n = k) := fun h => hk h.2.symm
          rw [if_neg hne] at hset
          omega
      outs_eq_nil := fun k hk => by
        have hk' : g.size ≤ k := hk
        have hne : k ≠ n := by omega
        have hcount : ∀ v, (g.outsWithout D u i k).count v = 0 := fun v => by
          have h := g.count_outsWithout D u i k v
          rw [g.outs_eq_nil k hk', List.count_nil] at h
          omega
        rw [Function.update_of_ne hne, List.eq_nil_iff_forall_not_mem]
        exact fun v hv => Nat.ne_of_gt (List.count_pos_iff.2 hv) (hcount v) }
  else g

section

variable {D : OutArray} {g : UserGraph Op} {u i n : ℕ}

/-- In range, the nodes are those of `setInput`; only the arrays are kept besides. -/
theorem setReq_eq (h : i < (g.ins u).length ∧ n < g.size) :
    (g.setReq D u i n).toNodeGraph = g.setInput u i n := by
  rw [setReq, dif_pos h]

@[simp] theorem setReq_op : (g.setReq D u i n).op = g.op := by
  rw [setReq]
  split <;> rfl

@[simp] theorem setReq_size : (g.setReq D u i n).size = g.size := by
  rw [setReq]
  split <;> rfl

/-- An input after another was replaced. -/
theorem input_setReq (h : i < (g.ins u).length ∧ n < g.size) (v j : ℕ) :
    (g.setReq D u i n).input v j = if v = u ∧ j = i then some n else g.input v j := by
  rw [setReq_eq h, input]
  by_cases hv : v = u
  · subst hv
    rw [setInput_ins_self]
    by_cases hj : j = i
    · subst hj
      rw [if_pos ⟨rfl, rfl⟩, List.getElem?_set_self h.1, Option.join_some]
    · rw [if_neg fun h => hj h.2, List.getElem?_set_ne fun h => hj h.symm, input]
  · rw [if_neg fun h => hv h.1, setInput_ins_of_ne _ hv, input]

/-- The array of the input that is replaced loses one entry of the user. -/
theorem outs_setReq_old {old : ℕ} (h : i < (g.ins u).length ∧ n < g.size)
    (hold : g.input u i = some old) (hne : old ≠ n) :
    (g.setReq D u i n).outs old = D.delOut (g.outs old) u := by
  rw [setReq, dif_pos h]
  simp only [Function.update_of_ne hne, outsWithout, hold, Function.update_self]

/-- The array of a node that is neither the old nor the new input does not change. -/
theorem outs_setReq_of_ne {k : ℕ} (hold : g.input u i ≠ some k) (hne : k ≠ n) :
    (g.setReq D u i n).outs k = g.outs k := by
  rw [setReq]
  split
  · simp only [Function.update_of_ne hne]
    unfold outsWithout
    cases hin : g.input u i with
    | none => rfl
    | some old =>
      have hk : k ≠ old := fun h => hold (h ▸ hin)
      exact Function.update_of_ne hk _ _
  · rfl

/-- An input that is there can be replaced. -/
theorem lt_length_of_input {old : ℕ} (h : g.input u i = some old) : i < (g.ins u).length := by
  rw [input, Option.join_eq_some_iff] at h
  exact (List.getElem?_eq_some_iff.1 h).1

/-- An input that is there is a node of the graph. -/
theorem lt_size_of_input {old : ℕ} (h : g.input u i = some old) : old < g.size :=
  g.lt_size_of_reads (reads_of_input h)

end

/-! ## A copy of a node

A copy is a new node at the end, with the same inputs; it has no users yet and is one more user of
each of its inputs. -/

/-- `clone`: a new node with the operation and the inputs of another. -/
def clone (D : OutArray) (g : UserGraph Op) (b : ℕ) : UserGraph Op where
  size := g.size + 1
  op := Function.update g.op g.size (g.op b)
  ins := Function.update g.ins g.size (g.ins b)
  top := g.top
  ins_eq_nil m hm := by
    rw [Function.update_of_ne (by omega)]
    exact g.ins_eq_nil m (by omega)
  outs n := (D.addOut · g.size)^[(g.ins b).count (some n)] (g.outs n)
  count_outs n u := by
    rw [D.count_iterate_addOut, g.count_outs]
    by_cases hu : u = g.size
    · rw [hu, if_pos rfl, Function.update_self, g.ins_eq_nil _ (Nat.le_refl _), List.count_nil,
        Nat.zero_add]
    · rw [Function.update_of_ne hu, if_neg fun h => hu h.symm, Nat.add_zero]
  outs_eq_nil n hn := by
    have hnil := g.outs_eq_nil n (by omega)
    rw [← g.count_outs, hnil]
    rfl

section

variable {D : OutArray} {g : UserGraph Op} {b : ℕ}

/-- The nodes that were there keep their inputs. -/
theorem clone_input_of_ne {u : ℕ} (h : u ≠ g.size) (i : ℕ) :
    (g.clone D b).input u i = g.input u i :=
  input_congr (g := g.toNodeGraph) (Function.update_of_ne h _ _) i

/-- The copy has the inputs of the node it is a copy of. -/
theorem clone_input_self (i : ℕ) : (g.clone D b).input g.size i = g.input b i := by
  rw [input, input, clone]
  simp only [Function.update_self]

/-- A node that is no input of what is copied keeps its users. -/
theorem clone_outs {n : ℕ} (h : ∀ i, g.input b i ≠ some n) : (g.clone D b).outs n = g.outs n := by
  have hcount : (g.ins b).count (some n) = 0 := by
    refine List.count_eq_zero.2 fun hmem => ?_
    obtain ⟨i, hi⟩ := List.getElem?_of_mem hmem
    exact h i (by rw [input, hi, Option.join_some])
  rw [clone]
  simp only [hcount, Function.iterate_zero, id]

theorem clone_op_of_ne {u : ℕ} (h : u ≠ g.size) : (g.clone D b).op u = g.op u :=
  Function.update_of_ne h _ _

@[simp] theorem clone_op_self : (g.clone D b).op g.size = g.op b := Function.update_self ..

end

/-! ## Loops over users

A loop over an array that changes under it. A visit either leaves the array, and the loop goes on to
the next index, or deletes entries of this user, and the loop looks at the same index again. So it
ends, and no user is left out. -/

section

variable {σ : Type} (outs : σ → List ℕ) (visit : ℕ → σ → Option (Bool × σ))

/-- `for (i = 0; i < outcnt();)`: a visit says whether the next turn has the next index. -/
def forUses : ℕ → ℕ → σ → Option σ
  | 0, _, _ => none
  | fuel + 1, i, s =>
    match (outs s)[i]? with
    | none => some s
    | some u =>
      match visit u s with
      | none => none
      | some (next, s') => forUses fuel (if next then i + 1 else i) s'

/-- A loop over all users, with as many turns as it may take. -/
def forAllUses (s : σ) : Option σ := forUses outs visit ((outs s).length + 1) 0 s

/-- What one visit does: a user that is visited is done, and stays done; where the loop does not
go on, the user was not done and its entries, or some of them, are deleted. -/
structure VisitOk (I : σ → Prop) (Done : σ → ℕ → Prop) (u : ℕ) (s : σ) (next : Bool) (s' : σ) :
    Prop where
  keeps : I s'
  done : Done s' u
  mono : ∀ v, Done s v → Done s' v
  stay : next = true → outs s' = outs s
  less : next = false → ¬ Done s u ∧ (outs s').length < (outs s).length ∧
    OutArray.Deleted u (outs s) (outs s')

variable {outs visit}

/-- The loop ends, and every user that is left is done. -/
theorem forUses_spec {I : σ → Prop} {Done : σ → ℕ → Prop}
    (hvisit : ∀ s, I s → ∀ u ∈ outs s, ∃ next s', visit u s = some (next, s') ∧
      VisitOk outs I Done u s next s')
    {fuel i : ℕ} {s : σ} (hs : I s) (hfuel : (outs s).length < fuel + i) (hi : i ≤ (outs s).length)
    (hdone : ∀ (j v : ℕ), j < i → (outs s)[j]? = some v → Done s v) :
    ∃ s', forUses outs visit fuel i s = some s' ∧ I s' ∧ (∀ v ∈ outs s', Done s' v) ∧
      ∀ v, Done s v → Done s' v := by
  induction fuel generalizing i s with
  | zero => omega
  | succ fuel ih =>
    rw [forUses]
    cases hu : (outs s)[i]? with
    | none =>
      refine ⟨s, rfl, hs, fun v hv => ?_, fun v hv => hv⟩
      obtain ⟨j, hj⟩ := List.getElem?_of_mem hv
      have hlen : (outs s).length ≤ i := List.getElem?_eq_none_iff.1 hu
      have hjlen : j < (outs s).length := (List.getElem?_eq_some_iff.1 hj).1
      exact hdone j v (by omega) hj
    | some u =>
      obtain ⟨next, s₁, hs₁, hok⟩ := hvisit s hs u (List.mem_of_getElem? hu)
      have hilen : i < (outs s).length := (List.getElem?_eq_some_iff.1 hu).1
      simp only [hs₁]
      cases next with
      | true =>
        have hstay := hok.stay rfl
        obtain ⟨s', hs', hI, hall, hmono⟩ := ih (i := i + 1) hok.keeps (by rw [hstay]; omega)
          (by rw [hstay]; omega) fun j v hj hv => by
            rw [hstay] at hv
            rcases Nat.lt_succ_iff_lt_or_eq.1 hj with hlt | rfl
            · exact hok.mono v (hdone j v hlt hv)
            · obtain rfl := Option.some.inj (hu.symm.trans hv)
              exact hok.done
        exact ⟨s', hs', hI, hall, fun v hv => hmono v (hok.mono v hv)⟩
      | false =>
        obtain ⟨hnot, hless, hdeleted⟩ := hok.less rfl
        -- the user is not among those that are done
        have hbefore : ∀ j, j < i → BeforeUser u (outs s) j := fun j hj k hk => by
          have hklen : k < (outs s).length := by omega
          have hk := List.getElem?_eq_getElem hklen
          refine ⟨_, hk, fun hv => hnot ?_⟩
          exact hv ▸ hdone k _ (by omega) hk
        have hsame : ∀ j, j < i → (outs s₁)[j]? = (outs s)[j]? := fun j hj =>
          hdeleted.stable j (hbefore j hj)
        have hi₁ : i ≤ (outs s₁).length := by
          by_contra hlt
          have hbefore := hsame (outs s₁).length (Nat.lt_of_not_le hlt)
          rw [List.getElem?_eq_none (Nat.le_refl _), eq_comm, List.getElem?_eq_none_iff] at hbefore
          omega
        obtain ⟨s', hs', hI, hall, hmono⟩ := ih (i := i) hok.keeps (by omega) hi₁
          fun j v hj hv => hok.mono v (hdone j v hj (hsame j hj ▸ hv))
        exact ⟨s', hs', hI, hall, fun v hv => hmono v (hok.mono v hv)⟩

/-- The loop over all users of a node, from the first entry: it ends with every user done that is
left, and what was done before is so still. -/
theorem forAllUses_spec {I : σ → Prop} {Done : σ → ℕ → Prop}
    (hvisit : ∀ s, I s → ∀ u ∈ outs s, ∃ next s', visit u s = some (next, s') ∧
      VisitOk outs I Done u s next s') {s : σ} (hs : I s) :
    ∃ s', forAllUses outs visit s = some s' ∧ I s' ∧ (∀ v ∈ outs s', Done s' v) ∧
      ∀ v, Done s v → Done s' v :=
  forUses_spec hvisit hs (by omega) (Nat.zero_le _) fun j v hj => absurd hj (Nat.not_lt_zero j)

/-- A loop whose visits leave the array is a fold over it, seen from a state that each visit
follows. -/
theorem forAllUses_foldl {τ : Type} {R : σ → τ → Prop} {f : τ → ℕ → τ} {users : List ℕ}
    (houts : ∀ s t, R s t → outs s = users)
    (hvisit : ∀ s t, ∀ u ∈ users, R s t → ∃ s', visit u s = some (true, s') ∧ R s' (f t u))
    {s : σ} {t : τ} (h : R s t) :
    ∃ s', forAllUses outs visit s = some s' ∧ R s' (users.foldl f t) := by
  have hloop : ∀ fuel i s t, R s t → users.length < fuel + i → i ≤ users.length →
      ∃ s', forUses outs visit fuel i s = some s' ∧ R s' ((users.drop i).foldl f t) := by
    intro fuel
    induction fuel with
    | zero => omega
    | succ fuel ih =>
      intro i s t h hfuel hi
      rw [forUses, houts s t h]
      cases hu : users[i]? with
      | none =>
        refine ⟨s, rfl, ?_⟩
        rwa [List.drop_eq_nil_of_le (List.getElem?_eq_none_iff.1 hu), List.foldl_nil]
      | some u =>
        obtain ⟨hlt, rfl⟩ := List.getElem?_eq_some_iff.1 hu
        obtain ⟨s₁, hs₁, h₁⟩ := hvisit s t _ (List.getElem_mem hlt) h
        obtain ⟨s', hs', h'⟩ := ih (i + 1) s₁ _ h₁ (by omega) hlt
        refine ⟨s', ?_, ?_⟩
        · simp only [hs₁, if_true]
          exact hs'
        · rwa [List.drop_eq_getElem_cons hlt, List.foldl_cons]
  obtain ⟨s', hs', h'⟩ := hloop ((outs s).length + 1) 0 s t h (by rw [houts s t h]; omega)
    (Nat.zero_le _)
  exact ⟨s', hs', by rwa [List.drop_zero] at h'⟩

end

end UserGraph
