import Mathlib.Algebra.BigOperators.Group.Finset.Basic
import Mathlib.Algebra.Order.BigOperators.Group.Finset
import Mathlib.Data.List.Count
import Mathlib.Data.List.ReduceOption
import Mathlib.Tactic.Ring

/-!
# Graphs of nodes and their inputs

A graph gives each node an operation and the list of its inputs, some of which may be
missing. The uses of a node are the inputs that are this node. `replaceNode` gives the
users of a node another input, and removes the node; `removeDead` removes nodes, and with
them all nodes that have lost their last use.

What a change of a graph preserves is said by two relations. `Shrinks S` says that no
node outside `S` has gained a use, and that removed nodes stay removed; `Prunes S` says in
addition that a node that has lost its last use is removed.
-/

/-- A graph of nodes. -/
structure NodeGraph (Op : Type) : Type where
  /-- nodes from here on are not in the graph -/
  size : ℕ
  /-- the operation of a node -/
  op : ℕ → Op
  /-- the inputs of a node -/
  ins : ℕ → List (Option ℕ)
  /-- a node that is never removed -/
  top : ℕ
  ins_eq_nil : ∀ n, size ≤ n → ins n = []

namespace NodeGraph

variable {Op : Type}

/-! ## Uses

A node that reads another is a use of it, once for each input. The uses are counted, since the last
of them decides whether a node is removed. -/

section

variable (g : NodeGraph Op)

/-- The `i`-th input. -/
def input (n i : ℕ) : Option ℕ := ((g.ins n)[i]?).join

/-- One node is an input of the other. -/
def Reads (m n : ℕ) : Prop := some n ∈ g.ins m

instance (m n : ℕ) : Decidable (g.Reads m n) := inferInstanceAs (Decidable (_ ∈ _))

/-- The number of uses of a node. -/
def uses (n : ℕ) : ℕ := ∑ m ∈ Finset.range g.size, (g.ins m).count (some n)

/-- The number of inputs of all nodes. -/
def inputCount : ℕ := ∑ m ∈ Finset.range g.size, (g.ins m).length

variable {g}

/-- A node that has inputs is in the graph. -/
theorem lt_size_of_ins_ne_nil {m : ℕ} (h : g.ins m ≠ []) : m < g.size := by
  by_contra hle
  exact h (g.ins_eq_nil m (by omega))

/-- A node that reads another is in the graph. -/
theorem Reads.lt_size {m n : ℕ} (h : g.Reads m n) : m < g.size :=
  lt_size_of_ins_ne_nil (List.ne_nil_of_mem h)

/-- An input is read. -/
theorem reads_of_input {n i m : ℕ} (h : g.input n i = some m) : g.Reads n m := by
  rw [input, Option.join_eq_some_iff] at h
  exact List.mem_of_getElem? h

/-- A removed node reads nothing. -/
theorem not_reads_of_ins_eq_nil {m : ℕ} (h : g.ins m = []) (n : ℕ) : ¬ g.Reads m n := by
  rw [Reads, h]
  exact List.not_mem_nil

theorem input_eq_none_of_ins_eq_nil {m : ℕ} (h : g.ins m = []) (i : ℕ) : g.input m i = none := by
  rw [input, h]
  rfl

theorem input_congr {g' : NodeGraph Op} {m : ℕ} (h : g'.ins m = g.ins m) (i : ℕ) :
    g'.input m i = g.input m i := by
  rw [input, input, h]

/-- A node has uses if some node reads it. The uses are counted over all nodes, so this is the only
place where the sum is looked into. -/
theorem uses_pos_iff {n : ℕ} : 0 < g.uses n ↔ ∃ m, g.Reads m n := by
  rw [uses, Finset.sum_pos_iff]
  constructor
  · rintro ⟨m, -, hm⟩
    exact ⟨m, List.count_pos_iff.1 hm⟩
  · rintro ⟨m, hm⟩
    exact ⟨m, Finset.mem_range.2 hm.lt_size, List.count_pos_iff.2 hm⟩

/-- A node without uses is read by none. -/
theorem uses_eq_zero_iff {n : ℕ} : g.uses n = 0 ↔ ∀ m, ¬ g.Reads m n := by
  rw [← not_exists, ← uses_pos_iff, Nat.pos_iff_ne_zero, not_not]

/-- A node has at least as many uses as nodes that use it. -/
theorem card_le_uses {n : ℕ} {s : Finset ℕ} (h : ∀ m ∈ s, g.Reads m n) : s.card ≤ g.uses n := by
  have hsub : s ⊆ Finset.range g.size := fun m hm => Finset.mem_range.2 (h m hm).lt_size
  calc s.card = ∑ _m ∈ s, 1 := Finset.card_eq_sum_ones s
    _ ≤ ∑ m ∈ s, (g.ins m).count (some n) :=
      Finset.sum_le_sum fun m hm => List.count_pos_iff.2 (h m hm)
    _ ≤ g.uses n := Finset.sum_le_sum_of_subset hsub

end

/-! ## Removing nodes

A node that is removed loses its inputs, and what it was the last use of is removed as well. The
number of inputs in the graph bounds how often this happens. -/

/-- A node without its inputs. -/
def clear (g : NodeGraph Op) (n : ℕ) : NodeGraph Op :=
  { g with
    ins := Function.update g.ins n []
    ins_eq_nil := fun m hm => by
      by_cases h : m = n
      · rw [h, Function.update_self]
      · rw [Function.update_of_ne h, g.ins_eq_nil m hm] }

/-- The inputs of a node that lose their last use with it. -/
def newlyDead (g : NodeGraph Op) (n : ℕ) : List ℕ :=
  (g.ins n).reduceOption.dedup.filter fun m => m ≠ g.top ∧ (g.clear n).uses m = 0

theorem clear_ins_self (g : NodeGraph Op) (n : ℕ) : (g.clear n).ins n = [] :=
  Function.update_self ..

theorem clear_ins_of_ne (g : NodeGraph Op) {m n : ℕ} (h : m ≠ n) : (g.clear n).ins m = g.ins m :=
  Function.update_of_ne h ..

/-- To take away the inputs of a node makes no more of them. -/
theorem inputCount_clear_le (g : NodeGraph Op) (n : ℕ) : (g.clear n).inputCount ≤ g.inputCount := by
  refine Finset.sum_le_sum fun m _ => ?_
  by_cases h : m = n
  · rw [h, clear_ins_self]
    exact Nat.zero_le _
  · rw [clear_ins_of_ne g h]

/-- It makes less of them if there were any, so removing dead nodes ends. -/
theorem inputCount_clear_lt {g : NodeGraph Op} {n : ℕ} (h : g.ins n ≠ []) :
    (g.clear n).inputCount < g.inputCount := by
  refine Finset.sum_lt_sum (fun m _ => ?_)
    ⟨n, Finset.mem_range.2 (@lt_size_of_ins_ne_nil Op g n h), ?_⟩
  · by_cases hm : m = n
    · rw [hm, clear_ins_self]
      exact Nat.zero_le _
    · rw [clear_ins_of_ne g hm]
  · rw [clear_ins_self]
    exact List.length_pos_iff.2 h

/-- Nodes are removed, and with them all nodes that lose their last use. -/
def removeDead (g : NodeGraph Op) : List ℕ → NodeGraph Op
  | [] => g
  | n :: dead => removeDead (g.clear n) (g.newlyDead n ++ dead)
  termination_by dead => (g.inputCount, dead.length)
  decreasing_by
    by_cases h : g.ins n = []
    · have hnil : g.newlyDead n = [] := by simp [newlyDead, h]
      have hcount : (g.clear n).inputCount ≤ g.inputCount := g.inputCount_clear_le n
      rw [hnil, List.nil_append]
      rcases Nat.lt_or_eq_of_le hcount with hlt | heq
      · exact Prod.Lex.left _ _ hlt
      · rw [heq]
        exact Prod.Lex.right _ (Nat.lt_succ_self _)
    · exact Prod.Lex.left _ _ (inputCount_clear_lt h)

/-- The nodes die in this order when those of a list are removed. -/
def Dies (g : NodeGraph Op) : List ℕ → List ℕ → Prop
  | dead, [] => dead = []
  | [], _ :: _ => False
  | n :: dead, m :: order => n = m ∧ (g.clear n).Dies (g.newlyDead n ++ dead) order

instance decidableDies (g : NodeGraph Op) : ∀ dead order, Decidable (g.Dies dead order)
  | [], [] => isTrue rfl
  | _ :: _, [] => isFalse (List.cons_ne_nil _ _)
  | [], _ :: _ => isFalse id
  | n :: dead, m :: order =>
    have := decidableDies (g.clear n) (g.newlyDead n ++ dead) order
    inferInstanceAs (Decidable (n = m ∧ (g.clear n).Dies (g.newlyDead n ++ dead) order))

/-- What is left when some nodes are removed, by the order in which they die. -/
theorem removeDead_eq_foldl {g : NodeGraph Op} {dead order : List ℕ} (h : g.Dies dead order) :
    g.removeDead dead = order.foldl clear g := by
  induction order generalizing g dead with
  | nil =>
    cases dead with
    | nil => rw [removeDead, List.foldl_nil]
    | cons n dead => exact absurd h (List.cons_ne_nil _ _)
  | cons m order ih =>
    cases dead with
    | nil => exact h.elim
    | cons n dead =>
      obtain ⟨rfl, h⟩ := h
      rw [removeDead, List.foldl_cons]
      exact ih h

/-- What a node has for an input when one node is replaced. -/
def swapInput (old new : ℕ) (i : Option ℕ) : Option ℕ := if i = some old then some new else i

/-- The users of a node get another input instead. -/
def redirect (g : NodeGraph Op) (old new : ℕ) : NodeGraph Op :=
  { g with
    ins := fun m => (g.ins m).map (swapInput old new)
    ins_eq_nil := fun m hm => by rw [g.ins_eq_nil m hm, List.map_nil] }

/-- A node is replaced by another. -/
def replaceNode (g : NodeGraph Op) (old new : ℕ) : NodeGraph Op :=
  (g.redirect old new).removeDead [old]

/-- A node gets another input wherever it has a certain one. -/
def replaceEdge (g : NodeGraph Op) (n old new : ℕ) : NodeGraph Op :=
  { g with
    ins := Function.update g.ins n ((g.ins n).map (swapInput old new))
    ins_eq_nil := fun m hm => by
      by_cases h : m = n
      · rw [h, Function.update_self, g.ins_eq_nil n (h ▸ hm), List.map_nil]
      · rw [Function.update_of_ne h, g.ins_eq_nil m hm] }

/-- A node gets another `i`-th input. -/
def setInput (g : NodeGraph Op) (n i new : ℕ) : NodeGraph Op :=
  { g with
    ins := Function.update g.ins n ((g.ins n).set i (some new))
    ins_eq_nil := fun m hm => by
      by_cases h : m = n
      · rw [h, Function.update_self, g.ins_eq_nil n (h ▸ hm), List.set_nil]
      · rw [Function.update_of_ne h, g.ins_eq_nil m hm] }

theorem redirect_ins (g : NodeGraph Op) (old new m : ℕ) :
    (g.redirect old new).ins m = (g.ins m).map (swapInput old new) := rfl

theorem replaceEdge_ins_self (g : NodeGraph Op) (n old new : ℕ) :
    (g.replaceEdge n old new).ins n = (g.ins n).map (swapInput old new) :=
  Function.update_self ..

theorem replaceEdge_ins_of_ne (g : NodeGraph Op) {m n : ℕ} (h : m ≠ n) (old new : ℕ) :
    (g.replaceEdge n old new).ins m = g.ins m :=
  Function.update_of_ne h ..

theorem setInput_ins_self (g : NodeGraph Op) (n i new : ℕ) :
    (g.setInput n i new).ins n = (g.ins n).set i (some new) :=
  Function.update_self ..

theorem setInput_ins_of_ne (g : NodeGraph Op) {m n : ℕ} (h : m ≠ n) (i new : ℕ) :
    (g.setInput n i new).ins m = g.ins m :=
  Function.update_of_ne h ..

/-! ## Graphs that shrink

Two relations between graphs before and after. In both no node but the named ones gains a use; in
the second what loses its last use is gone. Both can be put together step by step. -/

/-- No node outside `S` gains a use. -/
structure Shrinks (S : ℕ → Prop) (g g' : NodeGraph Op) : Prop where
  size_eq : g'.size = g.size
  op_eq : g'.op = g.op
  top_eq : g'.top = g.top
  count_le : ∀ m n, ¬ S n → (g'.ins m).count (some n) ≤ (g.ins m).count (some n)
  nil : ∀ m, g.ins m = [] → g'.ins m = []
  /-- an input changes to a node of `S` only -/
  input_or : ∀ m i n, g'.input m i = some n → g.input m i = some n ∨ S n

/-- No node outside `S` gains a use, and a node that loses its last use is removed. -/
structure Prunes (S : ℕ → Prop) (g g' : NodeGraph Op) : Prop extends Shrinks S g g' where
  dead : ∀ n, n ≠ g.top → 0 < g.uses n → g'.uses n = 0 → g'.ins n = []

section

variable {S : ℕ → Prop} {g g' g'' : NodeGraph Op}

theorem Shrinks.refl (g : NodeGraph Op) : Shrinks S g g :=
  ⟨rfl, rfl, rfl, fun _ _ _ => Nat.le_refl _, fun _ h => h, fun _ _ _ h => .inl h⟩

/-- Changes one after the other. The nodes that may gain uses are the same for all of them. -/
theorem Shrinks.trans (h : Shrinks S g g') (h' : Shrinks S g' g'') : Shrinks S g g'' where
  size_eq := h'.size_eq.trans h.size_eq
  op_eq := h'.op_eq.trans h.op_eq
  top_eq := h'.top_eq.trans h.top_eq
  count_le m n hn := (h'.count_le m n hn).trans (h.count_le m n hn)
  nil m hm := h'.nil m (h.nil m hm)
  input_or m i n hn := (h'.input_or m i n hn).elim (h.input_or m i n) .inr

/-- What is read after the changes was read before, but for the nodes of `S`. -/
theorem Shrinks.reads (h : Shrinks S g g') {m n : ℕ} (hn : ¬ S n) (hr : g'.Reads m n) :
    g.Reads m n :=
  List.count_pos_iff.1 ((List.count_pos_iff.2 hr).trans_le (h.count_le m n hn))

/-- A node outside `S` has no more uses than before. -/
theorem Shrinks.uses_le (h : Shrinks S g g') {n : ℕ} (hn : ¬ S n) : g'.uses n ≤ g.uses n := by
  rw [uses, uses, h.size_eq]
  exact Finset.sum_le_sum fun m _ => h.count_le m n hn

/-- A node that is no longer an input of another has lost a use. -/
theorem Shrinks.uses_lt (h : Shrinks S g g') {m n : ℕ} (hn : ¬ S n) (hr : g.Reads m n)
    (hm : ¬ g'.Reads m n) : g'.uses n < g.uses n := by
  rw [uses, uses, h.size_eq]
  refine Finset.sum_lt_sum (fun m _ => h.count_le m n hn)
    ⟨m, Finset.mem_range.2 hr.lt_size, ?_⟩
  rw [List.count_eq_zero.2 hm]
  exact List.count_pos_iff.2 hr

theorem Prunes.refl (g : NodeGraph Op) : Prunes S g g where
  toShrinks := .refl g
  dead _ _ hpos hzero := absurd hzero hpos.ne'

/-- What loses its last use in one of two changes is removed by one of them: a node without inputs
gets none back. -/
theorem Prunes.trans (h : Prunes S g g') (h' : Prunes S g' g'') : Prunes S g g'' where
  toShrinks := h.toShrinks.trans h'.toShrinks
  dead n hn hpos hzero := by
    rcases Nat.eq_zero_or_pos (g'.uses n) with hmid | hmid
    · exact h'.nil n (h.dead n hn hpos hmid)
    · exact h'.dead n (h.top_eq ▸ hn) hmid hzero

/-- A node none of whose users is left is removed. -/
theorem Prunes.removed (h : Prunes S g g') {n : ℕ} (hn : ¬ S n) (htop : n ≠ g.top)
    (hpos : ∃ m, g.Reads m n) (hall : ∀ m, g.Reads m n → g'.ins m = []) : g'.ins n = [] := by
  refine h.dead n htop (uses_pos_iff.2 hpos) (uses_eq_zero_iff.2 fun m hm => ?_)
  exact not_reads_of_ins_eq_nil (hall m (h.reads hn hm)) n hm

/-! ## What the changes preserve

Every operation on graphs is in one of the relations. A proof about a routine that makes many
changes is then a chain of these lemmas. -/

/-- To take away the inputs of a node. -/
theorem shrinks_clear (S : ℕ → Prop) (g : NodeGraph Op) (n : ℕ) : Shrinks S g (g.clear n) where
  size_eq := rfl
  op_eq := rfl
  top_eq := rfl
  count_le m k _ := by
    by_cases h : m = n
    · rw [h, clear_ins_self]
      exact Nat.zero_le _
    · rw [clear_ins_of_ne g h]
  nil m hm := by
    by_cases h : m = n
    · rw [h, clear_ins_self]
    · rw [clear_ins_of_ne g h, hm]
  input_or m i k hk := by
    by_cases h : m = n
    · rw [h, input_eq_none_of_ins_eq_nil (g.clear_ins_self n)] at hk
      cases hk
    · exact .inl (input_congr (clear_ins_of_ne g h) i ▸ hk)

/-- A node that loses its last use with another node. -/
theorem mem_newlyDead {n m : ℕ} (hm : m ≠ g.top) (hpos : 0 < g.uses m)
    (hzero : (g.clear n).uses m = 0) : m ∈ g.newlyDead n := by
  obtain ⟨k, hk⟩ := uses_pos_iff.1 hpos
  have hkn : k = n := by
    by_contra hne
    refine uses_eq_zero_iff.1 hzero k ?_
    rw [Reads, clear_ins_of_ne g hne]
    exact hk
  rw [newlyDead, List.mem_filter, List.mem_dedup, List.reduceOption_mem_iff]
  exact ⟨hkn ▸ hk, by simp [hm, hzero]⟩

/-- Removing nodes removes them, and whatever loses its last use. -/
theorem prunes_removeDead (S : ℕ → Prop) (g : NodeGraph Op) (dead : List ℕ) :
    Prunes S g (g.removeDead dead) ∧ ∀ n ∈ dead, (g.removeDead dead).ins n = [] := by
  induction g, dead using removeDead.induct with
  | case1 g =>
    rw [removeDead]
    exact ⟨.refl g, fun n hn => absurd hn List.not_mem_nil⟩
  | case2 g n dead ih =>
    rw [removeDead]
    obtain ⟨hprunes, hdead⟩ := ih
    have hshrinks := (shrinks_clear S g n).trans hprunes.toShrinks
    refine ⟨⟨hshrinks, fun m hm hpos hzero => ?_⟩, fun m hm => ?_⟩
    · rcases Nat.eq_zero_or_pos ((g.clear n).uses m) with hmid | hmid
      · exact hdead m (List.mem_append_left _ (mem_newlyDead hm hpos hmid))
      · exact hprunes.dead m hm hmid hzero
    · rcases List.mem_cons.1 hm with rfl | hm
      · exact hprunes.nil m (g.clear_ins_self m)
      · exact hdead m (List.mem_append_right _ hm)

/-- Where one input is replaced by another, no other node is read more often than before. -/
theorem count_redirect_le {l : List (Option ℕ)} {old new n : ℕ} (h : n ≠ new) :
    (l.map (swapInput old new)).count (some n) ≤ l.count (some n) := by
  induction l with
  | nil => exact Nat.le_refl _
  | cons i l ih =>
    rw [List.map_cons, List.count_cons, List.count_cons]
    refine Nat.add_le_add ih ?_
    rw [swapInput]
    by_cases hi : i = some old
    · rw [if_pos hi, if_neg fun heq => h (Option.some.inj (beq_iff_eq.1 heq)).symm]
      exact Nat.zero_le _
    · rw [if_neg hi]

/-- Nor is any other read less often, but for what is replaced. -/
theorem count_le_redirect {l : List (Option ℕ)} {old new n : ℕ} (h : n ≠ old) :
    l.count (some n) ≤ (l.map (swapInput old new)).count (some n) := by
  induction l with
  | nil => exact Nat.le_refl _
  | cons i l ih =>
    rw [List.map_cons, List.count_cons, List.count_cons]
    refine Nat.add_le_add ih ?_
    rw [swapInput]
    by_cases hi : i = some old
    · rw [if_neg fun heq => h (Option.some.inj ((beq_iff_eq.1 heq).symm.trans hi))]
      exact Nat.zero_le _
    · rw [if_neg hi]

/-- An input that is new after a replacement is the node that was put there. -/
theorem input_swap {old new m i n : ℕ} (hnew : S new)
    (hins : g'.ins m = (g.ins m).map (swapInput old new)) (hn : g'.input m i = some n) :
    g.input m i = some n ∨ S n := by
  rw [input, hins, List.getElem?_map] at hn
  rw [input]
  cases h : (g.ins m)[i]? with
  | none => simp [h] at hn
  | some j =>
    simp only [h, Option.map_some, Option.join_some, swapInput] at hn ⊢
    split at hn
    · obtain rfl := Option.some.inj hn
      exact .inr hnew
    · exact .inl hn

/-- The replaced node is removed, and whatever loses its last use with it. -/
theorem prunes_replaceNode {old new : ℕ} (hnew : S new) :
    Prunes S g (g.replaceNode old new) ∧ (g.replaceNode old new).ins old = [] := by
  obtain ⟨hprunes, hdead⟩ := prunes_removeDead S (g.redirect old new) [old]
  have hold := hdead old List.mem_cons_self
  refine ⟨⟨⟨hprunes.size_eq, hprunes.op_eq, hprunes.top_eq, fun m n hn => ?_, fun m hm => ?_,
    fun m i n hn => ?_⟩, fun n htop hpos hzero => ?_⟩, hold⟩
  · exact (hprunes.count_le m n hn).trans
      (count_redirect_le fun heq => hn (heq ▸ hnew))
  · refine hprunes.nil m ?_
    rw [redirect_ins, hm, List.map_nil]
  · rcases hprunes.input_or m i n hn with hn | hn
    · exact input_swap hnew (redirect_ins ..) hn
    · exact .inr hn
  · by_cases hn : n = old
    · rw [hn]
      exact hold
    · refine hprunes.dead n htop (hpos.trans_le ?_) hzero
      exact Finset.sum_le_sum fun m _ => count_le_redirect hn

/-- To replace one input of one node. -/
theorem shrinks_replaceEdge {n old new : ℕ} (hnew : S new) :
    Shrinks S g (g.replaceEdge n old new) where
  size_eq := rfl
  op_eq := rfl
  top_eq := rfl
  count_le m k hk := by
    by_cases h : m = n
    · subst h
      rw [replaceEdge_ins_self]
      exact count_redirect_le fun heq => hk (heq ▸ hnew)
    · rw [replaceEdge_ins_of_ne g h]
  nil m hm := by
    by_cases h : m = n
    · subst h
      rw [replaceEdge_ins_self, hm, List.map_nil]
    · rw [replaceEdge_ins_of_ne g h, hm]
  input_or m i k hk := by
    by_cases h : m = n
    · subst h
      exact input_swap hnew (replaceEdge_ins_self ..) hk
    · exact .inl (input_congr (replaceEdge_ins_of_ne g h old new) i ▸ hk)

/-- After the replacement, the node does not have the old input. -/
theorem not_reads_replaceEdge {n old new : ℕ} (hne : old ≠ new) :
    ¬ (g.replaceEdge n old new).Reads n old := by
  rw [Reads, replaceEdge_ins_self, List.mem_map]
  rintro ⟨i, -, hi⟩
  rw [swapInput] at hi
  by_cases h : i = some old
  · rw [if_pos h] at hi
    exact hne (Option.some.inj hi).symm
  · rw [if_neg h] at hi
    exact h hi

/-- To give a node another `i`-th input. What was there may lose its last use, and stays. -/
theorem shrinks_setInput {n i new : ℕ} (hnew : S new) : Shrinks S g (g.setInput n i new) where
  size_eq := rfl
  op_eq := rfl
  top_eq := rfl
  count_le m k hk := by
    by_cases h : m = n
    · subst h
      rw [setInput_ins_self]
      have hno : ¬ ((some new == some k) = true) := fun heq =>
        hk (Option.some.inj (beq_iff_eq.1 heq) ▸ hnew)
      by_cases hi : i < (g.ins m).length
      · rw [List.count_set hi, if_neg hno]
        exact Nat.sub_le _ _
      · rw [List.set_eq_of_length_le (by omega)]
    · rw [setInput_ins_of_ne g h]
  nil m hm := by
    by_cases h : m = n
    · subst h
      rw [setInput_ins_self, hm, List.set_nil]
    · rw [setInput_ins_of_ne g h, hm]
  input_or m j k hk := by
    by_cases h : m = n
    · subst h
      by_cases hij : i = j
      · subst hij
        rw [input, setInput_ins_self, List.getElem?_set_self'] at hk
        cases hi : (g.ins m)[i]? with
        | none => simp [hi] at hk
        | some x =>
          obtain rfl : new = k := by simpa [hi] using hk
          exact .inr hnew
      · rw [input, setInput_ins_self, List.getElem?_set_ne hij] at hk
        exact .inl hk
    · exact .inl (input_congr (setInput_ins_of_ne g h i new) j ▸ hk)

end

end NodeGraph
