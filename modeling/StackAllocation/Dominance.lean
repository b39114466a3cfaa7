import Mathlib.Data.List.Basic
import Mathlib.Order.Lattice.Nat
import Mathlib.Data.Nat.Notation

/-!
# Dominance

Runs of a control flow graph from its start, as lists with the latest node first. A node
dominates another if every run to the other goes through it. On a run that ends in a node which
`m` dominates, what dominates `m` was last run no later than `m` (`Dominance.time_le`): a value
that was there at `m` is not made anew after it.
-/

namespace Dominance

universe u

variable {α : Type u} (edge : α → α → Prop) (start : α)

/-- A run from the start, its latest node first. -/
inductive Run : List α → Prop
  | start : Run [start]
  | step {b c : α} {l : List α} (h : Run (b :: l)) (hbc : edge b c) : Run (c :: b :: l)

/-- Every run to `m` goes through `n`. -/
def Dominates (n m : α) : Prop := ∀ l, Run edge start (m :: l) → n ∈ m :: l

variable {edge start}

/-- Every run goes through the start. -/
theorem Run.start_mem {l : List α} (h : Run edge start l) : start ∈ l := by
  induction h with
  | start => exact List.mem_singleton.2 rfl
  | step _ _ ih => exact List.mem_cons_of_mem _ ih

/-- An earlier part of a run is a run. -/
theorem Run.suffix {pre l : List α} {c : α} (h : Run edge start (pre ++ c :: l)) :
    Run edge start (c :: l) := by
  induction pre with
  | nil => exact h
  | cons d pre ih =>
    refine ih ?_
    cases pre with
    | nil =>
      cases h with
      | step h _ => exact h
    | cons e pre =>
      cases h with
      | step h _ => exact h

/-- The way to a node can be replaced by another. -/
theorem Run.graft {pre l l' : List α} {c : α} (h : Run edge start (pre ++ c :: l))
    (h' : Run edge start (c :: l')) : Run edge start (pre ++ c :: l') := by
  induction pre with
  | nil => exact h'
  | cons d pre ih =>
    cases pre with
    | nil =>
      cases h with
      | step _ hcd => exact .step h' hcd
    | cons e pre =>
      cases h with
      | step h hed => exact .step (ih h) hed

/-- What dominates a node dominates what it dominates. -/
theorem Dominates.trans {k m n : α} (h : Dominates edge start k m)
    (h' : Dominates edge start m n) : Dominates edge start k n := by
  intro l hrun
  obtain ⟨pre, post, heq⟩ := List.append_of_mem (h' l hrun)
  rw [heq] at hrun ⊢
  exact List.mem_append_right pre (h post hrun.suffix)

/-- What dominates a node dominates those that the flow comes from. -/
theorem Dominates.of_edge {n b c : α} (h : Dominates edge start n c) (hbc : edge b c)
    (hne : n ≠ c) : Dominates edge start n b :=
  fun l hrun => (List.mem_cons.1 (h (b :: l) (hrun.step hbc))).resolve_left hne

/-- Nothing but the start dominates the start. -/
theorem Dominates.ne_start {n m : α} (h : Dominates edge start n m) (hn : n ≠ start) :
    m ≠ start := by
  rintro rfl
  exact hn (List.mem_singleton.1 (h [] .start))

/-- A node that is reached is reached without going through it before. -/
theorem Run.exists_once {c : α} {l : List α} (h : Run edge start (c :: l)) :
    ∃ l', Run edge start (c :: l') ∧ c ∉ l' := by
  classical
  induction hlen : l.length using Nat.strong_induction_on generalizing l with
  | _ k ih =>
    by_cases hc : c ∈ l
    · obtain ⟨pre, post, rfl⟩ := List.append_of_mem hc
      rw [← List.cons_append] at h
      refine ih post.length ?_ h.suffix rfl
      rw [← hlen, List.length_append, List.length_cons]
      omega
    · exact ⟨l, h, hc⟩

variable (edge start) in
/-- The length of the shortest run to a node. -/
noncomputable def distance (c : α) : ℕ := sInf {n | ∃ l, Run edge start (c :: l) ∧ l.length = n}

/-- What dominates a node is closer to the start. -/
theorem Dominates.distance_lt {d c : α} {l : List α} (h : Dominates edge start d c) (hne : d ≠ c)
    (hrun : Run edge start (c :: l)) : distance edge start d < distance edge start c := by
  obtain ⟨way, hway, hlen⟩ : distance edge start c ∈
      {n | ∃ l, Run edge start (c :: l) ∧ l.length = n} := Nat.sInf_mem ⟨l.length, l, hrun, rfl⟩
  obtain ⟨pre, post, rfl⟩ := List.append_of_mem ((List.mem_cons.1 (h way hway)).resolve_left hne)
  rw [← List.cons_append] at hway
  have hle : distance edge start d ≤ post.length := Nat.sInf_le ⟨post, hway.suffix, rfl⟩
  rw [← hlen, List.length_append, List.length_cons]
  omega

variable [DecidableEq α]

/-- When a node was last run, 0 if it was not. -/
def time (n : α) : List α → ℕ
  | [] => 0
  | c :: l => if c = n then l.length + 1 else time n l

/-- The node that is just run has the latest time. -/
theorem time_cons_self (n : α) (l : List α) : time n (n :: l) = l.length + 1 := if_pos rfl

/-- The times of all others stay. -/
theorem time_cons_of_ne {n c : α} (l : List α) (h : c ≠ n) : time n (c :: l) = time n l := if_neg h

/-- No time is later than the run is long. -/
theorem time_le_length (n : α) (l : List α) : time n l ≤ l.length := by
  induction l with
  | nil => exact Nat.le_refl 0
  | cons c l ih =>
    rw [time]
    split
    · exact Nat.le_refl _
    · exact Nat.le_succ_of_le ih

/-- What was run has a time. -/
theorem time_pos {n : α} {l : List α} (h : n ∈ l) : 0 < time n l := by
  induction l with
  | nil => exact absurd h List.not_mem_nil
  | cons c l ih =>
    rw [time]
    split
    · exact Nat.succ_pos _
    · next hne => exact ih ((List.mem_cons.1 h).resolve_left (Ne.symm hne))

/-- Two nodes are not run at once. -/
theorem eq_of_time_eq {n m : α} {l : List α} (hn : n ∈ l) (h : time n l = time m l) : n = m := by
  induction l with
  | nil => exact absurd hn List.not_mem_nil
  | cons c l ih =>
    rw [time, time] at h
    have hlen := time_le_length n l
    have hlen' := time_le_length m l
    split at h
    · next hcn =>
      split at h
      · next hcm => exact hcn.symm.trans hcm
      · omega
    · next hcn =>
      split at h
      · omega
      · exact ih ((List.mem_cons.1 hn).resolve_left (Ne.symm hcn)) h

/-- If nothing leads to the start, it is the first node of a run only. -/
theorem Run.time_start {l : List α} (h : Run edge start l) (hstart : ∀ b, ¬ edge b start) :
    time start l = 1 := by
  induction h with
  | start => exact time_cons_self start []
  | step _ hbc ih => exact (time_cons_of_ne _ fun heq => hstart _ (heq ▸ hbc)).trans ih

/-- A node that was run later than another stands before it. -/
theorem exists_split_of_time_lt {n m : α} {l : List α} (h : time m l < time n l) :
    ∃ pre post, l = pre ++ n :: post ∧ m ∉ pre ∧ m ≠ n := by
  induction l with
  | nil => exact absurd h (Nat.lt_irrefl _)
  | cons c l ih =>
    rw [time, time] at h
    have hlen := time_le_length n l
    split at h
    · split at h
      · exact absurd h (Nat.lt_irrefl _)
      · omega
    · next hcm =>
      split at h
      · next hcn =>
        refine ⟨[], l, ?_, List.not_mem_nil, fun hmn => hcm (hcn.trans hmn.symm)⟩
        rw [hcn]
        rfl
      · obtain ⟨pre, post, rfl, hpre, hne⟩ := ih h
        refine ⟨c :: pre, post, rfl, ?_, hne⟩
        rw [List.mem_cons, not_or]
        exact ⟨Ne.symm hcm, hpre⟩

/-- The first time that a node was run. -/
theorem exists_first {m : α} {l : List α} (h : m ∈ l) :
    ∃ pre post, l = pre ++ m :: post ∧ m ∉ post := by
  induction l with
  | nil => exact absurd h List.not_mem_nil
  | cons c l ih =>
    by_cases hm : m ∈ l
    · obtain ⟨pre, post, rfl, hpost⟩ := ih hm
      exact ⟨c :: pre, post, rfl, hpost⟩
    · obtain rfl := (List.mem_cons.1 h).resolve_right hm
      exact ⟨[], l, rfl, hm⟩

/-- What dominates `m` was last run no later than `m`, on a run to what `m` dominates. -/
theorem time_le {n m e : α} {l : List α} (hrun : Run edge start (e :: l))
    (hnm : Dominates edge start n m) (hme : Dominates edge start m e) :
    time n (e :: l) ≤ time m (e :: l) := by
  by_contra hlt
  obtain ⟨pre, post, heq, hpre, hne⟩ := exists_split_of_time_lt (Nat.lt_of_not_le hlt)
  -- `n` was run before `m` was run at all: take that way to `n`, and go on from the last `n`
  obtain ⟨before, first, hfirst, hnot⟩ := exists_first (hme l hrun)
  have hrunFirst : Run edge start (m :: first) := (hfirst ▸ hrun).suffix
  have hmem : n ∈ first := (List.mem_cons.1 (hnm first hrunFirst)).resolve_left (Ne.symm hne)
  obtain ⟨mid, way, hway⟩ := List.append_of_mem hmem
  have hrunWay : Run edge start (n :: way) := by
    rw [hway, ← List.cons_append] at hrunFirst
    exact hrunFirst.suffix
  have hshort : Run edge start (pre ++ n :: way) := (heq ▸ hrun).graft hrunWay
  have hmissing : m ∉ pre ++ n :: way := by
    rw [List.mem_append, List.mem_cons, not_or, not_or]
    refine ⟨hpre, hne, fun hmway => hnot ?_⟩
    rw [hway]
    exact List.mem_append_right mid (List.mem_cons_of_mem n hmway)
  cases pre with
  | nil =>
    obtain ⟨rfl, -⟩ := List.cons.inj heq
    exact hmissing (hme way hshort)
  | cons d pre =>
    obtain ⟨rfl, -⟩ := List.cons.inj heq
    exact hmissing (hme _ hshort)

end Dominance
