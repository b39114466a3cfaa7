import StackAllocation.Dominance

/-!
# Executions of a control flow graph

A run together with the states that it goes through. What is true right after a node is run, and is
not made false by the nodes that dominate it nor by the others, is true wherever the node dominates
(`Exec.stable`): between the last run of the node and that point nothing that dominates the node is
run again.
-/

namespace Dominance

universe u v

variable {α : Type u} {S : Type v} (edge : α → α → Prop) (start : α) (init : S → Prop)
  (step : α → α → S → S → Prop)

/-- A run, its latest node first, and the state at its end. -/
inductive Exec : List α → S → Prop
  | start {s : S} (h : init s) : Exec [start] s
  | step {b c : α} {l : List α} {s s' : S} (h : Exec (b :: l) s) (hbc : edge b c)
    (hstep : step b c s s') : Exec (c :: b :: l) s'

variable {edge start init step}

theorem Exec.run {l : List α} {s : S} (h : Exec edge start init step l s) : Run edge start l := by
  induction h with
  | start _ => exact .start
  | step _ hbc _ ih => exact .step ih hbc

/-- What is true after an earlier node stays true if no node since makes it false. -/
theorem Exec.keep {pre l : List α} {d : α} {s : S} {P : S → Prop}
    (h : Exec edge start init step (pre ++ d :: l) s)
    (hafter : ∀ s', Exec edge start init step (d :: l) s' → P s')
    (hkeep : ∀ b c s s', c ∈ pre → step b c s s' → P s → P s') : P s := by
  induction pre generalizing s with
  | nil => exact hafter s h
  | cons c pre ih =>
    have hrest : ∀ b c s s', c ∈ pre → step b c s s' → P s → P s' :=
      fun b c s s' hc => hkeep b c s s' (List.mem_cons_of_mem _ hc)
    cases pre with
    | nil =>
      cases h with
      | step h _ hstep => exact hkeep _ _ _ _ List.mem_cons_self hstep (ih h hrest)
    | cons e pre =>
      cases h with
      | step h _ hstep => exact hkeep _ _ _ _ List.mem_cons_self hstep (ih h hrest)

variable [DecidableEq α]

/-- What dominates a node is not run after the last run of the node. -/
theorem notMem_of_dominates {pre l : List α} {d k e : α} {rest : List α}
    (hrun : Run edge start (e :: rest)) (heq : e :: rest = pre ++ d :: l) (hd : d ∉ pre)
    (hkd : Dominates edge start k d) (hde : Dominates edge start d e) : k ∉ pre := by
  intro hk
  have hle := time_le hrun hkd hde
  rw [heq] at hle
  have hlt : time d (pre ++ d :: l) < time k (pre ++ d :: l) := by
    clear hle heq
    induction pre with
    | nil => exact absurd hk List.not_mem_nil
    | cons c pre ih =>
      rw [List.mem_cons, not_or] at hd
      rw [List.cons_append, time, time, if_neg (Ne.symm hd.1)]
      split
      · exact Nat.lt_succ_of_le (time_le_length d _)
      · next hck => exact ih hd.2 ((List.mem_cons.1 hk).resolve_left (Ne.symm hck))
  exact Nat.not_le_of_lt hlt hle

/-- What is true after each run of `d`, and made false by no node but `d` and some that dominate it,
is true wherever `d` dominates. -/
theorem Exec.stable {d e : α} {l : List α} {s : S} {P : S → Prop} (K : α → Prop)
    (h : Exec edge start init step (e :: l) s) (hde : Dominates edge start d e) (hd : d ≠ start)
    (hK : ∀ k, K k → Dominates edge start k d)
    (hafter : ∀ b l' s₁ s₂, (d :: b :: l') <:+ (e :: l) → Exec edge start init step (b :: l') s₁ →
      step b d s₁ s₂ → P s₂)
    (hkeep : ∀ b c s₁ s₂, c ≠ d → ¬ K c → step b c s₁ s₂ → P s₁ → P s₂) : P s := by
  obtain ⟨pre, post, heq, hpre⟩ := List.eq_append_cons_of_mem (hde l h.run)
  have hrun := h.run
  have hnot : ∀ k, K k → k ∉ pre := fun k hk =>
    notMem_of_dominates hrun heq hpre (hK k hk) hde
  have hsuffix : (d :: post) <:+ (e :: l) := ⟨pre, heq.symm⟩
  rw [heq] at h
  refine h.keep (fun s' h' => ?_) fun b c s₁ s₂ hc => ?_
  · cases h' with
    | start _ => exact absurd rfl hd
    | step h' _ hstep => exact hafter _ _ _ _ hsuffix h' hstep
  · exact hkeep b c s₁ s₂ (fun heq' => hpre (heq' ▸ hc)) fun hk => hnot c hk hc

end Dominance
