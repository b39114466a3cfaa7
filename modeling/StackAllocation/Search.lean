import Mathlib.Logic.Relation
import Mathlib.Data.Nat.Notation
import Mathlib.Algebra.BigOperators.Group.List.Basic
import Mathlib.Algebra.GroupWithZero.Nat

/-!
# Graph searches with a stack

Searches of a finite graph from a list of roots. `search` marks a node when it takes it from the
stack, and stops at a node it looks for, `collect` stops at none and returns what it took; `sweep`
marks a node when it puts it on the stack, and stops at a user it looks for. They keep track of
what is done and what is pending (`Explored`), so they tell exactly what can be reached, and they
end (`search_eq`, `collect_eq`, `sweep_eq`).
-/

namespace Search

universe u

variable {α : Type u} (next : α → List α)

/-- The node can be reached from one of the roots. -/
def Reach (roots : List α) (n : α) : Prop :=
  ∃ r ∈ roots, Relation.ReflTransGen (fun a b => b ∈ next a) r n

/-- The state of a search: what is done, and what is still on the stack. -/
structure Explored (roots pending done : List α) : Prop where
  root : ∀ r ∈ roots, r ∈ done ∨ r ∈ pending
  reach : ∀ n, n ∈ done ∨ n ∈ pending → Reach next roots n
  closed : ∀ n ∈ done, ∀ m ∈ next n, m ∈ done ∨ m ∈ pending

variable {next} {roots pending done : List α}

theorem Reach.step {n m : α} (h : Reach next roots n) (hm : m ∈ next n) : Reach next roots m := by
  obtain ⟨r, hr, hpath⟩ := h
  exact ⟨r, hr, hpath.tail hm⟩

theorem Explored.start : Explored next roots roots [] where
  root := fun _ hr => .inr hr
  reach := fun n hn => ⟨n, hn.resolve_left List.not_mem_nil, .refl⟩
  closed := fun _ hn => absurd hn List.not_mem_nil

/-- A node that is done already is dropped from the stack. -/
theorem Explored.skip {n : α} (h : Explored next roots (n :: pending) done) (hn : n ∈ done) :
    Explored next roots pending done := by
  have hmove : ∀ m, m ∈ done ∨ m ∈ n :: pending → m ∈ done ∨ m ∈ pending := by
    rintro m (hm | hm)
    · exact .inl hm
    · obtain rfl | hm := List.mem_cons.1 hm
      · exact .inl hn
      · exact .inr hm
  refine ⟨fun r hr => hmove r (h.root r hr), fun m hm => h.reach m ?_, fun m hm k hk => ?_⟩
  · exact hm.imp_right (List.mem_cons_of_mem n)
  · exact hmove k (h.closed m hm k hk)

/-- A node is done when its successors are, or are on the stack. -/
theorem Explored.expand {n : α} {pending' : List α} (h : Explored next roots (n :: pending) done)
    (hkeep : ∀ m ∈ pending, m ∈ pending')
    (hnew : ∀ m ∈ pending', m ∈ pending ∨ m ∈ next n)
    (hnext : ∀ m ∈ next n, m ∈ n :: done ∨ m ∈ pending') :
    Explored next roots pending' (n :: done) := by
  have hmove : ∀ m, m ∈ done ∨ m ∈ n :: pending → m ∈ n :: done ∨ m ∈ pending' := by
    rintro m (hm | hm)
    · exact .inl (List.mem_cons_of_mem n hm)
    · obtain rfl | hm := List.mem_cons.1 hm
      · exact .inl List.mem_cons_self
      · exact .inr (hkeep m hm)
  have hn : Reach next roots n := h.reach n (.inr List.mem_cons_self)
  refine ⟨fun r hr => hmove r (h.root r hr), ?_, ?_⟩
  · rintro m (hm | hm)
    · obtain rfl | hm := List.mem_cons.1 hm
      · exact hn
      · exact h.reach m (.inl hm)
    · obtain hm | hm := hnew m hm
      · exact h.reach m (.inr (List.mem_cons_of_mem n hm))
      · exact hn.step hm
  · intro m hm k hk
    obtain rfl | hm := List.mem_cons.1 hm
    · exact hnext k hk
    · exact hmove k (h.closed m hm k hk)

/-- When nothing is pending, what is done is what can be reached. -/
theorem Explored.mem_done_iff (h : Explored next roots [] done) (n : α) :
    n ∈ done ↔ Reach next roots n := by
  have hdone : ∀ m, m ∈ done ∨ m ∈ [] → m ∈ done := fun m hm => hm.resolve_right List.not_mem_nil
  constructor
  · exact fun hn => h.reach n (.inl hn)
  · rintro ⟨r, hr, hpath⟩
    induction hpath with
    | refl => exact hdone r (h.root r hr)
    | @tail a b _ hstep ih => exact hdone b (h.closed a ih b hstep)

/-! ## Work left

A node has work until it is done: itself, and the successors that it may push. Every turn makes the
sum less, so it bounds the fuel that a search needs. -/

section

variable [DecidableEq α] (next) (nodes : List α)

/-- The work that the nodes not yet visited may cause. -/
def work (cost : α → ℕ) (visited : List α) : ℕ :=
  (nodes.map (fun n => if n ∈ visited then 0 else cost n)).sum

theorem work_cons_le (cost : α → ℕ) (visited : List α) (n : α) :
    work nodes cost (n :: visited) ≤ work nodes cost visited := by
  induction nodes with
  | nil => exact Nat.le_refl _
  | cons m rest ih =>
    simp only [work, List.map_cons, List.sum_cons] at ih ⊢
    refine Nat.add_le_add ?_ ih
    by_cases hm : m ∈ visited
    · simp [hm]
    · by_cases hmn : m = n
      · simp [hmn]
      · simp [hm, hmn]

variable {nodes}

theorem work_add_cost_le (cost : α → ℕ) {visited : List α} {n : α} (hn : n ∈ nodes)
    (hv : n ∉ visited) : work nodes cost (n :: visited) + cost n ≤ work nodes cost visited := by
  induction nodes with
  | nil => exact absurd hn List.not_mem_nil
  | cons m rest ih =>
    have hle := work_cons_le rest cost visited n
    simp only [work, List.map_cons, List.sum_cons] at ih hle ⊢
    by_cases hmn : m = n
    · subst hmn
      simp only [List.mem_cons_self, if_true, if_neg hv]
      omega
    · have hrest := ih ((List.mem_cons.1 hn).resolve_left (Ne.symm hmn))
      by_cases hm : m ∈ visited
      · simp only [hm, List.mem_cons_of_mem n hm, if_true]
        omega
      · have hm' : m ∉ n :: visited := fun h => (List.mem_cons.1 h).elim hmn hm
        simp only [hm, hm', if_false]
        omega

/-- Marking some new nodes. -/
theorem work_append_le {l visited : List α} (hnodup : l.Nodup) (hl : ∀ n ∈ l, n ∈ nodes)
    (hv : ∀ n ∈ l, n ∉ visited) :
    work nodes (fun _ => 1) (l ++ visited) + l.length ≤ work nodes (fun _ => 1) visited := by
  induction l with
  | nil => exact Nat.le_refl _
  | cons n l ih =>
    obtain ⟨hn, hnodup⟩ := List.nodup_cons.1 hnodup
    have hnew : n ∉ l ++ visited := fun h =>
      (List.mem_append.1 h).elim hn (hv n List.mem_cons_self)
    have hstep := work_add_cost_le (fun _ => 1) (hl n List.mem_cons_self) hnew
    have hrest := ih hnodup (fun m hm => hl m (List.mem_cons_of_mem n hm))
      fun m hm => hv m (List.mem_cons_of_mem n hm)
    rw [List.cons_append, List.length_cons]
    omega

end

/-! ## Marking when a node is taken from the stack

A node may be on the stack several times and is skipped when it is done. The search stops at the
first node that it looks for. -/

section

variable [DecidableEq α] (next) (found : α → Bool)

/-- Whether a node is found. The stack's top is the head of the list. -/
def search : ℕ → List α → List α → Option Bool
  | 0, _, _ => none
  | _ + 1, [], _ => some false
  | fuel + 1, n :: stack, visited =>
    if n ∈ visited then search fuel stack visited
    else if found n then some true
    else search fuel ((next n).reverse ++ stack) (n :: visited)

variable {next found}

/-- The search finds what can be reached. -/
theorem search_eq_some {fuel : ℕ} {stack visited : List α} {b : Bool}
    (hexp : Explored next roots stack visited) (hv : ∀ n ∈ visited, found n = false)
    (h : search next found fuel stack visited = some b) :
    b = true ↔ ∃ n, Reach next roots n ∧ found n = true := by
  induction fuel generalizing stack visited with
  | zero => cases h
  | succ fuel ih =>
    obtain _ | ⟨n, stack⟩ := stack
    · obtain rfl := Option.some.inj h
      refine iff_of_false Bool.false_ne_true ?_
      rintro ⟨n, hn, hfound⟩
      rw [hv n ((hexp.mem_done_iff n).2 hn)] at hfound
      exact Bool.false_ne_true hfound
    · rw [search] at h
      split at h
      · next hn => exact ih (hexp.skip hn) hv h
      split at h
      · next _ hfound =>
        obtain rfl := Option.some.inj h
        exact iff_of_true rfl ⟨n, hexp.reach n (.inr List.mem_cons_self), hfound⟩
      · next _ hfound =>
        refine ih (hexp.expand ?_ ?_ ?_) ?_ h
        · exact fun m hm => List.mem_append_right _ hm
        · exact fun m hm => (List.mem_append.1 hm).symm.imp_right List.mem_reverse.1
        · exact fun m hm => .inr (List.mem_append_left _ (List.mem_reverse.2 hm))
        · intro m hm
          obtain rfl | hm := List.mem_cons.1 hm
          · exact Bool.eq_false_iff.2 hfound
          · exact hv m hm

variable (found) in
/-- A search of a finite graph ends. -/
theorem search_terminates {nodes : List α} (hnodes : ∀ n ∈ nodes, ∀ m ∈ next n, m ∈ nodes)
    {fuel : ℕ} {stack visited : List α} (hstack : ∀ n ∈ stack, n ∈ nodes)
    (hfuel : stack.length + work nodes (fun n => (next n).length) visited < fuel) :
    ∃ b, search next found fuel stack visited = some b := by
  induction fuel generalizing stack visited with
  | zero => exact absurd hfuel (Nat.not_lt_zero _)
  | succ fuel ih =>
    obtain _ | ⟨n, stack⟩ := stack
    · exact ⟨false, rfl⟩
    · rw [search]
      have hn : n ∈ nodes := hstack n List.mem_cons_self
      have hrest : ∀ m ∈ stack, m ∈ nodes := fun m hm => hstack m (List.mem_cons_of_mem n hm)
      rw [List.length_cons] at hfuel
      split
      · exact ih hrest (by omega)
      · next hv =>
        split
        · exact ⟨true, rfl⟩
        · have hwork := work_add_cost_le (fun n => (next n).length) hn hv
          refine ih ?_ ?_
          · intro m hm
            obtain hm | hm := List.mem_append.1 hm
            · exact hnodes n hn m (List.mem_reverse.1 hm)
            · exact hrest m hm
          · rw [List.length_append, List.length_reverse]
            omega

variable (found) in
/-- A search finds exactly what can be reached from the roots. -/
theorem search_eq {nodes : List α} (hnodes : ∀ n ∈ nodes, ∀ m ∈ next n, m ∈ nodes)
    (hroots : ∀ n ∈ roots, n ∈ nodes) {fuel : ℕ}
    (hfuel : roots.length + work nodes (fun n => (next n).length) [] < fuel) :
    ∃ b, search next found fuel roots [] = some b ∧
      (b = true ↔ ∃ n, Reach next roots n ∧ found n = true) := by
  obtain ⟨b, hb⟩ := search_terminates found hnodes hroots hfuel
  exact ⟨b, hb, search_eq_some .start (fun _ hn => absurd hn List.not_mem_nil) hb⟩

end

/-! ## Collecting what is taken from the stack

The same without an end in sight: everything that is reached is taken from the stack at some
time. -/

section

variable [DecidableEq α] (next)

/-- All that is taken from the stack, the last first. -/
def collect : ℕ → List α → List α → Option (List α)
  | 0, _, _ => none
  | _ + 1, [], visited => some visited
  | fuel + 1, n :: stack, visited =>
    if n ∈ visited then collect fuel stack visited
    else collect fuel ((next n).reverse ++ stack) (n :: visited)

variable {next}

theorem collect_eq_some {fuel : ℕ} {stack visited l : List α}
    (hexp : Explored next roots stack visited) (h : collect next fuel stack visited = some l)
    (n : α) : n ∈ l ↔ Reach next roots n := by
  induction fuel generalizing stack visited with
  | zero => cases h
  | succ fuel ih =>
    obtain _ | ⟨m, stack⟩ := stack
    · obtain rfl := Option.some.inj h
      exact hexp.mem_done_iff n
    · rw [collect] at h
      split at h
      · next hm => exact ih (hexp.skip hm) h
      · refine ih (hexp.expand ?_ ?_ ?_) h
        · exact fun m hm => List.mem_append_right _ hm
        · exact fun m hm => (List.mem_append.1 hm).symm.imp_right List.mem_reverse.1
        · exact fun m hm => .inr (List.mem_append_left _ (List.mem_reverse.2 hm))

theorem collect_terminates {nodes : List α} (hnodes : ∀ n ∈ nodes, ∀ m ∈ next n, m ∈ nodes)
    {fuel : ℕ} {stack visited : List α} (hstack : ∀ n ∈ stack, n ∈ nodes)
    (hfuel : stack.length + work nodes (fun n => (next n).length) visited < fuel) :
    ∃ l, collect next fuel stack visited = some l := by
  induction fuel generalizing stack visited with
  | zero => exact absurd hfuel (Nat.not_lt_zero _)
  | succ fuel ih =>
    obtain _ | ⟨n, stack⟩ := stack
    · exact ⟨visited, rfl⟩
    · rw [collect]
      have hn : n ∈ nodes := hstack n List.mem_cons_self
      have hrest : ∀ m ∈ stack, m ∈ nodes := fun m hm => hstack m (List.mem_cons_of_mem n hm)
      rw [List.length_cons] at hfuel
      split
      · exact ih hrest (by omega)
      · next hv =>
        have hwork := work_add_cost_le (fun n => (next n).length) hn hv
        refine ih ?_ ?_
        · intro m hm
          obtain hm | hm := List.mem_append.1 hm
          · exact hnodes n hn m (List.mem_reverse.1 hm)
          · exact hrest m hm
        · rw [List.length_append, List.length_reverse]
          omega

/-- What is collected is what can be reached from the roots. -/
theorem collect_eq {nodes : List α} (hnodes : ∀ n ∈ nodes, ∀ m ∈ next n, m ∈ nodes)
    (hroots : ∀ n ∈ roots, n ∈ nodes) {fuel : ℕ}
    (hfuel : roots.length + work nodes (fun n => (next n).length) [] < fuel) :
    ∃ l, collect next fuel roots [] = some l ∧ ∀ n, n ∈ l ↔ Reach next roots n := by
  obtain ⟨l, hl⟩ := collect_terminates hnodes hroots hfuel
  exact ⟨l, hl, collect_eq_some .start hl⟩

end

/-! ## Marking when a node is put on the stack

A node is on the stack once. The users of a node are looked at when it is taken, and the search
stops at a user that it looks for, before it is put there. -/

section

variable [DecidableEq α] (outs : α → List α) (follow found : α → Bool)

/-- The users of one node: those to follow that are not marked are put on the stack and marked,
unless a user is found. -/
def sweepUses : List α → List α × List α → Option (List α × List α)
  | [], s => some s
  | use :: uses, (stack, visited) =>
    if follow use then
      if use ∈ visited then sweepUses uses (stack, visited)
      else sweepUses uses (use :: stack, use :: visited)
    else if found use then none
    else sweepUses uses (stack, visited)

/-- Whether a user is found. -/
def sweep : ℕ → List α → List α → Option Bool
  | 0, _, _ => none
  | _ + 1, [], _ => some false
  | fuel + 1, n :: stack, visited =>
    match sweepUses follow found (outs n) (stack, visited) with
    | none => some true
    | some (stack, visited) => sweep fuel stack visited

/-- The users that are followed. -/
def followed (n : α) : List α := (outs n).filter follow

/-- A user that is found. -/
def FoundUse (n : α) : Prop := ∃ use ∈ outs n, follow use = false ∧ found use = true

variable {outs follow found}

theorem sweepUses_eq_none {uses stack visited : List α} :
    sweepUses follow found uses (stack, visited) = none ↔
      ∃ use ∈ uses, follow use = false ∧ found use = true := by
  induction uses generalizing stack visited with
  | nil => simp [sweepUses]
  | cons use uses ih =>
    rw [sweepUses]
    cases hfollow : follow use with
    | true =>
      simp only [if_true]
      split <;> simp [ih, hfollow]
    | false =>
      cases hfound : found use with
      | true => simp [hfollow, hfound]
      | false => simp [ih, hfound]

/-- What is put on the stack, and marked. -/
theorem sweepUses_eq_some {uses stack visited stack' visited' : List α}
    (h : sweepUses follow found uses (stack, visited) = some (stack', visited')) :
    ∃ l, stack' = l ++ stack ∧ visited' = l ++ visited ∧ l.Nodup ∧
      ∀ m, m ∈ l ↔ (m ∈ uses ∧ follow m = true) ∧ m ∉ visited := by
  induction uses generalizing stack visited with
  | nil =>
    obtain ⟨rfl, rfl⟩ := Prod.mk.inj (Option.some.inj h)
    exact ⟨[], rfl, rfl, List.nodup_nil, by simp⟩
  | cons use uses ih =>
    rw [sweepUses] at h
    split at h
    · next hfollow =>
      split at h
      · next hv =>
        obtain ⟨l, hs, hv', hnodup, hl⟩ := ih h
        refine ⟨l, hs, hv', hnodup, fun m => (hl m).trans ?_⟩
        refine and_congr_left fun hm => and_congr_left fun _ => ?_
        have hne : m ≠ use := fun heq => hm (heq ▸ hv)
        exact (List.mem_cons.trans (or_iff_right hne)).symm
      · next hv =>
        obtain ⟨l, rfl, rfl, hnodup, hl⟩ := ih h
        refine ⟨l ++ [use], by simp, by simp, ?_, fun m => ?_⟩
        · refine List.nodup_append.2 ⟨hnodup, List.pairwise_singleton _ use, ?_⟩
          rintro m hm _ (hu | ⟨_, ⟨⟩⟩) rfl
          exact ((hl m).1 hm).2 List.mem_cons_self
        · rw [List.mem_append, List.mem_singleton, hl, List.mem_cons, List.mem_cons, not_or]
          constructor
          · rintro (⟨⟨hm, hf⟩, -, hmv⟩ | rfl)
            · exact ⟨⟨.inr hm, hf⟩, hmv⟩
            · exact ⟨⟨.inl rfl, hfollow⟩, hv⟩
          · rintro ⟨⟨rfl | hm, hf⟩, hmv⟩
            · exact .inr rfl
            · by_cases heq : m = use
              · exact .inr heq
              · exact .inl ⟨⟨hm, hf⟩, heq, hmv⟩
    · next hfollow =>
      split at h
      · cases h
      · obtain ⟨l, hs, hv', hnodup, hl⟩ := ih h
        refine ⟨l, hs, hv', hnodup, fun m => (hl m).trans ?_⟩
        refine and_congr_left fun _ => and_congr_left fun hf => ?_
        have hne : m ≠ use := fun heq => hfollow (heq ▸ hf)
        exact (List.mem_cons.trans (or_iff_right hne)).symm

/-- The sweep finds the users of what can be reached along the users that are followed. -/
theorem sweep_eq_some {fuel : ℕ} {stack visited done : List α} {b : Bool}
    (hexp : Explored (followed outs follow) roots stack done)
    (hv : ∀ n, n ∈ visited ↔ n ∈ done ∨ n ∈ stack)
    (hdone : ∀ n ∈ done, ¬ FoundUse outs follow found n)
    (h : sweep outs follow found fuel stack visited = some b) :
    b = true ↔ ∃ n, Reach (followed outs follow) roots n ∧ FoundUse outs follow found n := by
  induction fuel generalizing stack visited done with
  | zero => cases h
  | succ fuel ih =>
    obtain _ | ⟨n, stack⟩ := stack
    · obtain rfl := Option.some.inj h
      refine iff_of_false Bool.false_ne_true ?_
      rintro ⟨n, hn, hfound⟩
      exact hdone n ((hexp.mem_done_iff n).2 hn) hfound
    · rw [sweep] at h
      split at h
      · next hnone =>
        obtain rfl := Option.some.inj h
        exact iff_of_true rfl ⟨n, hexp.reach n (.inr List.mem_cons_self), sweepUses_eq_none.1 hnone⟩
      · next stack' visited' hsome =>
        obtain ⟨l, rfl, rfl, -, hl⟩ := sweepUses_eq_some hsome
        have hnot : ¬ FoundUse outs follow found n := by
          intro hfound
          rw [sweepUses_eq_none.2 hfound] at hsome
          cases hsome
        refine ih (hexp.expand ?_ ?_ ?_) (fun m => ?_) ?_ h
        · exact fun m hm => List.mem_append_right l hm
        · intro m hm
          obtain hm | hm := List.mem_append.1 hm
          · exact .inr (List.mem_filter.2 ((hl m).1 hm).1)
          · exact .inl hm
        · intro m hm
          by_cases hmv : m ∈ visited
          · obtain hd | hs := (hv m).1 hmv
            · exact .inl (List.mem_cons_of_mem n hd)
            · obtain rfl | hs := List.mem_cons.1 hs
              · exact .inl List.mem_cons_self
              · exact .inr (List.mem_append_right l hs)
          · exact .inr (List.mem_append_left _ ((hl m).2 ⟨List.mem_filter.1 hm, hmv⟩))
        · simp only [List.mem_append, List.mem_cons, hv]
          tauto
        · intro m hm
          obtain rfl | hm := List.mem_cons.1 hm
          · exact hnot
          · exact hdone m hm

variable (follow found) in
/-- A sweep of a finite graph ends. -/
theorem sweep_terminates {nodes : List α} (hnodes : ∀ n ∈ nodes, ∀ m ∈ outs n, m ∈ nodes)
    {fuel : ℕ} {stack visited : List α} (hstack : ∀ n ∈ stack, n ∈ nodes)
    (hfuel : stack.length + work nodes (fun _ => 1) visited < fuel) :
    ∃ b, sweep outs follow found fuel stack visited = some b := by
  induction fuel generalizing stack visited with
  | zero => exact absurd hfuel (Nat.not_lt_zero _)
  | succ fuel ih =>
    obtain _ | ⟨n, stack⟩ := stack
    · exact ⟨false, rfl⟩
    · rw [sweep]
      split
      · exact ⟨true, rfl⟩
      · next stack' visited' hsome =>
        obtain ⟨l, rfl, rfl, hnodup, hl⟩ := sweepUses_eq_some hsome
        have hl' : ∀ m ∈ l, m ∈ nodes := fun m hm =>
          hnodes n (hstack n List.mem_cons_self) m ((hl m).1 hm).1.1
        have hwork := work_append_le hnodup hl' fun m hm => ((hl m).1 hm).2
        refine ih ?_ ?_
        · intro m hm
          obtain hm | hm := List.mem_append.1 hm
          · exact hl' m hm
          · exact hstack m (List.mem_cons_of_mem n hm)
        · rw [List.length_cons] at hfuel
          rw [List.length_append]
          omega

variable (follow found) in
/-- A sweep finds exactly the users of what can be reached from the roots. -/
theorem sweep_eq {nodes : List α} (hnodes : ∀ n ∈ nodes, ∀ m ∈ outs n, m ∈ nodes)
    (hroots : ∀ n ∈ roots, n ∈ nodes) {fuel : ℕ}
    (hfuel : roots.length + work nodes (fun _ => 1) roots < fuel) :
    ∃ b, sweep outs follow found fuel roots roots = some b ∧
      (b = true ↔ ∃ n, Reach (followed outs follow) roots n ∧ FoundUse outs follow found n) := by
  obtain ⟨b, hb⟩ := sweep_terminates follow found hnodes hroots hfuel
  refine ⟨b, hb, sweep_eq_some .start (fun n => ?_) (fun _ hn => absurd hn List.not_mem_nil) hb⟩
  exact (or_iff_right List.not_mem_nil).symm

end

end Search
