import StackAllocation.IdealKitMeaning
import Mathlib.Logic.Relation

/-!
# One path of control

The nodes of a sequence of calls lead control from its start to its end: no two nodes take it from
the same node, and none takes it from the end (`Threads`). So a graph has one run
(`KitRun.eq_of_threads`).
-/

namespace StackAllocation

variable {Val : Type}

/-- `n` takes control from `c`, a region in a slot. -/
def ControlUse (node : ℕ → KitNode Val) (c n k : ℕ) : Prop :=
  match node n with
  | .iff d _ => d = c ∧ k = 0
  | .predicate d => d = c ∧ k = 0
  | .region ins => ins[k]? = some (some c)
  | _ => False

/-- The nodes from `lo` to `hi` lead control from `a` to `b`: all take it from `a` or from one
another, no two from the same node, and none from `b`. -/
structure Threads (node : ℕ → KitNode Val) (lo hi a b : ℕ) : Prop where
  lt : a < lo
  target : b = a ∨ lo ≤ b ∧ b < hi
  source : ∀ {c n k}, lo ≤ n → n < hi → ControlUse node c n k → (c = a ∨ lo ≤ c ∧ c < hi) ∧ c ≠ b
  unique : ∀ {c n n' k k'}, lo ≤ n → n < hi → lo ≤ n' → n' < hi → ControlUse node c n k →
    ControlUse node c n' k' → n = n' ∧ k = k'
  ifTrue : ∀ {n i}, lo ≤ n → n < hi → node n = .ifTrue i → n = i + 1
  ifFalse : ∀ {n i}, lo ≤ n → n < hi → node n = .ifFalse i → n = i + 2

section

variable {node node' : ℕ → KitNode Val} {lo mid hi a b c : ℕ}

/-- Control that is passed on by one part of the nodes, and then by another. -/
theorem Threads.trans (h : Threads node lo mid a b) (h' : Threads node mid hi b c)
    (hlm : lo ≤ mid) (hmh : mid ≤ hi) : Threads node lo hi a c where
  lt := h.lt
  target := by
    have := h.target
    have := h'.target
    omega
  source := by
    intro d n k hn hn' huse
    have ha := h.lt
    have hb := h.target
    have hc := h'.target
    rcases Nat.lt_or_ge n mid with hlt | hge
    · obtain ⟨hd, hne⟩ := h.source hn hlt huse
      omega
    · obtain ⟨hd, hne⟩ := h'.source hge hn' huse
      omega
  unique := by
    intro d n n' k k' hn hn₁ hn' hn₁' huse huse'
    have ha := h.lt
    have hb := h.target
    rcases Nat.lt_or_ge n mid with hlt | hge <;> rcases Nat.lt_or_ge n' mid with hlt' | hge'
    · exact h.unique hn hlt hn' hlt' huse huse'
    · obtain ⟨hd, hne⟩ := h.source hn hlt huse
      obtain ⟨hd', -⟩ := h'.source hge' hn₁' huse'
      omega
    · obtain ⟨hd, hne⟩ := h.source hn' hlt' huse'
      obtain ⟨hd', -⟩ := h'.source hge hn₁ huse
      omega
    · exact h'.unique hge hn₁ hge' hn₁' huse huse'
  ifTrue := by
    intro n i hn hn' heq
    rcases Nat.lt_or_ge n mid with hlt | hge
    · exact h.ifTrue hn hlt heq
    · exact h'.ifTrue hge hn' heq
  ifFalse := by
    intro n i hn hn' heq
    rcases Nat.lt_or_ge n mid with hlt | hge
    · exact h.ifFalse hn hlt heq
    · exact h'.ifFalse hge hn' heq

/-- It depends on the nodes of the part only. -/
theorem Threads.congr (h : Threads node lo hi a b)
    (heq : ∀ n, lo ≤ n → n < hi → node' n = node n) : Threads node' lo hi a b where
  lt := h.lt
  target := h.target
  source := fun hn hn' huse => h.source hn hn' (by rwa [ControlUse, ← heq _ hn hn'])
  unique := fun hn hn₁ hn' hn₁' huse huse' => h.unique hn hn₁ hn' hn₁'
    (by rwa [ControlUse, ← heq _ hn hn₁]) (by rwa [ControlUse, ← heq _ hn' hn₁'])
  ifTrue := fun hn hn' hi => h.ifTrue hn hn' ((heq _ hn hn').symm.trans hi)
  ifFalse := fun hn hn' hi => h.ifFalse hn hn' ((heq _ hn hn').symm.trans hi)

/-- A node that neither takes nor passes control. -/
def KitNode.IsPlain : KitNode Val → Prop
  | .outer => True
  | .op _ _ _ _ => True
  | .phi _ _ => True
  | _ => False

/-- A node that does not pass on control uses none. -/
theorem KitNode.IsPlain.not_use {n k : ℕ} (h : (node n).IsPlain) : ¬ControlUse node c n k := by
  unfold ControlUse
  cases heq : node n <;> simp_all [KitNode.IsPlain]

/-- Nodes that do not pass on control leave it where it is. -/
theorem threads_plain (ha : a < lo) (hplain : ∀ n, lo ≤ n → n < hi → (node n).IsPlain) :
    Threads node lo hi a a where
  lt := ha
  target := .inl rfl
  source := fun hn hn' huse => absurd huse (hplain _ hn hn').not_use
  unique := fun hn hn₁ _ _ huse => absurd huse (hplain _ hn hn₁).not_use
  ifTrue := by
    intro n i hn hn' heq
    have := hplain n hn hn'
    rw [heq] at this
    exact this.elim
  ifFalse := by
    intro n i hn hn' heq
    have := hplain n hn hn'
    rw [heq] at this
    exact this.elim

/-- A region of two paths takes control from each in its slot. -/
theorem region_use {r x y k : ℕ} (hregion : node r = .region [some x, some y])
    (huse : ControlUse node c r k) : c = x ∧ k = 0 ∨ c = y ∧ k = 1 := by
  simp only [ControlUse, hregion] at huse
  match k, huse with
  | 0, huse =>
    obtain rfl : x = c := by simpa using huse
    exact .inl ⟨rfl, rfl⟩
  | 1, huse =>
    obtain rfl : y = c := by simpa using huse
    exact .inr ⟨rfl, rfl⟩

/-- An `If` with its two branches, up to the region after them. -/
theorem threads_branches {iff r bol c₀ c₁ x y : ℕ} (ha : a < iff)
    (hiff : node iff = .iff a bol) (htrue : node (iff + 1) = .ifTrue iff)
    (hfalse : node (iff + 2) = .ifFalse iff) (hlm : iff + 3 ≤ mid) (hmr : mid ≤ r)
    (h₀ : Threads node (iff + 3) mid (iff + 1) c₀) (h₁ : Threads node mid r (iff + 2) c₁)
    (hregion : node r = .region [some x, some y]) (hxy : x = c₀ ∧ y = c₁ ∨ x = c₁ ∧ y = c₀) :
    Threads node iff (r + 1) a r := by
  have ht₀ := h₀.target
  have ht₁ := h₁.target
  have cases_of {n : ℕ} (hn : iff ≤ n) (hn' : n < r + 1) : n = iff ∨ n = iff + 1 ∨
      n = iff + 2 ∨ (iff + 3 ≤ n ∧ n < mid) ∨ (mid ≤ n ∧ n < r) ∨ n = r := by
    omega
  -- who takes control from where
  have uses {c n k : ℕ} (hn : iff ≤ n) (hn' : n < r + 1) (huse : ControlUse node c n k) :
      n = iff ∧ c = a ∧ k = 0 ∨
      (iff + 3 ≤ n ∧ n < mid ∧ (c = iff + 1 ∨ iff + 3 ≤ c ∧ c < mid) ∧ c ≠ c₀) ∨
      (mid ≤ n ∧ n < r ∧ (c = iff + 2 ∨ mid ≤ c ∧ c < r) ∧ c ≠ c₁) ∨
      n = r ∧ (c = x ∧ k = 0 ∨ c = y ∧ k = 1) := by
    obtain rfl | rfl | rfl | ⟨hn₀, hn₁⟩ | ⟨hn₀, hn₁⟩ | rfl := cases_of hn hn'
    · simp only [ControlUse, hiff] at huse
      exact .inl ⟨rfl, huse.1.symm, huse.2⟩
    · simp only [ControlUse, htrue] at huse
    · simp only [ControlUse, hfalse] at huse
    · obtain ⟨hc, hne⟩ := h₀.source hn₀ hn₁ huse
      exact .inr (.inl ⟨hn₀, hn₁, hc, hne⟩)
    · obtain ⟨hc, hne⟩ := h₁.source hn₀ hn₁ huse
      exact .inr (.inr (.inl ⟨hn₀, hn₁, hc, hne⟩))
    · exact .inr (.inr (.inr ⟨rfl, region_use hregion huse⟩))
  exact {
    lt := ha
    target := .inr (by omega)
    source := by
      intro c n k hn hn' huse
      rcases uses hn hn' huse with h | h | h | h <;> omega
    unique := by
      intro c n n' k k' hn hn₁ hn' hn₁' huse huse'
      rcases uses hn hn₁ huse with h | h | h | h <;>
        rcases uses hn' hn₁' huse' with h' | h' | h' | h'
      · omega
      · omega
      · omega
      · omega
      · omega
      · exact h₀.unique h.1 h.2.1 h'.1 h'.2.1 huse huse'
      · omega
      · omega
      · omega
      · omega
      · exact h₁.unique h.1 h.2.1 h'.1 h'.2.1 huse huse'
      · omega
      · omega
      · omega
      · omega
      · omega
    ifTrue := by
      intro n i hn hn' heq
      obtain rfl | rfl | rfl | ⟨hn₀, hn₁⟩ | ⟨hn₀, hn₁⟩ | rfl := cases_of hn hn'
      · cases hiff.symm.trans heq
      · cases htrue.symm.trans heq
        rfl
      · cases hfalse.symm.trans heq
      · exact h₀.ifTrue hn₀ hn₁ heq
      · exact h₁.ifTrue hn₀ hn₁ heq
      · cases hregion.symm.trans heq
    ifFalse := by
      intro n i hn hn' heq
      obtain rfl | rfl | rfl | ⟨hn₀, hn₁⟩ | ⟨hn₀, hn₁⟩ | rfl := cases_of hn hn'
      · cases hiff.symm.trans heq
      · cases htrue.symm.trans heq
      · cases hfalse.symm.trans heq
        rfl
      · exact h₀.ifFalse hn₀ hn₁ heq
      · exact h₁.ifFalse hn₀ hn₁ heq
      · cases hregion.symm.trans heq }

/-- The two branches of an `If`, and the region after them, with the plain nodes around them. -/
theorem threads_if {iff r bol c₀ c₁ x y : ℕ} (ha : a < lo) (hle : lo ≤ iff) (hrh : r < hi)
    (hops : ∀ n, lo ≤ n → n < iff → (node n).IsPlain) (hiff : node iff = .iff a bol)
    (htrue : node (iff + 1) = .ifTrue iff) (hfalse : node (iff + 2) = .ifFalse iff)
    (hlm : iff + 3 ≤ mid) (hmr : mid ≤ r) (h₀ : Threads node (iff + 3) mid (iff + 1) c₀)
    (h₁ : Threads node mid r (iff + 2) c₁) (hregion : node r = .region [some x, some y])
    (hxy : x = c₀ ∧ y = c₁ ∨ x = c₁ ∧ y = c₀)
    (hphis : ∀ n, r < n → n < hi → (node n).IsPlain) : Threads node lo hi a r := by
  have hbranches : Threads node iff (r + 1) a r := threads_branches (Nat.lt_of_lt_of_le ha hle)
    hiff htrue hfalse hlm hmr h₀ h₁ hregion hxy
  have hafter : Threads node (r + 1) hi r r :=
    threads_plain (Nat.lt_succ_self r) fun n hn => hphis n hn
  exact ((threads_plain ha hops).trans hbranches hle (by omega)).trans hafter (by omega) hrh

/-- The predicate, the region and the `If` of a loop around its body. -/
theorem threads_trips {e r iff bol c c₁ : ℕ} (ha : a < e)
    (hpred : c = a ∧ r = e ∨ c = e ∧ r = e + 1 ∧ node e = .predicate a)
    (hregion : node r = .region [some c, some c₁])
    (hhead : ∀ n, r < n → n < iff → (node n).IsPlain) (hri : r < iff) (hiff : node iff = .iff r bol)
    (htrue : node (iff + 1) = .ifTrue iff) (hfalse : node (iff + 2) = .ifFalse iff)
    (hih : iff + 3 ≤ hi) (h : Threads node (iff + 3) hi (iff + 1) c₁) :
    Threads node e hi a (iff + 2) := by
  have ht := h.target
  have cases_of {n : ℕ} (hn : e ≤ n) (hn' : n < hi) : (node n).IsPlain ∨
      (n = e ∧ c = e ∧ r = e + 1 ∧ node e = .predicate a) ∨ n = r ∨ n = iff ∨ n = iff + 1 ∨
      n = iff + 2 ∨ iff + 3 ≤ n := by
    by_cases hh : r < n ∧ n < iff
    · exact .inl (hhead n hh.1 hh.2)
    obtain ⟨rfl, rfl⟩ | ⟨rfl, rfl, hnode⟩ := hpred
    · omega
    · by_cases hne : n = c
      · exact .inr (.inl ⟨hne, rfl, rfl, hnode⟩)
      · omega
  have uses {d n k : ℕ} (hn : e ≤ n) (hn' : n < hi) (huse : ControlUse node d n k) :
      (n = e ∧ c = e ∧ r = e + 1 ∧ d = a ∧ k = 0) ∨
      (n = r ∧ (d = c ∧ k = 0 ∨ d = c₁ ∧ k = 1)) ∨ (n = iff ∧ d = r ∧ k = 0) ∨
      (iff + 3 ≤ n ∧ (d = iff + 1 ∨ iff + 3 ≤ d ∧ d < hi) ∧ d ≠ c₁) := by
    obtain hp | ⟨rfl, rfl, rfl, hnode⟩ | rfl | rfl | rfl | rfl | hn₀ := cases_of hn hn'
    · exact absurd huse hp.not_use
    · simp only [ControlUse, hnode] at huse
      exact .inl ⟨rfl, rfl, rfl, huse.1.symm, huse.2⟩
    · exact .inr (.inl ⟨rfl, region_use hregion huse⟩)
    · simp only [ControlUse, hiff] at huse
      exact .inr (.inr (.inl ⟨rfl, huse.1.symm, huse.2⟩))
    · simp only [ControlUse, htrue] at huse
    · simp only [ControlUse, hfalse] at huse
    · obtain ⟨hd, hne⟩ := h.source hn₀ hn' huse
      exact .inr (.inr (.inr ⟨hn₀, hd, hne⟩))
  exact {
    lt := ha
    target := .inr (by omega)
    source := by
      intro d n k hn hn' huse
      rcases uses hn hn' huse with h | h | h | h <;> omega
    unique := by
      intro d n n' k k' hn hn₁ hn' hn₁' huse huse'
      rcases uses hn hn₁ huse with hu | hu | hu | hu <;>
        rcases uses hn' hn₁' huse' with hu' | hu' | hu' | hu'
      · omega
      · omega
      · omega
      · omega
      · omega
      · omega
      · omega
      · omega
      · omega
      · omega
      · omega
      · omega
      · omega
      · omega
      · omega
      · exact h.unique hu.1 hn₁ hu'.1 hn₁' huse huse'
    ifTrue := by
      intro n i hn hn' heq
      obtain hp | ⟨rfl, -, -, hnode⟩ | rfl | rfl | rfl | rfl | hn₀ := cases_of hn hn'
      · rw [heq] at hp
        exact hp.elim
      · cases hnode.symm.trans heq
      · cases hregion.symm.trans heq
      · cases hiff.symm.trans heq
      · cases htrue.symm.trans heq
        rfl
      · cases hfalse.symm.trans heq
      · exact h.ifTrue hn₀ hn' heq
    ifFalse := by
      intro n i hn hn' heq
      obtain hp | ⟨rfl, -, -, hnode⟩ | rfl | rfl | rfl | rfl | hn₀ := cases_of hn hn'
      · rw [heq] at hp
        exact hp.elim
      · cases hnode.symm.trans heq
      · cases hregion.symm.trans heq
      · cases hiff.symm.trans heq
      · cases htrue.symm.trans heq
      · cases hfalse.symm.trans heq
        rfl
      · exact h.ifFalse hn₀ hn' heq }

/-- A loop, with the plain nodes before it. -/
theorem threads_loop {e r iff bol c c₁ : ℕ} (ha : a < lo) (hle : lo ≤ e)
    (hplain : ∀ n, lo ≤ n → n < e → (node n).IsPlain)
    (hpred : c = a ∧ r = e ∨ c = e ∧ r = e + 1 ∧ node e = .predicate a)
    (hregion : node r = .region [some c, some c₁])
    (hhead : ∀ n, r < n → n < iff → (node n).IsPlain) (hri : r < iff) (hiff : node iff = .iff r bol)
    (htrue : node (iff + 1) = .ifTrue iff) (hfalse : node (iff + 2) = .ifFalse iff)
    (hih : iff + 3 ≤ hi) (h : Threads node (iff + 3) hi (iff + 1) c₁) :
    Threads node lo hi a (iff + 2) := by
  have htrips : Threads node e hi a (iff + 2) := threads_trips (Nat.lt_of_lt_of_le ha hle) hpred
    hregion hhead hri hiff htrue hfalse hih h
  exact (threads_plain ha hplain).trans htrips hle (by omega)

end

/-! ## One run

Control is at one node, which is used once, by an `If` or by a region in one slot. So each state has
at most one next, and the run that ends at the end is the only one that does. -/

section

variable {K : KitCompiler Val} {node : ℕ → KitNode Val} {lo hi a b : ℕ}

/-- Where control goes from a node that takes it in a slot. -/
def controlNext (K : KitCompiler Val) (node : ℕ → KitNode Val) (ρ : ℕ → Val) (n k : ℕ) :
    ℕ × (ℕ → Val) :=
  match node n with
  | .iff _ bol => (bif K.holds (eval node ρ bol) then n + 1 else n + 2, ρ)
  | .region _ => (n, enter node n k ρ)
  | _ => (n, ρ)

variable (hthreads : Threads node lo hi a b) (hout : ∀ n, n < lo ∨ hi ≤ n → node n = .outer)

include hout in
/-- What belongs to a run of nodes lies in its range. -/
theorem range_of_ne_outer {n : ℕ} (hn : node n ≠ .outer) : lo ≤ n ∧ n < hi := by
  by_contra hc
  exact hn (hout n (by omega))

include hout in
/-- So does what uses control. -/
theorem range_of_use {c n k : ℕ} (h : ControlUse node c n k) : lo ≤ n ∧ n < hi := by
  refine range_of_ne_outer hout fun heq => ?_
  rw [ControlUse, heq] at h
  exact h

include hthreads hout

/-- A control is used once. -/
theorem use_unique {c n n' k k' : ℕ} (h : ControlUse node c n k) (h' : ControlUse node c n' k') :
    n = n' ∧ k = k' := by
  obtain ⟨hn, hn₁⟩ := range_of_use hout h
  obtain ⟨hn', hn₁'⟩ := range_of_use hout h'
  exact hthreads.unique hn hn₁ hn' hn₁' h h'

/-- A step goes to a node that takes the control, or through it to a projection. -/
theorem KitStep.next {c : ℕ} {ρ : ℕ → Val} {t : ℕ × (ℕ → Val)} (h : KitStep node K (c, ρ) t) :
    ∃ n k, ControlUse node c n k ∧ t = controlNext K node ρ n k := by
  cases h with
  | @ifTrue _ iff bol n _ hiff hn hb =>
    obtain ⟨hlo, hhi⟩ := range_of_ne_outer hout (show node n ≠ .outer by rw [hn]; nofun)
    refine ⟨iff, 0, by simp [ControlUse, hiff], ?_⟩
    simp [controlNext, hiff, hb, hthreads.ifTrue hlo hhi hn]
  | @ifFalse _ iff bol n _ hiff hn hb =>
    obtain ⟨hlo, hhi⟩ := range_of_ne_outer hout (show node n ≠ .outer by rw [hn]; nofun)
    refine ⟨iff, 0, by simp [ControlUse, hiff], ?_⟩
    simp [controlNext, hiff, hb, hthreads.ifFalse hlo hhi hn]
  | @predicate _ n _ hn => exact ⟨n, 0, by simp [ControlUse, hn], by simp [controlNext, hn]⟩
  | @region _ r ins k _ hr hk =>
    exact ⟨r, k, by simpa only [ControlUse, hr] using hk, by simp [controlNext, hr]⟩

/-- From a state there is at most one step. -/
theorem KitStep.unique {s t t' : ℕ × (ℕ → Val)} (h : KitStep node K s t)
    (h' : KitStep node K s t') : t = t' := by
  obtain ⟨n, k, hu, rfl⟩ := KitStep.next hthreads hout h
  obtain ⟨n', k', hu', rfl⟩ := KitStep.next hthreads hout h'
  obtain ⟨rfl, rfl⟩ := use_unique hthreads hout hu hu'
  rfl

/-- The end makes no step. -/
theorem not_step_end {ρ : ℕ → Val} {t : ℕ × (ℕ → Val)} : ¬KitStep node K (b, ρ) t := by
  intro h
  obtain ⟨n, k, hu, -⟩ := KitStep.next hthreads hout h
  obtain ⟨hn, hn'⟩ := range_of_use hout hu
  exact (hthreads.source hn hn' hu).2 rfl

/-- A run to the end is the only one. -/
theorem KitRun.eq_of_threads {s : ℕ × (ℕ → Val)} {ρ ρ' : ℕ → Val} (h : KitRun node K s (b, ρ))
    (h' : KitRun node K s (b, ρ')) : ρ' = ρ := by
  have hend {ρ ρ' : ℕ → Val} (h : KitRun node K (b, ρ) (b, ρ')) : ρ' = ρ := by
    obtain heq | ⟨t, hstep, -⟩ := Relation.ReflTransGen.cases_head h
    · exact (congrArg Prod.snd heq).symm
    · exact absurd hstep (not_step_end hthreads hout)
  have hunique : Relator.RightUnique (KitStep node K) := fun _ _ _ h h' =>
    KitStep.unique hthreads hout h h'
  obtain hrun | hrun := Relation.ReflTransGen.total_of_right_unique hunique h h'
  · exact hend hrun
  · exact (hend hrun).symm

end

end StackAllocation
