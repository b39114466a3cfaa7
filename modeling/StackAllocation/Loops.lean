/-!
# Loops

Rules for loops over a list, as left folds: what every step keeps holds at the end
(`Loops.invariant`), and so does what one step brings about and the others keep
(`Loops.reached`). A loop that only puts things on a list puts there what each of its
steps does (`Loops.mem_foldl`). A loop that may fail and ends has made a run of steps, and has
brought about what each of them does (`Loops.foldlM_run`).
-/

namespace Loops

universe u v

variable {α : Type u} {β : Type v}

/-- What every step of a loop keeps. -/
theorem invariant {P : β → Prop} {f : β → α → β} (l : List α) {b : β} (hb : P b)
    (hf : ∀ b, ∀ a ∈ l, P b → P (f b a)) : P (l.foldl f b) := by
  induction l generalizing b with
  | nil => exact hb
  | cons a l ih =>
    exact ih (hf b a List.mem_cons_self hb) fun b c hc => hf b c (List.mem_cons_of_mem _ hc)

/-- What one step of a loop brings about, and the others keep. -/
theorem reached {I P : β → Prop} {f : β → α → β} {l : List α} {b : β} {x : α} (hx : x ∈ l)
    (hb : I b) (hI : ∀ b, ∀ a ∈ l, I b → I (f b a)) (hP : ∀ b, ∀ a ∈ l, I b → P b → P (f b a))
    (hreach : ∀ b, I b → P (f b x)) : P (l.foldl f b) := by
  induction l generalizing b with
  | nil => exact absurd hx List.not_mem_nil
  | cons a l ih =>
    have hI' : ∀ b, ∀ c ∈ l, I b → I (f b c) := fun b c hc => hI b c (List.mem_cons_of_mem _ hc)
    have hP' : ∀ b, ∀ c ∈ l, I b → P b → P (f b c) :=
      fun b c hc => hP b c (List.mem_cons_of_mem _ hc)
    obtain rfl | hx := List.mem_cons.1 hx
    · have hstart : I (f b x) ∧ P (f b x) := ⟨hI b x List.mem_cons_self hb, hreach b hb⟩
      exact (invariant (P := fun b => I b ∧ P b) l hstart
        fun b c hc h => ⟨hI' b c hc h.1, hP' b c hc h.1 h.2⟩).2
    · exact ih hx (hI b a List.mem_cons_self hb) hI' hP'

/-- A loop that only puts things on a list. -/
theorem mem_foldl {f : List β → α → List β} {P : α → Prop} {x : β} {l : List α}
    (hf : ∀ wl, ∀ a ∈ l, x ∈ f wl a ↔ x ∈ wl ∨ P a) (wl : List β) :
    x ∈ l.foldl f wl ↔ x ∈ wl ∨ ∃ a ∈ l, P a := by
  induction l generalizing wl with
  | nil => simp
  | cons a l ih =>
    rw [List.foldl_cons, ih (fun wl b hb => hf wl b (List.mem_cons_of_mem _ hb)),
      hf wl a List.mem_cons_self, or_assoc]
    refine or_congr_right ?_
    constructor
    · rintro (ha | ⟨b, hb, hP⟩)
      · exact ⟨a, List.mem_cons_self, ha⟩
      · exact ⟨b, List.mem_cons_of_mem _ hb, hP⟩
    · rintro ⟨b, hb, hP⟩
      obtain rfl | hb := List.mem_cons.1 hb
      · exact .inl hP
      · exact .inr ⟨b, hb, hP⟩

/-- A loop that may fail: its steps make a run `R`, keep `I`, and bring about what later steps
keep. -/
theorem foldlM_run {I : β → Prop} {R : β → β → Prop} {P : β → α → Prop} {f : β → α → Option β}
    {l : List α} {b b' : β} (hrefl : ∀ b, R b b) (htrans : ∀ {b c d}, R b c → R c d → R b d)
    (hstep : ∀ {b c}, ∀ a ∈ l, I b → f b a = some c → R b c ∧ I c ∧ P c a)
    (hkeep : ∀ {b c a}, I b → R b c → P b a → P c a) (hb : I b) (h : l.foldlM f b = some b') :
    R b b' ∧ I b' ∧ ∀ a ∈ l, P b' a := by
  induction l generalizing b with
  | nil =>
    obtain rfl := Option.some.inj h
    exact ⟨hrefl b, hb, fun a ha => absurd ha List.not_mem_nil⟩
  | cons a l ih =>
    rw [List.foldlM_cons] at h
    obtain ⟨c, hc, h⟩ := Option.bind_eq_some_iff.1 h
    obtain ⟨hrun, hI, hP⟩ := hstep a List.mem_cons_self hb hc
    obtain ⟨hrun', hI', hall⟩ :=
      ih (fun a' ha' => hstep a' (List.mem_cons_of_mem _ ha')) hI h
    refine ⟨htrans hrun hrun', hI', fun a' ha' => ?_⟩
    obtain rfl | ha' := List.mem_cons.1 ha'
    · exact hkeep hI hrun' hP
    · exact hall a' ha'

end Loops
