import Mathlib.Order.Basic
import Mathlib.Logic.Relation

/-!
# Pruning to the largest supported subset

A set of candidates in which each has to be supported by the others, `ok X a`, is
pruned by taking out one unsupported candidate at a time. When support is monotone in
the set, the order does not matter: what is left when all candidates are supported is
the largest supported subset (`Prunes.iff_survives`).
-/

namespace Pruning

universe u

variable {α : Type u} (ok : (α → Prop) → α → Prop)

/-- Every member is supported. -/
def Supported (X : α → Prop) : Prop := ∀ a, X a → ok X a

/-- Support does not get lost when the set grows. -/
def MonotoneSupport : Prop :=
  ∀ ⦃X Y : α → Prop⦄ ⦃a : α⦄, (∀ b, X b → Y b) → ok X a → ok Y a

/-- The candidates that are in a supported subset. -/
def Survives (init : α → Prop) (a : α) : Prop :=
  ∃ X : α → Prop, (∀ b, X b → init b) ∧ Supported ok X ∧ X a

/-- A run that takes out unsupported candidates. -/
inductive Prunes : (α → Prop) → (α → Prop) → Prop
  | refl (X : α → Prop) : Prunes X X
  | step {X Y : α → Prop} {a : α} : ¬ ok X a → Prunes (fun b => X b ∧ b ≠ a) Y → Prunes X Y

variable {ok} {init X Y : α → Prop}

/-- What survives was a candidate. -/
theorem Survives.candidate {a : α} (h : Survives ok init a) : init a := by
  obtain ⟨X, hX, -, ha⟩ := h
  exact hX a ha

/-- The survivors support each other. -/
theorem survives_supported (hok : MonotoneSupport ok) : Supported ok (Survives ok init) := by
  rintro a ⟨X, hX, hsupp, ha⟩
  exact hok (fun b hb => ⟨X, hX, hsupp, hb⟩) (hsupp a ha)

/-- Nothing is added by pruning. -/
theorem Prunes.subset (h : Prunes ok X Y) {a : α} (ha : Y a) : X a := by
  induction h with
  | refl _ => exact ha
  | step _ _ ih => exact (ih ha).1

/-- Pruning in several rounds: what is taken away in each of them could not survive. -/
theorem Prunes.trans {Z : α → Prop} (h : Prunes ok X Y) (h' : Prunes ok Y Z) : Prunes ok X Z := by
  induction h with
  | refl _ => exact h'
  | step hbad _ ih => exact .step hbad (ih h')

/-- Pruning keeps every supported subset. -/
theorem Prunes.survives (hok : MonotoneSupport ok) (h : Prunes ok X Y)
    (hX : ∀ a, Survives ok init a → X a) {a : α} (ha : Survives ok init a) : Y a := by
  induction h with
  | refl _ => exact hX a ha
  | @step X Y b hbad _ ih =>
    refine ih fun c hc => ⟨hX c hc, ?_⟩
    rintro rfl
    exact hbad (hok hX (survives_supported hok c hc))

/-- A run that ends in a supported set ends in the largest one. -/
theorem Prunes.iff_survives (hok : MonotoneSupport ok) (h : Prunes ok init Y)
    (hY : Supported ok Y) (a : α) : Y a ↔ Survives ok init a := by
  constructor
  · intro ha
    exact ⟨Y, fun b hb => h.subset hb, hY, ha⟩
  · intro ha
    exact h.survives hok (fun b hb => hb.candidate) ha

/-- What a candidate needs, when each of its holders has to be in the set or excused: a candidate
survives when everything that holds it, along a chain without excuses, is a candidate. -/
theorem survives_iff_holders {holds : α → α → Prop} {excused : α → Prop}
    (hok : ∀ X : α → Prop, (∀ b, X b → init b) → ∀ a, X a →
      (ok X a ↔ ∀ b, holds b a → excused b ∨ X b)) (a : α) :
    Survives ok init a ↔
      ∀ b, Relation.ReflTransGen (fun x y => holds y x ∧ ¬ excused y) a b → init b := by
  constructor
  · rintro ⟨X, hX, hsupp, ha⟩ b hchain
    refine hX b ?_
    induction hchain with
    | refl => exact ha
    | @tail x y _ hstep ih =>
      exact ((hok X hX x ih).1 (hsupp x ih) y hstep.1).resolve_left hstep.2
  · intro h
    have hcand : ∀ c, (∀ b, Relation.ReflTransGen (fun x y => holds y x ∧ ¬ excused y) c b →
        init b) → init c := fun c hc => hc c .refl
    refine ⟨_, hcand, fun c hc => (hok _ hcand c hc).2 fun b hb => ?_, h⟩
    by_cases hexcused : excused b
    · exact .inl hexcused
    · exact .inr fun d hd => hc d (Relation.ReflTransGen.head ⟨hb, hexcused⟩ hd)

end Pruning
