import Mathlib.Data.List.Basic
import Mathlib.Data.List.Forall2
import Mathlib.Data.Nat.Notation
import Mathlib.Logic.Function.Basic

/-!
# Linked cells

A store of cells, each with a link to another or to none, of which new ones are taken one after
the other. A chain can be copied cell by cell, each copy first linked to the cell that the
original is linked to and then to the copy of that (`cloneLinks_spec`), and it can be updated
cell by cell (`updateLinks_spec`). Neither touches other cells.
-/

namespace LinkedCells

universe u

/-- Cells by their address, and the next address. -/
structure Store (α : Type u) : Type u where
  next : ℕ
  cell : ℕ → α

variable {α : Type u}

/-- A new cell. -/
def Store.alloc (S : Store α) (a : α) : ℕ × Store α :=
  (S.next, ⟨S.next + 1, Function.update S.cell S.next a⟩)

/-- A cell is overwritten. -/
def Store.set (S : Store α) (p : ℕ) (a : α) : Store α :=
  { S with cell := Function.update S.cell p a }

/-- Links, and a function that copies a cell. -/
structure Links (α : Type u) : Type u where
  link : α → Option ℕ
  relink : α → Option ℕ → α
  /-- what is copied may depend on the cell that it is linked to -/
  copy : (ℕ → α) → α → α
  link_relink : ∀ a l, link (relink a l) = l
  relink_link : ∀ a, relink a (link a) = a
  relink_relink : ∀ a l l', relink (relink a l) l' = relink a l'
  copy_congr : ∀ (c c' : ℕ → α) a, (∀ p, link a = some p → c p = c' p) → copy c a = copy c' a

namespace Links

variable (L : Links α)

/-- The addresses that the links lead through. -/
inductive Chain (c : ℕ → α) : Option ℕ → List ℕ → Prop
  | nil : Chain c none []
  | cons {p : ℕ} {l : List ℕ} (h : Chain c (L.link (c p)) l) : Chain c (some p) (p :: l)

variable {L}

/-- A chain depends on its own cells only. -/
theorem Chain.congr {c c' : ℕ → α} {p : Option ℕ} {l : List ℕ} (h : L.Chain c p l)
    (hsame : ∀ q ∈ l, c' q = c q) : L.Chain c' p l := by
  induction h with
  | nil => exact .nil
  | @cons p l _ ih =>
    obtain ⟨hp, hl⟩ := List.forall_mem_cons.1 hsame
    refine .cons ?_
    rw [hp]
    exact ih hl

/-- A chain starts where it starts. -/
theorem Chain.exists_cons {c : ℕ → α} {p : ℕ} {l : List ℕ} (h : L.Chain c (some p) l) :
    ∃ l', l = p :: l' := by
  cases h with
  | cons _ => exact ⟨_, rfl⟩

/-- A chain goes on inside. -/
theorem Chain.link_mem {c : ℕ → α} {p : Option ℕ} {l : List ℕ} (h : L.Chain c p l) {q r : ℕ}
    (hq : q ∈ l) (hr : L.link (c q) = some r) : r ∈ l := by
  induction h with
  | nil => exact absurd hq List.not_mem_nil
  | @cons p l h ih =>
    rcases List.mem_cons.1 hq with rfl | hq
    · rw [hr] at h
      cases h with
      | cons _ => exact List.mem_cons_of_mem _ List.mem_cons_self
    · exact List.mem_cons_of_mem _ (ih hq)

variable (L)

/-- Copies what a cell is linked to, and then what that is linked to. -/
def cloneLinks : ℕ → Store α → ℕ → Option (Store α)
  | 0, _, _ => none
  | fuel + 1, S, n =>
    match L.link (S.cell n) with
    | none => some S
    | some p =>
      let (q, S) := S.alloc (L.copy S.cell (S.cell p))
      cloneLinks fuel (S.set n (L.relink (S.cell n) (some q))) q

/-- Updates the cells of a chain. -/
def updateLinks (f : α → α) : ℕ → Store α → Option ℕ → Option (Store α)
  | 0, _, _ => none
  | _ + 1, S, none => some S
  | fuel + 1, S, some p =>
    let S := S.set p (f (S.cell p))
    updateLinks f fuel S (L.link (S.cell p))

variable {L}

/-- One turn copies the cell that a cell is linked to into a new one, and links the cell to it. -/
theorem cloneLinks_succ {n p : ℕ} {S : Store α} (hlink : L.link (S.cell n) = some p)
    (hn : n < S.next) :
    ∃ S₂ : Store α, (∀ fuel, L.cloneLinks (fuel + 1) S n = L.cloneLinks fuel S₂ S.next) ∧
      S₂.next = S.next + 1 ∧ S₂.cell S.next = L.copy S.cell (S.cell p) ∧
      S₂.cell n = L.relink (S.cell n) (some S.next) ∧
      ∀ a, a < S.next → a ≠ n → S₂.cell a = S.cell a := by
  refine ⟨(S.alloc (L.copy S.cell (S.cell p))).2.set n (L.relink (S.cell n) (some S.next)),
    fun fuel => ?_, rfl, ?_, ?_, fun a ha hne => ?_⟩
  · rw [cloneLinks, hlink]
    simp only [Store.alloc]
    rw [Function.update_of_ne (Nat.ne_of_lt hn)]
  · simp only [Store.set, Store.alloc]
    rw [Function.update_of_ne (Nat.ne_of_gt hn), Function.update_self]
  · simp only [Store.set, Function.update_self]
  · simp only [Store.set, Store.alloc]
    rw [Function.update_of_ne hne, Function.update_of_ne (Nat.ne_of_lt ha)]

/-- The copies are new cells, linked like the originals. -/
theorem cloneLinks_spec {fuel n : ℕ} {S : Store α} {ps : List ℕ}
    (hcopy : ∀ p ∈ ps, L.link (L.copy S.cell (S.cell p)) = L.link (S.cell p))
    (hchain : L.Chain S.cell (L.link (S.cell n)) ps) (hlt : ∀ p ∈ ps, p < S.next) (hn : n < S.next)
    (hnew : n ∉ ps) (hfuel : ps.length < fuel) :
    ∃ S', L.cloneLinks fuel S n = some S' ∧ S'.next = S.next + ps.length ∧
      (∀ a, a < S.next → a ≠ n → S'.cell a = S.cell a) ∧
      (∃ l, S'.cell n = L.relink (S.cell n) l) ∧
      L.Chain S'.cell (some n) (n :: List.range' S.next ps.length) ∧
      List.Forall₂ (fun p q => ∃ l, S'.cell q = L.relink (L.copy S.cell (S.cell p)) l) ps
        (List.range' S.next ps.length) := by
  induction ps generalizing fuel S n with
  | nil =>
    cases fuel with
    | zero => exact absurd hfuel (Nat.not_lt_zero _)
    | succ fuel =>
      obtain ⟨link, hlink⟩ : ∃ link, link = L.link (S.cell n) := ⟨_, rfl⟩
      rw [← hlink] at hchain
      cases hchain
      rw [cloneLinks, ← hlink]
      refine ⟨S, rfl, rfl, fun a _ _ => rfl, ⟨none, ?_⟩, .cons ?_, .nil⟩
      · rw [hlink, L.relink_link]
      · rw [← hlink]
        exact .nil
  | cons p ps ih =>
    cases fuel with
    | zero => exact absurd hfuel (Nat.not_lt_zero _)
    | succ fuel =>
      obtain ⟨link, hlink⟩ : ∃ link, link = L.link (S.cell n) := ⟨_, rfl⟩
      rw [← hlink] at hchain
      cases hchain with
      | cons hrest =>
      obtain ⟨hp, hlt⟩ := List.forall_mem_cons.1 hlt
      obtain ⟨hcopyp, hcopy⟩ := List.forall_mem_cons.1 hcopy
      rw [List.mem_cons, not_or] at hnew
      obtain ⟨hnp, hnew⟩ := hnew
      obtain ⟨S₂, hturn, hnext, hq, hn₂, hcell⟩ := cloneLinks_succ (L := L) hlink.symm hn
      have hps : ∀ a ∈ ps, S₂.cell a = S.cell a := fun a ha =>
        hcell a (hlt a ha) fun heq => hnew (heq ▸ ha)
      -- what the copies depend on is old
      have hcopies : ∀ a ∈ ps, L.copy S₂.cell (S₂.cell a) = L.copy S.cell (S.cell a) :=
        fun a ha => by
          rw [hps a ha]
          exact L.copy_congr _ _ _ fun r hr => hps r (hrest.link_mem ha hr)
      obtain ⟨S', hrun, hnext', hkeep, ⟨l, hl⟩, hchain', hforall⟩ := ih (S := S₂) (n := S.next)
        (fun a ha => by rw [hcopies a ha, hcopy a ha, hps a ha])
        (by rw [hq, hcopyp]; exact hrest.congr hps)
        (fun a ha => by rw [hnext]; exact Nat.lt_succ_of_lt (hlt a ha))
        (by rw [hnext]; exact Nat.lt_succ_self _)
        (fun hmem => Nat.lt_irrefl _ (hlt _ hmem)) (Nat.lt_of_succ_lt_succ hfuel)
      have hn' : S'.cell n = L.relink (S.cell n) (some S.next) := by
        rw [hkeep n (by omega) (Nat.ne_of_lt hn), hn₂]
      rw [hnext] at hnext' hkeep hchain' hforall
      refine ⟨S', ?_, ?_, fun a ha hne => ?_, ⟨_, hn'⟩, .cons ?_, .cons ⟨l, ?_⟩ ?_⟩
      · rw [hturn, hrun]
      · rw [hnext', List.length_cons]
        omega
      · rw [hkeep a (by omega) (Nat.ne_of_lt ha), hcell a ha hne]
      · rw [hn', L.link_relink]
        exact hchain'
      · rw [hl, hq]
      · refine List.forall₂_iff_get.2 ⟨hforall.length_eq, fun i hi hi' => ?_⟩
        obtain ⟨l, hl⟩ := (List.forall₂_iff_get.1 hforall).2 i hi hi'
        rw [hcopies _ (List.get_mem ps ⟨i, hi⟩)] at hl
        exact ⟨l, hl⟩

/-- The cells of a chain are updated, and no others. -/
theorem updateLinks_spec {f : α → α} (hf : ∀ a, L.link (f a) = L.link a) {fuel : ℕ} {S : Store α}
    {p : Option ℕ} {ps : List ℕ} (hchain : L.Chain S.cell p ps) (hnodup : ps.Nodup)
    (hfuel : ps.length < fuel) :
    ∃ S', L.updateLinks f fuel S p = some S' ∧ S'.next = S.next ∧
      (∀ a, a ∉ ps → S'.cell a = S.cell a) ∧ (∀ a ∈ ps, S'.cell a = f (S.cell a)) ∧
      L.Chain S'.cell p ps := by
  induction ps generalizing fuel S p with
  | nil =>
    cases hchain
    cases fuel with
    | zero => exact absurd hfuel (Nat.not_lt_zero _)
    | succ fuel =>
      exact ⟨S, rfl, rfl, fun a _ => rfl, fun a ha => absurd ha List.not_mem_nil, .nil⟩
  | cons p ps ih =>
    cases fuel with
    | zero => exact absurd hfuel (Nat.not_lt_zero _)
    | succ fuel =>
      cases hchain with
      | cons hrest =>
      obtain ⟨hp, hnodup⟩ := List.nodup_cons.1 hnodup
      have hother : ∀ a, a ≠ p → (S.set p (f (S.cell p))).cell a = S.cell a := fun a ha =>
        Function.update_of_ne ha _ _
      have hself : (S.set p (f (S.cell p))).cell p = f (S.cell p) := Function.update_self _ _ _
      have hps : ∀ a ∈ ps, (S.set p (f (S.cell p))).cell a = S.cell a := fun a ha =>
        hother a fun heq => hp (heq ▸ ha)
      obtain ⟨S', hrun, hnext, hkeep, hupdate, hchain'⟩ :=
        ih (hrest.congr hps) hnodup (Nat.lt_of_succ_lt_succ hfuel)
      refine ⟨S', ?_, hnext, fun a ha => ?_, List.forall_mem_cons.2 ⟨?_, fun a ha => ?_⟩, .cons ?_⟩
      · simp only [updateLinks]
        rw [hself, hf]
        exact hrun
      · rw [List.mem_cons, not_or] at ha
        rw [hkeep a ha.2, hother a ha.1]
      · rw [hkeep p hp, hself]
      · rw [hupdate a ha, hps a ha]
      · rw [hkeep p hp, hself, hf]
        exact hchain'

end Links

end LinkedCells
