import Mathlib.Data.Finset.Basic
import Mathlib.Data.Finset.BooleanAlgebra
import Mathlib.Data.Fintype.Card
import Mathlib.Algebra.BigOperators.Group.Finset.Basic
import Mathlib.Algebra.Order.BigOperators.Group.Finset
import Mathlib.Logic.Function.Basic
import Mathlib.Data.Nat.Notation

/-!
# Reaching definitions and liveness

Blocks of nodes, each of which uses and sets some of finitely many registers. The node that set
a register last, on some way from the entry, reaches a block (`Dataflow.Reaches`); a register is
live into a block if some way from there uses it before it is set (`Dataflow.LiveIn`). Where one
definition alone reaches each block that a register is live into, one definition alone reaches
each point where it is live (`Dataflow.exists_lastDef_eq`).
-/

namespace Dataflow

universe u v w

variable {ν : Type u} {β : Type v} {ρ : Type w}

section Straight

variable (kills gens : ν → Finset ρ)

/-- Nothing in the list sets the register. -/
def Transparent (ns : List ν) (r : ρ) : Prop := ∀ n ∈ ns, r ∉ kills n

/-- The register is used in the list before anything there sets it. -/
def Exposed (ns : List ν) (r : ρ) : Prop :=
  ∃ pre n post, ns = pre ++ n :: post ∧ r ∈ gens n ∧ Transparent kills pre r

variable {kills gens}

/-- A register passes a list of nodes if none of them defines it, the first one and those after
it. -/
theorem transparent_cons {n : ν} {ns : List ν} {r : ρ} :
    Transparent kills (n :: ns) r ↔ r ∉ kills n ∧ Transparent kills ns r :=
  List.forall_mem_cons

/-- Or those of two lists. -/
theorem transparent_append {ns ms : List ν} {r : ρ} :
    Transparent kills (ns ++ ms) r ↔ Transparent kills ns r ∧ Transparent kills ms r :=
  List.forall_mem_append

/-- A use is exposed if it is of the first node, or is so further down and the first node does not
define the register. -/
theorem exposed_cons {n : ν} {ns : List ν} {r : ρ} :
    Exposed kills gens (n :: ns) r ↔ r ∈ gens n ∨ r ∉ kills n ∧ Exposed kills gens ns r := by
  constructor
  · rintro ⟨pre, m, post, heq, hm, hpre⟩
    cases pre with
    | nil =>
      obtain ⟨rfl, -⟩ := List.cons.inj heq
      exact .inl hm
    | cons k pre =>
      obtain ⟨rfl, rfl⟩ := List.cons.inj heq
      obtain ⟨hk, hpre⟩ := transparent_cons.1 hpre
      exact .inr ⟨hk, pre, m, post, rfl, hm, hpre⟩
  · rintro (hn | ⟨hn, pre, m, post, rfl, hm, hpre⟩)
    · exact ⟨[], n, ns, rfl, hn, fun _ h => absurd h List.not_mem_nil⟩
    · exact ⟨n :: pre, m, post, rfl, hm, transparent_cons.2 ⟨hn, hpre⟩⟩

/-- A use below nodes that do not set the register. -/
theorem Exposed.append_left {ns ms : List ν} {r : ρ} (hns : Transparent kills ns r)
    (h : Exposed kills gens ms r) : Exposed kills gens (ns ++ ms) r := by
  obtain ⟨pre, n, post, rfl, hn, hpre⟩ := h
  exact ⟨ns ++ pre, n, post, (List.append_assoc ..).symm, hn, transparent_append.2 ⟨hns, hpre⟩⟩

variable [DecidableEq ρ] (kills gens)

/-- The registers that are live above the nodes, from those that are live below. -/
def liveAbove (ns : List ν) (t : Finset ρ) : Finset ρ :=
  ns.foldr (fun n t => (t \ kills n) ∪ gens n) t

/-- The node that set the register last, `o` being the one before the nodes. -/
def lastDef (r : ρ) (ns : List ν) (o : Option ν) : Option ν :=
  ns.foldl (fun o n => if r ∈ kills n then some n else o) o

variable {kills gens}

/-- What is live above a node: what it does not kill, and what it uses. -/
theorem liveAbove_cons (n : ν) (ns : List ν) (t : Finset ρ) :
    liveAbove kills gens (n :: ns) t = (liveAbove kills gens ns t \ kills n) ∪ gens n := rfl

/-- Above a list of nodes lives what has an exposed use in it, and what is live below and passes
it. -/
theorem mem_liveAbove {ns : List ν} {t : Finset ρ} {r : ρ} :
    r ∈ liveAbove kills gens ns t ↔ Exposed kills gens ns r ∨ Transparent kills ns r ∧ r ∈ t := by
  induction ns with
  | nil =>
    have hno : ¬ Exposed kills gens [] r := by
      rintro ⟨pre, n, post, heq, -, -⟩
      exact List.append_ne_nil_of_right_ne_nil pre (List.cons_ne_nil n post) heq.symm
    simp [liveAbove, Transparent, hno]
  | cons n ns ih =>
    rw [liveAbove_cons, Finset.mem_union, Finset.mem_sdiff, ih, exposed_cons, transparent_cons]
    tauto

/-- More live below means more live above, so the rounds of a pass only add registers. -/
theorem liveAbove_mono {ns : List ν} {t t' : Finset ρ} (h : t ⊆ t') :
    liveAbove kills gens ns t ⊆ liveAbove kills gens ns t' := by
  intro r hr
  rw [mem_liveAbove] at hr ⊢
  exact hr.imp_right fun ⟨hns, ht⟩ => ⟨hns, h ht⟩

/-- The last definition in two lists, one after the other. -/
theorem lastDef_append (r : ρ) (ns ms : List ν) (o : Option ν) :
    lastDef kills r (ns ++ ms) o = lastDef kills r ms (lastDef kills r ns o) :=
  List.foldl_append

/-- A list that a register passes has no definition of it. -/
theorem lastDef_eq_of_transparent {r : ρ} {ns : List ν} (h : Transparent kills ns r)
    (o : Option ν) : lastDef kills r ns o = o := by
  induction ns with
  | nil => rfl
  | cons n ns ih =>
    obtain ⟨hn, hns⟩ := transparent_cons.1 h
    rw [lastDef, List.foldl_cons, if_neg hn]
    exact ih hns

/-- Nodes that set the register hide what was there before. -/
theorem exists_lastDef_of_not_transparent {r : ρ} {ns : List ν} (h : ¬ Transparent kills ns r) :
    ∃ d, ∀ o, lastDef kills r ns o = some d := by
  induction ns using List.reverseRecOn with
  | nil => exact absurd (fun _ hn => absurd hn List.not_mem_nil) h
  | append_singleton ns n ih =>
    by_cases hn : r ∈ kills n
    · refine ⟨n, fun o => ?_⟩
      rw [lastDef_append]
      exact if_pos hn
    · have hns : ¬ Transparent kills ns r := fun hns =>
        h (transparent_append.2
          ⟨hns, transparent_cons.2 ⟨hn, fun _ hm => absurd hm List.not_mem_nil⟩⟩)
      obtain ⟨d, hd⟩ := ih hns
      refine ⟨d, fun o => ?_⟩
      rw [lastDef_append, hd]
      exact if_neg hn

end Straight

section Graph

variable (kills gens : ν → Finset ρ) (nodes : β → List ν) (succs : β → List β)

/-- The register is live into the block. -/
inductive LiveIn : β → ρ → Prop
  | exposed {b : β} {r : ρ} (h : Exposed kills gens (nodes b) r) : LiveIn b r
  | through {b c : β} {r : ρ} (h : Transparent kills (nodes b) r) (hc : c ∈ succs b)
      (hlive : LiveIn c r) : LiveIn b r

/-- The register is live above the nodes `ns` at the end of the block. -/
def LiveAbove (b : β) (ns : List ν) (r : ρ) : Prop :=
  Exposed kills gens ns r ∨
    Transparent kills ns r ∧ ∃ c ∈ succs b, LiveIn kills gens nodes succs c r

variable {kills gens nodes succs}

/-- Live at the start of a block is live above all nodes of it. -/
theorem liveIn_iff {b : β} {r : ρ} :
    LiveIn kills gens nodes succs b r ↔ LiveAbove kills gens nodes succs b (nodes b) r := by
  constructor
  · intro h
    cases h with
    | exposed h => exact .inl h
    | through h hc hlive => exact .inr ⟨h, _, hc, hlive⟩
  · rintro (h | ⟨h, c, hc, hlive⟩)
    · exact .exposed h
    · exact .through h hc hlive

/-- What is live below nodes that do not set it is live above them. -/
theorem LiveAbove.append_left {b : β} {ns ms : List ν} {r : ρ} (hns : Transparent kills ns r)
    (h : LiveAbove kills gens nodes succs b ms r) :
    LiveAbove kills gens nodes succs b (ns ++ ms) r := by
  obtain h | ⟨h, hc⟩ := h
  · exact .inl (h.append_left hns)
  · exact .inr ⟨transparent_append.2 ⟨hns, h⟩, hc⟩

variable [DecidableEq ρ] (kills nodes succs)

/-- The node that set the register last on some way from `entry` into the block, `none` if
nothing did. No way leads through `root`. -/
inductive Reaches (entry root : β) : β → ρ → Option ν → Prop
  | entry (r : ρ) : Reaches entry root entry r none
  | step {b c : β} {r : ρ} {o : Option ν} (h : Reaches entry root b r o) (hc : c ∈ succs b)
      (hroot : c ≠ root) : Reaches entry root c r (lastDef kills r (nodes b) o)

variable {kills nodes succs}

/-- Where a register is live, one definition reaches it if one definition reaches each block
that it is live into. -/
theorem exists_lastDef_eq {entry root b : β} {r : ρ} {pre post : List ν}
    (hone : ∀ b r, LiveIn kills gens nodes succs b r →
      ∃ d, ∀ o, Reaches kills nodes succs entry root b r o → o = some d)
    (hb : nodes b = pre ++ post) (hlive : LiveAbove kills gens nodes succs b post r) :
    ∃ d, ∀ o, Reaches kills nodes succs entry root b r o → lastDef kills r pre o = some d := by
  by_cases hpre : Transparent kills pre r
  · have hin : LiveIn kills gens nodes succs b r := by
      rw [liveIn_iff, hb]
      exact hlive.append_left hpre
    obtain ⟨d, hd⟩ := hone b r hin
    refine ⟨d, fun o ho => ?_⟩
    rw [lastDef_eq_of_transparent hpre]
    exact hd o ho
  · obtain ⟨d, hd⟩ := exists_lastDef_of_not_transparent hpre
    exact ⟨d, fun o _ => hd o⟩

end Graph

section Room

variable [Fintype β] [DecidableEq β] [Fintype ρ] [DecidableEq ρ]

/-- How often the sets can still grow. -/
def room (live : β → Finset ρ) : ℕ := ∑ b, (live b)ᶜ.card

/-- A block that gets more registers leaves less room, which bounds the rounds of a pass. -/
theorem room_update_lt {live : β → Finset ρ} {b : β} {t : Finset ρ} (h : live b ⊂ t) :
    room (Function.update live b t) < room live := by
  refine Finset.sum_lt_sum (fun c _ => ?_) ⟨b, Finset.mem_univ b, ?_⟩
  · obtain rfl | hc := eq_or_ne c b
    · rw [Function.update_self]
      exact Finset.card_le_card (Finset.compl_subset_compl.2 h.subset)
    · rw [Function.update_of_ne hc]
  · rw [Function.update_self]
    exact Finset.card_lt_card (Finset.compl_ssubset_compl.2 h)

end Room

end Dataflow
