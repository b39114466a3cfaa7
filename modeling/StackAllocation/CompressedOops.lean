import StackAllocation.IdealGraph
import StackAllocation.Eligibility

/-!
# Compressed references to stack objects

`oop_may_be_compressed` follows an allocation's result through `Phi` nodes alone. A result
that passes through a cast or a conditional move before it is compressed is not noticed; so the
check does its work exactly where each `EncodeP` that can be reached is reached through `Phi`
nodes as well, or where another check rejects the allocation (`never_compressed_iff`).
-/

namespace StackAllocation

/-- The nodes that hand on the pointer they get. -/
def IsValuePreserving (o : Opcode) : Prop :=
  o = .phi ∨ o = .castPP ∨ o = .checkCastPP ∨ o = .cMoveP

instance (o : Opcode) : Decidable (IsValuePreserving o) := inferInstanceAs (Decidable (_ ∨ _))

section

variable (E : EligibilityInfo) (G : IdealGraph) (result : ℕ → ℕ)

/-- The checks of an ideal graph: `oop_may_be_compressed` looks at the result of the
allocation. -/
def EligibilityInfo.withGraph : EligibilityInfo :=
  { E with
    oopMayBeCompressed := fun a =>
      decide (G.oopMayBeCompressed (G.size + 2) (result a) = some true) }

/-- The reference to the allocation, if it is accepted, is never compressed. -/
def NeverCompressed (g : Nodes) (a : ℕ) : Prop :=
  E.useCompressedOops = true → eligibleForStackAllocation (E.withGraph G result) g a = true →
    ¬ G.ReachesEncodeP IsValuePreserving (result a)

variable {E G result}

variable (E G result) in
/-- The check sees what is reached through `Phi` nodes. -/
theorem oopMayBeCompressed_withGraph (a : ℕ) :
    (E.withGraph G result).oopMayBeCompressed a = true ↔
      G.ReachesEncodeP (· = .phi) (result a) := by
  obtain ⟨b, hb, hiff⟩ := IdealGraph.oopMayBeCompressed_eq (result a) (Nat.le_refl (G.size + 2))
  show decide (G.oopMayBeCompressed (G.size + 2) (result a) = some true) = true ↔ _
  rw [hb, ← hiff]
  simp

/-- Whether the shape of an object is eligible does not depend on the ideal graph. -/
theorem shapeEligible_withGraph (a : ℕ) :
    (E.withGraph G result).shapeEligible a = E.shapeEligible a := rfl

/-- Nor does it whether its uses are. -/
theorem allUsesEligible_withGraph (g : Nodes) (a : ℕ) :
    allUsesEligible (E.withGraph G result) g a = allUsesEligible E g a := by
  unfold allUsesEligible
  congr 1

end

/-- What is accepted is never compressed exactly where an `EncodeP` is reached through `Phi`
nodes alone if at all, or another check rejects the allocation. -/
theorem never_compressed_iff (E : EligibilityInfo) (G : IdealGraph) (result : ℕ → ℕ) (g : Nodes)
    (a : ℕ) : NeverCompressed E G result g a ↔
      (E.useCompressedOops = true → G.ReachesEncodeP IsValuePreserving (result a) →
        G.ReachesEncodeP (· = .phi) (result a) ∨ E.shapeEligible a = false ∨
          allUsesEligible E g a = false) := by
  unfold NeverCompressed
  rw [eligibleForStackAllocation_iff, shapeEligible_withGraph, allUsesEligible_withGraph]
  have hcheck := oopMayBeCompressed_withGraph E G result a
  refine imp_congr_right fun hcoops => ?_
  constructor
  · intro h hreach
    by_contra hnone
    rw [not_or, not_or, Bool.not_eq_false, Bool.not_eq_false, ← hcheck] at hnone
    obtain ⟨hphi, hshape, huses⟩ := hnone
    refine h ⟨hshape, ?_, huses⟩ hreach
    rw [Bool.and_eq_false_iff]
    exact .inr (Bool.eq_false_iff.2 hphi)
  · rintro h ⟨hshape, hphi, huses⟩ hreach
    obtain hbad | hbad | hbad := h hreach
    · have hcoops' : (E.withGraph G result).useCompressedOops = true := hcoops
      rw [hcoops', Bool.true_and] at hphi
      rw [hcheck.2 hbad] at hphi
      exact Bool.noConfusion hphi
    · rw [hshape] at hbad
      exact Bool.noConfusion hbad
    · rw [huses] at hbad
      exact Bool.noConfusion hbad

/-! ### A failing input

The result of an allocation (node 4) is cast to be not null (node 5) before it is compressed for
a comparison (node 6). -/

/-- The nodes of the allocation, its two projections, the cast, the `EncodeP` and the
comparison. -/
def castGraph : IdealGraph :=
  .ofInputs [(.other, []), (.other, []), (.other, [some 0]), (.other, [some 2]),
    (.checkCastPP, [some 3, some 3]), (.castPP, [some 0, some 4]), (.encodeP, [none, some 5]),
    (.other, [none, some 6, some 1])]

/-- Its connection graph. -/
def castNodes : Nodes := fun n =>
  [blankNode .javaObject .other .globalEscape,
   blankNode .javaObject .nullConP .noEscape,
   { blankNode .javaObject .allocate .noEscape with
     uses := [.edge 3, .edge 4, .edge 5, .edge 6] },
   { blankNode .localVar .other .noEscape with edges := [2], uses := [.edge 4] },
   { blankNode .localVar .other .noEscape with edges := [3, 2], uses := [.edge 5] },
   { blankNode .localVar .other .noEscape with edges := [4, 2], uses := [.edge 6] },
   { blankNode .localVar .other .noEscape with edges := [5, 2] }].getD n
    (blankNode .localVar .other .noEscape)

/-- An object of 24 bytes, with compressed references. -/
def castInfo : EligibilityInfo where
  useCompressedOops := true
  eliminateAllocationArraySizeLimit := 64
  resultCast := fun _ => some true
  sizeOfObject := fun _ => some 24
  arrayLength := fun _ => none
  isObjArrayKlass := fun _ => false
  oopMayBeCompressed := fun _ => false
  lifetimeOverlap := fun _ => false

/-- The allocation is accepted, and its address is compressed behind a cast. -/
theorem compressed_castGraph : ¬ NeverCompressed castInfo castGraph (fun _ => 4) castNodes 2 := by
  intro hnever
  refine hnever rfl (by decide +kernel) ⟨5, ?_, 6, by decide, by decide⟩
  exact .single ⟨by decide, by decide⟩

end StackAllocation
