import StackAllocation.IdealGraph

/-!
# Loop phis that reach themselves

`allocation_lifetime_overlap` starts from the out edges of the `Phi` but the first, so what it
answers depends on which edge is stored first when one edge alone leads back to the `Phi`
(`lifetimeOverlap_exact_iff`).
-/

namespace StackAllocation

namespace IdealGraph

variable (G : IdealGraph)

/-- The same graph, its out edges stored in another order. -/
structure Reordered (G' : IdealGraph) : Prop where
  size : G'.size = G.size
  opcode : G'.opcode = G.opcode
  ins : G'.ins = G.ins
  outs : ∀ n, (G'.outs n).Perm (G.outs n)

/-- The node can be reached from itself. -/
def OnCycle (n : ℕ) : Prop := Relation.TransGen G.Edge n n

/-- The walk says whether the `Phi` can be reached from itself, whatever the order. -/
def LifetimeOverlapExact (phi : ℕ) : Prop :=
  ∀ G', G.Reordered G' → ∀ fuel, G'.walkFuel phi ≤ fuel →
    ∃ b, G'.allocationLifetimeOverlap fuel phi = some b ∧ (b = true ↔ G.OnCycle phi)

/-- One out edge of the node leads back to it, and no other does. -/
def OneWayBack (n : ℕ) : Prop :=
  ∃ u rest, (G.outs n).Perm (u :: rest) ∧ Relation.ReflTransGen G.Edge u n ∧
    ∀ v ∈ rest, ¬ Relation.ReflTransGen G.Edge v n

variable {G} {G' : IdealGraph}

/-- A node is on a cycle if one of its users leads back to it. -/
theorem onCycle_iff {n : ℕ} :
    G.OnCycle n ↔ ∃ u ∈ G.outs n, Relation.ReflTransGen G.Edge u n :=
  Relation.TransGen.head'_iff

/-- Whether a node is the `Phi` of a loop does not depend on the order of its users. -/
theorem Reordered.isLoopPhi (h : G.Reordered G') (phi : ℕ) :
    G'.isLoopPhi phi = G.isLoopPhi phi := by
  unfold IdealGraph.isLoopPhi input
  rw [h.opcode, h.ins]

/-- Nor do the edges. -/
theorem Reordered.edge (h : G.Reordered G') : G'.Edge = G.Edge := by
  funext n m
  exact propext (h.outs n).mem_iff

/-- The out edges of one node in another order. -/
def reorder (G : IdealGraph) (n : ℕ) (l : List ℕ) (hl : l.Perm (G.outs n)) : IdealGraph where
  size := G.size
  opcode := G.opcode
  ins := G.ins
  outs := fun k => if k = n then l else G.outs k
  count_outs := by
    intro k m
    by_cases hk : k = n
    · subst hk
      rw [if_pos rfl, hl.count_eq]
      exact G.count_outs k m
    · rw [if_neg hk]
      exact G.count_outs k m
  outs_lt := by
    intro k m hm
    by_cases hk : k = n
    · subst hk
      rw [if_pos rfl] at hm
      exact G.outs_lt k m (hl.mem_iff.1 hm)
    · rw [if_neg hk] at hm
      exact G.outs_lt k m hm

/-- The order of the users of one node, as it is chosen. -/
theorem reorder_outs (n : ℕ) (l : List ℕ) (hl : l.Perm (G.outs n)) :
    (G.reorder n l hl).outs n = l := if_pos rfl

/-- The graph is the same but for that order. -/
theorem reorder_reordered (n : ℕ) (l : List ℕ) (hl : l.Perm (G.outs n)) :
    G.Reordered (G.reorder n l hl) where
  size := rfl
  opcode := rfl
  ins := rfl
  outs := by
    intro k
    by_cases hk : k = n
    · subst hk
      rw [reorder_outs]
      exact hl
    · show (if k = n then l else G.outs k).Perm (G.outs k)
      rw [if_neg hk]

/-- The walk in a reordered graph. -/
theorem Reordered.allocationLifetimeOverlap_eq (h : G.Reordered G') {fuel phi : ℕ}
    (hloop : G.isLoopPhi phi = true) (hphi : G.opcode phi = .phi) (hfuel : G'.walkFuel phi ≤ fuel) :
    ∃ b, G'.allocationLifetimeOverlap fuel phi = some b ∧
      (b = true ↔ ∃ u ∈ (G'.outs phi).drop 1, Relation.ReflTransGen G.Edge u phi) := by
  have hloop' : G'.isLoopPhi phi = true := by rw [h.isLoopPhi, hloop]
  have hphi' : G'.opcode phi = .phi := by rw [h.opcode, hphi]
  have hresult := IdealGraph.allocationLifetimeOverlap_eq hloop' hphi' hfuel
  rwa [h.edge] at hresult

/-- The walk is exact but for a `Phi` with a single way back. -/
theorem lifetimeOverlap_exact_iff (G : IdealGraph) (phi : ℕ) (hphi : G.opcode phi = .phi)
    (hloop : G.isLoopPhi phi = true) : G.LifetimeOverlapExact phi ↔ ¬ G.OneWayBack phi := by
  constructor
  · rintro hexact ⟨u, rest, hperm, hback, hrest⟩
    -- The way back is stored first.
    have hre := reorder_reordered (G := G) phi (u :: rest) hperm.symm
    obtain ⟨b, hb, hcycle⟩ := hexact _ hre _ (Nat.le_refl _)
    obtain ⟨b', hb', hwalk⟩ := hre.allocationLifetimeOverlap_eq hloop hphi (Nat.le_refl _)
    obtain rfl : b = b' := Option.some.inj (hb.symm.trans hb')
    have htrue : b = true := hcycle.2 (onCycle_iff.2 ⟨u, hperm.mem_iff.2 List.mem_cons_self, hback⟩)
    obtain ⟨v, hv, hvback⟩ := hwalk.1 htrue
    rw [reorder_outs] at hv
    exact hrest v hv hvback
  · intro hmany G' hre fuel hfuel
    obtain ⟨b, hb, hwalk⟩ := hre.allocationLifetimeOverlap_eq hloop hphi hfuel
    refine ⟨b, hb, hwalk.trans ?_⟩
    rw [onCycle_iff]
    constructor
    · rintro ⟨u, hu, hback⟩
      exact ⟨u, (hre.outs phi).mem_iff.1 (List.mem_of_mem_drop hu), hback⟩
    · rintro ⟨u, hu, hback⟩
      by_contra hnone
      obtain ⟨v, rest, houts⟩ := List.exists_cons_of_ne_nil
        (List.ne_nil_of_mem ((hre.outs phi).mem_iff.2 hu))
      have hrest : ∀ w ∈ rest, ¬ Relation.ReflTransGen G.Edge w phi := by
        intro w hw hwback
        exact hnone ⟨w, by rw [houts]; exact hw, hwback⟩
      have hperm : (G.outs phi).Perm (v :: rest) := houts ▸ (hre.outs phi).symm
      obtain rfl | hu := List.mem_cons.1 (hperm.mem_iff.1 hu)
      · exact hmany ⟨u, rest, hperm, hback, hrest⟩
      · exact hrest u hu hback

/-- A loop with two back edges. -/
def twoBackEdges : IdealGraph :=
  ofInputs [(.other, []), (.loop, [some 1, some 0, some 1, some 1]),
    (.phi, [some 1, some 0, some 3, some 4]), (.castPP, [none, some 2]),
    (.checkCastPP, [none, some 2])]

/-- The walk is exact there. -/
theorem lifetimeOverlap_exact_twoBackEdges : twoBackEdges.LifetimeOverlapExact 2 := by
  have hedge : ∀ v ∈ twoBackEdges.outs 2, 2 ∈ twoBackEdges.outs v := by decide
  refine (lifetimeOverlap_exact_iff _ 2 (by decide) (by decide)).2 ?_
  rintro ⟨u, rest, hperm, -, hrest⟩
  obtain ⟨v, rfl⟩ := List.length_eq_one_iff.1 (Nat.succ.inj hperm.length_eq).symm
  have hv := hperm.mem_iff.2 (List.mem_cons_of_mem u (List.mem_singleton_self v))
  exact hrest v (List.mem_singleton_self v) (.single (hedge v hv))

/-! ### A failing input

The `Phi` of a loop (node 2) has two users, a cast whose result is the next value of the `Phi`
(node 3), and a node that leads nowhere. -/

/-- The graph of the loop. -/
def loopGraph : IdealGraph :=
  ofInputs [(.other, []), (.loop, [some 1, some 0, some 1]), (.phi, [some 1, some 0, some 3]),
    (.castPP, [none, some 2]), (.other, [none, some 2])]

/-- With one order of the users the `Phi` is found to reach itself, with the other it is not. -/
theorem lifetimeOverlap_loopGraph :
    loopGraph.OnCycle 2 ∧ ∃ hl : [4, 3].Perm (loopGraph.outs 2),
      (loopGraph.reorder 2 [4, 3] hl).allocationLifetimeOverlap 40 2 = some true ∧
      loopGraph.allocationLifetimeOverlap 40 2 = some false ∧
        ¬ loopGraph.LifetimeOverlapExact 2 := by
  have hback : Relation.ReflTransGen loopGraph.Edge 3 2 :=
    .single (show 2 ∈ loopGraph.outs 3 by decide)
  have hcycle : loopGraph.OnCycle 2 := onCycle_iff.2 ⟨3, by decide, hback⟩
  have hfalse : loopGraph.allocationLifetimeOverlap 40 2 = some false := by decide +kernel
  refine ⟨hcycle, by decide, by decide +kernel, hfalse, fun hexact => ?_⟩
  obtain ⟨b, hb, hiff⟩ := hexact loopGraph ⟨rfl, rfl, rfl, fun _ => .refl _⟩ 40 (by decide +kernel)
  obtain rfl : b = false := Option.some.inj (hb.symm.trans hfalse)
  exact Bool.false_ne_true (hiff.2 hcycle)

end IdealGraph

end StackAllocation
