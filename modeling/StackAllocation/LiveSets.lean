import StackAllocation.LivenessPass
import Mathlib.Order.Bounds.Basic

/-!
# The sets that the liveness pass leaves

`do_liveness` drains its worklist until no safepoint is missed, and then what it leaves for the
blocks is the least solution of the equations of liveness (`livenessRounds_exact`). It starts at the
blocks that leave the method and goes on to the predecessors of what changes, so it needs a register
that is used in each of those blocks, and is live into all blocks that control can get to them from.
A register that is live into all of them is not enough: if what leaves the method does not use it,
the pass may stop at once (`not_livenessExact_besideGraph`).
-/

namespace StackAllocation

open Dataflow

variable {VMReg : Type}

namespace FlowGraph

variable (G : FlowGraph VMReg)

/-- The outer loop, by how often it goes round; `none` if that is not enough. -/
def livenessRounds : ℕ → (G.Block → Finset G.Reg) × G.Safehash → List G.Block →
    Option ((G.Block → Finset G.Reg) × G.Safehash)
  | 0, _, _ => none
  | fuel + 1, s, worklist =>
    match G.drain (G.drainFuel worklist) s worklist with
    | none => none
    | some s => if G.missed s.2 then livenessRounds fuel s G.otherBlocks else some s

/-- `do_liveness`, with the sets that it leaves for the blocks. -/
def liveness (fuel : ℕ) : Option ((G.Block → Finset G.Reg) × G.Safehash) :=
  G.livenessRounds fuel (fun _ => ∅, fun _ => none) (G.preds G.rootBlock)

/-- The sets satisfy the equations of liveness. -/
def IsSolution (live : G.Block → Finset G.Reg) : Prop := ∀ b, live b = top live b

/-- The sets are the least solution, and each safepoint is given what is live at it. -/
structure Exact (live : G.Block → Finset G.Reg) (safehash : G.Safehash) : Prop where
  least : IsLeast {live | G.IsSolution live} live
  recorded : ∀ b, ∀ n ∈ G.nodes b, (G.node n).jvms.isSome →
    ∃ s, safehash n = some s ∧ ∀ r, r ∈ s ↔ G.LiveAt n r

/-- The pass ends with exact results, after two rounds at most. -/
def LivenessExact : Prop :=
  ∃ live safehash, (∀ fuel, 2 ≤ fuel → G.liveness fuel = some (live, safehash)) ∧
    G.Exact live safehash

variable {G} {live live' : G.Block → Finset G.Reg} {safehash : G.Safehash} {b : G.Block} {r : G.Reg}

/-! ## The equations

A solution gives each block what its nodes make of the union over its successors. The least one has
a register exactly where a path leads to a use, and it is what the pass is to find. -/

/-- A solution has at least what is live. -/
theorem IsSolution.mem_of_liveInto (h : G.IsSolution live) (hlive : G.LiveInto b r) :
    r ∈ live b := by
  induction hlive with
  | exposed hexp =>
    rw [h]
    exact mem_liveAbove.2 (.inl hexp)
  | through htrans hc _ ih =>
    rw [h]
    exact mem_liveAbove.2 (.inr ⟨htrans, mem_liveOut.2 ⟨_, hc, ih⟩⟩)

/-- A solution with no more than what is live is the least. -/
theorem IsSolution.isLeast (h : G.IsSolution live) (hsound : ∀ b, ∀ r ∈ live b, G.LiveInto b r) :
    IsLeast {live | G.IsSolution live} live :=
  ⟨h, fun _ hlive' b r hr => IsSolution.mem_of_liveInto hlive' (hsound b r hr)⟩

/-! ## The rounds

A round empties the worklist. The register that all ends of the method use makes each block on a way
out grow, so its predecessors are put on the list. The other blocks get their turn in the second
round, if one of them has a safepoint. -/

/-- No safepoint is missed when every block was on the list. -/
theorem not_missed (hset : ∀ b, b ≠ G.rootBlock → Settled live safehash b) :
    G.missed safehash = false := by
  rw [missed, List.any_eq_false]
  intro b hb hany
  obtain ⟨n, hn, hnode⟩ := List.any_eq_true.1 hany
  obtain ⟨hjvms, hnone⟩ := (Bool.and_eq_true _ _).mp hnode
  obtain ⟨pre, post, hsplit⟩ := List.append_of_mem (List.mem_of_mem_tail hn)
  rw [(hset b (mem_otherBlocks.1 hb)).recorded pre n post hsplit hjvms] at hnone
  exact absurd hnone Bool.false_ne_true

section Rounds

variable (hG : G.BlockGraph)
include hG

/-- When the pass has ended, the results are exact. -/
theorem Ended.exact (h : Ended live safehash) : G.Exact live safehash := by
  have hsolution : G.IsSolution live := by
    intro b
    by_cases hb : b = G.rootBlock
    · exact hb ▸ h.root_eq
    · exact (h.settled b hb).top_eq.symm
  have hiff : ∀ b r, r ∈ live b ↔ G.LiveInto b r := fun b r =>
    ⟨h.sound b r, hsolution.mem_of_liveInto⟩
  refine ⟨hsolution.isLeast h.sound, fun b n hn hjvms => ?_⟩
  have hb : b ≠ G.rootBlock := by
    rintro rfl
    rw [(hG.root_nodes n hn).2] at hjvms
    exact absurd hjvms Bool.false_ne_true
  exact (h.settled b hb).liveAt hiff hn hjvms

/-- `do_liveness` ends, after two rounds at most. -/
theorem liveness_ended (hexit : G.LiveToExit r) (huse : G.UsedAtExit r) :
    ∃ live safehash, (∀ fuel, 2 ≤ fuel → G.liveness fuel = some (live, safehash)) ∧
      Ended live safehash := by
  obtain ⟨⟨live, safehash⟩, heq, h⟩ := drain_eq leaves_pred (Draining.start (G := G))
    (lt_drainFuel _ _)
  cases hmissed : G.missed safehash with
  | false =>
    refine ⟨live, safehash, fun fuel hfuel => ?_, h.ended hG hexit huse hmissed⟩
    obtain ⟨fuel, rfl⟩ := Nat.exists_eq_add_of_le' hfuel
    rw [liveness, livenessRounds, heq]
    dsimp only
    rw [hmissed, if_neg Bool.false_ne_true]
  | true =>
    obtain ⟨⟨live', safehash'⟩, heq', h'⟩ := drain_eq (fun _ _ _ _ => trivial) h.restart
      (lt_drainFuel _ _)
    have hended := h'.ended_restart hG
    refine ⟨live', safehash', fun fuel hfuel => ?_, hended⟩
    obtain ⟨fuel, rfl⟩ := Nat.exists_eq_add_of_le' hfuel
    rw [liveness, livenessRounds, heq]
    dsimp only
    rw [hmissed, if_pos rfl, livenessRounds, heq']
    dsimp only
    rw [not_missed hended.settled, if_neg Bool.false_ne_true]

/-- `do_liveness` ends, and finds the least solution. -/
theorem livenessRounds_exact (r : G.Reg) (hexit : G.LiveToExit r) (huse : G.UsedAtExit r) :
    G.LivenessExact := by
  obtain ⟨live, safehash, hrun, hended⟩ := liveness_ended hG hexit huse
  exact ⟨live, safehash, hrun, hended.exact hG⟩

end Rounds

/-! ## Scheduled methods

The frame pointer is used by whatever leaves the method and is set at the entry only. So the code
has a register of this kind, and the pass is exact. -/

/-- In a scheduled method the frame pointer is such a register. -/
theorem Scheduled.livenessExact (hG : G.Scheduled) : G.LivenessExact := by
  obtain ⟨fp, hexit, huse⟩ := hG.exists_liveToExit
  obtain ⟨live, safehash, hrun, hended⟩ := liveness_ended hG.blockGraph hexit huse
  exact ⟨live, safehash, hrun, hended.exact hG.blockGraph⟩

/-! ## A register that is used beside the way out

Without such a register the pass may stop too early. Nothing is live at the block that leaves the
method, so no predecessor of it is put on the list. -/

/-- A node that does nothing. -/
def emptyNode : MachNode (Fin 1) :=
  ⟨none, none, 1, fun _ => 0, none, .other, none, 0, false, false, none, false, false, none⟩

/-- A safepoint (3) in the block that leaves the method, and a use of a register (5) in a block that
only leads back to it. The safepoint may use the register as well. -/
def besideNode (used : Bool) : ℕ → MachNode (Fin 1)
  | 3 => { emptyNode with jvms := some 1, req := if used then 2 else 1, input := fun _ => 6 }
  | 5 => { emptyNode with req := 2, input := fun _ => 6 }
  | 6 => { emptyNode with first := some 0 }
  | _ => emptyNode

def besideGraph (used : Bool) : FlowGraph (Option (Fin 1)) where
  maxReg := 1
  last := 2
  node := besideNode used
  nodes b := if b = 0 then [0] else if b = 1 then [1] else if b = 2 then [2, 3] else [4, 5]
  succs b := if b = 0 then [1] else if b = 1 then [2] else if b = 2 then [0, 3] else [2]
  preds b := if b = 0 then [2] else if b = 1 then [0] else if b = 2 then [1, 3] else [2]
  mem_preds := by decide
  nodup := by decide
  copies _ := 0
  copies_input n hn := by
    refine absurd ?_ hn
    unfold besideNode
    split <;> rfl
  doStackAllocation := true
  stackSlots := []
  asVMReg := id
  asVMReg_inj _ _ h := h
  legalVMRegName _ := true
  isSaveOnEntry _ := false

variable {used : Bool}

theorem besideGraph_blockGraph : (besideGraph used).BlockGraph where
  root_nodes := by cases used <;> decide
  head b n ns h := by
    have hall : ∀ b : (besideGraph used).Block, ∀ m ∈ ((besideGraph used).nodes b).head?,
        ((besideGraph used).node m).jvms = none := by cases used <;> decide
    refine hall b n ?_
    rw [h]
    rfl
  progress := by
    have hstep : ∀ b : (besideGraph used).Block, b ≠ (besideGraph used).rootBlock →
        b = 2 ∨ (besideGraph used).Flow b 2 := by
      unfold Flow
      cases used <;> decide
    intro b hb
    refine ⟨2, ?_, .inl (by cases used <;> decide)⟩
    obtain rfl | h := hstep b hb
    · exact .refl
    · exact .single h

def besideReg : (besideGraph used).Reg := ⟨0, Nat.one_pos⟩

/-- The register is live into every block. -/
theorem besideGraph_liveInto (b : (besideGraph used).Block) :
    (besideGraph used).LiveInto b besideReg := by
  have htrans : ∀ b : (besideGraph used).Block,
      Transparent (besideGraph used).kills ((besideGraph used).nodes b) besideReg := by
    unfold Transparent
    cases used <;> decide
  have huse : (besideGraph used).LiveInto 3 besideReg := by
    refine .exposed ⟨[4], 5, [], rfl, by cases used <;> decide, ?_⟩
    unfold Transparent
    cases used <;> decide
  have hlive₂ : (besideGraph used).LiveInto 2 besideReg :=
    .through (htrans 2) (show 3 ∈ (besideGraph used).succs 2 by cases used <;> decide) huse
  have hlive₁ : (besideGraph used).LiveInto 1 besideReg :=
    .through (htrans 1) (show 2 ∈ (besideGraph used).succs 1 by cases used <;> decide) hlive₂
  match b with
  | 0 =>
    have hsucc : 1 ∈ (besideGraph used).succs 0 := by cases used <;> decide
    exact .through (htrans 0) hsucc hlive₁
  | 1 => exact hlive₁
  | 2 => exact hlive₂
  | 3 => exact huse

/-- If the safepoint uses the register, the pass is exact. -/
theorem livenessExact_besideGraph : (besideGraph true).LivenessExact := by
  refine livenessRounds_exact besideGraph_blockGraph besideReg
    (fun b _ _ => .inl (besideGraph_liveInto b)) fun b hb _ => .inl ?_
  have hexit : ∀ b ∈ (besideGraph true).preds (besideGraph true).rootBlock, b = 2 := by decide
  obtain rfl := hexit b hb
  exact ⟨[2], 3, [], rfl, by decide, by unfold Transparent; decide⟩

/-- If not, the register is still live into every block, but the pass stops at the first. -/
theorem not_livenessExact_besideGraph : (besideGraph false).BlockGraph ∧
    (∀ b, (besideGraph false).LiveInto b besideReg) ∧ ¬ (besideGraph false).LivenessExact := by
  refine ⟨besideGraph_blockGraph, besideGraph_liveInto, ?_⟩
  rintro ⟨live, safehash, hrun, hexact⟩
  have hempty : ((besideGraph false).liveness 2).map (fun s => s.1 3) = some ∅ := by
    decide +kernel
  rw [hrun 2 (Nat.le_refl 2)] at hempty
  have hnone : live 3 = ∅ := Option.some.inj hempty
  have hmem := IsSolution.mem_of_liveInto hexact.least.1 (@besideGraph_liveInto false 3)
  rw [hnone] at hmem
  exact Finset.notMem_empty _ hmem

end FlowGraph
end StackAllocation
