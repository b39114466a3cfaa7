import StackAllocation.PointerFlow
import StackAllocation.AllocationUsers

/-!
# The barriers that may see a stack object

With stack allocation a post barrier tests that the address that is stored to is in the heap. The
`CastP2X` that it starts with is registered (`BarrierSetC2State`), and `expand_barriers` takes the
test out of what is registered in the end. For each allocation that is placed in the frame
`process_write_barriers_on_stack_allocated_objects` eliminates the barriers that are found directly
at its result, and takes those that are found on a walk over the uses of the result from the
register.

After each allocation the graph is optimized, so the graphs of the allocations have nothing in
common but the numbers of the nodes. What `eliminate_gc_barrier` does to a graph is
`MacroExpand.eliminateGcBarrier`.
-/

namespace StackAllocation

/-! ## Processing the allocations

For each allocation the barriers of its own address are eliminated, and those that the walk finds
are taken off the register. An allocation works with what the earlier ones have left. -/

/-- The register, and what `eliminate_gc_barrier` has removed. -/
structure BarrierState : Type where
  registered : List ℕ
  eliminated : List ℕ

namespace BarrierState

/-- `eliminate_gc_barrier`. A `CastP2X` that is not registered is left alone. -/
def eliminate (S : BarrierState) (cast : ℕ) : BarrierState :=
  if cast ∈ S.registered then ⟨S.registered.erase cast, S.eliminated ++ [cast]⟩ else S

/-- `unregister_potential_barrier_node` -/
def unregister (S : BarrierState) (cast : ℕ) : BarrierState :=
  { S with registered := S.registered.erase cast }

end BarrierState

/-- An allocation that is placed in the frame, with the graph at this point. -/
structure PlacedAllocation : Type extends PlacedGraph where
  /-- the same graph, as the barrier sets see it -/
  macroGraph : MacroGraph
  ins_eq : ∀ n, macroGraph.ins n = graph.ins n
  /-- the graph without the barriers that were eliminated -/
  after : UseGraph
  /-- `result_cast()` -/
  res : ℕ
  res_mem : res ∈ results
  res_lt : res < after.size

namespace PlacedAllocation

variable (A : PlacedAllocation)

/-- The uses of a node that are `CastP2X`. -/
def castUses (G : UseGraph) (n : ℕ) : List ℕ := (G.outs n).filter fun use => G.kind use = .castP2X

/-- The barriers that are found directly, from the first to the last. -/
def barriers : List ℕ :=
  ((A.graph.outs A.res).flatMap fun use =>
    if A.graph.kind use = .castP2X then [use]
    else if A.graph.kind use = .addP then castUses A.graph use
    else []).eraseDups

/-- `process_write_barriers_on_stack_allocated_objects` -/
def processWriteBarriers (S : BarrierState) (A : PlacedAllocation) : BarrierState :=
  let S := A.barriers.reverse.foldl BarrierState.eliminate S
  if A.after.outs A.res = [] then S
  else (A.after.walk A.after.pushBarrierUse A.res).foldl
    (fun S n => (castUses A.after n).foldl BarrierState.unregister S) S

/-- A barrier is of the address of the object, or of the address of a field of it. -/
def Direct (cast : ℕ) : Prop :=
  A.graph.kind cast = .castP2X ∧ (some A.res ∈ A.graph.ins cast ∨
    ∃ adr, A.graph.kind adr = .addP ∧ some A.res ∈ A.graph.ins adr ∧ some adr ∈ A.graph.ins cast)

/-- The address of the object flows to a barrier that is left, without a conditional move. -/
def Reaches (cast : ℕ) : Prop :=
  A.after.kind cast = .castP2X ∧ ∃ n, some n ∈ A.after.ins cast ∧
    A.after.FlowsTo NodeKind.toBarrier A.res n

/-- A barrier that may get the address of the object, as far as conditional moves are left out. -/
def Sees (cast : ℕ) : Prop := A.Direct cast ∨ A.Reaches cast

end PlacedAllocation

/-- The allocations that are placed, in this order. -/
structure PlacementRun : Type where
  /-- the barriers that are registered before -/
  registered : List ℕ
  nodup : registered.Nodup
  placements : List PlacedAllocation

namespace PlacementRun

variable (R : PlacementRun)

/-- The barriers when all allocations are placed. -/
def final : BarrierState := R.placements.foldl PlacedAllocation.processWriteBarriers ⟨R.registered,
    []⟩

/-- The first allocation whose address flows to a registered barrier has it directly. -/
def FirstDirect (A : PlacedAllocation) (cast : ℕ) : Prop :=
  ∃ before after, R.placements = before ++ A :: after ∧ cast ∈ R.registered ∧ A.Direct cast ∧
    ∀ B ∈ before, ¬ B.Sees cast

/-- The address of a barrier may lie in an object, when it is placed. -/
def MayAddress (cast : ℕ) : Prop :=
  ∃ A ∈ R.placements, A.graph.MayAddress A.mayAlias A.res cast

end PlacementRun

/-! ## What stays registered

A barrier is off the register if it is found for one of the allocations. Whether it is eliminated
depends on the first one that finds it. -/

namespace BarrierState

variable {S : BarrierState} {cast c : ℕ} {l : List ℕ}

/-- Barriers that are eliminated one after the other: those of the list that are registered, each at
its first occurrence. The register has no barrier twice, so it is gone then. -/
theorem mem_foldl_eliminate (hS : S.registered.Nodup) :
    (l.foldl eliminate S).registered.Nodup ∧
      (c ∈ (l.foldl eliminate S).registered ↔ c ∈ S.registered ∧ c ∉ l) ∧
      (c ∈ (l.foldl eliminate S).eliminated ↔ c ∈ S.eliminated ∨ c ∈ S.registered ∧ c ∈ l) := by
  induction l generalizing S with
  | nil => simp [hS]
  | cons cast l ih =>
    rw [List.foldl_cons, eliminate]
    by_cases hcast : cast ∈ S.registered
    · rw [if_pos hcast]
      obtain ⟨hnodup, hregistered, heliminated⟩ :=
        @ih ⟨S.registered.erase cast, S.eliminated ++ [cast]⟩
        (hS.erase cast)
      refine ⟨hnodup, ?_, ?_⟩
      · rw [hregistered, hS.mem_erase_iff, List.mem_cons]
        tauto
      · rw [heliminated, hS.mem_erase_iff, List.mem_append, List.mem_singleton, List.mem_cons]
        by_cases hc : c = cast
        · subst hc
          tauto
        · tauto
    · rw [if_neg hcast]
      obtain ⟨hnodup, hregistered, heliminated⟩ := ih hS
      have hne : c ∈ S.registered → c ≠ cast := fun hc heq => hcast (heq ▸ hc)
      refine ⟨hnodup, ?_, ?_⟩
      · rw [hregistered, List.mem_cons]
        tauto
      · rw [heliminated, List.mem_cons]
        tauto

/-- Barriers that are taken from the register, and not eliminated. -/
theorem mem_foldl_unregister (hS : S.registered.Nodup) :
    (l.foldl unregister S).registered.Nodup ∧
      (c ∈ (l.foldl unregister S).registered ↔ c ∈ S.registered ∧ c ∉ l) ∧
      (l.foldl unregister S).eliminated = S.eliminated := by
  induction l generalizing S with
  | nil => simp [hS]
  | cons cast l ih =>
    obtain ⟨hnodup, hregistered, heliminated⟩ := @ih (unregister S cast) (hS.erase cast)
    refine ⟨hnodup, ?_, heliminated⟩
    rw [List.foldl_cons, hregistered, unregister, hS.mem_erase_iff, List.mem_cons]
    tauto

/-- The uses of several nodes are taken from the register. -/
theorem mem_foldl_uses (uses : ℕ → List ℕ) (hS : S.registered.Nodup) :
    (l.foldl (fun S n => (uses n).foldl unregister S) S).registered.Nodup ∧
      (c ∈ (l.foldl (fun S n => (uses n).foldl unregister S) S).registered ↔
        c ∈ S.registered ∧ ∀ n ∈ l, c ∉ uses n) ∧
      (l.foldl (fun S n => (uses n).foldl unregister S) S).eliminated = S.eliminated := by
  induction l generalizing S with
  | nil => simp [hS]
  | cons n l ih =>
    obtain ⟨hnodup₁, hregistered₁, heliminated₁⟩ :=
      mem_foldl_unregister (c := c) (l := uses n) hS
    obtain ⟨hnodup, hregistered, heliminated⟩ := ih hnodup₁
    refine ⟨hnodup, ?_, heliminated.trans heliminated₁⟩
    rw [List.foldl_cons, hregistered, hregistered₁, List.forall_mem_cons, and_assoc]

end BarrierState

namespace PlacedAllocation

variable {A : PlacedAllocation} {S : BarrierState} {c : ℕ}

/-- The uses of a node as an integer. -/
theorem mem_castUses {G : UseGraph} {n : ℕ} :
    c ∈ castUses G n ↔ c ∈ G.outs n ∧ G.kind c = .castP2X := by
  rw [castUses, List.mem_filter, decide_eq_true_eq]

/-- The barriers that are found directly. -/
theorem mem_barriers : c ∈ A.barriers ↔ A.Direct c := by
  rw [barriers, List.mem_eraseDups, List.mem_flatMap]
  constructor
  · rintro ⟨use, huse, hc⟩
    split at hc
    · next hkind =>
      obtain rfl := List.mem_singleton.1 hc
      exact ⟨hkind, .inl ((A.graph.mem_outs _ _).1 huse)⟩
    · split at hc
      · next hkind =>
        obtain ⟨hout, hcast⟩ := mem_castUses.1 hc
        exact ⟨hcast,
          .inr ⟨use, hkind, (A.graph.mem_outs _ _).1 huse, (A.graph.mem_outs _ _).1 hout⟩⟩
      · exact absurd hc List.not_mem_nil
  · rintro ⟨hcast, huse | ⟨use, hkind, huse, hout⟩⟩
    · exact ⟨c, (A.graph.mem_outs _ _).2 huse,
        by rw [if_pos hcast]; exact List.mem_singleton_self c⟩
    · refine ⟨use, (A.graph.mem_outs _ _).2 huse, ?_⟩
      rw [if_neg (by rw [hkind]; decide), if_pos hkind]
      exact mem_castUses.2 ⟨(A.graph.mem_outs _ _).2 hout, hcast⟩

/-- The barriers that are found on the walk. -/
theorem reaches_iff : A.Reaches c ↔
    ∃ n ∈ A.after.walk A.after.pushBarrierUse A.res, c ∈ castUses A.after n := by
  have hpush : A.after.Pushes A.after.pushBarrierUse NodeKind.toBarrier :=
    UseGraph.pushes_pushBarrierUse
  have hwalk : ∀ n, n ∈ A.after.walk A.after.pushBarrierUse A.res ↔
      A.after.FlowsTo NodeKind.toBarrier A.res n := fun n =>
    (UseGraph.mem_walk hpush A.res_lt n).trans (UseGraph.reach_iff_flowsTo hpush)
  constructor
  · rintro ⟨hkind, n, hn, hflows⟩
    exact ⟨n, (hwalk n).2 hflows, mem_castUses.2 ⟨(A.after.mem_outs n c).2 hn, hkind⟩⟩
  · rintro ⟨n, hn, hc⟩
    obtain ⟨hout, hkind⟩ := mem_castUses.1 hc
    exact ⟨hkind, n, (A.after.mem_outs n c).1 hout, (hwalk n).1 hn⟩

/-- The address of an object without uses flows nowhere. -/
theorem not_reaches (h : A.after.outs A.res = []) : ¬ A.Reaches c := by
  have hnone : ∀ m, some A.res ∉ A.after.ins m := by
    intro m hm
    have hout := (A.after.mem_outs A.res m).2 hm
    rw [h] at hout
    exact List.not_mem_nil hout
  have hflows : ∀ n, A.after.FlowsTo NodeKind.toBarrier A.res n → n = A.res := by
    intro n hn
    induction hn with
    | result => rfl
    | use _ hn _ ih => exact absurd (ih ▸ hn) (hnone _)
    | base _ _ hv _ ih => exact absurd (ih ▸ UseGraph.mem_ins_of_input hv) (hnone _)
  rintro ⟨-, n, hn, hreach⟩
  exact hnone c (hflows n hreach ▸ hn)

/-- One allocation. -/
theorem processWriteBarriers_spec (hS : S.registered.Nodup) :
    (processWriteBarriers S A).registered.Nodup ∧
      (c ∈ (processWriteBarriers S A).registered ↔ c ∈ S.registered ∧ ¬ A.Sees c) ∧
      (c ∈ (processWriteBarriers S A).eliminated ↔
        c ∈ S.eliminated ∨ c ∈ S.registered ∧ A.Direct c) := by
  obtain ⟨hnodup₁, hregistered₁, heliminated₁⟩ :=
    BarrierState.mem_foldl_eliminate (c := c) (l := A.barriers.reverse) hS
  rw [List.mem_reverse, mem_barriers] at hregistered₁ heliminated₁
  rw [processWriteBarriers]
  split
  · next hnone =>
    refine ⟨hnodup₁, ?_, heliminated₁⟩
    rw [hregistered₁, Sees, or_iff_left (not_reaches hnone)]
  · obtain ⟨hnodup, hregistered, heliminated⟩ := BarrierState.mem_foldl_uses (c := c)
      (l := A.after.walk A.after.pushBarrierUse A.res) (castUses A.after) hnodup₁
    refine ⟨hnodup, ?_, ?_⟩
    · have hnone : (∀ n ∈ A.after.walk A.after.pushBarrierUse A.res, c ∉ castUses A.after n) ↔
          ¬ A.Reaches c := by
        rw [reaches_iff, not_exists]
        exact forall_congr' fun n => not_and.symm
      rw [hregistered, hregistered₁, hnone, Sees, not_or, and_assoc]
    · rw [heliminated, heliminated₁]

end PlacedAllocation

namespace PlacementRun

variable {R : PlacementRun} {c : ℕ}

/-- All allocations of a list. -/
theorem foldl_spec (l : List PlacedAllocation) {S : BarrierState} (hS : S.registered.Nodup) :
    (c ∈ (l.foldl PlacedAllocation.processWriteBarriers S).registered ↔
        c ∈ S.registered ∧ ∀ A ∈ l, ¬ A.Sees c) ∧
      (c ∈ (l.foldl PlacedAllocation.processWriteBarriers S).eliminated ↔ c ∈ S.eliminated ∨
        ∃ before A after, l = before ++ A :: after ∧ c ∈ S.registered ∧ A.Direct c ∧
          ∀ B ∈ before, ¬ B.Sees c) := by
  induction l generalizing S with
  | nil => simp
  | cons A l ih =>
    obtain ⟨hnodup, hregistered₁, heliminated₁⟩ :=
      PlacedAllocation.processWriteBarriers_spec (A := A) (c := c) hS
    obtain ⟨hregistered, heliminated⟩ := ih hnodup
    rw [List.foldl_cons, hregistered, hregistered₁, heliminated, heliminated₁, List.forall_mem_cons,
      and_assoc, or_assoc, hregistered₁]
    refine ⟨Iff.rfl, or_congr_right ⟨?_, ?_⟩⟩
    · rintro (⟨hc, hA⟩ | ⟨before, B, after, rfl, ⟨hc, hnot⟩, hB, hbefore⟩)
      · exact ⟨[], A, l, rfl, hc, hA, nofun⟩
      · exact ⟨A :: before, B, after, rfl, hc, hB, List.forall_mem_cons.2 ⟨hnot, hbefore⟩⟩
    · rintro ⟨before, B, after, heq, hc, hB, hbefore⟩
      cases before with
      | nil =>
        obtain ⟨rfl, -⟩ := List.cons.inj heq
        exact .inl ⟨hc, hB⟩
      | cons A' before =>
        obtain ⟨rfl, rfl⟩ := List.cons.inj heq
        obtain ⟨hnot, hbefore⟩ := List.forall_mem_cons.1 hbefore
        exact .inr ⟨before, B, after, rfl, ⟨hc, hnot⟩, hB, hbefore⟩

/-- A barrier stays registered if no address of an object flows to it. -/
theorem mem_registered_final : c ∈ R.final.registered ↔
    c ∈ R.registered ∧ ∀ A ∈ R.placements, ¬ A.Sees c :=
  (foldl_spec R.placements R.nodup).1

/-- A barrier is eliminated if the first allocation that sees it has it directly. -/
theorem mem_eliminated_final : c ∈ R.final.eliminated ↔ ∃ A, R.FirstDirect A c := by
  rw [final, (foldl_spec R.placements R.nodup).2, or_iff_right List.not_mem_nil]
  constructor
  · rintro ⟨before, A, after, h⟩
    exact ⟨A, before, after, h⟩
  · rintro ⟨A, before, after, h⟩
    exact ⟨before, A, after, h⟩

end PlacementRun

end StackAllocation
