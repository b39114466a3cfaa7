import StackAllocation.AllocationUsers
import Mathlib.Data.Prod.Lex
import Mathlib.Order.WellFounded

/-!
# The loops that remove the users of an allocation end

What the routines do to a graph only takes uses away from pointers, and from integers
made of them (`Shrunk`), and most of it also removes what loses its last use (`Pruned`).
So a turn removes a use as soon as it removes the node that has it. For a card mark this
is the end of a chain: the stores go, then the address of the card and the shift, then the
comparison and its input, and the `CastP2X` is left without uses (`removeCardTableBarrier_removes`).

A turn fails to remove a use where `eliminate_gc_barrier` gets a `CastP2X` that is not
registered as a barrier: it leaves it alone, and the loop comes back to it
(`removes_of_turnOk`, `not_removes_of_unregistered`).
-/

namespace StackAllocation

open NodeGraph

/-! ## What the routines preserve

Pointers and what is made of them never gain a use. With this every routine is either a change that
takes uses, or one that also removes what has lost its last use. -/

/-- Not a pointer, and not an integer made of one. -/
abbrev Untracked (op : ℕ → MacroOp) (n : ℕ) : Prop := (op n).isTracked = false

/-- No pointer gains a use. -/
abbrev Shrunk (g g' : MacroGraph) : Prop := Shrinks (Untracked g.op) g g'

/-- No pointer gains a use, and what loses its last use is removed. -/
abbrev Pruned (g g' : MacroGraph) : Prop := Prunes (Untracked g.op) g g'

/-- One change after another. -/
theorem Shrunk.chain {g g' g'' : MacroGraph} (h : Shrunk g g') (h' : Shrunk g' g'') :
    Shrunk g g'' :=
  Shrinks.trans h (by
    have := h'
    rwa [Shrunk, h.op_eq] at this)

/-- The same where nodes are removed that lose their last use. -/
theorem Pruned.chain {g g' g'' : MacroGraph} (h : Pruned g g') (h' : Pruned g' g'') :
    Pruned g g'' :=
  Prunes.trans h (by
    have := h'
    rwa [Pruned, h.op_eq] at this)

namespace MacroExpand

variable (M : MacroExpand)

/-- A graph as the optimizer has it, at an allocation that was accepted. -/
structure WellTyped (g : MacroGraph) : Prop where
  top : g.op g.top = .con
  ccEq : g.op M.ccEq = .con
  zero : g.op M.zero = .con
  res : g.op M.res = .checkCastPP
  resProj : ∃ io, g.op M.resProj = .proj .parms io
  /-- control, I/O and memory are no pointers -/
  effect : ∀ n i m, i ∈ (g.op n).effectInputs → g.input n i = some m → (g.op m).isTracked = false
  /-- an `Initialize`, or an `ArrayCopy` for a clone, has a projection for control and one for
  memory -/
  outputs : ∀ n m, g.op n = .initializeNode ∨ g.op n = .arrayCopy true → g.Reads m n →
    g.op m = .proj .control false ∨ g.op m = .proj .memory false
  outputs_unique : ∀ n m m', g.op n = .initializeNode ∨ g.op n = .arrayCopy true →
    g.Reads m n → g.Reads m' n → g.op m = g.op m' → m = m'

variable {M}

/-- A node with several outputs is looked at when it loses uses. -/
theorem isTracked_of_outputs {op : MacroOp} (h : op = .initializeNode ∨ op = .arrayCopy true) :
    op.isTracked = true := by
  rcases h with rfl | rfl <;> rfl

/-- The nodes keep their types when the graph shrinks. -/
theorem WellTyped.of_shrunk {g g' : MacroGraph} (hg : M.WellTyped g) (h : Shrunk g g') :
    M.WellTyped g' where
  top := by rw [h.op_eq, h.top_eq, hg.top]
  ccEq := by rw [h.op_eq, hg.ccEq]
  zero := by rw [h.op_eq, hg.zero]
  res := by rw [h.op_eq, hg.res]
  resProj := by
    rw [h.op_eq]
    exact hg.resProj
  effect n i m hi hm := by
    rw [h.op_eq] at hi ⊢
    rcases h.input_or n i m hm with hm | hm
    · exact hg.effect n i m hi hm
    · exact hm
  outputs n m hn hm := by
    rw [h.op_eq] at hn ⊢
    exact hg.outputs n m hn (h.reads (by simp [Untracked, isTracked_of_outputs hn]) hm)
  outputs_unique n m m' hn hm hm' heq := by
    rw [h.op_eq] at hn heq
    have htracked : ¬ Untracked g.op n := by simp [Untracked, isTracked_of_outputs hn]
    exact hg.outputs_unique n m m' hn (h.reads htracked hm) (h.reads htracked hm') heq

/-- A constant may gain uses, and nothing is said of it. -/
theorem untracked_con {g : MacroGraph} {n : ℕ} (h : g.op n = .con) : Untracked g.op n := by
  rw [Untracked, h]
  rfl

/-- A node that is looked at is not `top`. -/
theorem ne_top {g : MacroGraph} (hg : M.WellTyped g) {n : ℕ} (h : (g.op n).isTracked = true) :
    n ≠ g.top := by
  rintro rfl
  rw [hg.top] at h
  cases h

/-- A node is replaced by what is no pointer. -/
theorem pruned_replaceNode {g : MacroGraph} {old new : ℕ} (h : Untracked g.op new) :
    Pruned g (g.replaceNode old new) ∧ (g.replaceNode old new).ins old = [] :=
  prunes_replaceNode h

/-- The last user of a node uses it. -/
theorem lastOut_reads {g : MacroGraph} {n m : ℕ} (h : M.lastOut g n = some m) : g.Reads m n :=
  (M.mem_outs g n m).1 (List.mem_of_getLast? h)

/-- There is none if the node has no uses. -/
theorem lastOut_eq_none {g : MacroGraph} {n : ℕ} : M.lastOut g n = none ↔ g.uses n = 0 := by
  rw [lastOut, List.getLast?_eq_none_iff, uses_eq_zero_iff, List.eq_nil_iff_forall_not_mem]
  exact forall_congr' fun m => not_congr (M.mem_outs g n m)

/-- A user that is found by its operation uses the node. -/
theorem findOutWith_reads {g : MacroGraph} {n m : ℕ} {op : MacroOp}
    (h : M.findOutWith g n op = some m) : g.Reads m n ∧ g.op m = op :=
  ⟨(M.mem_outs g n m).1 (List.mem_of_find?_eq_some h), by simpa using List.find?_some h⟩

/-- The only use of a node. -/
theorem uniqueOut_reads {g : MacroGraph} {n m : ℕ} (h : M.uniqueOut g n = some m) :
    g.Reads m n ∧ ∀ k, g.Reads k n → k = m := by
  rw [uniqueOut] at h
  split at h
  · next hone =>
    have hm : g.Reads m n := (M.mem_outs g n m).1 (List.mem_of_head? h)
    refine ⟨hm, fun k hk => ?_⟩
    by_contra hne
    have hcard : ({k, m} : Finset ℕ).card ≤ g.uses n :=
      card_le_uses fun x hx => by
        rcases Finset.mem_insert.1 hx with rfl | hx
        · exact hk
        · rw [Finset.mem_singleton.1 hx]
          exact hm
    rw [Finset.card_pair hne, hone] at hcard
    omega
  · cases h

/-! ## Barriers

A barrier is found from its `CastP2X` and removed with all that belongs to it. With the card table
these are the uses of the card's address; with G1 the comparison is replaced, and the rest dies with
it. -/

/-- All uses of a card's address are removed. -/
theorem removeCardMarks_pruned {addp k : ℕ} {g g' : MacroGraph} (hg : M.WellTyped g)
    (haddp : g.op addp = .addP) (h : M.removeCardMarks addp k g = some g') :
    Pruned g g' ∧ g'.uses addp ≤ g.uses addp - k := by
  induction k generalizing g with
  | zero =>
    obtain rfl := Option.some.inj h
    exact ⟨.refl g, Nat.le_refl _⟩
  | succ k ih =>
    -- one turn: a use of the address is replaced by something that is no pointer
    have hturn : ∀ mem new, g.Reads mem addp → Untracked g.op new →
        M.removeCardMarks addp k (g.replaceNode mem new) = some g' →
          Pruned g g' ∧ g'.uses addp ≤ g.uses addp - (k + 1) := by
      intro mem new hmem hnew hrest
      obtain ⟨hpruned, hins⟩ := @pruned_replaceNode g mem new hnew
      have hlt : (g.replaceNode mem new).uses addp < g.uses addp :=
        hpruned.uses_lt (by simp [Untracked, haddp, MacroOp.isTracked]) hmem
          (not_reads_of_ins_eq_nil hins addp)
      obtain ⟨hpruned', hle⟩ := ih (hg.of_shrunk hpruned.toShrinks)
        (by rw [hpruned.op_eq, haddp]) hrest
      exact ⟨hpruned.chain hpruned', by omega⟩
    rw [removeCardMarks, Option.bind_eq_bind, Option.bind_eq_some_iff] at h
    obtain ⟨mem, hmem, h⟩ := h
    split at h
    · exact hturn mem M.zero (lastOut_reads hmem) (untracked_con hg.zero) h
    · split at h
      · next hstore =>
        obtain ⟨memory, hmemory, h⟩ := Option.bind_eq_some_iff.1 h
        refine hturn mem memory (lastOut_reads hmem) (hg.effect mem 1 memory ?_ hmemory) h
        rw [hstore]
        exact List.mem_singleton_self 1
      · cases h

/-- The card a barrier marks is still used. -/
def CardIsUsed (M : MacroExpand) (g : MacroGraph) (node : ℕ) : Prop :=
  ∀ shift addp, M.findOutWith g node .uRShiftX = some shift → M.uniqueOut g shift = some addp →
    g.op addp = .addP ∧ 0 < g.uses addp

/-- The barrier of the card table is removed down to its `CastP2X`. -/
theorem removeCardTableBarrier_removes {g g' : MacroGraph} {node : ℕ} (hg : M.WellTyped g)
    (hnode : g.op node = .castP2X) (huses : g.uses node ≤ 2) (hcard : M.CardIsUsed g node)
    (h : M.removeCardTableBarrier g node = some g') : Pruned g g' ∧ g'.ins node = [] := by
  simp only [removeCardTableBarrier, Option.bind_eq_bind, Option.bind_eq_some_iff] at h
  obtain ⟨shift, hshift, addp, haddp, g₁, hmarks, addl, haddl, cmp, hcmp, -, -, h⟩ := h
  obtain rfl := Option.some.inj h
  obtain ⟨hop, hpos⟩ := hcard shift addp hshift haddp
  obtain ⟨hnodeShift, hopShift⟩ := findOutWith_reads hshift
  obtain ⟨hshiftAddp, honly⟩ := uniqueOut_reads haddp
  obtain ⟨hnodeAddl, hopAddl⟩ := findOutWith_reads haddl
  obtain ⟨haddlCmp, honly'⟩ := uniqueOut_reads hcmp
  have htracked : ∀ n, (g.op n).isTracked = true → ¬ Untracked g.op n := by
    intro n hn
    simp [Untracked, hn]
  have hnodeTracked : (g.op node).isTracked = true := by rw [hnode]; rfl
  have hshiftTracked : (g.op shift).isTracked = true := by rw [hopShift]; rfl
  have haddpTracked : (g.op addp).isTracked = true := by rw [hop]; rfl
  -- the stores go, with them the address of the card, and then the shift
  obtain ⟨hpruned₁, hle⟩ := removeCardMarks_pruned hg hop hmarks
  have haddpDead : g₁.ins addp = [] :=
    hpruned₁.dead addp (ne_top hg haddpTracked) hpos (by omega)
  have hshiftDead : g₁.ins shift = [] :=
    hpruned₁.removed (htracked shift hshiftTracked) (ne_top hg hshiftTracked) ⟨addp, hshiftAddp⟩
      fun m hm => by rw [honly m hm, haddpDead]
  -- the comparison goes, and with it its input
  have haddlTracked : (g.op addl).isTracked = true := by
    rw [← hpruned₁.op_eq, hopAddl]
    rfl
  have hg₁ := hg.of_shrunk hpruned₁.toShrinks
  obtain ⟨hpruned₂, hcmpDead⟩ := @pruned_replaceNode g₁ cmp M.ccEq (untracked_con hg₁.ccEq)
  have haddlDead : (g₁.replaceNode cmp M.ccEq).ins addl = [] := by
    have haddlTracked₁ : (g₁.op addl).isTracked = true := by rw [hopAddl]; rfl
    refine hpruned₂.removed (by simp [Untracked, haddlTracked₁]) (ne_top hg₁ haddlTracked₁)
      ⟨cmp, haddlCmp⟩ fun m hm => ?_
    rw [honly' m hm, hcmpDead]
  -- the node has no other uses
  refine ⟨hpruned₁.chain hpruned₂, ?_⟩
  refine (hpruned₁.chain hpruned₂).removed (htracked node hnodeTracked) (ne_top hg hnodeTracked)
    ⟨shift, hnodeShift⟩ fun m hm => ?_
  have hnodeAddl' : g.Reads addl node := hpruned₁.reads (htracked node hnodeTracked) hnodeAddl
  have hne : shift ≠ addl := by
    rintro rfl
    rw [hpruned₁.op_eq, hopShift] at hopAddl
    cases hopAddl
  by_cases hmShift : m = shift
  · rw [hmShift]
    exact hpruned₂.nil shift hshiftDead
  by_cases hmAddl : m = addl
  · rw [hmAddl, haddlDead]
  · have hcard3 : ({m, shift, addl} : Finset ℕ).card = 3 := by
      rw [Finset.card_insert_of_notMem (by simp [hmShift, hmAddl]), Finset.card_pair hne]
    have hle3 : ({m, shift, addl} : Finset ℕ).card ≤ g.uses node :=
      card_le_uses fun x hx => by
        simp only [Finset.mem_insert, Finset.mem_singleton] at hx
        rcases hx with rfl | rfl | rfl
        · exact hm
        · exact hnodeShift
        · exact hnodeAddl'
    omega

/-- To replace a comparison by a constant. -/
theorem shrunk_replace_ccEq {g : MacroGraph} (hg : M.WellTyped g) (n : ℕ) :
    Shrunk g (g.replaceNode n M.ccEq) :=
  (pruned_replaceNode (untracked_con hg.ccEq)).1.toShrinks

/-- What `eliminate_gc_barrier` does with G1, with the pre-barrier or without it. -/
theorem collapseG1Barrier_shrunk {g g' : MacroGraph} {node region : ℕ} (hg : M.WellTyped g)
    (h : M.collapseG1Barrier g node region = some g') : Shrunk g g' := by
  rw [collapseG1Barrier] at h
  split at h
  · simp only [Option.bind_eq_bind, Option.bind_eq_some_iff] at h
    obtain ⟨shift, -, cmpx, -, bol, -, -, -, h⟩ := h
    have hcollapsed := shrunk_replace_ccEq hg cmpx
    split at h
    · next cmpx' _ =>
      obtain rfl := Option.some.inj h
      exact hcollapsed.chain (shrunk_replace_ccEq (hg.of_shrunk hcollapsed) cmpx')
    · obtain rfl := Option.some.inj h
      exact hcollapsed
  · simp only [Option.bind_eq_bind, Option.bind_eq_some_iff] at h
    obtain ⟨shift, -, addp, -, load, -, cmpx, -, bol, -, -, -, h⟩ := h
    obtain rfl := Option.some.inj h
    exact shrunk_replace_ccEq hg cmpx

/-- The barrier of G1 is removed with its `CastP2X`. -/
theorem removeG1Barrier_removes {g g' : MacroGraph} {node : ℕ} (hg : M.WellTyped g)
    (h : M.removeG1Barrier g node = some g') : Shrunk g g' ∧ g'.ins node = [] := by
  simp only [removeG1Barrier, Option.bind_eq_bind, Option.bind_eq_some_iff] at h
  obtain ⟨region, -, g₁, hcollapse, h⟩ := h
  obtain rfl := Option.some.inj h
  have hshrunk := collapseG1Barrier_shrunk hg hcollapse
  obtain ⟨hpruned, hins⟩ :=
    @pruned_replaceNode g₁ node g₁.top (untracked_con (hg.of_shrunk hshrunk).top)
  exact ⟨hshrunk.chain hpruned.toShrinks, hins⟩

/-- `eliminate_gc_barrier` removes a registered barrier. -/
theorem eliminateGcBarrier_removes {s s' : RemovalState} {node : ℕ} (hg : M.WellTyped s.graph)
    (hmem : node ∈ s.barriers)
    (hcard : M.barrierSet = .cardTable → M.CardIsUsed s.graph node)
    (h : M.eliminateGcBarrier s node = some s') :
    Shrunk s.graph s'.graph ∧ s'.graph.ins node = [] ∧ s'.phase = s.phase := by
  simp only [eliminateGcBarrier, if_pos hmem, Option.bind_eq_bind, Option.bind_eq_some_iff,
    Option.guard_eq_some', Option.map_eq_some_iff] at h
  obtain ⟨-, ⟨hop, huses⟩, g, hremove, rfl⟩ := h
  rw [removeBarrier] at hremove
  rw [maxUses] at huses
  cases hset : M.barrierSet with
  | cardTable =>
    rw [hset] at hremove huses
    obtain ⟨hpruned, hins⟩ := removeCardTableBarrier_removes hg hop huses (hcard hset) hremove
    exact ⟨hpruned.toShrinks, hins, rfl⟩
  | g1 =>
    rw [hset] at hremove
    obtain ⟨hshrunk, hins⟩ := removeG1Barrier_removes hg hremove
    exact ⟨hshrunk, hins, rfl⟩

/-- `eliminate_gc_barrier` does nothing to a `CastP2X` that is not registered. -/
theorem eliminateGcBarrier_of_notMem {s s' : RemovalState} {node : ℕ} (hmem : node ∉ s.barriers)
    (h : M.eliminateGcBarrier s node = some s') : s' = s := by
  simp only [eliminateGcBarrier, if_neg hmem, Option.bind_eq_bind, Option.bind_eq_some_iff] at h
  obtain ⟨-, -, h⟩ := h
  exact (Option.some.inj h).symm

/-! ## Array copies and initialization

An `ArrayCopy` into the object is disconnected, and its projections take what came in. An
`Initialize` hands on control and memory in the same way. -/

/-- To replace a projection by what the node had for it removes the projection. -/
theorem replaceProj_pruned {g g' : MacroGraph} {n i : ℕ} {proj : Option ℕ} (hg : M.WellTyped g)
    (hi : i ∈ (g.op n).effectInputs) (h : replaceProj g n proj i = some g') :
    Pruned g g' ∧ ∀ p, proj = some p → g'.ins p = [] := by
  cases proj with
  | none =>
    obtain rfl := Option.some.inj h
    exact ⟨.refl g, nofun⟩
  | some p =>
    obtain ⟨new, hnew, rfl⟩ := Option.map_eq_some_iff.1 h
    obtain ⟨hpruned, hins⟩ := @pruned_replaceNode g p new (hg.effect n i new hi hnew)
    refine ⟨hpruned, fun p' hp' => ?_⟩
    obtain rfl := Option.some.inj hp'
    exact hins

/-- The projections for control and memory are removed. -/
theorem disconnectProjections_pruned {g g' : MacroGraph} {n : ℕ} (hg : M.WellTyped g)
    (h0 : 0 ∈ (g.op n).effectInputs) (h2 : 2 ∈ (g.op n).effectInputs)
    (h : M.disconnectProjections g n = some g') :
    Pruned g g' ∧ (∀ p, M.projOut g n .control = some p → g'.ins p = []) ∧
      ∀ p, M.projOut g n .memory = some p → g'.ins p = [] := by
  simp only [disconnectProjections, Option.bind_eq_bind, Option.bind_eq_some_iff] at h
  obtain ⟨g₁, h₁, h₂⟩ := h
  obtain ⟨hpruned₁, hctl⟩ := replaceProj_pruned hg h0 h₁
  obtain ⟨hpruned₂, hmem⟩ := replaceProj_pruned (hg.of_shrunk hpruned₁.toShrinks)
    (by rwa [hpruned₁.op_eq]) h₂
  exact ⟨hpruned₁.chain hpruned₂, fun p hp => hpruned₂.nil p (hctl p hp), hmem⟩

/-- A projection that is there is found. -/
theorem projOut_isSome {g : MacroGraph} {n m : ℕ} {con : TypeFunc} (hm : g.Reads m n)
    (hop : g.op m = .proj con false) : ∃ p, M.projOut g n con = some p := by
  rw [← Option.isSome_iff_exists, projOut, findOutWith, List.find?_isSome]
  exact ⟨m, (M.mem_outs g n m).2 hm, by simp [hop]⟩

/-- A node whose only uses are its projections for control and memory is removed with
them. -/
theorem disconnectProjections_removes {g g' : MacroGraph} {n : ℕ} (hg : M.WellTyped g)
    (hn : g.op n = .initializeNode ∨ g.op n = .arrayCopy true) (hpos : ∃ m, g.Reads m n)
    (h : M.disconnectProjections g n = some g') : Pruned g g' ∧ g'.ins n = [] := by
  have hinputs : (g.op n).effectInputs = [0, 1, 2] := by rcases hn with hn | hn <;> rw [hn] <;> rfl
  have htracked : (g.op n).isTracked = true := isTracked_of_outputs hn
  obtain ⟨hpruned, hctl, hmem⟩ := disconnectProjections_pruned hg (by simp [hinputs])
    (by simp [hinputs]) h
  refine ⟨hpruned, hpruned.removed (by simp [Untracked, htracked]) (ne_top hg htracked) hpos
    fun m hm => ?_⟩
  have hproj : ∀ con, g.op m = .proj con false → ∀ p, M.projOut g n con = some p → p = m := by
    intro con hop p hp
    obtain ⟨hp, hop'⟩ := findOutWith_reads hp
    exact hg.outputs_unique n p m hn hp hm (hop'.trans hop.symm)
  rcases hg.outputs n m hn hm with hop | hop
  · obtain ⟨p, hp⟩ := @projOut_isSome M g n m _ hm hop
    rw [← hproj _ hop p hp]
    exact hctl p hp
  · obtain ⟨p, hp⟩ := @projOut_isSome M g n m _ hm hop
    rw [← hproj _ hop p hp]
    exact hmem p hp

/-- An `ArrayCopy` for a clone is removed. -/
theorem removeClone_removes {g g' : MacroGraph} {ac : ℕ} (hg : M.WellTyped g)
    (hac : g.op ac = .arrayCopy true) (h : M.removeClone g ac = some g') :
    Shrunk g g' ∧ g'.ins ac = [] := by
  simp only [removeClone, Option.bind_eq_bind, Option.bind_eq_some_iff, Option.guard_eq_some'] at h
  obtain ⟨ctl, hctl, after, -, g₁, h₁, memory, -, before, -, -, hbefore, g₂, h₂, h⟩ := h
  obtain ⟨hpruned₁, hins⟩ := disconnectProjections_removes hg (.inr hac)
    ⟨ctl, (findOutWith_reads hctl).1⟩ h₁
  have hg₁ := hg.of_shrunk hpruned₁.toShrinks
  have hmembar : ∀ {g : MacroGraph} {n : ℕ}, g.op n = .memBar →
      0 ∈ (g.op n).effectInputs ∧ 2 ∈ (g.op n).effectInputs := by
    intro g n hn
    rw [hn]
    decide
  obtain ⟨hpruned₂, -, -⟩ :=
    disconnectProjections_pruned hg₁ (hmembar hbefore).1 (hmembar hbefore).2 h₂
  have hshrunk := Shrunk.chain hpruned₁.toShrinks hpruned₂.toShrinks
  have hins₂ := hpruned₂.nil ac hins
  split at h
  · next hafter =>
    obtain ⟨hpruned₃, -, -⟩ := disconnectProjections_pruned (hg.of_shrunk hshrunk)
      (hmembar hafter).1 (hmembar hafter).2 h
    exact ⟨hshrunk.chain hpruned₃.toShrinks, hpruned₃.nil ac hins₂⟩
  · obtain rfl := Option.some.inj h
    exact ⟨hshrunk, hins₂⟩

/-- Any other `ArrayCopy` is no longer a use of the result. -/
theorem removeArrayCopy_removes {g g' : MacroGraph} {ac : ℕ} (hg : M.WellTyped g)
    (hac : g.op ac = .arrayCopy false) (h : M.removeArrayCopy g ac = some g') :
    Shrunk g g' ∧ ¬ g'.Reads ac M.res := by
  simp only [removeArrayCopy, Option.bind_eq_bind, Option.bind_eq_some_iff] at h
  obtain ⟨io, -, mem, -, ctl, -, catch_, -, catchProj, -, g₁, h₁, g₂, h₂, g₃, h₃, src, -, h⟩ := h
  have hinputs : ∀ {g : MacroGraph} {i : ℕ}, g.op ac = .arrayCopy false → i < 3 →
      i ∈ (g.op ac).effectInputs := by
    intro g i hop hi
    rw [hop]
    simp only [MacroOp.effectInputs, List.mem_cons, List.not_mem_nil, or_false]
    omega
  obtain ⟨hpruned₁, -⟩ := replaceProj_pruned hg (hinputs hac (by decide)) h₁
  have hg₁ := hg.of_shrunk hpruned₁.toShrinks
  have hac₁ : g₁.op ac = .arrayCopy false := by rw [hpruned₁.op_eq, hac]
  obtain ⟨hpruned₂, -⟩ := replaceProj_pruned hg₁ (hinputs hac₁ (by decide)) h₂
  have hg₂ := hg₁.of_shrunk hpruned₂.toShrinks
  have hac₂ : g₂.op ac = .arrayCopy false := by rw [hpruned₂.op_eq, hac₁]
  obtain ⟨hpruned₃, -⟩ := replaceProj_pruned hg₂ (hinputs hac₂ (by decide)) h₃
  have hg₃ := hg₂.of_shrunk hpruned₃.toShrinks
  have hshrunk₃ : Shrunk g g₃ :=
    Shrunk.chain hpruned₁.toShrinks (Shrunk.chain hpruned₂.toShrinks hpruned₃.toShrinks)
  have htop : Untracked g₃.op g₃.top := untracked_con hg₃.top
  -- the result is taken out of the inputs
  have hcut : Shrunk g₃ ((g₃.setInput ac 0 g₃.top).replaceEdge ac M.res g₃.top) :=
    Shrinks.trans (shrinks_setInput htop) (shrinks_replaceEdge htop)
  have hno : ¬ ((g₃.setInput ac 0 g₃.top).replaceEdge ac M.res g₃.top).Reads ac M.res := by
    refine not_reads_replaceEdge ?_
    rintro heq
    have hres := hg₃.res
    rw [heq, hg₃.top] at hres
    cases hres
  have hsrc : Shrunk ((g₃.setInput ac 0 g₃.top).replaceEdge ac M.res g₃.top) g' := by
    have hedge := @shrinks_replaceEdge _ (Untracked g₃.op)
      ((g₃.setInput ac 0 g₃.top).replaceEdge ac M.res g₃.top) ac src g₃.top htop
    split at h
    · obtain rfl := Option.some.inj h
      exact hedge.trans (prunes_removeDead _ _ _).1.toShrinks
    · obtain rfl := Option.some.inj h
      exact hedge
  refine ⟨hshrunk₃.chain (Shrunk.chain hcut hsrc), fun hreads => hno (hsrc.reads ?_ hreads)⟩
  have hres : g₃.op M.res = .checkCastPP := hg₃.res
  intro huntracked
  change (g₃.op M.res).isTracked = false at huntracked
  rw [hres] at huntracked
  cases huntracked

/-- Several nodes are replaced by `top`, one after the other. -/
theorem foldl_replaceNode_shrunk (l : List ℕ) {g : MacroGraph} (hg : M.WellTyped g) :
    Shrunk g (l.foldl (fun g n => g.replaceNode n g.top) g) := by
  induction l generalizing g with
  | nil => exact .refl g
  | cons n l ih =>
    have hshrunk : Shrunk g (g.replaceNode n g.top) :=
      (pruned_replaceNode (untracked_con hg.top)).1.toShrinks
    exact hshrunk.chain (ih (hg.of_shrunk hshrunk))

/-! ## A turn

One turn looks at the last use of a node. The lemma for a turn says that a use is removed or a loop
is entered or left, and that the graph is still typed; the assertions of the source are the
condition. -/

/-- The node that `eliminate_gc_barrier` gets in a turn. -/
def barrierAt (M : MacroExpand) (s : RemovalState) : Option ℕ :=
  match s.phase with
  | .users => (M.lastOut s.graph M.res).filter fun use =>
      s.graph.op use ≠ .addP ∧ s.graph.op use ≠ .arrayCopy true ∧ s.graph.op use ≠ .arrayCopy false
  | .fields use _ => (M.lastOut s.graph use).filter fun n => s.graph.op n ≠ .store
  | _ => none

/-- The condition for a turn: no assertion fails, `eliminate_gc_barrier` gets a registered
barrier whose card is used, and an `Initialize` has a projection. -/
structure TurnOk (M : MacroExpand) (s : RemovalState) : Prop where
  asserted : s.phase = .done ∨ ∃ s', M.step s = some s'
  registered : ∀ node, M.barrierAt s = some node →
    node ∈ s.barriers ∧ (M.barrierSet = .cardTable → M.CardIsUsed s.graph node)
  projected : s.phase = .projection → ∀ use, M.lastOut s.graph M.resProj = some use →
    ∃ m, s.graph.Reads m use

/-- A turn removes a use, or enters or leaves a loop; a loop is left when no use remains, and
the loop over a field's address has then removed a use of the result. -/
def Lowers (M : MacroExpand) (s s' : RemovalState) : Prop :=
  match s.phase with
  | .users =>
    s'.phase = .users ∧ s'.graph.uses M.res < s.graph.uses M.res ∨
      (∃ use, s'.phase = .fields use (s.graph.uses M.res) ∧ s'.graph = s.graph) ∨
      s'.phase = .projection ∧ s.graph.uses M.res = 0
  | .fields use oc1 =>
    s'.phase = .fields use oc1 ∧ s'.graph.uses use < s.graph.uses use ∨
      s'.phase = .users ∧ s.graph.uses use = 0 ∧ s'.graph.uses M.res < oc1
  | .projection =>
    s'.phase = .projection ∧ s'.graph.uses M.resProj < s.graph.uses M.resProj ∨
      s'.phase = .done ∧ s.graph.uses M.resProj = 0
  | .done => False

/-- What holds in every turn. -/
structure Inv (M : MacroExpand) (s : RemovalState) : Prop where
  typed : M.WellTyped s.graph
  fields : ∀ use oc1, s.phase = .fields use oc1 → s.graph.op use = .addP ∧
    ∃ g, Shrunk g s.graph ∧ g.Reads use M.res ∧ g.uses M.res = oc1
  noUses : s.phase = .projection ∨ s.phase = .done → s.graph.uses M.res = 0
  noProjection : s.phase = .done → s.graph.uses M.resProj = 0

/-- The result of the allocation is looked at. -/
theorem res_tracked {g : MacroGraph} (hg : M.WellTyped g) : ¬ Untracked g.op M.res := by
  rw [Untracked, hg.res]
  exact nofun

/-- So is the projection that it is a cast of. -/
theorem resProj_tracked {g : MacroGraph} (hg : M.WellTyped g) : ¬ Untracked g.op M.resProj := by
  obtain ⟨io, hio⟩ := hg.resProj
  rw [Untracked, hio]
  exact nofun

/-- A turn at the uses of the result. -/
theorem stepUsers_lowers {s s' : RemovalState} (hs : M.Inv s) (hphase : s.phase = .users)
    (hok : M.TurnOk s) (h : M.stepUsers s = some s') : M.Inv s' ∧ M.Lowers s s' := by
  have hg := hs.typed
  rw [stepUsers] at h
  cases hlast : M.lastOut s.graph M.res with
  | none =>
    rw [hlast] at h
    obtain rfl := Option.some.inj h
    have hzero : s.graph.uses M.res = 0 := lastOut_eq_none.1 hlast
    have hdead : Shrunk s.graph (s.graph.removeDead [M.res]) :=
      (prunes_removeDead _ _ _).1.toShrinks
    have hshrunk : Shrunk s.graph (M.disconnectRawAddresses (s.graph.removeDead [M.res])) :=
      hdead.chain (foldl_replaceNode_shrunk _ (hg.of_shrunk hdead))
    have hle := hshrunk.uses_le (res_tracked hg)
    refine ⟨⟨hg.of_shrunk hshrunk, nofun, fun _ => ?_, nofun⟩, ?_⟩
    · change (M.disconnectRawAddresses (s.graph.removeDead [M.res])).uses M.res = 0
      omega
    · rw [Lowers, hphase]
      exact .inr (.inr ⟨rfl, hzero⟩)
  | some use =>
    have hreads := lastOut_reads hlast
    -- a use is removed, and the loop stays where it is
    have hremoved : Shrunk s.graph s'.graph → ¬ s'.graph.Reads use M.res → s'.phase = .users →
        M.Inv s' ∧ M.Lowers s s' := by
      intro hshrunk hno hphase'
      refine ⟨⟨hg.of_shrunk hshrunk, ?_, ?_, ?_⟩, ?_⟩
      · rw [hphase']
        exact nofun
      · rw [hphase']
        exact nofun
      · rw [hphase']
        exact nofun
      · rw [Lowers, hphase]
        exact .inl ⟨hphase', hshrunk.uses_lt (res_tracked hg) hreads hno⟩
    simp only [hlast] at h
    split at h
    · next hop =>
      obtain rfl := Option.some.inj h
      refine ⟨⟨hg, ?_, nofun, nofun⟩, ?_⟩
      · rintro _ _ ⟨⟩
        exact ⟨hop, s.graph, .refl _, hreads, rfl⟩
      · rw [Lowers, hphase]
        exact .inr (.inl ⟨use, rfl, rfl⟩)
    · next hop =>
      obtain ⟨g, hremove, rfl⟩ := Option.map_eq_some_iff.1 h
      obtain ⟨hshrunk, hins⟩ := removeClone_removes hg hop hremove
      exact hremoved hshrunk (not_reads_of_ins_eq_nil hins M.res) hphase
    · next hop =>
      obtain ⟨g, hremove, rfl⟩ := Option.map_eq_some_iff.1 h
      obtain ⟨hshrunk, hno⟩ := removeArrayCopy_removes hg hop hremove
      exact hremoved hshrunk hno hphase
    · next haddp hclone hcopy =>
      have hat : M.barrierAt s = some use := by
        rw [barrierAt, hphase]
        simp only [hlast, Option.filter_some]
        exact if_pos (decide_eq_true ⟨haddp, hclone, hcopy⟩)
      obtain ⟨hmem, hcard⟩ := hok.registered use hat
      obtain ⟨hshrunk, hins, hphase'⟩ := eliminateGcBarrier_removes hg hmem hcard h
      exact hremoved hshrunk (not_reads_of_ins_eq_nil hins M.res) (hphase'.trans hphase)

/-- A turn at the uses of a field's address. -/
theorem stepFields_lowers {s s' : RemovalState} {use oc1 : ℕ} (hs : M.Inv s)
    (hphase : s.phase = .fields use oc1) (hok : M.TurnOk s) (h : M.stepFields s use = some s') :
    M.Inv s' ∧ M.Lowers s s' := by
  have hg := hs.typed
  obtain ⟨hop, g₀, hentered, hreads₀, hcount⟩ := hs.fields use oc1 hphase
  have htracked : ¬ Untracked s.graph.op use := by
    rw [Untracked, hop]
    exact nofun
  have hres : ¬ Untracked g₀.op M.res := by
    rw [← hentered.op_eq]
    exact res_tracked hg
  rw [stepFields] at h
  cases hlast : M.lastOut s.graph use with
  | none =>
    rw [hlast] at h
    obtain rfl := Option.some.inj h
    obtain ⟨hpruned, hins⟩ := prunes_removeDead (Untracked s.graph.op) s.graph [use]
    have hshrunk : Shrunk s.graph (s.graph.removeDead [use]) := hpruned.toShrinks
    refine ⟨⟨hg.of_shrunk hshrunk, nofun, nofun, nofun⟩, ?_⟩
    rw [Lowers, hphase]
    refine .inr ⟨rfl, lastOut_eq_none.1 hlast, ?_⟩
    rw [← hcount]
    exact (hentered.chain hshrunk).uses_lt hres hreads₀
      (not_reads_of_ins_eq_nil (hins use List.mem_cons_self) M.res)
  | some n =>
    have hreads := lastOut_reads hlast
    have hremoved : Shrunk s.graph s'.graph → s'.graph.ins n = [] → s'.phase = s.phase →
        M.Inv s' ∧ M.Lowers s s' := by
      intro hshrunk hins hphase'
      rw [hphase] at hphase'
      refine ⟨⟨hg.of_shrunk hshrunk, ?_, ?_, ?_⟩, ?_⟩
      · intro use' oc1' heq
        rw [hphase'] at heq
        cases heq
        exact ⟨by rw [hshrunk.op_eq, hop], g₀, hentered.chain hshrunk, hreads₀, hcount⟩
      · rw [hphase']
        exact nofun
      · rw [hphase']
        exact nofun
      · rw [Lowers, hphase]
        exact .inl ⟨hphase',
          hshrunk.uses_lt htracked hreads (not_reads_of_ins_eq_nil hins use)⟩
    simp only [hlast] at h
    split at h
    · next hstore =>
      obtain ⟨memory, hmemory, rfl⟩ := Option.map_eq_some_iff.1 h
      have huntracked := hg.effect n 1 memory (by rw [hstore]; exact List.mem_singleton_self 1)
        hmemory
      obtain ⟨hpruned, hins⟩ := @pruned_replaceNode s.graph n memory huntracked
      exact hremoved hpruned.toShrinks hins rfl
    · next hstore =>
      have hat : M.barrierAt s = some n := by
        rw [barrierAt, hphase]
        simp only [hlast, Option.filter_some]
        exact if_pos (decide_eq_true hstore)
      obtain ⟨hmem, hcard⟩ := hok.registered n hat
      obtain ⟨hshrunk, hins, hphase'⟩ := eliminateGcBarrier_removes hg hmem hcard h
      exact hremoved hshrunk hins hphase'

/-- A turn at the uses of the result projection. -/
theorem stepProjection_lowers {s s' : RemovalState} (hs : M.Inv s)
    (hphase : s.phase = .projection) (hok : M.TurnOk s) (h : M.stepProjection s = some s') :
    M.Inv s' ∧ M.Lowers s s' := by
  have hg := hs.typed
  have hzero := hs.noUses (.inl hphase)
  rw [stepProjection] at h
  cases hlast : M.lastOut s.graph M.resProj with
  | none =>
    rw [hlast] at h
    obtain rfl := Option.some.inj h
    refine ⟨⟨hg, nofun, fun _ => hzero, fun _ => lastOut_eq_none.1 hlast⟩, ?_⟩
    rw [Lowers, hphase]
    exact .inr ⟨rfl, lastOut_eq_none.1 hlast⟩
  | some use =>
    simp only [hlast] at h
    split at h
    · next hop =>
      obtain ⟨g, hremove, rfl⟩ := Option.map_eq_some_iff.1 h
      obtain ⟨hpruned, hins⟩ :=
        disconnectProjections_removes hg (.inl hop) (hok.projected hphase use hlast) hremove
      have hle := hpruned.uses_le (res_tracked hg)
      refine ⟨⟨hg.of_shrunk hpruned.toShrinks, ?_, fun _ => ?_, ?_⟩, ?_⟩
      · change ∀ use oc1, s.phase = _ → _
        rw [hphase]
        exact nofun
      · change g.uses M.res = 0
        omega
      · change s.phase = _ → _
        rw [hphase]
        exact nofun
      · rw [Lowers, hphase]
        exact .inl ⟨rfl, hpruned.uses_lt (resProj_tracked hg) (lastOut_reads hlast)
          (not_reads_of_ins_eq_nil hins M.resProj)⟩
    · cases h

/-- A turn keeps the invariant, and removes a use or leaves a loop. -/
theorem step_lowers {s s' : RemovalState} (hs : M.Inv s) (hok : M.TurnOk s)
    (h : M.step s = some s') : M.Inv s' ∧ M.Lowers s s' := by
  rw [step] at h
  cases hphase : s.phase with
  | users =>
    rw [hphase] at h
    exact stepUsers_lowers hs hphase hok h
  | fields use oc1 =>
    rw [hphase] at h
    exact stepFields_lowers hs hphase hok h
  | projection =>
    rw [hphase] at h
    exact stepProjection_lowers hs hphase hok h
  | done =>
    rw [hphase] at h
    cases h

/-! ## All turns

The measure counts uses first and the loops that are entered second. As long as each turn meets its
condition the loops end with no use left; if one does not, they do not remove all uses. -/

/-- The loops end, each turn removes a use or leaves a loop, and then neither the result nor
its projection has uses. -/
structure Removes (M : MacroExpand) (s : RemovalState) : Prop where
  lowers : ∀ t, M.Reaches s t → t.phase = .done ∨ ∃ t', M.step t = some t' ∧ M.Lowers t t'
  ends : ∃ t, M.Reaches s t ∧ t.phase = .done ∧ t.graph.uses M.res = 0 ∧
    t.graph.uses M.resProj = 0

/-- What a turn lowers: the loop, the uses of the result, whether the loop over a field's
address is entered, and the uses of that address or of the result projection. -/
def measure (M : MacroExpand) (s : RemovalState) : ℕ ×ₗ ℕ ×ₗ ℕ ×ₗ ℕ :=
  match s.phase with
  | .users => toLex (2, toLex (s.graph.uses M.res, toLex (1, 0)))
  | .fields use oc1 => toLex (2, toLex (oc1, toLex (0, s.graph.uses use)))
  | .projection => toLex (1, toLex (0, toLex (0, s.graph.uses M.resProj)))
  | .done => toLex (0, toLex (0, toLex (0, 0)))

/-- A turn that removes a use lowers the measure, so the turns end. -/
theorem Lowers.measure_lt {s s' : RemovalState} (h : M.Lowers s s') :
    M.measure s' < M.measure s := by
  rw [Lowers] at h
  rw [measure, measure]
  cases hphase : s.phase with
  | users =>
    rw [hphase] at h
    rcases h with ⟨hphase', hlt⟩ | ⟨use, hphase', -⟩ | ⟨hphase', -⟩
    · simp [hphase', Prod.Lex.toLex_lt_toLex, hlt]
    · simp [hphase', Prod.Lex.toLex_lt_toLex]
    · simp [hphase', Prod.Lex.toLex_lt_toLex]
  | fields use oc1 =>
    rw [hphase] at h
    rcases h with ⟨hphase', hlt⟩ | ⟨hphase', -, hlt⟩
    · simp [hphase', Prod.Lex.toLex_lt_toLex, hlt]
    · simp [hphase', Prod.Lex.toLex_lt_toLex, hlt]
  | projection =>
    rw [hphase] at h
    rcases h with ⟨hphase', hlt⟩ | ⟨hphase', -⟩
    · simp [hphase', Prod.Lex.toLex_lt_toLex, hlt]
    · simp [hphase', Prod.Lex.toLex_lt_toLex]
  | done =>
    rw [hphase] at h
    exact h.elim

/-- Turns after turns. -/
theorem Reaches.trans {s t u : RemovalState} (h : M.Reaches s t) (h' : M.Reaches t u) :
    M.Reaches s u := by
  induction h' with
  | refl => exact h
  | step _ hstep ih => exact ih.step hstep

/-- The invariant holds in every turn. -/
theorem Reaches.inv {s t : RemovalState} (h : M.Reaches s t) (hs : M.Inv s)
    (hok : ∀ t, M.Reaches s t → M.TurnOk t) : M.Inv t := by
  induction h with
  | refl => exact hs
  | step hreach hstep ih => exact (step_lowers ih (hok _ hreach) hstep).1

/-- If every turn meets the condition, the loops remove all uses. -/
theorem removes_of_turnOk {s : RemovalState} (hs : M.Inv s)
    (hok : ∀ t, M.Reaches s t → M.TurnOk t) : M.Removes s := by
  have hturn : ∀ t, M.Reaches s t → t.phase = .done ∨ ∃ t', M.step t = some t' ∧ M.Lowers t t' := by
    intro t ht
    rcases (hok t ht).asserted with hdone | ⟨t', ht'⟩
    · exact .inl hdone
    · exact .inr ⟨t', ht', (step_lowers (ht.inv hs hok) (hok t ht) ht').2⟩
  refine ⟨hturn, ?_⟩
  have hend : ∀ t, M.Reaches s t → ∃ u, M.Reaches s u ∧ u.phase = .done := by
    intro t
    induction hm : M.measure t using WellFoundedLT.induction generalizing t with
    | _ m ih =>
      intro ht
      rcases hturn t ht with hdone | ⟨t', ht', hlowers⟩
      · exact ⟨t, ht, hdone⟩
      · exact ih _ (hm ▸ hlowers.measure_lt) t' rfl (ht.step ht')
  obtain ⟨t, ht, hdone⟩ := hend s .refl
  have hinv := ht.inv hs hok
  exact ⟨t, ht, hdone, hinv.noUses (.inr hdone), hinv.noProjection hdone⟩

/-- Nothing is lowered by doing nothing. -/
theorem not_lowers_self (s : RemovalState) : ¬ M.Lowers s s :=
  fun h => lt_irrefl _ h.measure_lt

/-- A turn with a `CastP2X` that is not registered changes nothing. -/
theorem step_of_unregistered {s s' : RemovalState} {node : ℕ} (hat : M.barrierAt s = some node)
    (hmem : node ∉ s.barriers) (h : M.step s = some s') : s' = s := by
  rw [step] at h
  rw [barrierAt] at hat
  cases hphase : s.phase with
  | users =>
    rw [hphase] at h hat
    obtain ⟨hlast, hop⟩ := Option.filter_eq_some_iff.1 hat
    obtain ⟨haddp, hclone, hcopy⟩ := of_decide_eq_true hop
    simp only [stepUsers, hlast] at h
    exact eliminateGcBarrier_of_notMem hmem h
  | fields use oc1 =>
    rw [hphase] at h hat
    obtain ⟨hlast, hop⟩ := Option.filter_eq_some_iff.1 hat
    simp only [stepFields, hlast, if_neg (of_decide_eq_true hop)] at h
    exact eliminateGcBarrier_of_notMem hmem h
  | projection =>
    rw [hphase] at hat
    cases hat
  | done =>
    rw [hphase] at hat
    cases hat

/-- If some turn gets a `CastP2X` that is not registered, the loops do not remove all uses. -/
theorem not_removes_of_unregistered {s t : RemovalState} {node : ℕ} (ht : M.Reaches s t)
    (hat : M.barrierAt t = some node) (hmem : node ∉ t.barriers) : ¬ M.Removes s := by
  intro h
  rcases h.lowers t ht with hdone | ⟨t', ht', hlowers⟩
  · rw [barrierAt, hdone] at hat
    cases hat
  · rw [step_of_unregistered hat hmem ht'] at hlowers
    exact not_lowers_self t hlowers

end MacroExpand

/-! ## An eliminated allocation

The result and the projection of an allocation that scalar replacement has processed. What is asked
of its graph is what `can_eliminate_allocation` has found. -/

/-- An allocation that `can_eliminate_allocation` has accepted and scalar replacement has
processed, with the barriers that are registered. -/
structure EliminatedAllocation : Type where
  macroExpand : MacroExpand
  graph : MacroGraph
  barriers : List ℕ
  typed : macroExpand.WellTyped graph
  /-- the uses of the result are accepted, and safepoints do not have it any more -/
  accepted : ∀ use, graph.Reads use macroExpand.res →
    graph.op use = .castP2X ∨
      graph.op use = .addP ∧
        (∀ n, graph.Reads n use → graph.op n = .store ∨ graph.op n = .castP2X) ∨
      (∃ cloneBasic, graph.op use = .arrayCopy cloneBasic) ∧
        graph.input use 7 = some macroExpand.res

namespace EliminatedAllocation

variable (A : EliminatedAllocation)

/-- The state in which `process_users_of_allocation` begins. -/
def start : RemovalState := ⟨A.graph, A.barriers, .users⟩

/-- The invariant holds before the first turn. -/
theorem inv_start : A.macroExpand.Inv A.start :=
  ⟨A.typed, nofun, fun h => h.elim nofun nofun, nofun⟩

/-- If every turn meets the condition, `process_users_of_allocation` ends and removes all uses;
if it comes to a `CastP2X` that is not registered, it does not. -/
theorem processUsersOfAllocation_removes :
    ((∀ t, A.macroExpand.Reaches A.start t → A.macroExpand.TurnOk t) →
        A.macroExpand.Removes A.start) ∧
      ((∃ t node, A.macroExpand.Reaches A.start t ∧ A.macroExpand.barrierAt t = some node ∧
          node ∉ t.barriers) → ¬ A.macroExpand.Removes A.start) := by
  constructor
  · exact MacroExpand.removes_of_turnOk A.inv_start
  · rintro ⟨t, node, ht, hat, hmem⟩
    exact MacroExpand.not_removes_of_unregistered ht hat hmem

/-! ### A failing input

The address of an array (node 3) is converted to an integer (nodes 4 and 5) to align a loop
(node 6). -/

/-- The inputs of the nodes, with what they are. -/
def alignedNodes : List (MacroOp × List (Option ℕ)) :=
  [(.con, []), (.other, []), (.proj .parms false, [some 1]), (.checkCastPP, [some 10, some 2]),
    (.castP2X, [none, some 3]), (.other, [none, some 4]), (.other, [none, some 5]),
    (.initializeNode, [some 8, none, some 9, none, none, some 2]),
    (.proj .control false, [some 1]), (.proj .memory false, [some 1]),
    (.proj .control false, [some 7]), (.proj .memory false, [some 7])]

/-- A graph of listed nodes. -/
def graphOf (nodes : List (MacroOp × List (Option ℕ))) : MacroGraph where
  size := nodes.length
  op n := (nodes.getD n (.other, [])).1
  ins n := (nodes.getD n (.other, [])).2
  top := 0
  ins_eq_nil n hn := by rw [List.getD_eq_getElem?_getD, List.getElem?_eq_none hn]; rfl

/-- The graph. -/
def alignedGraph : MacroGraph := graphOf alignedNodes

/-- The uses of a node, in the order of the nodes. -/
def outsByIndex (g : MacroGraph) (n : ℕ) : List ℕ :=
  (List.range g.size).filter fun m => g.Reads m n

/-- The users of a node, in the order of their numbers. -/
theorem mem_outsByIndex (g : MacroGraph) (n m : ℕ) : m ∈ outsByIndex g n ↔ g.Reads m n := by
  rw [outsByIndex, List.mem_filter, List.mem_range, decide_eq_true_iff]
  exact ⟨fun h => h.2, fun h => ⟨h.lt_size, h⟩⟩

/-- With either barrier set. -/
def alignedExpand (barrierSet : BarrierSetC2) : MacroExpand where
  barrierSet := barrierSet
  useCondCardMark := false
  outs := outsByIndex
  mem_outs := mem_outsByIndex
  ccEq := 0
  zero := 0
  markingOffset := 0
  alloc := 1
  resProj := 2
  res := 3

/-- A node that is not listed has no operation that is told apart. -/
theorem lt_size_of_op_graphOf {nodes : List (MacroOp × List (Option ℕ))} (n : ℕ)
    (h : (graphOf nodes).op n ≠ .other) : n < (graphOf nodes).size := by
  by_contra hn
  refine h ?_
  change (nodes.getD n (.other, [])).1 = .other
  rw [List.getD_eq_getElem?_getD, List.getElem?_eq_none (Nat.le_of_not_lt hn)]
  rfl

/-- A graph with one `Initialize` is typed if its nodes are, where those that are told apart are
in it. -/
theorem wellTyped_of_nodes {M : MacroExpand} {g : MacroGraph} {init : ℕ}
    (hnodes : ∀ n, g.op n ≠ .other → n < g.size) (htop : g.op g.top = .con)
    (hccEq : g.op M.ccEq = .con) (hzero : g.op M.zero = .con) (hres : g.op M.res = .checkCastPP)
    (hresProj : ∃ io, g.op M.resProj = .proj .parms io)
    (heffect : ∀ n < g.size, ∀ i ∈ (g.op n).effectInputs,
      (g.input n i).all (fun m => !(g.op m).isTracked) = true)
    (hinit : ∀ n < g.size, g.op n = .initializeNode ∨ g.op n = .arrayCopy true → n = init)
    (houtputs : ∀ m < g.size, g.Reads m init →
      g.op m = .proj .control false ∨ g.op m = .proj .memory false)
    (hunique : ∀ m < g.size, ∀ m' < g.size,
      g.Reads m init ∧ g.Reads m' init ∧ g.op m = g.op m' → m = m') :
    M.WellTyped g where
  top := htop
  ccEq := hccEq
  zero := hzero
  res := hres
  resProj := hresProj
  effect n i m hi hm := by
    have hn : n < g.size := hnodes n fun h => by simp [h, MacroOp.effectInputs] at hi
    have hall := heffect n hn i hi
    rw [hm] at hall
    simpa using hall
  outputs n m hop hm := by
    have hn : n < g.size := hnodes n fun h => by simp [h] at hop
    obtain rfl := hinit n hn hop
    exact houtputs m hm.lt_size hm
  outputs_unique n m m' hop hm hm' heq := by
    have hn : n < g.size := hnodes n fun h => by simp [h] at hop
    obtain rfl := hinit n hn hop
    exact hunique m hm.lt_size m' hm'.lt_size ⟨hm, hm', heq⟩

/-- The graph is typed, with either barrier set. -/
theorem wellTyped_aligned (barrierSet : BarrierSetC2) :
    (alignedExpand barrierSet).WellTyped alignedGraph :=
  @wellTyped_of_nodes _ _ 7 lt_size_of_op_graphOf rfl rfl rfl rfl ⟨false, rfl⟩ (by decide)
    (by decide) (by decide) (by decide)

/-- The allocation of the array, with no barrier. -/
def aligned (barrierSet : BarrierSetC2) : EliminatedAllocation where
  macroExpand := alignedExpand barrierSet
  graph := alignedGraph
  barriers := []
  typed := wellTyped_aligned barrierSet
  accepted use huse := by
    have hall : ∀ use < 12, alignedGraph.Reads use 3 → alignedGraph.op use = .castP2X := by decide
    exact .inl (hall use huse.lt_size huse)

/-- The conversion is no barrier, and is never removed. -/
theorem not_removes_aligned :
    ¬ (aligned .cardTable).macroExpand.Removes (aligned .cardTable).start ∧
      ¬ (aligned .g1).macroExpand.Removes (aligned .g1).start := by
  constructor
  · exact @MacroExpand.not_removes_of_unregistered (alignedExpand .cardTable) _ _ 4 .refl
      (by decide) (by decide)
  · exact @MacroExpand.not_removes_of_unregistered (alignedExpand .g1) _ _ 4 .refl
      (by decide) (by decide)

/-! ### A run that meets the condition

A field of the object (node 4) is stored to (node 5), and the card of the field's address is marked:
node 6 is the registered `CastP2X`, and the mark is node 14. The graph after each turn is written as
what was redirected and the nodes that died with it. -/

/-- The inputs of the nodes, with what they are. -/
def cardMarkNodes : List (MacroOp × List (Option ℕ)) :=
  [(.con, []), (.other, []), (.proj .parms false, [some 1]), (.checkCastPP, [some 10, some 2]),
    (.addP, [none, some 3, some 3, some 0]), (.store, [some 10, some 11, some 4, some 0]),
    (.castP2X, [none, some 4]),
    (.initializeNode, [some 8, none, some 9, none, none, some 2]),
    (.proj .control false, [some 1]), (.proj .memory false, [some 1]),
    (.proj .control false, [some 7]), (.proj .memory false, [some 7]),
    (.uRShiftX, [none, some 6, some 0]), (.addP, [none, some 0, some 0, some 12]),
    (.store, [some 10, some 5, some 13, some 0]), (.addL, [none, some 6, some 0]),
    (.cmp, [none, some 15, some 0]), (.bool .le, [none, some 16]),
    (.other, [some 10, some 14, some 17])]

/-- The graph. -/
def cardMarkGraph : MacroGraph := graphOf cardMarkNodes

/-- Without the card mark. -/
def withoutCardMark : MacroGraph :=
  [14, 13, 12].foldl NodeGraph.clear (cardMarkGraph.redirect 14 5)

/-- Without the barrier. -/
def withoutBarrier : MacroGraph :=
  [16, 15, 6].foldl NodeGraph.clear (withoutCardMark.redirect 16 0)

/-- Without the store; the field's address and the result die with it. -/
def withoutStore : MacroGraph :=
  [5, 4, 3].foldl NodeGraph.clear (withoutBarrier.redirect 5 11)

/-- When the loops over the uses of the result have been left. -/
def withoutResult : MacroGraph := (withoutStore.clear 4).clear 3

/-- Without the control projection of the `Initialize`. -/
def withoutControl : MacroGraph := [10].foldl NodeGraph.clear (withoutResult.redirect 10 8)

/-- Without the `Initialize`. -/
def withoutInitialize : MacroGraph :=
  [11, 7, 2].foldl NodeGraph.clear (withoutControl.redirect 11 9)

/-- With the card table. -/
def cardMarkExpand : MacroExpand := alignedExpand .cardTable

/-- The allocation of the object, with its barrier. -/
def cardMark : EliminatedAllocation where
  macroExpand := cardMarkExpand
  graph := cardMarkGraph
  barriers := [6]
  typed := @wellTyped_of_nodes _ _ 7 lt_size_of_op_graphOf rfl rfl rfl rfl ⟨false, rfl⟩
    (by decide) (by decide) (by decide) (by decide)
  accepted use huse := by
    have hall : ∀ use < 19, cardMarkGraph.Reads use 3 → cardMarkGraph.op use = .addP ∧
        ∀ n < 19, cardMarkGraph.Reads n use →
          cardMarkGraph.op n = .store ∨ cardMarkGraph.op n = .castP2X := by decide
    obtain ⟨hop, hfields⟩ := hall use huse.lt_size huse
    exact .inr (.inl ⟨hop, fun n hn => hfields n hn.lt_size hn⟩)

section

variable {M : MacroExpand}

/-- A run goes on after its first turn. -/
theorem turnOk_of_step {s s' : RemovalState} (hs : M.step s = some s')
    (hregistered : ∀ node, M.barrierAt s = some node →
      node ∈ s.barriers ∧ (M.barrierSet = .cardTable → M.CardIsUsed s.graph node))
    (hprojected : s.phase = .projection → ∀ use, M.lastOut s.graph M.resProj = some use →
      ∃ m, s.graph.Reads m use)
    (h : ∀ t, M.Reaches s' t → M.TurnOk t) (t : RemovalState) (ht : M.Reaches s t) :
    M.TurnOk t := by
  have hcases : t = s ∨ M.Reaches s' t := by
    induction ht with
    | refl => exact .inl rfl
    | step hreach hstep ih =>
      rcases ih with rfl | hreach
      · obtain rfl := Option.some.inj (hs.symm.trans hstep)
        exact .inr .refl
      · exact .inr (hreach.step hstep)
  rcases hcases with rfl | hreach
  · exact ⟨.inr ⟨s', hs⟩, hregistered, hprojected⟩
  · exact h t hreach

/-- A turn without a barrier asks nothing of one. -/
theorem registered_of_none {s : RemovalState} (h : M.barrierAt s = none) (node : ℕ)
    (hat : M.barrierAt s = some node) :
    node ∈ s.barriers ∧ (M.barrierSet = .cardTable → M.CardIsUsed s.graph node) := by
  rw [h] at hat
  cases hat

/-- A run that is done stays where it is. -/
theorem turnOk_of_done {s : RemovalState} (hs : s.phase = .done) (t : RemovalState)
    (ht : M.Reaches s t) : M.TurnOk t := by
  have heq : t = s := by
    induction ht with
    | refl => rfl
    | step _ hstep ih =>
      rw [ih, MacroExpand.step, hs] at hstep
      cases hstep
  rw [heq]
  refine ⟨.inl hs, registered_of_none (by rw [MacroExpand.barrierAt, hs]), fun hphase => ?_⟩
  rw [hs] at hphase
  cases hphase

end

/-- `eliminate_gc_barrier` removes the card mark and the range check. -/
theorem removeCardTableBarrier_cardMark :
    cardMarkExpand.removeCardTableBarrier cardMarkGraph 6 = some withoutBarrier := by
  have hshift : cardMarkExpand.findOutWith cardMarkGraph 6 .uRShiftX = some 12 := by decide
  have haddp : cardMarkExpand.uniqueOut cardMarkGraph 12 = some 13 := by decide
  have huses : cardMarkGraph.uses 13 = 1 := by decide
  have hmark : cardMarkExpand.removeCardMarks 13 1 cardMarkGraph = some withoutCardMark := by
    have hmem : cardMarkExpand.lastOut cardMarkGraph 13 = some 14 := by decide
    have hop : cardMarkGraph.op 14 = .store := rfl
    have hmemory : cardMarkGraph.input 14 1 = some 5 := rfl
    have hreplaced : cardMarkGraph.replaceNode 14 5 = withoutCardMark :=
      NodeGraph.removeDead_eq_foldl (by decide)
    simp [MacroExpand.removeCardMarks, hmem, hop, hmemory, hreplaced]
  have haddl : cardMarkExpand.findOutWith withoutCardMark 6 .addL = some 15 := by decide
  have hcmp : cardMarkExpand.uniqueOut withoutCardMark 15 = some 16 := by decide
  have hop : withoutCardMark.op 16 = .cmp := rfl
  have hreplaced : withoutCardMark.replaceNode 16 cardMarkExpand.ccEq = withoutBarrier :=
    NodeGraph.removeDead_eq_foldl (by decide)
  simp [MacroExpand.removeCardTableBarrier, hshift, haddp, huses, hmark, haddl, hcmp, hop,
    hreplaced]

@[simp]
theorem res_cardMarkExpand : cardMarkExpand.res = 3 := rfl

@[simp]
theorem resProj_cardMarkExpand : cardMarkExpand.resProj = 2 := rfl

/-- The loop over the uses of the field's address is entered. -/
theorem step_field : cardMarkExpand.step ⟨cardMarkGraph, [6], .users⟩ =
    some ⟨cardMarkGraph, [6], .fields 4 2⟩ := by
  have hlast : cardMarkExpand.lastOut cardMarkGraph 3 = some 4 := by decide
  have hop : cardMarkGraph.op 4 = .addP := rfl
  have huses : cardMarkGraph.uses 3 = 2 := by decide
  simp [MacroExpand.step, MacroExpand.stepUsers, hlast, hop, huses]

/-- The barrier is the last use of the address. -/
theorem step_barrier : cardMarkExpand.step ⟨cardMarkGraph, [6], .fields 4 2⟩ =
    some ⟨withoutBarrier, [], .fields 4 2⟩ := by
  have hset : cardMarkExpand.barrierSet = .cardTable := rfl
  have hlast : cardMarkExpand.lastOut cardMarkGraph 4 = some 6 := by decide
  have hop : cardMarkGraph.op 6 = .castP2X := rfl
  have huses : cardMarkGraph.uses 6 = 2 := by decide
  have hremoved : cardMarkExpand.removeCardTableBarrier cardMarkGraph 6 = some withoutBarrier :=
    removeCardTableBarrier_cardMark
  simp [MacroExpand.step, MacroExpand.stepFields, MacroExpand.eliminateGcBarrier,
    MacroExpand.removeBarrier, MacroExpand.maxUses, hset, hlast, hop, huses, hremoved]

/-- Then the store. -/
theorem step_store : cardMarkExpand.step ⟨withoutBarrier, [], .fields 4 2⟩ =
    some ⟨withoutStore, [], .fields 4 2⟩ := by
  have hlast : cardMarkExpand.lastOut withoutBarrier 4 = some 5 := by decide
  have hop : withoutBarrier.op 5 = .store := rfl
  have hmemory : withoutBarrier.input 5 1 = some 11 := rfl
  have hreplaced : withoutBarrier.replaceNode 5 11 = withoutStore :=
    NodeGraph.removeDead_eq_foldl (by decide)
  simp [MacroExpand.step, MacroExpand.stepFields, hlast, hop, hmemory, hreplaced]

/-- No use of the address is left. -/
theorem step_left : cardMarkExpand.step ⟨withoutStore, [], .fields 4 2⟩ =
    some ⟨withoutStore.clear 4, [], .users⟩ := by
  have hlast : cardMarkExpand.lastOut withoutStore 4 = none := by decide
  have hdead : withoutStore.removeDead [4] = withoutStore.clear 4 :=
    @NodeGraph.removeDead_eq_foldl _ _ _ [4] (by decide)
  simp [MacroExpand.step, MacroExpand.stepFields, hlast, hdead]

/-- Nor is one of the result. -/
theorem step_result : cardMarkExpand.step ⟨withoutStore.clear 4, [], .users⟩ =
    some ⟨withoutResult, [], .projection⟩ := by
  have hlast : cardMarkExpand.lastOut (withoutStore.clear 4) 3 = none := by decide
  have hdead : (withoutStore.clear 4).removeDead [3] = withoutResult :=
    @NodeGraph.removeDead_eq_foldl _ _ _ [3] (by decide)
  have haddr : (cardMarkExpand.outs withoutResult 2).filter
      (fun n => withoutResult.op n = .addP) = [] := by decide
  simp [MacroExpand.step, MacroExpand.stepUsers, MacroExpand.disconnectRawAddresses, hlast,
    hdead, haddr]

/-- The result projection has the `Initialize` as a use. -/
theorem step_initialize : cardMarkExpand.step ⟨withoutResult, [], .projection⟩ =
    some ⟨withoutInitialize, [], .projection⟩ := by
  have hlast : cardMarkExpand.lastOut withoutResult 2 = some 7 := by decide
  have hop : withoutResult.op 7 = .initializeNode := rfl
  have hctl : cardMarkExpand.projOut withoutResult 7 .control = some 10 := by decide
  have hmem : cardMarkExpand.projOut withoutResult 7 .memory = some 11 := by decide
  have hctlIn : withoutResult.input 7 0 = some 8 := rfl
  have hmemIn : withoutControl.input 7 2 = some 9 := rfl
  have hcontrol : withoutResult.replaceNode 10 8 = withoutControl :=
    NodeGraph.removeDead_eq_foldl (by decide)
  have hmemory : withoutControl.replaceNode 11 9 = withoutInitialize :=
    NodeGraph.removeDead_eq_foldl (by decide)
  simp [MacroExpand.step, MacroExpand.stepProjection, MacroExpand.disconnectProjections,
    MacroExpand.replaceProj, hlast, hop, hctl, hmem, hctlIn, hmemIn, hcontrol, hmemory]

/-- And then none. -/
theorem step_done : cardMarkExpand.step ⟨withoutInitialize, [], .projection⟩ =
    some ⟨withoutInitialize, [], .done⟩ := by
  have hlast : cardMarkExpand.lastOut withoutInitialize 2 = none := by decide
  simp [MacroExpand.step, MacroExpand.stepProjection, hlast]

/-- Every turn meets the condition. -/
theorem turnOk_cardMark (t : RemovalState) (ht : cardMark.macroExpand.Reaches cardMark.start t) :
    cardMark.macroExpand.TurnOk t := by
  refine turnOk_of_step step_field (registered_of_none (by decide)) nofun ?_ t ht
  refine turnOk_of_step step_barrier (fun node hat => ?_) nofun ?_
  · have hsix : cardMarkExpand.barrierAt ⟨cardMarkGraph, [6], .fields 4 2⟩ = some 6 := by decide
    obtain rfl := Option.some.inj (hsix.symm.trans hat)
    refine ⟨by decide, fun _ shift addp hshift haddp => ?_⟩
    have hshift' : cardMarkExpand.findOutWith cardMarkGraph 6 .uRShiftX = some 12 := by decide
    obtain rfl := Option.some.inj (hshift'.symm.trans hshift)
    have haddp' : cardMarkExpand.uniqueOut cardMarkGraph 12 = some 13 := by decide
    obtain rfl := Option.some.inj (haddp'.symm.trans haddp)
    decide
  refine turnOk_of_step step_store (registered_of_none (by decide)) nofun ?_
  refine turnOk_of_step step_left (registered_of_none (by decide)) nofun ?_
  refine turnOk_of_step step_result (registered_of_none (by decide)) nofun ?_
  refine turnOk_of_step step_initialize (registered_of_none (by decide)) (fun _ use huse => ?_) ?_
  · have hseven : cardMarkExpand.lastOut withoutResult 2 = some 7 := by decide
    obtain rfl := Option.some.inj (hseven.symm.trans huse)
    exact ⟨10, by decide⟩
  refine turnOk_of_step step_done (registered_of_none (by decide)) (fun _ use huse => ?_)
    (turnOk_of_done rfl)
  have hlast : cardMarkExpand.lastOut withoutInitialize 2 = none := by decide
  rw [resProj_cardMarkExpand, hlast] at huse
  cases huse

/-- The loops remove all uses of this object. -/
theorem processUsersOfAllocation_removes_cardMark :
    cardMark.macroExpand.Removes cardMark.start :=
  cardMark.processUsersOfAllocation_removes.1 turnOk_cardMark

end EliminatedAllocation

end StackAllocation
