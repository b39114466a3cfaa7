import StackAllocation.LockRemoval
import StackAllocation.StackLocks

/-!
# Lock elimination on the graph

Which locks can be left, over all orders of the macro list, is decided with the box of a lock as a
function (`LockState`). On the graph a box is an input: boxes are copied, and the arrays of users
change under the loops (`LockMarks`). Here the loops over the graph are shown to follow the lock
passes step by step (`Follows`), so both leave the same locks (`Abstracts.left_eq`), and what is
known of the locks that are left holds on the graph.
-/

namespace StackAllocation

namespace LockMethod

open UserGraph Relation

variable {M : LockMethod} {L : LockGraph} {o : StackAllocationOptions} {s₀ s : LockMarks}
  {t : LockState}

/-! ## The marks on the graph

The state of the lock passes keeps for a lock its mark and its box, and for a box whether it is
marked. All of this can be read off the graph, where the box of a lock is an input. What the lock
passes know from the start and never change, such as the object of a lock, the graph keeps as
well. -/

/-- The marks on the graph are those of the lock passes. -/
structure Represents (L : LockGraph) (s : LockMarks) (t : LockState) : Prop where
  kind : ∀ l ∈ L.locks, t.kind l = s.kind l
  box : ∀ l ∈ L.locks, s.graph.input l lockEdge.box = some (t.boxNode l)
  boxEliminated : t.boxEliminated = s.boxEliminated
  unique : t.unique = s.graph.size

/-- The locks of a graph before they are marked, as the lock passes look at them. -/
structure Abstracts (L : LockGraph) (M : LockMethod) (o : StackAllocationOptions)
    (s₀ : LockMarks) : Prop extends LockStart M s₀ where
  nestedLocks : o.eliminateNestedLocks = M.eliminateNestedLocks
  uncast : ∀ n, L.uncast n = M.uncast n
  stepOver : ∀ n, L.stepOverGcBarrier n = M.stepOverGcBarrier n
  mem_locks : ∀ l, l ∈ L.locks ↔ (s₀.graph.op l).isAbstractLock = true
  objNode : ∀ l ∈ L.locks, s₀.graph.input l lockEdge.obj = some (L.objNode l)
  boxNode : ∀ l ∈ L.locks, s₀.graph.input l lockEdge.box = some (L.boxNode l)
  outs : ∀ l ∈ L.locks, L.outs (L.objNode l) =
    (s₀.graph.outs (L.objNode l)).filter fun u => (s₀.graph.op u).isAbstractLock
  /-- only a `Lock` has a `JVMState` -/
  isLock : ∀ l ∈ L.locks, L.isLock l = (M.jvms l).isSome
  stackSlot : ∀ b, (s₀.graph.op b).stackSlot = (L.stackSlot b : ℤ)
  monitors : ∀ l ∈ L.locks,
    (M.monitorEdges l).map (fun e => (s₀.graph.input l e.obj, s₀.graph.input l e.box)) =
      (L.monitors l).map fun m => (some m.1, some m.2)
  /-- whether a region is simple is asked of the locks of its box -/
  isSimpleLockRegion : ∀ s t, MarkSteps M s₀ s → Represents L s t → ∀ box obj,
    L.isSimpleLockRegion t.boxNode box obj = M.isSimpleLockRegion s.graph box obj

/-- What marking has done on the graph, and in the lock passes. -/
structure Follows (L : LockGraph) (M : LockMethod) (s₀ s : LockMarks) (t : LockState) : Prop
    extends Represents L s t where
  steps : MarkSteps M s₀ s
  /-- boxes are copied only where nested locks stay -/
  graph : M.eliminateNestedLocks = true → s.graph = s₀.graph
  outs : ∀ l ∈ L.locks, s.graph.outs (L.objNode l) = s₀.graph.outs (L.objNode l)

/-- An input and a node, as both see them. -/
theorem Abstracts.eqvUncast (hA : Abstracts L M o s₀) (n m : ℕ) :
    M.eqvUncast (some n) m = L.eqvUncast n m := by
  rw [LockMethod.eqvUncast, LockGraph.eqvUncast, hA.uncast, hA.uncast]

namespace Follows

variable (h : Follows L M s₀ s t) (hA : Abstracts L M o s₀)
include h hA

/-- Locks have their boxes and objects where they belong. -/
theorem typed : LockTyped M s.graph := MarkSteps.typed h.steps hA.typed

/-- The locks stay. -/
theorem mem_locks (l : ℕ) : l ∈ L.locks ↔ (s.graph.op l).isAbstractLock = true :=
  (hA.mem_locks l).trans (MarkSteps.lock_eq h.steps hA.typed).1.symm

/-- Objects stay. -/
theorem objNode {l : ℕ} (hl : l ∈ L.locks) :
    s.graph.input l lockEdge.obj = some (L.objNode l) :=
  ((MarkSteps.lock_eq h.steps hA.typed).2 ((hA.mem_locks l).1 hl)).trans (hA.objNode l hl)

/-- The locks of a box that is not marked are those that it had. -/
theorem mem_outs {l box : ℕ} (hl : l ∈ L.locks) (hbox : t.boxNode l = box)
    (helim : s.boxEliminated box = false) : l ∈ L.outs box := by
  have hfrom := hA.markedFrom.steps h.steps
  have hlock := (hA.mem_locks l).1 hl
  have hin : s.graph.input l lockEdge.box = some box := hbox ▸ h.box l hl
  rcases hfrom.boxes l (hfrom.lt_size ((h.mem_locks hA l).1 hl)) lockEdge
    (lockEdge_mem hlock l) with heq | ⟨b, hle, hb⟩
  · rw [hin, hA.boxNode l hl, Option.some_inj] at heq
    rw [heq]
    exact L.mem_outs_box l hl
  · obtain rfl := Option.some.inj (hb.symm.trans hin)
    rw [(hfrom.newBox b hle (lt_size_of_input hin)).1] at helim
    cases helim

/-- A lock has a box on the graph if it has it in the lock passes. -/
theorem hasBox_iff {l box : ℕ} (hl : l ∈ L.locks) :
    hasBox box s l = true ↔ t.boxNode l = box := by
  rw [LockMethod.hasBox_iff, h.box l hl, Option.some_inj]
  exact ⟨fun h => h.2, fun h' => ⟨(h.mem_locks hA l).1 hl, h'⟩⟩

/-- The box and the object of a lock, as an edge. -/
theorem isEdgeOf_iff {l box obj : ℕ} (hl : l ∈ L.locks) :
    M.isEdgeOf box obj s.graph l lockEdge = true ↔
      t.boxNode l = box ∧ L.eqvUncast (L.objNode l) obj = true := by
  rw [LockMethod.isEdgeOf_iff, h.box l hl, Option.some_inj, h.objNode hA hl, hA.eqvUncast]

end Follows

/-! ## Marking a box

A box that is marked keeps its users, so the lists of users of the lock passes, which are those at
the start, are as good as the arrays. Only a box that is already marked can have got other users. -/

/-- Marking users does not make nodes. -/
theorem unique_foldl_markUsers (k : LockKind) (p : LockState → ℕ → Bool) (l : List ℕ)
    (t : LockState) : (l.foldl (markUsers k p) t).unique = t.unique := by
  refine Loops.invariant (P := fun t' : LockState => t'.unique = t.unique) l rfl
    fun t' u _ ht' => ?_
  unfold markUsers
  split
  · exact ht'
  · exact ht'

/-- The users of a box that a new box takes. -/
theorem foldl_replaceBox (p : ℕ → Bool) {oldbox newbox : ℕ} (hne : newbox ≠ oldbox) (l : List ℕ)
    (t : LockState) :
    let t' := l.foldl (fun t u =>
      if t.boxNode u = oldbox ∧ p u = true then
        { t with
          kind := Function.update t.kind u .nonEscObj
          boxNode := Function.update t.boxNode u newbox }
      else t) t
    t'.boxEliminated = t.boxEliminated ∧ t'.unique = t.unique ∧ ∀ u,
      (u ∈ l ∧ t.boxNode u = oldbox ∧ p u = true →
        t'.kind u = .nonEscObj ∧ t'.boxNode u = newbox) ∧
      (¬ (u ∈ l ∧ t.boxNode u = oldbox ∧ p u = true) →
        t'.kind u = t.kind u ∧ t'.boxNode u = t.boxNode u) := by
  induction l generalizing t with
  | nil => exact ⟨rfl, rfl, fun u => ⟨fun h => absurd h.1 List.not_mem_nil, fun _ => ⟨rfl, rfl⟩⟩⟩
  | cons a l ih =>
    rw [List.foldl_cons]
    by_cases ha : t.boxNode a = oldbox ∧ p a = true
    · rw [if_pos ha]
      obtain ⟨helim, hunique, hall⟩ := ih
        { t with
          kind := Function.update t.kind a .nonEscObj
          boxNode := Function.update t.boxNode a newbox }
      refine ⟨helim, hunique, fun u => ?_⟩
      by_cases hu : u = a
      · subst hu
        have hmoved := (hall u).2 fun h => hne (by simpa using h.2.1)
        simp only [Function.update_self] at hmoved
        exact ⟨fun _ => hmoved, fun h => absurd ⟨List.mem_cons_self, ha⟩ h⟩
      · have hrest := hall u
        simp only [Function.update_of_ne hu] at hrest
        simpa only [List.mem_cons, hu, false_or] using hrest
    · rw [if_neg ha]
      obtain ⟨helim, hunique, hall⟩ := ih t
      refine ⟨helim, hunique, fun u => ?_⟩
      by_cases hu : u = a
      · subst hu
        exact ⟨fun h => absurd h.2 ha, fun _ => (hall u).2 fun h => ha h.2⟩
      · simpa only [List.mem_cons, hu, false_or] using hall u

/-- A box is marked, on both sides. -/
theorem Follows.boxMarked {k : LockKind} {box : ℕ} {s' : LockMarks}
    {p : LockState → ℕ → Bool} (h : Follows L M s₀ s t) (hA : Abstracts L M o s₀)
    (hk : k = .nonEscObj ∨ k = .nested)
    (hbox : ∀ l ∈ L.locks, t.boxNode l = box → l ∈ L.outs box)
    (hp : ∀ s u, p s u = true → s.boxNode u = box)
    (hp' : ∀ s u, s.boxNode u = box → p s u = true ∨ s.kind u = k)
    (hm : BoxMarked k box s s') :
    Follows L M s₀ s' ((L.outs box).foldl (markUsers k p)
      { t with boxEliminated := Function.update t.boxEliminated box true }) := by
  obtain ⟨hboxNode, helim, hkind⟩ := foldl_markUsers k p box hp hp' (L.outs box)
    { t with boxEliminated := Function.update t.boxEliminated box true }
  refine ⟨⟨fun l hl => ?_, fun l hl => ?_, ?_, ?_⟩, h.steps.tail (.marked k box hk hm),
    fun hn => ?_, fun l hl => ?_⟩
  · rw [hkind]
    by_cases hb : t.boxNode l = box
    · rw [if_pos ⟨hbox l hl hb, hb⟩, hm.kind_box l ((h.hasBox_iff hA hl).2 hb)]
    · rw [if_neg fun h => hb h.2, hm.kind_other l fun hhas => hb ((h.hasBox_iff hA hl).1 hhas)]
      exact h.kind l hl
  · rw [hm.graph_eq, hboxNode]
    exact h.box l hl
  · rw [helim, hm.boxEliminated_eq, h.boxEliminated]
  · rw [unique_foldl_markUsers, hm.graph_eq]
    exact h.unique
  · rw [hm.graph_eq]
    exact h.graph hn
  · rw [hm.graph_eq]
    exact h.outs l hl

/-- A new box takes the users of a box that are for an object, on both sides. -/
theorem Follows.boxReplaced {oldbox obj oldLock : ℕ} {s' : LockMarks} (h : Follows L M s₀ s t)
    (hA : Abstracts L M o s₀) (hl : oldLock ∈ L.locks)
    (hold : s.boxEliminated oldbox = false)
    (hedge : M.isEdgeOf oldbox obj s.graph oldLock lockEdge = true)
    (hnested : M.eliminateNestedLocks ≠ true)
    (hr : BoxReplaced M oldbox obj s s')
    (houts : ∀ k ∈ L.locks, s'.graph.outs (L.objNode k) = s.graph.outs (L.objNode k)) :
    Follows L M s₀ s' ((L.outs oldbox).foldl
      (fun t' u =>
        if t'.boxNode u = oldbox ∧ L.eqvUncast (L.objNode u) obj = true then
          { t' with
            kind := Function.update t'.kind u .nonEscObj
            boxNode := Function.update t'.boxNode u t.unique }
        else t')
      { t with
        boxEliminated := Function.update t.boxEliminated t.unique true
        unique := t.unique + 1 }) := by
  have ht := h.typed hA
  have hlock := (h.mem_locks hA oldLock).1 hl
  have hne : t.unique ≠ oldbox := by
    rw [h.unique]
    exact Nat.ne_of_gt (lt_size_of_input (LockMethod.isEdgeOf_iff.1 hedge).1)
  obtain ⟨helim, hunique, hall⟩ := foldl_replaceBox (fun u => L.eqvUncast (L.objNode u) obj) hne
    (L.outs oldbox)
    { t with
      boxEliminated := Function.update t.boxEliminated t.unique true
      unique := t.unique + 1 }
  -- a lock is moved in the lock passes if its edge is on the graph
  have hmoves : ∀ v ∈ L.locks, (v ∈ L.outs oldbox ∧ t.boxNode v = oldbox ∧
      L.eqvUncast (L.objNode v) obj = true ↔ M.isEdgeOf oldbox obj s.graph v lockEdge = true) := by
    intro v hv
    rw [h.isEdgeOf_iff hA hv]
    exact ⟨fun hm => hm.2, fun hm => ⟨h.mem_outs hA hv hm.1 hold, hm⟩⟩
  have hsize : ∀ v ∈ L.locks, v ≠ s.graph.size := fun v hv =>
    Nat.ne_of_lt (lt_size_of_isAbstractLock ht ((h.mem_locks hA v).1 hv))
  refine ⟨⟨fun v hv => ?_, fun v hv => ?_, ?_, ?_⟩,
    h.steps.tail (.replaced oldbox obj oldLock hold hlock hedge hr), fun hn => absurd hn hnested,
    fun v hv => (houts v hv).trans (h.outs v hv)⟩
  · by_cases hm : M.isEdgeOf oldbox obj s.graph v lockEdge = true
    · rw [((hall v).1 ((hmoves v hv).2 hm)).1,
        hr.kind_moved v (hsize v hv) ((h.mem_locks hA v).1 hv) hm]
    · rw [((hall v).2 fun h => hm ((hmoves v hv).1 h)).1,
        (hr.kind_kept v (hsize v hv)).resolve_right fun h => hm h.2]
      exact h.kind v hv
  · have hmem := lockEdge_mem (M := M) ((h.mem_locks hA v).1 hv) v
    rcases hr.edge ht (hsize v hv) hmem with ⟨hm, hmoved⟩ | ⟨hm, hkept⟩
    · rw [((hall v).1 ((hmoves v hv).2 hm)).2, hmoved, h.unique]
    · rw [((hall v).2 fun h => hm ((hmoves v hv).1 h)).2, hkept]
      exact h.box v hv
  · rw [helim, hr.boxEliminated_eq, h.boxEliminated, h.unique]
  · rw [hunique, hr.size_eq, h.unique]

/-- `mark_eliminated_box`, on both sides. -/
theorem Follows.markEliminatedBox (h : Follows L M s₀ s t) (hA : Abstracts L M o s₀) {l obj : ℕ}
    (hl : l ∈ L.locks) (heqv : L.eqvUncast (L.objNode l) obj = true) :
    ∃ s', M.markEliminatedBox (t.boxNode l) obj s = some s' ∧
      Follows L M s₀ s' (StackAllocation.markEliminatedBox L o (t.boxNode l) obj t) := by
  have ht := h.typed hA
  have hlock := (h.mem_locks hA l).1 hl
  have hedge := (h.isEdgeOf_iff hA hl).2 ⟨rfl, heqv⟩
  obtain ⟨s', hs', hcases, houts⟩ := markEliminatedBox_spec ht hlock hedge
  refine ⟨s', hs', ?_⟩
  have hsimple := hA.isSimpleLockRegion s t h.steps h.toRepresents (t.boxNode l) obj
  rw [StackAllocation.markEliminatedBox, h.boxEliminated, hA.nestedLocks, hsimple]
  rcases hcases with ⟨rfl, helim⟩ | ⟨helim, ⟨hregion, hm⟩ | ⟨hregion, hr⟩⟩
  · rw [if_pos helim]
    exact h
  · rw [if_neg (Bool.eq_false_iff.1 helim), if_pos hregion]
    have hmarked := h.boxMarked hA (p := fun s u =>
      decide (s.kind u ≠ .nonEscObj) && decide (s.boxNode u = t.boxNode l)) (.inl rfl)
      (fun v hv hb => h.mem_outs hA hv hb helim) (by simp)
      (fun s u hb => by by_cases hk : s.kind u = .nonEscObj <;> simp [hk, hb]) hm
    rwa [h.boxEliminated] at hmarked
  · rw [if_neg (Bool.eq_false_iff.1 helim), if_neg hregion]
    have hreplaced := h.boxReplaced hA hl helim hedge
      (fun h => hregion (by rw [h, Bool.true_or])) hr
      fun k hk => houts _ (by
        obtain ⟨n, hn, hbox⟩ := ht.obj k ((h.mem_locks hA k).1 hk)
        obtain rfl := Option.some.inj ((h.objNode hA hk).symm.trans hn)
        exact hbox) (Nat.ne_of_lt (lt_size_of_input (h.objNode hA hk)))
        fun i hi => ht.boxIns _ i _ k (ht.isBoxLock hlock (h.box l hl)) hi
          ((h.mem_locks hA k).1 hk) (h.objNode hA hk)
    rwa [h.boxEliminated] at hreplaced
/-! ## Marking locks

The loop over the locks of an object leaves the array of its users alone, so it is a fold over it.
Nested regions are looked for only where no box is ever copied, so they are those of the graph at
the start. -/

/-- The loop over the locks of an object, on both sides. -/
theorem Follows.markSameObject (h : Follows L M s₀ s t) (hA : Abstracts L M o s₀) {alock : ℕ}
    (hl : alock ∈ L.locks) :
    ∃ s', M.markSameObject (L.objNode alock) s = some s' ∧
      Follows L M s₀ s' (StackAllocation.markSameObject L o alock t) := by
  rw [StackAllocation.markSameObject, hA.outs alock hl, List.foldl_filter]
  refine forAllUses_foldl (R := Follows L M s₀) (fun s t h => h.outs alock hl)
    (fun s t u _ h => ?_) h
  by_cases hop : (s₀.graph.op u).isAbstractLock = true
  · have hu := (hA.mem_locks u).2 hop
    rw [if_pos hop, (h.mem_locks hA u).1 hu, Bool.true_and, h.objNode hA hu, hA.eqvUncast,
      h.box u hu]
    by_cases heqv : L.eqvUncast (L.objNode u) (L.objNode alock) = true
    · obtain ⟨s', hs', h'⟩ := h.markEliminatedBox hA hu heqv
      rw [if_pos heqv, if_pos heqv]
      exact ⟨s', by simp only [hs', Option.map_some], h'⟩
    · rw [if_neg heqv, if_neg heqv]
      exact ⟨s, rfl, h⟩
  · have hnot : (s.graph.op u).isAbstractLock = false := Bool.eq_false_iff.2 fun h' =>
      hop ((hA.mem_locks u).1 ((h.mem_locks hA u).2 h'))
    rw [if_neg hop, hnot, Bool.false_and]
    exact ⟨s, rfl, h⟩

/-- Both sides find the same nested regions, while no box is copied. -/
theorem Follows.isNestedLockRegion_eq (h : Follows L M s₀ s t) (hA : Abstracts L M o s₀)
    (hnested : M.eliminateNestedLocks = true) {alock : ℕ} (hl : alock ∈ L.locks) :
    M.isNestedLockRegion s.graph alock (t.boxNode alock) (L.objNode alock) =
      StackAllocation.isNestedLockRegion L t.boxNode alock := by
  have hgraph := h.graph hnested
  have hsimple := hA.isSimpleLockRegion s t h.steps h.toRepresents (t.boxNode alock)
    (L.objNode alock)
  have hmonitors : (M.monitorEdges alock).any (fun e =>
      decide (((s.graph.input alock e.box).map fun b => (s.graph.op b).stackSlot).getD 0 <
        (L.stackSlot (t.boxNode alock) : ℤ)) &&
        M.eqvUncast ((s.graph.input alock e.obj).map M.stepOverGcBarrier)
          (M.stepOverGcBarrier (L.objNode alock))) =
      (L.monitors alock).any fun m =>
        decide (L.stackSlot m.2 < L.stackSlot (t.boxNode alock)) &&
          L.eqvUncast (L.stepOverGcBarrier m.1) (L.stepOverGcBarrier (L.objNode alock)) := by
    have hany := congrArg (fun ms : List (Option ℕ × Option ℕ) => ms.any fun m =>
      decide ((m.2.map fun b => (s.graph.op b).stackSlot).getD 0 <
        (L.stackSlot (t.boxNode alock) : ℤ)) &&
        M.eqvUncast (m.1.map M.stepOverGcBarrier) (M.stepOverGcBarrier (L.objNode alock)))
      (hA.monitors alock hl)
    simp only [List.any_map, hgraph] at hany ⊢
    refine hany.trans (congrArg (L.monitors alock).any (funext fun m => ?_))
    simp only [Function.comp_apply, Option.map_some, Option.getD_some, hA.stackSlot, hA.eqvUncast,
      Nat.cast_lt, hA.stepOver]
  rw [LockMethod.isNestedLockRegion, StackAllocation.isNestedLockRegion, hsimple]
  have hslot : (s.graph.op (t.boxNode alock)).stackSlot = (L.stackSlot (t.boxNode alock) : ℤ) := by
    rw [hgraph, hA.stackSlot]
  have hzero : (L.stackSlot (t.boxNode alock) : ℤ) ≤ 0 ↔ L.stackSlot (t.boxNode alock) = 0 := by
    omega
  cases M.isSimpleLockRegion s.graph (t.boxNode alock) (L.objNode alock) with
  | mk simple unique =>
    cases simple with
    | false => simp only [hslot, hzero]
    | true => simp only [hslot, hzero, hmonitors]

/-- The part for nested locks, on both sides. -/
theorem Follows.markNested (h : Follows L M s₀ s t) (hA : Abstracts L M o s₀)
    (hnested : M.eliminateNestedLocks = true) {alock : ℕ} (hl : alock ∈ L.locks) :
    ∃ s', M.markNested alock (t.boxNode alock) (L.objNode alock) s = some s' ∧
      Follows L M s₀ s' (if L.isLock alock then
          if StackAllocation.isNestedLockRegion L t.boxNode alock then
            (L.outs (t.boxNode alock)).foldl
              (markUsers .nested fun t' u => decide (t'.boxNode u = t.boxNode alock))
              { t with
                boxEliminated := Function.update t.boxEliminated (t.boxNode alock) true }
          else t
        else t) := by
  rw [LockMethod.markNested, h.isNestedLockRegion_eq hA hnested hl, ← hA.isLock alock hl]
  by_cases hlock : L.isLock alock = true
  · rw [if_pos hlock, hlock, Bool.true_and]
    split
    · obtain ⟨s', hs', hm⟩ := @markUser_spec s .nested (fun s u => hasBox (t.boxNode alock) s u)
        (t.boxNode alock) (fun _ _ h => h) fun _ _ h hhas => absurd hhas h
      refine ⟨s', hs', h.boxMarked hA (.inr rfl) (fun v hv hb => ?_) (by simp) (by simp_all) hm⟩
      -- no box has been replaced
      have hbox := h.box v hv
      rw [h.graph hnested, hA.boxNode v hv, Option.some_inj] at hbox
      rw [← hb, ← hbox]
      exact L.mem_outs_box v hv
    · exact ⟨s, rfl, h⟩
  · rw [if_neg hlock, Bool.eq_false_iff.2 hlock, Bool.false_and]
    exact ⟨s, rfl, h⟩

/-- `mark_eliminated_locking_nodes`, on both sides. -/
theorem Follows.markEliminatedLockingNodes (h : Follows L M s₀ s t) (hA : Abstracts L M o s₀)
    {alock : ℕ} (hl : alock ∈ L.locks) :
    ∃ s', M.markEliminatedLockingNodes alock s = some s' ∧
      Follows L M s₀ s' (StackAllocation.markEliminatedLockingNodes L o t alock) := by
  rw [LockMethod.markEliminatedLockingNodes, StackAllocation.markEliminatedLockingNodes,
    h.box alock hl, h.objNode hA hl, h.kind alock hl, hA.nestedLocks]
  simp only
  by_cases hnested : M.eliminateNestedLocks = true
  · rw [if_pos hnested, hnested]
    simp only [Bool.true_and, decide_eq_true_eq]
    split
    · exact ⟨s, rfl, h⟩
    · split
      · exact h.markNested hA hnested hl
      · next hkind =>
        rw [if_pos (not_not.1 hkind)]
        exact h.markSameObject hA hl
  · rw [if_neg hnested, Bool.eq_false_iff.2 hnested]
    by_cases hkind : s.kind alock = .nonEscObj
    · rw [if_pos hkind, if_pos hkind]
      exact h.markSameObject hA hl
    · rw [if_neg hkind, if_neg hkind]
      exact ⟨s, rfl, h⟩

/-- The first loop of `eliminate_macro_nodes`, on both sides. -/
theorem Follows.markMacroNodes (h : Follows L M s₀ s t) (hA : Abstracts L M o s₀)
    (macroNodes : List ℕ) :
    ∃ s', M.markMacroNodes macroNodes s = some s' ∧
      Follows L M s₀ s' ((macroNodes.filter fun n => (s₀.graph.op n).isAbstractLock).foldl
        (StackAllocation.markEliminatedLockingNodes L o) t) := by
  unfold LockMethod.markMacroNodes
  induction macroNodes generalizing s t with
  | nil => exact ⟨s, rfl, h⟩
  | cons n macroNodes ih =>
    rw [List.foldlM_cons]
    by_cases hop : (s₀.graph.op n).isAbstractLock = true
    · have hn := (hA.mem_locks n).2 hop
      obtain ⟨s₁, hs₁, h₁⟩ := h.markEliminatedLockingNodes hA hn
      obtain ⟨s', hs', h'⟩ := ih h₁
      refine ⟨s', ?_, ?_⟩
      · rw [if_pos ((h.mem_locks hA n).1 hn), hs₁]
        exact hs'
      · rwa [List.filter_cons, if_pos hop, List.foldl_cons]
    · have hnot : ¬ (s.graph.op n).isAbstractLock = true := fun h' =>
        hop ((hA.mem_locks n).1 ((h.mem_locks hA n).2 h'))
      obtain ⟨s', hs', h'⟩ := ih h
      refine ⟨s', ?_, ?_⟩
      · rw [if_neg hnot]
        exact hs'
      · rwa [List.filter_cons, if_neg hop]

/-! ## What is left

The locks that the second loop takes off the macro list are those that are marked, on either
side. -/

/-- The two loops of `eliminate_macro_nodes` leave on the graph what they leave in the lock
passes. -/
theorem Abstracts.eliminateMacroNodes_eq (hA : Abstracts L M o s₀) (h : Represents L s₀ t)
    {macroNodes : List ℕ} (hnodup : macroNodes.Nodup) :
    ∃ s' r, M.markMacroNodes macroNodes s₀ = some s' ∧
      (∀ fuel, 2 ≤ fuel →
        eliminateLocks s'.kind fuel ⟨macroNodes, s'.graph.toNodeGraph, true⟩ = some r) ∧
      r.macroNodes.filter (fun n => (s₀.graph.op n).isAbstractLock) =
        eliminateMacroNodes L o (macroNodes.filter fun n => (s₀.graph.op n).isAbstractLock) t := by
  have hstart : Follows L M s₀ s₀ t := ⟨h, .refl, fun _ => rfl, fun _ _ => rfl⟩
  obtain ⟨s', hs', h'⟩ := hstart.markMacroNodes hA macroNodes
  obtain ⟨r, hr, hleft, -⟩ := eliminateLocks_spec s'.kind hnodup s'.graph.toNodeGraph
  refine ⟨s', r, hs', hr, ?_⟩
  rw [hleft, eliminateMacroNodes, List.filter_filter, List.filter_filter]
  refine List.filter_congr fun n _ => ?_
  cases hop : (s₀.graph.op n).isAbstractLock with
  | false => rw [Bool.false_and, Bool.and_false]
  | true =>
    have hn := (hA.mem_locks n).2 hop
    rw [staysMacro, (h'.mem_locks hA n).1 hn, Bool.true_and, Bool.true_and, Bool.and_true,
      h'.kind n hn]

/-- What a compilation has left of its locks is what the loops over the graph leave. -/
theorem Abstracts.left_eq {G : CompletedGraph} {eligible : ℕ → Bool} (hA : Abstracts L M o s₀)
    (R : LockRun G eligible L o)
    (h : Represents L s₀ (lockState L G.nodes o G.nonEscaped R.coarsenedLater R.unique))
    {macroNodes : List ℕ} (hnodup : macroNodes.Nodup)
    (horder : macroNodes.filter (fun n => (s₀.graph.op n).isAbstractLock) = R.order) :
    ∃ s' r, M.markMacroNodes macroNodes s₀ = some s' ∧
      (∀ fuel, 2 ≤ fuel →
        eliminateLocks s'.kind fuel ⟨macroNodes, s'.graph.toNodeGraph, true⟩ = some r) ∧
      r.macroNodes.filter (fun n => (s₀.graph.op n).isAbstractLock) = R.left := by
  rw [LockRun.left, ← horder]
  exact hA.eliminateMacroNodes_eq h hnodup

end LockMethod

end StackAllocation
