import StackAllocation.LockBoxes
import Mathlib.Data.List.Pairwise

/-!
# Marking a box and replacing it

A change of the marks is one of two: a box is marked with all its locks (`BoxMarked`), or a new
box takes the users of an old one that are for the same object (`BoxReplaced`). The loop that
replaces a box takes its users away while it goes over them, and comes to an end with none left
(`replaceBox_spec`).
-/

namespace StackAllocation

namespace LockMethod

open UserGraph

variable {M : LockMethod}

/-! ## Edges

A node refers to boxes in pairs of a box and an object: a lock in its own two inputs, a safepoint in
the monitors of its frames. A pair never overlaps another, so one is changed without the others. -/

/-- The inputs of a node that are a box with its object. -/
def boxEdges (M : LockMethod) (op : LockNodeOp) (u : ℕ) : List BoxEdge :=
  match op with
  | .lock => lockEdge :: M.monitorEdges u
  | .unlock => lockEdge :: M.monitorEdges u
  | .safePoint => M.monitorEdges u
  | .fastLock => [M.fastLockEdge]
  | _ => []

/-- A box has no edges of this kind itself. -/
theorem boxEdges_of_isBoxLock {op : LockNodeOp} (h : op.isBoxLock = true) (u : ℕ) :
    M.boxEdges op u = [] := by
  cases op with
  | boxLock slot => rfl
  | lock => cases h
  | unlock => cases h
  | fastLock => cases h
  | safePoint => cases h
  | memBarAcquireLock => cases h
  | memBarReleaseLock => cases h
  | proj con => cases h
  | other => cases h

/-- A graph with locks as the optimizer has it. -/
structure LockTyped (M : LockMethod) (g : UserGraph LockNodeOp) : Prop where
  box : ∀ l, (g.op l).isAbstractLock = true →
    ∃ b, g.input l lockEdge.box = some b ∧ (g.op b).isBoxLock = true
  obj : ∀ l, (g.op l).isAbstractLock = true →
    ∃ n, g.input l lockEdge.obj = some n ∧ (g.op n).isBoxLock = false
  /-- a `FastLock` has its box there and nowhere else -/
  fastLock : ∀ u i b, g.op u = .fastLock → g.input u i = some b → (g.op b).isBoxLock = true →
    i = M.fastLockEdge.box
  /-- the root, which is the input of a box, is no object -/
  boxIns : ∀ b i n l, (g.op b).isBoxLock = true → g.input b i = some n →
    (g.op l).isAbstractLock = true → g.input l lockEdge.obj ≠ some n
  /-- the debug information of a lock is behind its arguments -/
  jvms : ∀ l areas, (g.op l).isAbstractLock = true → M.jvms l = some areas →
    ∀ area ∈ areas, lockParms + 3 ≤ area.monoff

/-- The edges of the monitors in the debug info: for each monitor of each frame its box, with its
object behind it. -/
theorem mem_monitorEdges {u : ℕ} {e : BoxEdge} : e ∈ M.monitorEdges u ↔
    ∃ areas, M.jvms u = some areas ∧ ∃ area ∈ areas, ∃ idx,
      area.monoff + 2 * idx + 1 < area.scloff ∧
      e = ⟨area.monoff + 2 * idx, area.monoff + 2 * idx + 1⟩ := by
  have hidx : ∀ (area : MonitorArea) idx, idx < area.nofMonitors ↔
      area.monoff + 2 * idx + 1 < area.scloff := by
    intro area idx
    rw [MonitorArea.nofMonitors]
    omega
  unfold monitorEdges
  simp only [List.mem_flatMap, List.mem_map, List.mem_range, hidx]
  cases M.jvms u with
  | none => simp
  | some areas =>
    simp only [Option.getD_some, Option.some.injEq, exists_eq_left']
    constructor
    · rintro ⟨area, harea, idx, hlt, rfl⟩
      exact ⟨area, harea, idx, hlt, rfl⟩
    · rintro ⟨area, harea, idx, hlt, rfl⟩
      exact ⟨area, harea, idx, hlt, rfl⟩

/-- No input is the box of one monitor and the object of another. -/
theorem monitorEdges_apart {u : ℕ} {e e' : BoxEdge} (he : e ∈ M.monitorEdges u)
    (he' : e' ∈ M.monitorEdges u) : e.box ≠ e'.obj := by
  obtain ⟨areas, hareas, area, harea, idx, hlt, rfl⟩ := mem_monitorEdges.1 he
  obtain ⟨areas', hareas', area', harea', idx', hlt', rfl⟩ := mem_monitorEdges.1 he'
  obtain rfl := Option.some.inj (hareas.symm.trans hareas')
  obtain ⟨i, hi, rfl⟩ := List.getElem_of_mem harea
  obtain ⟨i', hi', rfl⟩ := List.getElem_of_mem harea'
  have hsorted := List.pairwise_iff_getElem.1 (M.jvms_sorted u areas hareas)
  simp only
  rcases Nat.lt_trichotomy i i' with hless | rfl | hless
  · have hle := hsorted i i' hi hi' hless
    omega
  · omega
  · have hle := hsorted i' i hi' hi hless
    omega

/-- The object of a monitor stands right behind its box. -/
theorem obj_of_mem_monitorEdges {u : ℕ} {e : BoxEdge} (he : e ∈ M.monitorEdges u) :
    e.obj = e.box + 1 := by
  obtain ⟨areas, -, area, -, idx, -, rfl⟩ := mem_monitorEdges.1 he
  rfl

/-- The edges of a node, by what it is. -/
theorem mem_boxEdges {op : LockNodeOp} {u : ℕ} {e : BoxEdge} (he : e ∈ M.boxEdges op u) :
    (op = .fastLock ∧ e = M.fastLockEdge) ∨ (op.isAbstractLock = true ∧ e = lockEdge) ∨
      (op ≠ .fastLock ∧ e ∈ M.monitorEdges u) := by
  cases op with
  | lock => exact .inr ((List.mem_cons.1 he).imp (⟨rfl, ·⟩) (⟨nofun, ·⟩))
  | unlock => exact .inr ((List.mem_cons.1 he).imp (⟨rfl, ·⟩) (⟨nofun, ·⟩))
  | safePoint => exact .inr (.inr ⟨nofun, he⟩)
  | fastLock => exact .inl ⟨rfl, List.mem_singleton.1 he⟩
  | boxLock slot => exact absurd he List.not_mem_nil
  | memBarAcquireLock => exact absurd he List.not_mem_nil
  | memBarReleaseLock => exact absurd he List.not_mem_nil
  | proj con => exact absurd he List.not_mem_nil
  | other => exact absurd he List.not_mem_nil

/-- The monitors of a lock stand behind its own box and object. -/
theorem LockTyped.monitorEdges_behind {g : UserGraph LockNodeOp} (hg : LockTyped M g) {l : ℕ}
    (hl : (g.op l).isAbstractLock = true) {e : BoxEdge} (he : e ∈ M.monitorEdges l) :
    lockEdge.box + 1 < e.box := by
  obtain ⟨areas, hareas, area, harea, idx, -, rfl⟩ := mem_monitorEdges.1 he
  have hge := hg.jvms l areas hl hareas area harea
  simp only [lockEdge]
  omega

/-- No edge has its box where another has its object. -/
theorem LockTyped.edges_apart {g : UserGraph LockNodeOp} (hg : LockTyped M g) {u : ℕ}
    {e e' : BoxEdge} (he : e ∈ M.boxEdges (g.op u) u) (he' : e' ∈ M.boxEdges (g.op u) u) :
    e.box ≠ e'.obj := by
  have hobj : lockEdge.obj < lockEdge.box := Nat.lt_succ_self _
  rcases mem_boxEdges he with ⟨hop, rfl⟩ | ⟨hop, rfl⟩ | ⟨hop, he⟩ <;>
    rcases mem_boxEdges he' with ⟨hop', rfl⟩ | ⟨hop', rfl⟩ | ⟨hop', he'⟩
  · exact M.fastLock_apart
  · rw [hop] at hop'
    cases hop'
  · exact absurd hop hop'
  · rw [hop'] at hop
    cases hop
  · exact Nat.ne_of_gt hobj
  · have hbehind := hg.monitorEdges_behind hop he'
    have hnext := obj_of_mem_monitorEdges he'
    omega
  · exact absurd hop' hop
  · have hbehind := hg.monitorEdges_behind hop' he
    omega
  · exact monitorEdges_apart he he'

/-- The box says which edge it is. -/
theorem LockTyped.edges_unique {g : UserGraph LockNodeOp} (hg : LockTyped M g) {u : ℕ}
    {e e' : BoxEdge} (he : e ∈ M.boxEdges (g.op u) u) (he' : e' ∈ M.boxEdges (g.op u) u)
    (h : e.box = e'.box) : e = e' := by
  rcases mem_boxEdges he with ⟨hop, rfl⟩ | ⟨hop, rfl⟩ | ⟨hop, he⟩ <;>
    rcases mem_boxEdges he' with ⟨hop', rfl⟩ | ⟨hop', rfl⟩ | ⟨hop', he'⟩
  · rfl
  · rw [hop] at hop'
    cases hop'
  · exact absurd hop hop'
  · rw [hop'] at hop
    cases hop
  · rfl
  · have hbehind := hg.monitorEdges_behind hop he'
    omega
  · exact absurd hop' hop
  · have hbehind := hg.monitorEdges_behind hop' he
    omega
  · have hobj : e.obj = e'.obj := by
      rw [obj_of_mem_monitorEdges he, obj_of_mem_monitorEdges he', h]
    cases e
    cases e'
    exact congrArg₂ BoxEdge.mk h hobj

/-! ## Replacing the box of one user

The edges of a user are visited in order and those to the old box for the object get the new one.
Objects stay, and whether an edge is for the object is asked of its object alone, so the order does
not matter. -/

section

variable {oldbox newbox obj u : ℕ}

/-- Edges of a user are replaced. -/
structure MovedEdges (M : LockMethod) (oldbox newbox obj u : ℕ) (es : List BoxEdge)
    (r r' : Bool × UserGraph LockNodeOp) : Prop where
  moved : ∀ e ∈ es, M.isEdgeOf oldbox obj r.2 u e = true → r'.2.input u e.box = some newbox
  kept : ∀ v j, ¬ (v = u ∧ ∃ e ∈ es, e.box = j ∧ M.isEdgeOf oldbox obj r.2 u e = true) →
    r'.2.input v j = r.2.input v j
  op_eq : r'.2.op = r.2.op
  size_eq : r'.2.size = r.2.size
  deleted : OutArray.Deleted u (r.2.outs oldbox) (r'.2.outs oldbox)
  others : ∀ k, k ≠ oldbox → k ≠ newbox → r'.2.outs k = r.2.outs k
  stay : r'.1 = true → r' = r
  less : r'.1 = false → r.1 = false ∨
    ((∃ e ∈ es, M.isEdgeOf oldbox obj r.2 u e = true) ∧
      (r'.2.outs oldbox).length < (r.2.outs oldbox).length)

/-- An edge to the box for the object, seen through casts. -/
theorem isEdgeOf_iff {g : UserGraph LockNodeOp} {e : BoxEdge} :
    M.isEdgeOf oldbox obj g u e = true ↔
      g.input u e.box = some oldbox ∧ M.eqvUncast (g.input u e.obj) obj = true := by
  rw [isEdgeOf, Bool.and_eq_true, decide_eq_true_iff]

/-- The objects that one input stands for differ by casts only. -/
theorem uncast_eq_of_eqvUncast {input : Option ℕ} {obj' : ℕ} (h : M.eqvUncast input obj = true)
    (h' : M.eqvUncast input obj' = true) : M.uncast obj = M.uncast obj' := by
  cases input with
  | none => cases h
  | some n => exact (of_decide_eq_true h).symm.trans (of_decide_eq_true h')

/-- It is the same edge for two nodes of one object. -/
theorem isEdgeOf_congr {obj' : ℕ} {g : UserGraph LockNodeOp} {e : BoxEdge}
    (h : M.uncast obj = M.uncast obj') :
    M.isEdgeOf oldbox obj g u e = M.isEdgeOf oldbox obj' g u e := by
  unfold isEdgeOf eqvUncast
  rw [h]

/-- One edge is visited. -/
theorem movedEdges_replaceBox {e : BoxEdge} (hne : newbox ≠ oldbox)
    (r : Bool × UserGraph LockNodeOp) (hnew : newbox < r.2.size) :
    MovedEdges M oldbox newbox obj u [e] r (M.replaceBox oldbox newbox obj u r e) := by
  by_cases hedge : M.isEdgeOf oldbox obj r.2 u e = true
  · have hin := (isEdgeOf_iff.1 hedge).1
    have hguard : e.box < (r.2.ins u).length ∧ newbox < r.2.size :=
      ⟨lt_length_of_input hin, hnew⟩
    have hmem := (r.2.mem_outs oldbox u).2 (NodeGraph.reads_of_input hin)
    have houts := outs_setReq_old (D := M.out) hguard hin hne.symm
    rw [show M.replaceBox oldbox newbox obj u r e = (false, r.2.setReq M.out u e.box newbox) from
      if_pos hedge]
    refine
      { moved := fun e' he' _ => ?_
        kept := fun v j hnone => ?_
        op_eq := setReq_op
        size_eq := setReq_size
        deleted := ?_
        others := fun k hk hk' => outs_setReq_of_ne ?_ hk'
        stay := nofun
        less := fun _ => .inr ⟨⟨e, List.mem_singleton_self e, hedge⟩, ?_⟩ }
    · obtain rfl := List.mem_singleton.1 he'
      rw [input_setReq hguard, if_pos ⟨rfl, rfl⟩]
    · rw [input_setReq hguard, if_neg ?_]
      rintro ⟨rfl, rfl⟩
      exact hnone ⟨rfl, e, List.mem_singleton_self e, rfl, hedge⟩
    · rw [houts]
      exact M.out.deleted_delOut hmem
    · rw [hin]
      exact fun h => hk (Option.some.inj h).symm
    · rw [houts]
      exact M.out.length_delOut hmem
  · rw [show M.replaceBox oldbox newbox obj u r e = r from if_neg hedge]
    exact
      { moved := fun e' he' h => absurd (List.mem_singleton.1 he' ▸ h) hedge
        kept := fun _ _ _ => rfl
        op_eq := rfl
        size_eq := rfl
        deleted := .refl _ _
        others := fun _ _ _ => rfl
        stay := fun _ => rfl
        less := .inl }

/-- One edge after another. What is an edge to the old box after the first is visited was one
before, since the first can only have gone to the new box and no object has changed. -/
theorem MovedEdges.cons {e : BoxEdge} {es : List BoxEdge} {r r₁ r' : Bool × UserGraph LockNodeOp}
    (h : MovedEdges M oldbox newbox obj u [e] r r₁)
    (hrest : MovedEdges M oldbox newbox obj u es r₁ r')
    (hapart : ∀ e' ∈ es, e.box ≠ e'.obj) (hne : newbox ≠ oldbox) :
    MovedEdges M oldbox newbox obj u (e :: es) r r' := by
  have hself := h.moved e (List.mem_singleton_self e)
  have hkept : ∀ j, ¬ (e.box = j ∧ M.isEdgeOf oldbox obj r.2 u e = true) →
      r₁.2.input u j = r.2.input u j := by
    rintro j hnone
    refine h.kept u j ?_
    rintro ⟨-, e', he', hbox, hedge⟩
    obtain rfl := List.mem_singleton.1 he'
    exact hnone ⟨hbox, hedge⟩
  -- an edge of the rest is the same before and after the first is visited, but for the moved one
  have hedges : ∀ e' ∈ es, M.isEdgeOf oldbox obj r₁.2 u e' = true ↔
      M.isEdgeOf oldbox obj r.2 u e' = true ∧
        ¬ (e.box = e'.box ∧ M.isEdgeOf oldbox obj r.2 u e = true) := by
    intro e' he'
    rw [isEdgeOf_iff, hkept e'.obj fun hobj => hapart e' he' hobj.1, isEdgeOf_iff (e := e')]
    by_cases hmoved : e.box = e'.box ∧ M.isEdgeOf oldbox obj r.2 u e = true
    · rw [← hmoved.1, hself hmoved.2, Option.some_inj]
      exact ⟨fun h => absurd h.1 hne, fun h => absurd ⟨rfl, hmoved.2⟩ h.2⟩
    · rw [hkept e'.box hmoved]
      exact ⟨fun h => ⟨h, hmoved⟩, fun h => h.1⟩
  have hstays : M.isEdgeOf oldbox obj r.2 u e = true → r'.2.input u e.box = some newbox := by
    intro hedge
    rw [hrest.kept u e.box ?_, hself hedge]
    rintro ⟨-, e', he', hbox, hedge'⟩
    exact ((hedges e' he').1 hedge').2 ⟨hbox.symm, hedge⟩
  refine
    { moved := fun e' he' hedge => ?_
      kept := fun v j hnone => ?_
      op_eq := hrest.op_eq.trans h.op_eq
      size_eq := hrest.size_eq.trans h.size_eq
      deleted := h.deleted.trans hrest.deleted
      others := fun k hk hk' => (hrest.others k hk hk').trans (h.others k hk hk')
      stay := fun htrue => ?_
      less := fun hfalse => ?_ }
  · rcases List.mem_cons.1 he' with rfl | he'
    · exact hstays hedge
    · by_cases hmoved : e.box = e'.box ∧ M.isEdgeOf oldbox obj r.2 u e = true
      · rw [← hmoved.1]
        exact hstays hmoved.2
      · exact hrest.moved e' he' ((hedges e' he').2 ⟨hedge, hmoved⟩)
  · rw [hrest.kept v j ?_, h.kept v j ?_]
    · rintro ⟨hv, e', he', hbox, hedge⟩
      obtain rfl := List.mem_singleton.1 he'
      exact hnone ⟨hv, e', List.mem_cons_self, hbox, hedge⟩
    · rintro ⟨hv, e', he', hbox, hedge⟩
      exact hnone ⟨hv, e', List.mem_cons_of_mem _ he', hbox, ((hedges e' he').1 hedge).1⟩
  · have heq := hrest.stay htrue
    rw [heq] at htrue ⊢
    exact h.stay htrue
  · rcases hrest.less hfalse with hfirst | ⟨⟨e', he', hedge⟩, hlt⟩
    · rcases h.less hfirst with hr | ⟨⟨e', he', hedge⟩, hlt⟩
      · exact .inl hr
      · obtain rfl := List.mem_singleton.1 he'
        exact .inr ⟨⟨e', List.mem_cons_self, hedge⟩,
          Nat.lt_of_le_of_lt hrest.deleted.length_le hlt⟩
    · exact .inr ⟨⟨e', List.mem_cons_of_mem _ he', ((hedges e' he').1 hedge).1⟩,
        Nat.lt_of_lt_of_le hlt h.deleted.length_le⟩

/-- The loop over the edges of one user: the edges that went to the old box for this object go to
the new one, and nothing else changes. The induction is on the edges, which must not stand on the
object of one another. -/
theorem movedEdges_foldl {es : List BoxEdge} (hapart : ∀ e ∈ es, ∀ e' ∈ es, e.box ≠ e'.obj)
    (hne : newbox ≠ oldbox) (r : Bool × UserGraph LockNodeOp) (hnew : newbox < r.2.size) :
    MovedEdges M oldbox newbox obj u es r (es.foldl (M.replaceBox oldbox newbox obj u) r) := by
  induction es generalizing r with
  | nil =>
    exact
      { moved := fun e he => absurd he List.not_mem_nil
        kept := fun _ _ _ => rfl
        op_eq := rfl
        size_eq := rfl
        deleted := .refl _ _
        others := fun _ _ _ => rfl
        stay := fun _ => rfl
        less := .inl }
  | cons e es ih =>
    have hfirst : MovedEdges M oldbox newbox obj u [e] r (M.replaceBox oldbox newbox obj u r e) :=
      movedEdges_replaceBox hne r hnew
    have hrest := ih
      (fun e he e' he' => hapart e (List.mem_cons_of_mem _ he) e' (List.mem_cons_of_mem _ he'))
      (M.replaceBox oldbox newbox obj u r e) (by rw [hfirst.size_eq]; exact hnew)
    rw [List.foldl_cons]
    exact hfirst.cons hrest
      (fun e' he' => hapart e List.mem_cons_self e' (List.mem_cons_of_mem _ he')) hne

/-- Objects stay. -/
theorem MovedEdges.input_obj {es : List BoxEdge} {r r' : Bool × UserGraph LockNodeOp}
    (h : MovedEdges M oldbox newbox obj u es r r') (hapart : ∀ e ∈ es, ∀ e' ∈ es, e.box ≠ e'.obj)
    {e : BoxEdge} (he : e ∈ es) : r'.2.input u e.obj = r.2.input u e.obj :=
  h.kept u e.obj fun ⟨_, e', he', hbox, _⟩ => hapart e' he' e he hbox

/-- No edge of the user is left. -/
theorem MovedEdges.not_isEdgeOf {es : List BoxEdge} {r r' : Bool × UserGraph LockNodeOp}
    (h : MovedEdges M oldbox newbox obj u es r r') (hapart : ∀ e ∈ es, ∀ e' ∈ es, e.box ≠ e'.obj)
    (hne : newbox ≠ oldbox) {e : BoxEdge} (he : e ∈ es) :
    M.isEdgeOf oldbox obj r'.2 u e ≠ true := by
  intro hedge
  obtain ⟨hin, heqv⟩ := isEdgeOf_iff.1 hedge
  rw [h.input_obj hapart he] at heqv
  by_cases hsome : ∃ e' ∈ es, e'.box = e.box ∧ M.isEdgeOf oldbox obj r.2 u e' = true
  · obtain ⟨e', he', hbox, hedge'⟩ := hsome
    rw [← hbox, h.moved e' he' hedge', Option.some_inj] at hin
    exact hne hin
  · rw [h.kept u e.box fun h => hsome h.2] at hin
    exact hsome ⟨e, he, rfl, isEdgeOf_iff.2 ⟨hin, heqv⟩⟩

/-- A turn of the loop replaces the edges of the user. -/
theorem replaceBoxOf_eq {s : LockMarks} (hfast : s.graph.op u = .fastLock →
      s.graph.input u M.fastLockEdge.box = some oldbox) :
    M.replaceBoxOf oldbox newbox obj u s =
      let r := (M.boxEdges (s.graph.op u) u).foldl (M.replaceBox oldbox newbox obj u)
        (true, s.graph)
      some (r.1, { s with
        graph := r.2
        kind :=
          if (s.graph.op u).isAbstractLock && M.isEdgeOf oldbox obj s.graph u lockEdge then
            Function.update s.kind u .nonEscObj
          else s.kind }) := by
  have hlock : (M.replaceBox oldbox newbox obj u (true, s.graph) lockEdge) =
      if M.isEdgeOf oldbox obj s.graph u lockEdge = true then
        (false, s.graph.setReq M.out u lockEdge.box newbox) else (true, s.graph) := rfl
  cases hop : s.graph.op u with
  | lock =>
    simp [replaceBoxOf, hop, boxEdges, hlock, LockNodeOp.isAbstractLock, LockNodeOp.isSafePoint]
  | unlock =>
    simp [replaceBoxOf, hop, boxEdges, hlock, LockNodeOp.isAbstractLock, LockNodeOp.isSafePoint]
  | safePoint =>
    simp [replaceBoxOf, hop, boxEdges, LockNodeOp.isAbstractLock, LockNodeOp.isSafePoint]
  | fastLock =>
    have hin := hfast hop
    simp [replaceBoxOf, hop, boxEdges, LockNodeOp.isAbstractLock, LockNodeOp.isSafePoint,
      replaceBox, isEdgeOf, hin]
  | boxLock slot =>
    simp [replaceBoxOf, hop, boxEdges, LockNodeOp.isAbstractLock, LockNodeOp.isSafePoint]
  | memBarAcquireLock =>
    simp [replaceBoxOf, hop, boxEdges, LockNodeOp.isAbstractLock, LockNodeOp.isSafePoint]
  | memBarReleaseLock =>
    simp [replaceBoxOf, hop, boxEdges, LockNodeOp.isAbstractLock, LockNodeOp.isSafePoint]
  | proj con =>
    simp [replaceBoxOf, hop, boxEdges, LockNodeOp.isAbstractLock, LockNodeOp.isSafePoint]
  | other =>
    simp [replaceBoxOf, hop, boxEdges, LockNodeOp.isAbstractLock, LockNodeOp.isSafePoint]

end

/-! ## Replacing the box of all users

The loop runs over the array of users while users leave it. Where one has lost its edges another
takes its place in the array, and the loop looks at the same index again; so no user is passed over,
and at the end each has been visited. -/

section

variable {oldbox newbox obj : ℕ}

/-- What the loop has done since a state. -/
structure ReplacedSoFar (M : LockMethod) (oldbox newbox obj : ℕ) (s₀ s : LockMarks) : Prop where
  op_eq : s.graph.op = s₀.graph.op
  size_eq : s.graph.size = s₀.graph.size
  boxEliminated_eq : s.boxEliminated = s₀.boxEliminated
  input : ∀ v j, s.graph.input v j = s₀.graph.input v j ∨ (s.graph.input v j = some newbox ∧
    ∃ e ∈ M.boxEdges (s₀.graph.op v) v, e.box = j ∧ M.isEdgeOf oldbox obj s₀.graph v e = true)
  kind : ∀ l, s.kind l = s₀.kind l ∨ (s.kind l = .nonEscObj ∧
    (s₀.graph.op l).isAbstractLock = true ∧ M.isEdgeOf oldbox obj s₀.graph l lockEdge = true)
  kind_moved : ∀ l, (s₀.graph.op l).isAbstractLock = true →
    M.isEdgeOf oldbox obj s₀.graph l lockEdge = true →
      s.graph.input l lockEdge.box = some newbox → s.kind l = .nonEscObj
  others : ∀ k, k ≠ oldbox → k ≠ newbox → s.graph.outs k = s₀.graph.outs k

/-- No edge of the user is left. -/
def UserDone (M : LockMethod) (oldbox obj : ℕ) (s : LockMarks) (v : ℕ) : Prop :=
  ∀ e ∈ M.boxEdges (s.graph.op v) v, M.isEdgeOf oldbox obj s.graph v e ≠ true

/-- The box of a lock is one of its edges. -/
theorem lockEdge_mem {op : LockNodeOp} (h : op.isAbstractLock = true) (u : ℕ) :
    lockEdge ∈ M.boxEdges op u := by
  cases op with
  | lock => exact List.mem_cons_self
  | unlock => exact List.mem_cons_self
  | boxLock slot => cases h
  | fastLock => cases h
  | safePoint => cases h
  | memBarAcquireLock => cases h
  | memBarReleaseLock => cases h
  | proj con => cases h
  | other => cases h

variable {s₀ s : LockMarks}

/-- The objects stay where they are. -/
theorem ReplacedSoFar.input_obj (h : ReplacedSoFar M oldbox newbox obj s₀ s)
    (ht : LockTyped M s₀.graph) {v : ℕ} {e : BoxEdge} (he : e ∈ M.boxEdges (s₀.graph.op v) v) :
    s.graph.input v e.obj = s₀.graph.input v e.obj := by
  rcases h.input v e.obj with heq | ⟨-, e', he', hbox, -⟩
  · exact heq
  · exact absurd hbox (ht.edges_apart he' he)

/-- An edge that is one was one. -/
theorem ReplacedSoFar.isEdgeOf (h : ReplacedSoFar M oldbox newbox obj s₀ s)
    (ht : LockTyped M s₀.graph) (hne : newbox ≠ oldbox) {v : ℕ} {e : BoxEdge}
    (he : e ∈ M.boxEdges (s₀.graph.op v) v) (hedge : M.isEdgeOf oldbox obj s.graph v e = true) :
    M.isEdgeOf oldbox obj s₀.graph v e = true := by
  obtain ⟨hin, heqv⟩ := isEdgeOf_iff.1 hedge
  rw [h.input_obj ht he] at heqv
  rcases h.input v e.box with heq | ⟨hnew, -⟩
  · exact isEdgeOf_iff.2 ⟨heq ▸ hin, heqv⟩
  · rw [hnew, Option.some_inj] at hin
    exact absurd hin hne

/-- No two edges of a node stand on the objects of one another, at any time. -/
theorem ReplacedSoFar.apart (h : ReplacedSoFar M oldbox newbox obj s₀ s)
    (ht : LockTyped M s₀.graph) {u : ℕ} :
    ∀ e ∈ M.boxEdges (s.graph.op u) u, ∀ e' ∈ M.boxEdges (s.graph.op u) u, e.box ≠ e'.obj := by
  rw [h.op_eq]
  exact fun e he e' he' => ht.edges_apart he he'

/-- A `FastLock` that still uses the old box has it as its box. -/
theorem ReplacedSoFar.fastLock (h : ReplacedSoFar M oldbox newbox obj s₀ s)
    (ht : LockTyped M s₀.graph) (hne : newbox ≠ oldbox)
    (hold : (s₀.graph.op oldbox).isBoxLock = true) {u : ℕ} (hu : u ∈ s.graph.outs oldbox)
    (hop : s.graph.op u = .fastLock) : s.graph.input u M.fastLockEdge.box = some oldbox := by
  obtain ⟨i, hi⟩ := List.getElem?_of_mem ((s.graph.mem_outs oldbox u).1 hu)
  have hin : s.graph.input u i = some oldbox := by rw [NodeGraph.input, hi, Option.join_some]
  have hin₀ : s₀.graph.input u i = some oldbox := by
    rcases h.input u i with heq | ⟨hnew', -⟩
    · rwa [← heq]
    · rw [hnew', Option.some_inj] at hin
      exact absurd hin hne
  rw [h.op_eq] at hop
  rwa [← ht.fastLock u i oldbox hop hin₀ hold]

/-- The edges of one more user are replaced, and it is marked if it is a lock with such an edge. -/
theorem ReplacedSoFar.moved (h : ReplacedSoFar M oldbox newbox obj s₀ s)
    (ht : LockTyped M s₀.graph) (hne : newbox ≠ oldbox) {u : ℕ} {r : Bool × UserGraph LockNodeOp}
    (hmoves : MovedEdges M oldbox newbox obj u (M.boxEdges (s.graph.op u) u) (true, s.graph) r) :
    ReplacedSoFar M oldbox newbox obj s₀
      { s with
        graph := r.2
        kind := if (s.graph.op u).isAbstractLock && M.isEdgeOf oldbox obj s.graph u lockEdge then
          Function.update s.kind u .nonEscObj else s.kind } where
  op_eq := hmoves.op_eq.trans h.op_eq
  size_eq := hmoves.size_eq.trans h.size_eq
  boxEliminated_eq := h.boxEliminated_eq
  input v j := by
    by_cases hsome : v = u ∧ ∃ e ∈ M.boxEdges (s.graph.op u) u, e.box = j ∧
        M.isEdgeOf oldbox obj s.graph u e = true
    · obtain ⟨rfl, e, he, rfl, hedge⟩ := hsome
      rw [h.op_eq] at he
      refine .inr ⟨hmoves.moved e (by rwa [h.op_eq]) hedge, e, he, rfl, h.isEdgeOf ht hne he hedge⟩
    · simp only [hmoves.kept v j hsome]
      exact h.input v j
  kind l := by
    simp only
    split
    · next hcond =>
      obtain ⟨hop, hedge⟩ := Bool.and_eq_true_iff.1 hcond
      by_cases hl : l = u
      · subst hl
        rw [h.op_eq] at hop
        exact .inr ⟨Function.update_self .., hop, h.isEdgeOf ht hne (lockEdge_mem hop l) hedge⟩
      · rw [Function.update_of_ne hl]
        exact h.kind l
    · exact h.kind l
  kind_moved l hop hedge hin := by
    rcases h.input l lockEdge.box with heq | ⟨hmoved, -⟩
    · -- it is this turn that replaces the box
      obtain ⟨hin₀, heqv⟩ := isEdgeOf_iff.1 hedge
      have hobj := h.input_obj ht (lockEdge_mem hop l)
      have hedge' : M.isEdgeOf oldbox obj s.graph l lockEdge = true :=
        isEdgeOf_iff.2 ⟨heq.trans hin₀, by rw [hobj]; exact heqv⟩
      have hl : l = u := by
        by_contra hlu
        have hkept := hmoves.kept l lockEdge.box fun h => hlu h.1
        rw [hin, heq, hin₀, Option.some_inj] at hkept
        exact hne hkept
      subst hl
      rw [h.op_eq, hop, hedge']
      exact Function.update_self ..
    · have hkind := h.kind_moved l hop hedge hmoved
      simp only
      split
      · by_cases hlu : l = u
        · rw [hlu, Function.update_self]
        · rw [Function.update_of_ne hlu, hkind]
      · exact hkind
  others k hk hk' := (hmoves.others k hk hk').trans (h.others k hk hk')

/-- One turn of the loop over the users of the old box. A user whose edges are moved leaves the
array, and the loop stays at its index. -/
theorem ReplacedSoFar.visit (h : ReplacedSoFar M oldbox newbox obj s₀ s)
    (ht : LockTyped M s₀.graph) (hne : newbox ≠ oldbox) (hnew : newbox < s₀.graph.size)
    (hold : (s₀.graph.op oldbox).isBoxLock = true) {u : ℕ} (hu : u ∈ s.graph.outs oldbox) :
    ∃ next s', M.replaceBoxOf oldbox newbox obj u s = some (next, s') ∧
      VisitOk (fun s => s.graph.outs oldbox) (ReplacedSoFar M oldbox newbox obj s₀)
        (UserDone M oldbox obj) u s next s' := by
  have hapart := h.apart ht (u := u)
  have hmoves := @movedEdges_foldl M oldbox newbox obj u _ hapart hne (true, s.graph)
    (by rw [h.size_eq]; exact hnew)
  rw [replaceBoxOf_eq (h.fastLock ht hne hold hu)]
  generalize (M.boxEdges (s.graph.op u) u).foldl (M.replaceBox oldbox newbox obj u)
    (true, s.graph) = r at hmoves
  refine ⟨_, _, rfl, ⟨h.moved ht hne hmoves, ?_, fun v hv => ?_, fun hnext => ?_, fun hnext => ?_⟩⟩
  · intro e he
    simp only [hmoves.op_eq] at he
    exact hmoves.not_isEdgeOf hapart hne he
  · intro e he
    simp only [hmoves.op_eq] at he
    by_cases hvu : v = u
    · subst hvu
      exact hmoves.not_isEdgeOf hapart hne he
    · intro hedge
      refine hv e he (isEdgeOf_iff.2 ?_)
      have hedge := isEdgeOf_iff.1 hedge
      simp only [hmoves.kept v _ fun h => hvu h.1] at hedge
      exact hedge
  · simp only [hmoves.stay hnext]
  · rcases hmoves.less hnext with htrue | ⟨⟨e, he, hedge⟩, hless⟩
    · cases htrue
    · exact ⟨fun hdone => hdone e he hedge, hless, hmoves.deleted⟩

/-- The loop ends, with every edge replaced. -/
theorem replaceBox_spec (ht : LockTyped M s₀.graph) (hne : newbox ≠ oldbox)
    (hnew : newbox < s₀.graph.size) (hold : (s₀.graph.op oldbox).isBoxLock = true) :
    ∃ s, forAllUses (fun s => s.graph.outs oldbox) (M.replaceBoxOf oldbox newbox obj) s₀ = some s ∧
      ReplacedSoFar M oldbox newbox obj s₀ s ∧
      ∀ v, ∀ e ∈ M.boxEdges (s₀.graph.op v) v, M.isEdgeOf oldbox obj s₀.graph v e = true →
        s.graph.input v e.box = some newbox := by
  have hstart : ReplacedSoFar M oldbox newbox obj s₀ s₀ :=
    { op_eq := rfl
      size_eq := rfl
      boxEliminated_eq := rfl
      input := fun _ _ => .inl rfl
      kind := fun _ => .inl rfl
      kind_moved := fun l _ hedge hin => by
        rw [(isEdgeOf_iff.1 hedge).1, Option.some_inj] at hin
        exact absurd hin.symm hne
      others := fun _ _ _ => rfl }
  obtain ⟨s, hs, hso, hall, -⟩ := @forAllUses_spec _ _ _ (ReplacedSoFar M oldbox newbox obj s₀)
    (UserDone M oldbox obj) (fun s hs u hu => hs.visit ht hne hnew hold hu) _ hstart
  refine ⟨s, hs, hso, fun v e he hedge => ?_⟩
  obtain ⟨hin, heqv⟩ := isEdgeOf_iff.1 hedge
  rcases hso.input v e.box with heq | ⟨hmoved, -⟩
  · -- the user would still be among those of the old box
    rw [hin] at heq
    have hmem : v ∈ s.graph.outs oldbox :=
      (s.graph.mem_outs oldbox v).2 (NodeGraph.reads_of_input heq)
    refine absurd (isEdgeOf_iff.2 ⟨heq, ?_⟩) (hall v hmem e (by rwa [hso.op_eq]))
    rwa [hso.input_obj ht he]
  · exact hmoved

end

/-! ## The changes of the marks

`mark_eliminated_box` does one of two things. If all users of the box are for one object, or nested
locks are eliminated as well, the box is marked with its locks; else a copy of the box is marked and
takes the users for the object. -/

/-- A box is marked with its locks. -/
structure BoxMarked (kind : LockKind) (box : ℕ) (s s' : LockMarks) : Prop where
  graph_eq : s'.graph = s.graph
  boxEliminated_eq : s'.boxEliminated = Function.update s.boxEliminated box true
  kind_box : ∀ l, hasBox box s l = true → s'.kind l = kind
  kind_other : ∀ l, hasBox box s l ≠ true → s'.kind l = s.kind l

/-- A new box takes the users of a box that are for an object. -/
structure BoxReplaced (M : LockMethod) (oldbox obj : ℕ) (s s' : LockMarks) : Prop where
  size_eq : s'.graph.size = s.graph.size + 1
  op_eq : ∀ v, v ≠ s.graph.size → s'.graph.op v = s.graph.op v
  op_new : s'.graph.op s.graph.size = s.graph.op oldbox
  ins_new : ∀ i, s'.graph.input s.graph.size i = s.graph.input oldbox i
  moved : ∀ v, v ≠ s.graph.size → ∀ e ∈ M.boxEdges (s.graph.op v) v,
    M.isEdgeOf oldbox obj s.graph v e = true → s'.graph.input v e.box = some s.graph.size
  kept : ∀ v, v ≠ s.graph.size → ∀ j, s'.graph.input v j = s.graph.input v j ∨
    (s'.graph.input v j = some s.graph.size ∧ ∃ e ∈ M.boxEdges (s.graph.op v) v, e.box = j ∧
      M.isEdgeOf oldbox obj s.graph v e = true)
  boxEliminated_eq : s'.boxEliminated = Function.update s.boxEliminated s.graph.size true
  kind_moved : ∀ l, l ≠ s.graph.size → (s.graph.op l).isAbstractLock = true →
    M.isEdgeOf oldbox obj s.graph l lockEdge = true → s'.kind l = .nonEscObj
  kind_kept : ∀ l, l ≠ s.graph.size → s'.kind l = s.kind l ∨
    ((s.graph.op l).isAbstractLock = true ∧ M.isEdgeOf oldbox obj s.graph l lockEdge = true)

section

variable {s : LockMarks}

/-- The locks of a box. -/
theorem hasBox_iff {box l : ℕ} : hasBox box s l = true ↔
    (s.graph.op l).isAbstractLock = true ∧ s.graph.input l lockEdge.box = some box := by
  rw [hasBox, Bool.and_eq_true, decide_eq_true_iff]

/-- The loop that marks the users of a box ends, and marks its locks. -/
theorem markUser_spec {kind : LockKind} {p : LockMarks → ℕ → Bool} {box : ℕ}
    (hbox : ∀ s u, p s u = true → hasBox box s u = true)
    (hkind : ∀ s u, p s u ≠ true → hasBox box s u = true → s.kind u = kind) :
    ∃ s', forAllUses (fun s => s.graph.outs box) (markUser kind p)
        { s with boxEliminated := Function.update s.boxEliminated box true } = some s' ∧
      BoxMarked kind box s s' := by
  let I : LockMarks → Prop := fun s' => s'.graph = s.graph ∧
    s'.boxEliminated = Function.update s.boxEliminated box true ∧
    ∀ l, s'.kind l = s.kind l ∨ (hasBox box s l = true ∧ s'.kind l = kind)
  let Done : LockMarks → ℕ → Prop := fun s' v => hasBox box s' v = true → s'.kind v = kind
  have hgraph : ∀ s' : LockMarks, s'.graph = s.graph → ∀ l, hasBox box s' l = hasBox box s l :=
    fun s' h l => by rw [hasBox, hasBox, h]
  have hvisit : ∀ s', I s' → ∀ u ∈ s'.graph.outs box, ∃ next s'', markUser kind p u s' =
      some (next, s'') ∧ VisitOk (fun s => s.graph.outs box) I Done u s' next s'' := by
    rintro s' ⟨hg, he, hk⟩ u hu
    refine ⟨_, _, rfl, ?_⟩
    by_cases hp : p s' u = true
    · rw [if_pos hp]
      refine ⟨⟨hg, he, fun l => ?_⟩, fun _ => Function.update_self .., fun v hv hhas => ?_,
        fun _ => rfl, nofun⟩
      · by_cases hl : l = u
        · subst hl
          refine .inr ⟨?_, Function.update_self ..⟩
          rw [← hgraph s' hg]
          exact hbox s' l hp
        · simp only [Function.update_of_ne hl]
          exact hk l
      · by_cases hvu : v = u
        · rw [hvu]
          exact Function.update_self ..
        · simp only [Function.update_of_ne hvu]
          exact hv hhas
    · rw [if_neg hp]
      exact ⟨⟨hg, he, hk⟩, hkind s' u hp, fun _ hv => hv, fun _ => rfl, nofun⟩
  obtain ⟨s', hs', ⟨hg, he, hk⟩, hall, -⟩ := @forAllUses_spec _ _ _ I Done hvisit
    { s with boxEliminated := Function.update s.boxEliminated box true }
    ⟨rfl, rfl, fun l => .inl rfl⟩
  refine ⟨s', hs', hg, he, fun l hl => ?_, fun l hl => ?_⟩
  · have hmem : l ∈ s'.graph.outs box := by
      rw [hg]
      exact (s.graph.mem_outs box l).2 (NodeGraph.reads_of_input (hasBox_iff.1 hl).2)
    exact hall l hmem (hgraph s' hg l ▸ hl)
  · rcases hk l with heq | ⟨hhas, -⟩
    · exact heq
    · exact absurd hhas hl

/-- A copy of a box leaves the edges of locks at boxes. -/
theorem LockTyped.clone {g : UserGraph LockNodeOp} (hg : LockTyped M g) {b : ℕ}
    (hb : (g.op b).isBoxLock = true) : LockTyped M (g.clone M.out b) := by
  have hlock : ∀ l, ((g.clone M.out b).op l).isAbstractLock = true → l ≠ g.size := by
    rintro l hl rfl
    rw [clone_op_self] at hl
    cases hop : g.op b <;> rw [hop] at hl hb <;> cases hl <;> cases hb
  refine ⟨fun l hl => ?_, fun l hl => ?_, fun u i n hop hin hn => ?_, fun c i n l hc hin hl => ?_,
    fun l areas hl => ?_⟩
  · have hne := hlock l hl
    rw [clone_op_of_ne hne] at hl
    obtain ⟨c, hc, hop⟩ := hg.box l hl
    have hcne : c ≠ g.size := Nat.ne_of_lt (lt_size_of_input hc)
    exact ⟨c, by rw [clone_input_of_ne hne, hc], by rw [clone_op_of_ne hcne, hop]⟩
  · have hne := hlock l hl
    rw [clone_op_of_ne hne] at hl
    obtain ⟨c, hc, hop⟩ := hg.obj l hl
    have hcne : c ≠ g.size := Nat.ne_of_lt (lt_size_of_input hc)
    exact ⟨c, by rw [clone_input_of_ne hne, hc], by rw [clone_op_of_ne hcne, hop]⟩
  · have hne : u ≠ g.size := by
      rintro rfl
      rw [clone_op_self] at hop
      rw [hop] at hb
      cases hb
    rw [clone_op_of_ne hne] at hop
    rw [clone_input_of_ne hne] at hin
    have hnne : n ≠ g.size := Nat.ne_of_lt (lt_size_of_input hin)
    rw [clone_op_of_ne hnne] at hn
    exact hg.fastLock u i n hop hin hn
  · have hne := hlock l hl
    rw [clone_op_of_ne hne] at hl
    rw [clone_input_of_ne hne]
    by_cases hcs : c = g.size
    · rw [hcs, clone_input_self] at hin
      exact hg.boxIns b i n l hb hin hl
    · rw [clone_op_of_ne hcs] at hc
      rw [clone_input_of_ne hcs] at hin
      exact hg.boxIns c i n l hc hin hl
  · rw [clone_op_of_ne (hlock l hl)] at hl
    exact hg.jvms l areas hl

/-- The box of a lock is a box. -/
theorem LockTyped.isBoxLock {g : UserGraph LockNodeOp} (hg : LockTyped M g) {l b : ℕ}
    (hl : (g.op l).isAbstractLock = true) (hb : g.input l lockEdge.box = some b) :
    (g.op b).isBoxLock = true := by
  obtain ⟨b', hb', hop⟩ := hg.box l hl
  obtain rfl := Option.some.inj (hb.symm.trans hb')
  exact hop

/-- A copy of a box is made and takes the users for the object. The copy is new, so nothing else
changes with it. -/
theorem replaceBoxes_spec {oldbox obj : ℕ} (ht : LockTyped M s.graph)
    (hold : (s.graph.op oldbox).isBoxLock = true) (hlt : oldbox < s.graph.size) :
    ∃ s', forAllUses (fun s => s.graph.outs oldbox) (M.replaceBoxOf oldbox s.graph.size obj)
        { s with
          graph := s.graph.clone M.out oldbox
          boxEliminated := Function.update s.boxEliminated s.graph.size true } = some s' ∧
      BoxReplaced M oldbox obj s s' ∧
      ∀ k, (s.graph.op k).isBoxLock = false → k ≠ s.graph.size →
        (∀ i, s.graph.input oldbox i ≠ some k) → s'.graph.outs k = s.graph.outs k := by
  obtain ⟨s', hs', hso, hall⟩ := @replaceBox_spec M oldbox s.graph.size obj
    { s with
      graph := s.graph.clone M.out oldbox
      boxEliminated := Function.update s.boxEliminated s.graph.size true }
    (ht.clone hold) (Nat.ne_of_gt hlt) (Nat.lt_succ_self _)
    (by rw [clone_op_of_ne (Nat.ne_of_lt hlt), hold])
  -- the nodes that were there have their edges, and the copy has none
  have hedgeEq : ∀ v, v ≠ s.graph.size → ∀ e,
      M.isEdgeOf oldbox obj (s.graph.clone M.out oldbox) v e =
        M.isEdgeOf oldbox obj s.graph v e := by
    intro v hv e
    rw [isEdgeOf, isEdgeOf, clone_input_of_ne hv, clone_input_of_ne hv]
  have hnoEdges :
      M.boxEdges ((s.graph.clone M.out oldbox).op s.graph.size) s.graph.size = [] := by
    rw [clone_op_self]
    exact boxEdges_of_isBoxLock hold _
  have hmoved : ∀ v, v ≠ s.graph.size → ∀ e ∈ M.boxEdges (s.graph.op v) v,
      M.isEdgeOf oldbox obj s.graph v e = true →
        s'.graph.input v e.box = some s.graph.size := by
    intro v hv e he hedge
    refine hall v e ?_ ?_
    · simp only [clone_op_of_ne hv]
      exact he
    · simp only [hedgeEq v hv]
      exact hedge
  refine ⟨s', hs', ⟨hso.size_eq, fun v hv => ?_, ?_, fun i => ?_, hmoved, fun v hv j => ?_,
    hso.boxEliminated_eq, fun l hl hop hedge => ?_, fun l hl => ?_⟩, fun k hk hkne hkin => ?_⟩
  · rw [hso.op_eq, clone_op_of_ne hv]
  · rw [hso.op_eq, clone_op_self]
  · rcases hso.input s.graph.size i with heq | ⟨-, e, he, -⟩
    · rw [heq, clone_input_self]
    · rw [hnoEdges] at he
      exact absurd he List.not_mem_nil
  · have hin := hso.input v j
    simp only [clone_input_of_ne hv, clone_op_of_ne hv, hedgeEq v hv] at hin
    exact hin
  · refine hso.kind_moved l ?_ ?_ (hmoved l hl lockEdge (lockEdge_mem hop l) hedge)
    · simp only [clone_op_of_ne hl]
      exact hop
    · simp only [hedgeEq l hl]
      exact hedge
  · have hkind := hso.kind l
    simp only [clone_op_of_ne hl, hedgeEq l hl] at hkind
    exact hkind.imp_right fun h => h.2
  · have hkold : k ≠ oldbox := by
      rintro rfl
      rw [hold] at hk
      cases hk
    rw [hso.others k hkold hkne]
    exact clone_outs hkin

/-- `mark_eliminated_box` of the box and the object of a lock makes a change, or the box is marked
already; which change it is depends on the region of the box. The users of objects stay. -/
theorem markEliminatedBox_spec {oldbox obj l : ℕ} (ht : LockTyped M s.graph)
    (hl : (s.graph.op l).isAbstractLock = true)
    (hedge : M.isEdgeOf oldbox obj s.graph l lockEdge = true) :
    ∃ s', M.markEliminatedBox oldbox obj s = some s' ∧
      (s' = s ∧ s.boxEliminated oldbox = true ∨ s.boxEliminated oldbox = false ∧
        ((M.eliminateNestedLocks || (M.isSimpleLockRegion s.graph oldbox obj).1) = true ∧
            BoxMarked .nonEscObj oldbox s s' ∨
          (M.eliminateNestedLocks || (M.isSimpleLockRegion s.graph oldbox obj).1) ≠ true ∧
            BoxReplaced M oldbox obj s s')) ∧
      ∀ k, (s.graph.op k).isBoxLock = false → k ≠ s.graph.size →
        (∀ i, s.graph.input oldbox i ≠ some k) → s'.graph.outs k = s.graph.outs k := by
  have hin := (isEdgeOf_iff.1 hedge).1
  have hold := ht.isBoxLock hl hin
  rw [markEliminatedBox]
  split
  · next helim => exact ⟨s, rfl, .inl ⟨rfl, helim⟩, fun k _ _ _ => rfl⟩
  · next helim =>
    have helim : s.boxEliminated oldbox = false := Bool.eq_false_iff.2 helim
    split
    · next hsimple =>
      obtain ⟨s', hs', hmarked⟩ := @markUser_spec s .nonEscObj
        (fun s u => decide (s.kind u ≠ .nonEscObj) && hasBox oldbox s u) oldbox
        (fun s u h => (Bool.and_eq_true_iff.1 h).2) fun s u h hhas => by
          by_contra hkind
          exact h (Bool.and_eq_true_iff.2 ⟨decide_eq_true hkind, hhas⟩)
      exact ⟨s', hs', .inr ⟨helim, .inl ⟨hsimple, hmarked⟩⟩,
        fun k _ _ _ => by rw [hmarked.graph_eq]⟩
    · next hsimple =>
      obtain ⟨s', hs', hreplaced, houts⟩ := @replaceBoxes_spec M s oldbox obj ht hold
        (lt_size_of_input hin)
      exact ⟨s', hs', .inr ⟨helim, .inr ⟨hsimple, hreplaced⟩⟩, houts⟩

end

end LockMethod

end StackAllocation
