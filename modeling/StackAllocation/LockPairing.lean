import StackAllocation.LockBoxUsers
import Mathlib.Logic.Relation

/-!
# Locks are eliminated in pairs

Through the changes of the marks a lock that is marked has a marked box, and a marked box has only
marked locks (`MarkedFrom`). Every lock that was marked by escape analysis is reached, so in the end
each box has all its locks eliminated, or none but those of lock coarsening.
-/

namespace StackAllocation

namespace LockMethod

open UserGraph Relation

variable {M : LockMethod}

/-! ## Changes

Two kinds of change are enough to describe the marking. The proofs about all of them go through
these, and not through the loops that make them. -/

/-- One change. A new box is made for a lock of the old one. -/
inductive MarkStep (M : LockMethod) (s s' : LockMarks) : Prop
  | marked (kind : LockKind) (box : ℕ) (hkind : kind = .nonEscObj ∨ kind = .nested)
      (h : BoxMarked kind box s s')
  | replaced (oldbox obj l : ℕ) (hold : s.boxEliminated oldbox = false)
      (hl : (s.graph.op l).isAbstractLock = true)
      (hedge : M.isEdgeOf oldbox obj s.graph l lockEdge = true)
      (h : BoxReplaced M oldbox obj s s')

/-- The box of the lock is marked. -/
def Reached (s : LockMarks) (l : ℕ) : Prop :=
  ∀ b, s.graph.input l lockEdge.box = some b → s.boxEliminated b = true

section

variable {s s' : LockMarks}

/-- A lock is a node of the graph. -/
theorem lt_size_of_isAbstractLock (ht : LockTyped M s.graph) {l : ℕ}
    (hl : (s.graph.op l).isAbstractLock = true) : l < s.graph.size := by
  obtain ⟨b, hb, -⟩ := ht.box l hl
  exact (NodeGraph.reads_of_input hb).lt_size

/-- A lock is no box. -/
theorem not_isBoxLock {op : LockNodeOp} (h : op.isAbstractLock = true) : op.isBoxLock = false := by
  cases op with
  | boxLock slot => cases h
  | lock => rfl
  | unlock => rfl
  | fastLock => rfl
  | safePoint => rfl
  | memBarAcquireLock => rfl
  | memBarReleaseLock => rfl
  | proj con => rfl
  | other => rfl

namespace BoxReplaced

variable {oldbox obj : ℕ} (h : BoxReplaced M oldbox obj s s') (ht : LockTyped M s.graph)
include h ht

/-- An edge is the same, or is moved to the new box. -/
theorem edge {v : ℕ} (hv : v ≠ s.graph.size) {e : BoxEdge} (he : e ∈ M.boxEdges (s.graph.op v) v) :
    (M.isEdgeOf oldbox obj s.graph v e = true ∧ s'.graph.input v e.box = some s.graph.size) ∨
      (M.isEdgeOf oldbox obj s.graph v e ≠ true ∧
        s'.graph.input v e.box = s.graph.input v e.box) := by
  by_cases hedge : M.isEdgeOf oldbox obj s.graph v e = true
  · exact .inl ⟨hedge, h.moved v hv e he hedge⟩
  · refine .inr ⟨hedge, ?_⟩
    rcases h.kept v hv e.box with heq | ⟨-, e', he', hbox, hedge'⟩
    · exact heq
    · rw [ht.edges_unique he' he hbox] at hedge'
      exact absurd hedge' hedge

/-- The copy of a box moves no object. -/
theorem input_obj {v : ℕ} (hv : v ≠ s.graph.size) {e : BoxEdge}
    (he : e ∈ M.boxEdges (s.graph.op v) v) :
    s'.graph.input v e.obj = s.graph.input v e.obj := by
  rcases h.kept v hv e.obj with heq | ⟨-, e', he', hbox, -⟩
  · exact heq
  · exact absurd hbox (ht.edges_apart he' he)

/-- A lock was one. -/
theorem isAbstractLock {oldLock : ℕ} (hl : (s.graph.op oldLock).isAbstractLock = true)
    (hedge : M.isEdgeOf oldbox obj s.graph oldLock lockEdge = true) {l : ℕ}
    (hop : (s'.graph.op l).isAbstractLock = true) :
    l ≠ s.graph.size ∧ (s.graph.op l).isAbstractLock = true := by
  have hold := ht.isBoxLock hl (isEdgeOf_iff.1 hedge).1
  have hne : l ≠ s.graph.size := by
    rintro rfl
    rw [h.op_new] at hop
    rw [not_isBoxLock hop] at hold
    cases hold
  rw [h.op_eq l hne] at hop
  exact ⟨hne, hop⟩

/-- The edges of locks still go to boxes when one was replaced by its copy. -/
theorem typed {oldLock : ℕ} (hl : (s.graph.op oldLock).isAbstractLock = true)
    (hedge : M.isEdgeOf oldbox obj s.graph oldLock lockEdge = true) : LockTyped M s'.graph := by
  have hold := ht.isBoxLock hl (isEdgeOf_iff.1 hedge).1
  have hopEq : ∀ {v i n}, s.graph.input v i = some n → s'.graph.op n = s.graph.op n :=
    fun hin => h.op_eq _ (Nat.ne_of_lt (lt_size_of_input hin))
  refine ⟨fun l hop => ?_, fun l hop => ?_, fun u i n hop hin hn => ?_,
    fun c i n l hc hin hop => ?_,
    fun l areas hop => ?_⟩
  · obtain ⟨hne, hop⟩ := h.isAbstractLock ht hl hedge hop
    rcases h.edge ht hne (lockEdge_mem hop l) with ⟨-, hmoved⟩ | ⟨-, hkept⟩
    · exact ⟨_, hmoved, by rw [h.op_new, hold]⟩
    · obtain ⟨b, hb, hbox⟩ := ht.box l hop
      exact ⟨b, hkept.trans hb, by rw [hopEq hb, hbox]⟩
  · obtain ⟨hne, hop⟩ := h.isAbstractLock ht hl hedge hop
    obtain ⟨n, hn, hbox⟩ := ht.obj l hop
    exact ⟨n, (h.input_obj ht hne (lockEdge_mem hop l)).trans hn, by rw [hopEq hn, hbox]⟩
  · have hne : u ≠ s.graph.size := by
      rintro rfl
      rw [h.op_new] at hop
      rw [hop] at hold
      cases hold
    rw [h.op_eq u hne] at hop
    rcases h.kept u hne i with heq | ⟨-, e, he, rfl, -⟩
    · rw [heq] at hin
      rw [hopEq hin] at hn
      exact ht.fastLock u i n hop hin hn
    · rw [hop] at he
      rw [List.mem_singleton.1 he]
  · obtain ⟨hne, hop⟩ := h.isAbstractLock ht hl hedge hop
    rw [h.input_obj ht hne (lockEdge_mem hop l)]
    by_cases hcs : c = s.graph.size
    · rw [hcs, h.ins_new] at hin
      exact ht.boxIns oldbox i n l hold hin hop
    · rw [h.op_eq c hcs] at hc
      rcases h.kept c hcs i with heq | ⟨-, e, he, -⟩
      · rw [heq] at hin
        exact ht.boxIns c i n l hc hin hop
      · rw [boxEdges_of_isBoxLock hc] at he
        exact absurd he List.not_mem_nil
  · exact ht.jvms l areas (h.isAbstractLock ht hl hedge hop).2

end BoxReplaced

namespace MarkStep

variable (h : MarkStep M s s') (ht : LockTyped M s.graph)
include h ht

theorem typed : LockTyped M s'.graph := by
  cases h with
  | marked kind box hkind h => rw [h.graph_eq]; exact ht
  | replaced oldbox obj l hold hl hedge h => exact h.typed ht hl hedge

/-- The locks and their objects stay. -/
theorem lock_eq {l : ℕ} : ((s'.graph.op l).isAbstractLock = true ↔
      (s.graph.op l).isAbstractLock = true) ∧
    ((s.graph.op l).isAbstractLock = true →
      s'.graph.input l lockEdge.obj = s.graph.input l lockEdge.obj) := by
  cases h with
  | marked kind box hkind h =>
    rw [h.graph_eq]
    exact ⟨Iff.rfl, fun _ => rfl⟩
  | replaced oldbox obj l' hold hl hedge h =>
    refine ⟨⟨fun hop => (h.isAbstractLock ht hl hedge hop).2, fun hop => ?_⟩, fun hop => ?_⟩
    · rw [h.op_eq l (Nat.ne_of_lt (lt_size_of_isAbstractLock ht hop)), hop]
    · exact h.input_obj ht (Nat.ne_of_lt (lt_size_of_isAbstractLock ht hop)) (lockEdge_mem hop l)

/-- A lock that was reached stays so. -/
theorem reached {l : ℕ} (hop : (s.graph.op l).isAbstractLock = true) (hl : Reached s l) :
    Reached s' l := by
  intro b hb
  cases h with
  | marked kind box hkind h =>
    rw [h.graph_eq] at hb
    rw [h.boxEliminated_eq]
    by_cases hbox : b = box
    · rw [hbox, Function.update_self]
    · rw [Function.update_of_ne hbox, hl b hb]
  | replaced oldbox obj l' hold hl' hedge h =>
    rw [h.boxEliminated_eq]
    by_cases hbs : b = s.graph.size
    · rw [hbs, Function.update_self]
    · rw [Function.update_of_ne hbs]
      rcases h.edge ht (Nat.ne_of_lt (lt_size_of_isAbstractLock ht hop)) (lockEdge_mem hop l) with
        ⟨-, hmoved⟩ | ⟨-, hkept⟩
      · exact absurd (Option.some.inj (hb.symm.trans hmoved)) hbs
      · exact hl b (hkept ▸ hb)

/-- A lock that gets another mark has its box marked. -/
theorem kind_eq_or {l : ℕ} (hop : (s.graph.op l).isAbstractLock = true) :
    s'.kind l = s.kind l ∨ Reached s' l := by
  cases h with
  | marked kind box hkind h =>
    by_cases hbox : hasBox box s l = true
    · refine .inr fun b hb => ?_
      rw [h.graph_eq, (hasBox_iff.1 hbox).2, Option.some_inj] at hb
      rw [h.boxEliminated_eq, hb, Function.update_self]
    · exact .inl (h.kind_other l hbox)
  | replaced oldbox obj l' hold hl' hedge h =>
    have hne := Nat.ne_of_lt (lt_size_of_isAbstractLock ht hop)
    rcases h.kind_kept l hne with heq | ⟨-, hedge'⟩
    · exact .inl heq
    · refine .inr fun b hb => ?_
      rw [h.moved l hne lockEdge (lockEdge_mem hop l) hedge', Option.some_inj] at hb
      rw [h.boxEliminated_eq, hb, Function.update_self]

end MarkStep

end

/-! ## What holds after any changes

The invariant compares the marks with those at the start. A new box is marked and has the edges of
one old box for one object. A lock with a marked box is not left as a regular one; one that has got
a mark has a marked box. So a lock is eliminated together with all locks of its box. -/

/-- The marks come from a state by changes. -/
structure MarkedFrom (M : LockMethod) (s₀ s : LockMarks) : Prop where
  typed : LockTyped M s.graph
  size_le : s₀.graph.size ≤ s.graph.size
  op_eq : ∀ v, v < s₀.graph.size → s.graph.op v = s₀.graph.op v
  op_new : ∀ v, s₀.graph.size ≤ v → v < s.graph.size → (s.graph.op v).isBoxLock = true
  objs : ∀ v, v < s₀.graph.size → ∀ e ∈ M.boxEdges (s₀.graph.op v) v,
    s.graph.input v e.obj = s₀.graph.input v e.obj
  boxes : ∀ v, v < s₀.graph.size → ∀ e ∈ M.boxEdges (s₀.graph.op v) v,
    s.graph.input v e.box = s₀.graph.input v e.box ∨
      ∃ b, s₀.graph.size ≤ b ∧ s.graph.input v e.box = some b
  /-- a new box is marked, and has the users of an old one that are for one object -/
  newBox : ∀ b, s₀.graph.size ≤ b → b < s.graph.size → s.boxEliminated b = true ∧
    ∃ oldbox obj, oldbox < s₀.graph.size ∧
      ∀ v, v < s₀.graph.size → ∀ e ∈ M.boxEdges (s₀.graph.op v) v,
        (s.graph.input v e.box = some b ↔ M.isEdgeOf oldbox obj s₀.graph v e = true)
  eliminated : ∀ l, (s.graph.op l).isAbstractLock = true → ∀ b,
    s.graph.input l lockEdge.box = some b → s.boxEliminated b = true → s.kind l ≠ .regular
  nested : ∀ l, (s.graph.op l).isAbstractLock = true → s.kind l = .nested → Reached s l
  nonEscObj : ∀ l, (s.graph.op l).isAbstractLock = true → s.kind l = .nonEscObj →
    Reached s l ∨ s₀.kind l = .nonEscObj
  coarsened : ∀ l, (s.graph.op l).isAbstractLock = true → s.kind l = .coarsened →
    s₀.kind l = .coarsened

/-- The marks before: a lock that is marked as nested has a marked box, and a marked box has
marked locks. -/
structure LockStart (M : LockMethod) (s : LockMarks) : Prop where
  typed : LockTyped M s.graph
  eliminated : ∀ l, (s.graph.op l).isAbstractLock = true → ∀ b,
    s.graph.input l lockEdge.box = some b → s.boxEliminated b = true → s.kind l ≠ .regular
  nested : ∀ l, (s.graph.op l).isAbstractLock = true → s.kind l = .nested → Reached s l

/-- Nothing has been marked at the start. -/
theorem LockStart.markedFrom {s : LockMarks} (h : LockStart M s) : MarkedFrom M s s where
  typed := h.typed
  size_le := Nat.le_refl _
  op_eq _ _ := rfl
  op_new _ hle hlt := absurd hlt (Nat.not_lt.2 hle)
  objs _ _ _ _ := rfl
  boxes _ _ _ _ := .inl rfl
  newBox _ hle hlt := absurd hlt (Nat.not_lt.2 hle)
  eliminated := h.eliminated
  nested := h.nested
  nonEscObj _ _ hkind := .inr hkind
  coarsened _ _ hkind := hkind

namespace MarkedFrom

variable {s₀ s s' : LockMarks} (h : MarkedFrom M s₀ s)
include h

/-- A lock of the graph was one at the start, as only boxes are copied. -/
theorem lt_size {l : ℕ} (hl : (s.graph.op l).isAbstractLock = true) : l < s₀.graph.size := by
  by_contra hle
  have hbox := h.op_new l (Nat.le_of_not_lt hle) (lt_size_of_isAbstractLock h.typed hl)
  rw [not_isBoxLock hl] at hbox
  cases hbox

/-- A box that is marked for one object: its users are all of this object, or it was copied
first. -/
theorem boxMarked {kind : LockKind} {box : ℕ} (hkind : kind = .nonEscObj ∨ kind = .nested)
    (hs : BoxMarked kind box s s') : MarkedFrom M s₀ s' := by
  have hstep : MarkStep M s s' := .marked kind box hkind hs
  have hmono : ∀ b, s.boxEliminated b = true → s'.boxEliminated b = true := fun b hb => by
    rw [hs.boxEliminated_eq]
    by_cases hbox : b = box
    · rw [hbox, Function.update_self]
    · rw [Function.update_of_ne hbox, hb]
  have hop : ∀ {l}, (s'.graph.op l).isAbstractLock = true → (s.graph.op l).isAbstractLock = true :=
    fun hl => by rwa [hs.graph_eq] at hl
  have hcases : ∀ {l}, (s'.graph.op l).isAbstractLock = true → (hasBox box s l = true ∧
      s'.kind l = kind ∧ Reached s' l) ∨ (hasBox box s l ≠ true ∧ s'.kind l = s.kind l) := by
    intro l hl
    by_cases hbox : hasBox box s l = true
    · refine .inl ⟨hbox, hs.kind_box l hbox, fun b hb => ?_⟩
      rw [hs.graph_eq, (hasBox_iff.1 hbox).2, Option.some_inj] at hb
      rw [hs.boxEliminated_eq, hb, Function.update_self]
    · exact .inr ⟨hbox, hs.kind_other l hbox⟩
  refine
    { typed := hstep.typed h.typed
      size_le := by rw [hs.graph_eq]; exact h.size_le
      op_eq := by rw [hs.graph_eq]; exact h.op_eq
      op_new := by rw [hs.graph_eq]; exact h.op_new
      objs := by rw [hs.graph_eq]; exact h.objs
      boxes := by rw [hs.graph_eq]; exact h.boxes
      newBox := fun b hle hlt => ?_
      eliminated := fun l hl b hb helim => ?_
      nested := fun l hl hk => ?_
      nonEscObj := fun l hl hk => ?_
      coarsened := fun l hl hk => ?_ }
  · rw [hs.graph_eq] at hlt ⊢
    obtain ⟨helim, hrest⟩ := h.newBox b hle hlt
    exact ⟨hmono b helim, hrest⟩
  · rcases hcases hl with ⟨-, hk, -⟩ | ⟨hbox, hk⟩
    · rw [hk]
      rcases hkind with rfl | rfl <;> nofun
    · rw [hk]
      rw [hs.graph_eq] at hb
      have hne : b ≠ box := by
        rintro rfl
        exact hbox (hasBox_iff.2 ⟨hop hl, hb⟩)
      rw [hs.boxEliminated_eq, Function.update_of_ne hne] at helim
      exact h.eliminated l (hop hl) b hb helim
  · rcases hcases hl with ⟨-, -, hreached⟩ | ⟨-, hk'⟩
    · exact hreached
    · exact hstep.reached h.typed (hop hl) (h.nested l (hop hl) (hk' ▸ hk))
  · rcases hcases hl with ⟨-, -, hreached⟩ | ⟨-, hk'⟩
    · exact .inl hreached
    · exact (h.nonEscObj l (hop hl) (hk' ▸ hk)).imp_left (hstep.reached h.typed (hop hl))
  · rcases hcases hl with ⟨-, hk', -⟩ | ⟨-, hk'⟩
    · rw [hk'] at hk
      rcases hkind with rfl | rfl <;> cases hk
    · exact h.coarsened l (hop hl) (hk' ▸ hk)

/-- An edge to an old box is as it was. -/
theorem isEdgeOf_iff_of_lt {oldbox obj v : ℕ} (hv : v < s₀.graph.size) {e : BoxEdge}
    (he : e ∈ M.boxEdges (s₀.graph.op v) v) (hold : oldbox < s₀.graph.size)
    (hedge : M.isEdgeOf oldbox obj s.graph v e = true) :
    M.isEdgeOf oldbox obj s₀.graph v e = true := by
  obtain ⟨hin, heqv⟩ := isEdgeOf_iff.1 hedge
  rw [h.objs v hv e he] at heqv
  rcases h.boxes v hv e he with heq | ⟨b, hle, hb⟩
  · exact isEdgeOf_iff.2 ⟨heq ▸ hin, heqv⟩
  · obtain rfl := Option.some.inj (hb.symm.trans hin)
    exact absurd hold (Nat.not_lt.2 hle)

/-- The edges to one box that are for one object are moved together. -/
theorem moved_together {box obj v w b : ℕ} {e e' : BoxEdge} (hv : v < s₀.graph.size)
    (he : e ∈ M.boxEdges (s₀.graph.op v) v) (hedge : M.isEdgeOf box obj s₀.graph v e = true)
    (hw : w < s₀.graph.size) (he' : e' ∈ M.boxEdges (s₀.graph.op w) w)
    (hedge' : M.isEdgeOf box obj s₀.graph w e' = true) (hle : s₀.graph.size ≤ b)
    (hb : s.graph.input v e.box = some b) : s.graph.input w e'.box = some b := by
  obtain ⟨-, old, obj', -, hiff⟩ := h.newBox b hle (lt_size_of_input hb)
  obtain ⟨hin, heqv⟩ := isEdgeOf_iff.1 ((hiff v hv e he).1 hb)
  obtain ⟨hin₀, heqv₀⟩ := isEdgeOf_iff.1 hedge
  obtain rfl := Option.some.inj (hin₀.symm.trans hin)
  refine (hiff w hw e' he').2 ?_
  rwa [isEdgeOf_congr (uncast_eq_of_eqvUncast heqv heqv₀)]

/-- A box that is not marked is an old one. -/
theorem box_lt {oldbox obj l : ℕ} (hold : s.boxEliminated oldbox = false)
    (hedge : M.isEdgeOf oldbox obj s.graph l lockEdge = true) : oldbox < s₀.graph.size := by
  by_contra hle
  have helim := (h.newBox oldbox (Nat.le_of_not_lt hle)
    (lt_size_of_input (isEdgeOf_iff.1 hedge).1)).1
  rw [hold] at helim
  cases helim

/-- While a lock has a box, so have all edges that had it for its object. -/
theorem isEdgeOf_of_start {oldbox obj l v : ℕ} {e : BoxEdge} (hlt : oldbox < s₀.graph.size)
    (hl : (s.graph.op l).isAbstractLock = true)
    (hedge : M.isEdgeOf oldbox obj s.graph l lockEdge = true) (hv : v < s₀.graph.size)
    (he : e ∈ M.boxEdges (s₀.graph.op v) v) (hedge₀ : M.isEdgeOf oldbox obj s₀.graph v e = true) :
    M.isEdgeOf oldbox obj s.graph v e = true := by
  obtain ⟨hin₀, heqv₀⟩ := isEdgeOf_iff.1 hedge₀
  refine isEdgeOf_iff.2 ⟨?_, by rw [h.objs v hv e he]; exact heqv₀⟩
  rcases h.boxes v hv e he with heq | ⟨b, hle, hb⟩
  · exact heq.trans hin₀
  · -- it was moved before, and with it the lock
    have hlLt := h.lt_size hl
    have hlEdge := lockEdge_mem (M := M) (h.op_eq l hlLt ▸ hl) l
    have hlOld := h.isEdgeOf_iff_of_lt hlLt hlEdge hlt hedge
    have hlBox := h.moved_together hv he hedge₀ hlLt hlEdge hlOld hle hb
    rw [(isEdgeOf_iff.1 hedge).1, Option.some_inj] at hlBox
    exact absurd (hlBox ▸ hlt) (Nat.not_lt.2 hle)

section

variable {oldbox obj l : ℕ}
  (hedge : M.isEdgeOf oldbox obj s.graph l lockEdge = true) (hs : BoxReplaced M oldbox obj s s')
include hedge hs

/-- A lock is moved, and marked, or it is as before. -/
theorem lock_replaced (hl : (s.graph.op l).isAbstractLock = true) {k : ℕ}
    (hk : (s'.graph.op k).isAbstractLock = true) :
    (s'.kind k = .nonEscObj ∧ Reached s' k) ∨ (s'.kind k = s.kind k ∧
      s'.graph.input k lockEdge.box = s.graph.input k lockEdge.box) := by
  obtain ⟨hkne, hk⟩ := hs.isAbstractLock h.typed hl hedge hk
  rcases hs.edge h.typed hkne (lockEdge_mem hk k) with ⟨hedge', hmoved⟩ | ⟨hedge', hkept⟩
  · refine .inl ⟨hs.kind_moved k hkne hk hedge', fun b hb => ?_⟩
    rw [hmoved, Option.some_inj] at hb
    rw [hs.boxEliminated_eq, hb, Function.update_self]
  · exact .inr ⟨(hs.kind_kept k hkne).resolve_right fun h => hedge' h.2, hkept⟩

/-- The boxes that were new before have the users that they had. -/
theorem newBox_kept (hold : s.boxEliminated oldbox = false) {b v : ℕ} {e : BoxEdge}
    (hle : s₀.graph.size ≤ b) (hlt : b < s.graph.size) (hv : v < s₀.graph.size)
    (he : e ∈ M.boxEdges (s₀.graph.op v) v) :
    s'.graph.input v e.box = some b ↔ s.graph.input v e.box = some b := by
  have hmem : e ∈ M.boxEdges (s.graph.op v) v := by rwa [h.op_eq _ hv]
  have hne : v ≠ s.graph.size := Nat.ne_of_lt (Nat.lt_of_lt_of_le hv h.size_le)
  rcases hs.edge h.typed hne hmem with ⟨hedge', hmoved⟩ | ⟨-, hkept⟩
  · rw [hmoved, (isEdgeOf_iff.1 hedge').1, Option.some_inj, Option.some_inj]
    constructor
    · exact fun heq => absurd heq (Nat.ne_of_gt hlt)
    · exact fun heq => absurd (heq ▸ h.box_lt hold hedge) (Nat.not_lt.2 hle)
  · rw [hkept]

/-- The box that is made now has those of the old one that are for the object. -/
theorem newBox_made (hold : s.boxEliminated oldbox = false)
    (hl : (s.graph.op l).isAbstractLock = true) {v : ℕ} {e : BoxEdge} (hv : v < s₀.graph.size)
    (he : e ∈ M.boxEdges (s₀.graph.op v) v) :
    s'.graph.input v e.box = some s.graph.size ↔ M.isEdgeOf oldbox obj s₀.graph v e = true := by
  have hmem : e ∈ M.boxEdges (s.graph.op v) v := by rwa [h.op_eq _ hv]
  have hne : v ≠ s.graph.size := Nat.ne_of_lt (Nat.lt_of_lt_of_le hv h.size_le)
  have hlt := h.box_lt hold hedge
  rcases hs.edge h.typed hne hmem with ⟨hedge', hmoved⟩ | ⟨hedge', hkept⟩
  · exact ⟨fun _ => h.isEdgeOf_iff_of_lt hv he hlt hedge', fun _ => hmoved⟩
  · rw [hkept]
    constructor
    · exact fun hin => absurd (lt_size_of_input hin) (Nat.lt_irrefl _)
    · exact fun hedge₀ => absurd (h.isEdgeOf_of_start hlt hl hedge hv he hedge₀) hedge'

/-- A box is replaced for the edges of one object. -/
theorem boxReplaced (hold : s.boxEliminated oldbox = false)
    (hl : (s.graph.op l).isAbstractLock = true) : MarkedFrom M s₀ s' := by
  have hstep : MarkStep M s s' := .replaced oldbox obj l hold hl hedge hs
  have hne : ∀ {v}, v < s₀.graph.size → v ≠ s.graph.size := fun hv =>
    Nat.ne_of_lt (Nat.lt_of_lt_of_le hv h.size_le)
  have hmem : ∀ {v}, v < s₀.graph.size → ∀ {e}, e ∈ M.boxEdges (s₀.graph.op v) v →
      e ∈ M.boxEdges (s.graph.op v) v := fun hv e he => by rwa [h.op_eq _ hv]
  have hop : ∀ {k}, (s'.graph.op k).isAbstractLock = true →
      (s.graph.op k).isAbstractLock = true := fun hk =>
    (hs.isAbstractLock h.typed hl hedge hk).2
  have hcases : ∀ {k}, (s'.graph.op k).isAbstractLock = true → _ := fun hk =>
    h.lock_replaced hedge hs hl hk
  refine
    { typed := hstep.typed h.typed
      size_le := by rw [hs.size_eq]; exact Nat.le_succ_of_le h.size_le
      op_eq := fun v hv => by rw [hs.op_eq v (hne hv), h.op_eq v hv]
      op_new := fun v hle hlt => ?_
      objs := fun v hv e he => by
        rw [hs.input_obj h.typed (hne hv) (hmem hv he), h.objs v hv e he]
      boxes := fun v hv e he => ?_
      newBox := fun b hle hlt => ?_
      eliminated := fun k hk b hb helim => ?_
      nested := fun k hk hkind => ?_
      nonEscObj := fun k hk hkind => ?_
      coarsened := fun k hk hkind => ?_ }
  · rw [hs.size_eq] at hlt
    rcases Nat.lt_succ_iff_lt_or_eq.1 hlt with hlt | rfl
    · rw [hs.op_eq v (Nat.ne_of_lt hlt)]
      exact h.op_new v hle hlt
    · rw [hs.op_new]
      exact h.typed.isBoxLock hl (isEdgeOf_iff.1 hedge).1
  · rcases hs.edge h.typed (hne hv) (hmem hv he) with ⟨-, hmoved⟩ | ⟨-, hkept⟩
    · exact .inr ⟨_, h.size_le, hmoved⟩
    · rw [hkept]
      exact h.boxes v hv e he
  · rw [hs.size_eq] at hlt
    rcases Nat.lt_succ_iff_lt_or_eq.1 hlt with hlt | rfl
    · obtain ⟨helim, old, obj', hltOld, hiff⟩ := h.newBox b hle hlt
      refine ⟨?_, old, obj', hltOld, fun v hv e he =>
        (h.newBox_kept hedge hs hold hle hlt hv he).trans (hiff v hv e he)⟩
      rw [hs.boxEliminated_eq, Function.update_of_ne (Nat.ne_of_lt hlt), helim]
    · refine ⟨?_, oldbox, obj, h.box_lt hold hedge, fun v hv e he =>
        h.newBox_made hedge hs hold hl hv he⟩
      rw [hs.boxEliminated_eq, Function.update_self]
  · rcases hcases hk with ⟨hkind, -⟩ | ⟨hkind, hbox⟩
    · rw [hkind]
      nofun
    · rw [hkind]
      rw [hbox] at hb
      rw [hs.boxEliminated_eq, Function.update_of_ne (Nat.ne_of_lt (lt_size_of_input hb))] at helim
      exact h.eliminated k (hop hk) b hb helim
  · rcases hcases hk with ⟨-, hreached⟩ | ⟨hkind', -⟩
    · exact hreached
    · exact hstep.reached h.typed (hop hk) (h.nested k (hop hk) (hkind' ▸ hkind))
  · rcases hcases hk with ⟨-, hreached⟩ | ⟨hkind', -⟩
    · exact .inl hreached
    · exact (h.nonEscObj k (hop hk) (hkind' ▸ hkind)).imp_left (hstep.reached h.typed (hop hk))
  · rcases hcases hk with ⟨hkind', -⟩ | ⟨hkind', -⟩
    · rw [hkind'] at hkind
      cases hkind
    · exact h.coarsened k (hop hk) (hkind' ▸ hkind)

end

/-- One step of marking keeps all that was established. -/
theorem step (hs : MarkStep M s s') : MarkedFrom M s₀ s' := by
  cases hs with
  | marked kind box hkind hs => exact h.boxMarked hkind hs
  | replaced oldbox obj l hold hl hedge hs => exact h.boxReplaced hedge hs hold hl

/-- And any number of steps do, by induction. -/
theorem steps (hs : ReflTransGen (MarkStep M) s s') : MarkedFrom M s₀ s' := by
  induction hs with
  | refl => exact h
  | tail _ hstep ih => exact ih.step hstep

end MarkedFrom

/-! ## The loops of marking

Each loop makes changes only, and reaches what it is for. The locks that escape analysis has marked
are reached through their object, and whatever was reached stays so. -/

section

variable {s s' : LockMarks}

/-- Changes, one after another. -/
abbrev MarkSteps (M : LockMethod) : LockMarks → LockMarks → Prop := ReflTransGen (MarkStep M)

/-- The edges of locks go to boxes after any number of steps. -/
theorem MarkSteps.typed (h : MarkSteps M s s') (ht : LockTyped M s.graph) :
    LockTyped M s'.graph := by
  induction h with
  | refl => exact ht
  | tail _ hstep ih => exact hstep.typed ih

/-- No step makes or removes a lock, or moves the object of one. -/
theorem MarkSteps.lock_eq (h : MarkSteps M s s') (ht : LockTyped M s.graph) {l : ℕ} :
    ((s'.graph.op l).isAbstractLock = true ↔ (s.graph.op l).isAbstractLock = true) ∧
    ((s.graph.op l).isAbstractLock = true →
      s'.graph.input l lockEdge.obj = s.graph.input l lockEdge.obj) := by
  induction h with
  | refl => exact ⟨Iff.rfl, fun _ => rfl⟩
  | tail hsteps hstep ih =>
    have hlast := hstep.lock_eq (MarkSteps.typed hsteps ht) (l := l)
    exact ⟨hlast.1.trans ih.1, fun hl => (hlast.2 (ih.1.2 hl)).trans (ih.2 hl)⟩

/-- A lock that was reached stays so over all steps. -/
theorem MarkSteps.reached (h : MarkSteps M s s') (ht : LockTyped M s.graph) {l : ℕ}
    (hop : (s.graph.op l).isAbstractLock = true) (hl : Reached s l) : Reached s' l := by
  induction h with
  | refl => exact hl
  | tail hsteps hstep ih =>
    exact hstep.reached (MarkSteps.typed hsteps ht) ((MarkSteps.lock_eq hsteps ht).1.2 hop) ih

/-- `mark_eliminated_box`, of the box of a lock, marks it. -/
theorem markEliminatedBox_reached {oldbox obj l : ℕ} (ht : LockTyped M s.graph)
    (hl : (s.graph.op l).isAbstractLock = true)
    (hedge : M.isEdgeOf oldbox obj s.graph l lockEdge = true) :
    ∃ s', M.markEliminatedBox oldbox obj s = some s' ∧ MarkSteps M s s' ∧ Reached s' l ∧
      ∀ k, (s.graph.op k).isBoxLock = false → k ≠ s.graph.size →
        (∀ i, s.graph.input oldbox i ≠ some k) → s'.graph.outs k = s.graph.outs k := by
  obtain ⟨s', hs', hcases, houts⟩ := markEliminatedBox_spec ht hl hedge
  have hin := (isEdgeOf_iff.1 hedge).1
  rcases hcases with ⟨rfl, helim⟩ | ⟨helim, ⟨-, hs⟩ | ⟨-, hs⟩⟩
  · refine ⟨s', hs', .refl, fun b hb => ?_, houts⟩
    obtain rfl := Option.some.inj (hin.symm.trans hb)
    exact helim
  · refine ⟨s', hs', .single (.marked _ _ (.inl rfl) hs), fun b hb => ?_, houts⟩
    rw [hs.graph_eq, hin, Option.some_inj] at hb
    rw [hs.boxEliminated_eq, hb, Function.update_self]
  · refine ⟨s', hs', .single (.replaced _ _ _ helim hl hedge hs), fun b hb => ?_, houts⟩
    have hne := Nat.ne_of_lt (lt_size_of_isAbstractLock ht hl)
    rw [hs.moved l hne lockEdge (lockEdge_mem hl l) hedge, Option.some_inj] at hb
    rw [hs.boxEliminated_eq, hb, Function.update_self]

/-- The loop over the locks of an object reaches them all. -/
theorem markSameObject_spec {alock obj : ℕ} (ht : LockTyped M s.graph)
    (hop : (s.graph.op alock).isAbstractLock = true)
    (hobj : s.graph.input alock lockEdge.obj = some obj) :
    ∃ s', M.markSameObject obj s = some s' ∧ MarkSteps M s s' ∧ Reached s' alock := by
  let I : LockMarks → Prop := fun s' => MarkSteps M s s' ∧ s'.graph.outs obj = s.graph.outs obj
  let Done : LockMarks → ℕ → Prop := fun s' o => (s.graph.op o).isAbstractLock = true →
    M.eqvUncast (s.graph.input o lockEdge.obj) obj = true → Reached s' o
  have hloop : ∃ s', M.markSameObject obj s = some s' ∧ I s' ∧
      (∀ o ∈ s'.graph.outs obj, Done s' o) ∧ ∀ o, Done s o → Done s' o := by
    refine @forAllUses_spec _ (fun s => s.graph.outs obj) _ I Done ?_ s ⟨.refl, rfl⟩
    rintro s' ⟨hsteps, houts⟩ o -
    have ht' := MarkSteps.typed hsteps ht
    have heq := fun l => MarkSteps.lock_eq hsteps ht (l := l)
    by_cases hcond : ((s'.graph.op o).isAbstractLock &&
        M.eqvUncast (s'.graph.input o lockEdge.obj) obj) = true
    · rw [if_pos hcond]
      obtain ⟨ho, heqv⟩ := Bool.and_eq_true_iff.1 hcond
      obtain ⟨box, hbox, -⟩ := ht'.box o ho
      obtain ⟨s'', hs'', hmore, hreached, hsame⟩ :=
        markEliminatedBox_reached ht' ho (isEdgeOf_iff.2 ⟨hbox, heqv⟩)
      have hobj' : s'.graph.input alock lockEdge.obj = some obj := ((heq alock).2 hop).trans hobj
      have halock := (heq alock).1.2 hop
      have hnotBox : (s'.graph.op obj).isBoxLock = false := by
        obtain ⟨n, hn, hnot⟩ := ht'.obj alock halock
        obtain rfl := Option.some.inj (hobj'.symm.trans hn)
        exact hnot
      have houts' := hsame obj hnotBox (Nat.ne_of_lt (lt_size_of_input hobj')) fun i hi =>
        ht'.boxIns box i obj alock (ht'.isBoxLock ho hbox) hi halock hobj'
      refine ⟨true, s'', by rw [hbox]; simp only [hs'', Option.map_some],
        ⟨hsteps.trans hmore, houts'.trans houts⟩, fun _ _ => hreached, fun v hv hvop hveqv => ?_,
        fun _ => houts', nofun⟩
      exact MarkSteps.reached hmore ht' ((heq v).1.2 hvop) (hv hvop hveqv)
    · rw [if_neg hcond]
      refine ⟨true, s', rfl, ⟨hsteps, houts⟩, fun ho heqv => ?_, fun _ hv => hv, fun _ => rfl,
        nofun⟩
      rw [(heq o).1.2 ho, (heq o).2 ho, heqv] at hcond
      exact absurd rfl hcond
  obtain ⟨s', hs', ⟨hsteps, houts⟩, hall, -⟩ := hloop
  refine ⟨s', hs', hsteps, hall alock ?_ hop ?_⟩
  · rw [houts]
    exact (s.graph.mem_outs obj alock).2 (NodeGraph.reads_of_input hobj)
  · rw [hobj]
    exact decide_eq_true rfl

/-- The loop of a nested lock ends, and does nothing but steps of marking. -/
theorem markNested_spec (alock box obj : ℕ) :
    ∃ s', M.markNested alock box obj s = some s' ∧ MarkSteps M s s' := by
  rw [markNested]
  split
  · obtain ⟨s', hs', hmarked⟩ := @markUser_spec s .nested (fun s u => hasBox box s u) box
      (fun _ _ h => h) fun _ _ h hhas => absurd hhas h
    exact ⟨s', hs', .single (.marked _ _ (.inr rfl) hmarked)⟩
  · exact ⟨s, rfl, .refl⟩

/-- The lock is not marked by escape analysis, or its box is marked. -/
def Settled (s : LockMarks) (l : ℕ) : Prop := s.kind l = .nonEscObj → Reached s l

/-- A lock that is settled stays so. -/
theorem MarkSteps.settled (h : MarkSteps M s s') (ht : LockTyped M s.graph) {l : ℕ}
    (hop : (s.graph.op l).isAbstractLock = true) (hl : Settled s l) : Settled s' l := by
  induction h with
  | refl => exact hl
  | tail hsteps hstep ih =>
    have ht' := MarkSteps.typed hsteps ht
    have hop' := (MarkSteps.lock_eq hsteps ht).1.2 hop
    intro hkind
    rcases hstep.kind_eq_or ht' hop' with heq | hreached
    · exact hstep.reached ht' hop' (ih (heq ▸ hkind))
    · exact hreached

/-- To mark the locks of one box ends, in steps of marking, and settles the lock that it was called
for. -/
theorem markEliminatedLockingNodes_spec {alock : ℕ} (ht : LockTyped M s.graph)
    (hop : (s.graph.op alock).isAbstractLock = true) :
    ∃ s', M.markEliminatedLockingNodes alock s = some s' ∧ MarkSteps M s s' ∧
      Settled s' alock := by
  obtain ⟨box, hbox, -⟩ := ht.box alock hop
  obtain ⟨obj, hobj, -⟩ := ht.obj alock hop
  rw [markEliminatedLockingNodes, hbox, hobj]
  simp only
  split
  · next hcond =>
    have hkind : s.kind alock = .nested := of_decide_eq_true (Bool.and_eq_true_iff.1 hcond).2
    refine ⟨s, rfl, .refl, fun h => ?_⟩
    rw [hkind] at h
    cases h
  · split
    · next hcond =>
      have hkind : s.kind alock ≠ .nonEscObj := of_decide_eq_true (Bool.and_eq_true_iff.1 hcond).2
      obtain ⟨s', hs', hsteps⟩ := @markNested_spec M s alock box obj
      exact ⟨s', hs', hsteps, MarkSteps.settled hsteps ht hop fun h => absurd h hkind⟩
    · split
      · obtain ⟨s', hs', hsteps, hreached⟩ := markSameObject_spec ht hop hobj
        exact ⟨s', hs', hsteps, fun _ => hreached⟩
      · next hkind => exact ⟨s, rfl, .refl, fun h => absurd h hkind⟩

/-- The first loop of `eliminate_macro_nodes` settles every lock of the list. -/
theorem markMacroNodes_spec {macroNodes : List ℕ} (ht : LockTyped M s.graph) :
    ∃ s', M.markMacroNodes macroNodes s = some s' ∧ MarkSteps M s s' ∧
      ∀ l ∈ macroNodes, (s.graph.op l).isAbstractLock = true → Settled s' l := by
  unfold markMacroNodes
  induction macroNodes generalizing s with
  | nil => exact ⟨s, rfl, .refl, fun l hl => absurd hl List.not_mem_nil⟩
  | cons n macroNodes ih =>
    rw [List.foldlM_cons]
    by_cases hop : (s.graph.op n).isAbstractLock = true
    · obtain ⟨s₁, hs₁, hsteps, hsettled⟩ := markEliminatedLockingNodes_spec ht hop
      have ht₁ := MarkSteps.typed hsteps ht
      have heq := fun l => (MarkSteps.lock_eq hsteps ht (l := l)).1
      obtain ⟨s', hs', hmore, hall⟩ := ih ht₁
      refine ⟨s', by rw [if_pos hop, hs₁]; exact hs', hsteps.trans hmore, fun l hl hlop => ?_⟩
      rcases List.mem_cons.1 hl with rfl | hl
      · exact MarkSteps.settled hmore ht₁ ((heq l).2 hlop) hsettled
      · exact hall l hl ((heq l).2 hlop)
    · obtain ⟨s', hs', hmore, hall⟩ := ih ht
      refine ⟨s', by rw [if_neg hop]; exact hs', hmore, fun l hl hlop => ?_⟩
      rcases List.mem_cons.1 hl with rfl | hl
      · exact absurd hlop hop
      · exact hall l hl hlop

end

end LockMethod

end StackAllocation
