import StackAllocation.Locks
import StackAllocation.HeapToStack
import StackAllocation.Loops
import Mathlib.Data.List.Basic

/-!
# Locks on stack objects

Which locks are eliminated does not only depend on their object. A lock goes when its
`BoxLock` is marked, and a box is marked by a nested lock region, or by a lock of an
object that does not escape globally, found through the users of that object. The order
of the macro list matters, since a lock that gets its mark late may have been passed
already; what is certain is that a lock goes in every order when its box is marked by
nodes that had their reason from the start (`Covered`), and in the order that visits
those last no other lock does.

An object in the frame can still be locked: merged with an object that escapes
globally, it is the object of a lock that is not covered.
-/

namespace StackAllocation

/-! ## What is covered

A lock is covered if there is a reason for its elimination that does not depend on the order in
which the locks are visited. -/

section

variable (L : LockGraph) (g : Nodes) (o : StackAllocationOptions)

/-- Escape analysis marks the lock. -/
def NonEsc (l : ℕ) : Prop := o.eliminateLocks = true ∧ notGlobalEscape L g (L.objNode l) = true

/-- The node of a nested lock region that escape analysis does not mark. -/
structure NestedRegion (l : ℕ) : Prop where
  mem : l ∈ L.locks
  isLock : L.isLock l = true
  isNested : isNestedLockRegion L L.boxNode l = true
  not_nonEsc : ¬ NonEsc L g o l

/-- A nested lock region marks the box. -/
def NestedBox (box : ℕ) : Prop := ∃ l, NestedRegion L g o l ∧ L.boxNode l = box

/-- A lock of an object that does not escape globally marks the box. -/
def NonEscBox (box : ℕ) : Prop :=
  ∃ l ∈ L.locks, NonEsc L g o l ∧ ¬ NestedBox L g o (L.boxNode l) ∧
    ∃ u ∈ L.outs (L.objNode l), L.eqvUncast (L.objNode u) (L.objNode l) = true ∧
      L.boxNode u = box

/-- The lock is coarsened, or its box is marked by a node that has its reason from the start. -/
def Covered (l : ℕ) : Prop :=
  L.isCoarsened l = true ∨ NestedBox L g o (L.boxNode l) ∨ NonEscBox L g o (L.boxNode l)

end

variable {L : LockGraph} {g : Nodes} {o : StackAllocationOptions}

/-- A node is the same object as itself. -/
theorem LockGraph.eqvUncast_self (n : ℕ) : L.eqvUncast n n = true := by
  simp [LockGraph.eqvUncast]

/-- A lock that escape analysis marks is covered. -/
theorem NonEsc.covered {l : ℕ} (hl : l ∈ L.locks) (h : NonEsc L g o l) : Covered L g o l := by
  by_cases hbox : NestedBox L g o (L.boxNode l)
  · exact .inr (.inl hbox)
  · exact .inr (.inr ⟨l, hl, h, hbox, l, L.mem_outs_obj l hl, L.eqvUncast_self _, rfl⟩)

/-! ## What a step does

To visit a lock marks boxes, with all locks of a box. The invariant says of each box and lock what
the marks can mean, and a lock that has its reason from the start has its box marked when it is
visited. -/

/-- The users of a box that `markUsers` marks. -/
theorem foldl_markUsers (k : LockKind) (p : LockState → ℕ → Bool) (box : ℕ)
    (hp : ∀ s u, p s u = true → s.boxNode u = box)
    (hp' : ∀ s u, s.boxNode u = box → p s u = true ∨ s.kind u = k) (l : List ℕ) (s : LockState) :
    (l.foldl (markUsers k p) s).boxNode = s.boxNode ∧
      (l.foldl (markUsers k p) s).boxEliminated = s.boxEliminated ∧
      ∀ u, (l.foldl (markUsers k p) s).kind u =
        if u ∈ l ∧ s.boxNode u = box then k else s.kind u := by
  induction l generalizing s with
  | nil => simp
  | cons a l ih =>
    have hstep : (markUsers k p s a).boxNode = s.boxNode ∧
        (markUsers k p s a).boxEliminated = s.boxEliminated := by
      unfold markUsers
      split <;> exact ⟨rfl, rfl⟩
    have hkind : ∀ u, (markUsers k p s a).kind u =
        if u = a ∧ s.boxNode u = box then k else s.kind u := by
      intro u
      unfold markUsers
      by_cases hua : u = a
      · subst hua
        by_cases hpu : p s u = true
        · simp [hpu, hp s u hpu]
        · by_cases hbox : s.boxNode u = box
          · simp [hpu, hbox, (hp' s u hbox).resolve_left hpu]
          · simp [hpu, hbox]
      · split <;> simp [hua]
    obtain ⟨hbox, helim, hall⟩ := ih (markUsers k p s a)
    refine ⟨hbox.trans hstep.1, helim.trans hstep.2, fun u => ?_⟩
    rw [List.foldl_cons, hall, hkind, hstep.1]
    by_cases hua : u = a
    · subst hua
      by_cases hb : s.boxNode u = box <;> simp [hb]
    · simp [hua]

/-- The state after a box has been marked: all its locks are. -/
structure MarksBox (L : LockGraph) (k : LockKind) (box : ℕ) (s s' : LockState) : Prop where
  boxNode : s'.boxNode = s.boxNode
  boxEliminated : s'.boxEliminated = Function.update s.boxEliminated box true
  kind : ∀ l ∈ L.locks, s'.kind l = if L.boxNode l = box then k else s.kind l

/-- A box is marked, or was so before. -/
theorem markEliminatedBox_cases (ho : o.eliminateNestedLocks = true) {s : LockState}
    (hs : s.boxNode = L.boxNode) (oldbox obj : ℕ) :
    (s.boxEliminated oldbox = true ∧ markEliminatedBox L o oldbox obj s = s) ∨
    (s.boxEliminated oldbox = false ∧
      MarksBox L .nonEscObj oldbox s (markEliminatedBox L o oldbox obj s)) := by
  cases helim : s.boxEliminated oldbox with
  | true => exact .inl ⟨rfl, by simp [markEliminatedBox, helim]⟩
  | false =>
    refine .inr ⟨rfl, ?_⟩
    have heq : markEliminatedBox L o oldbox obj s = (L.outs oldbox).foldl
        (markUsers .nonEscObj fun s u =>
          decide (s.kind u ≠ .nonEscObj) && decide (s.boxNode u = oldbox))
        { s with boxEliminated := Function.update s.boxEliminated oldbox true } := by
      simp [markEliminatedBox, helim, ho]
    obtain ⟨hbox, hel, hkind⟩ := foldl_markUsers .nonEscObj
      (fun s u => decide (s.kind u ≠ .nonEscObj) && decide (s.boxNode u = oldbox)) oldbox
      (by simp) (fun s u hb => by by_cases hk : s.kind u = .nonEscObj <;> simp [hk, hb])
      (L.outs oldbox)
      { s with boxEliminated := Function.update s.boxEliminated oldbox true }
    rw [heq]
    refine ⟨hbox, hel, fun l hl => ?_⟩
    rw [hkind, hs]
    by_cases hb : L.boxNode l = oldbox
    · have hmem : l ∈ L.outs oldbox := hb ▸ L.mem_outs_box l hl
      simp [hb, hmem]
    · simp [hb]

/-- What every step of the marking keeps, whatever the order. -/
structure LockInv (L : LockGraph) (g : Nodes) (o : StackAllocationOptions) (s : LockState) :
    Prop where
  boxNode : s.boxNode = L.boxNode
  nonEsc : ∀ l ∈ L.locks, NonEsc L g o l → s.kind l = .nonEscObj ∨ s.kind l = .nested
  nested_kind : ∀ l ∈ L.locks, s.kind l = .nested →
    NestedBox L g o (L.boxNode l) ∧ s.boxEliminated (L.boxNode l) = true
  nonEscObj_kind : ∀ l ∈ L.locks, s.kind l = .nonEscObj →
    NonEsc L g o l ∨ s.boxEliminated (L.boxNode l) = true
  eliminated : ∀ l ∈ L.locks, s.boxEliminated (L.boxNode l) = true → s.kind l ≠ .regular
  coarsened : ∀ l ∈ L.locks, L.isCoarsened l = true → s.kind l ≠ .regular

/-- A box that is marked stays so. -/
theorem MarksBox.boxEliminated_mono {k : LockKind} {box b : ℕ} {s s' : LockState}
    (h : MarksBox L k box s s') (hb : s.boxEliminated b = true) : s'.boxEliminated b = true := by
  rw [h.boxEliminated]
  by_cases hbb : b = box
  · simp [hbb]
  · simpa [hbb] using hb

/-- The box is marked after it. -/
theorem MarksBox.boxEliminated_self {k : LockKind} {box : ℕ} {s s' : LockState}
    (h : MarksBox L k box s s') : s'.boxEliminated box = true := by
  simp [h.boxEliminated]

/-- What is marked was marked, or is in the box. -/
theorem MarksBox.boxEliminated_cases {k : LockKind} {box b : ℕ} {s s' : LockState}
    (h : MarksBox L k box s s') (hb : s'.boxEliminated b = true) :
    s.boxEliminated b = true ∨ b = box := by
  rw [h.boxEliminated] at hb
  by_cases hbb : b = box
  · exact .inr hbb
  · exact .inl (by simpa [hbb] using hb)

/-- The invariant when a box is marked whose locks are of objects that do not escape. -/
theorem LockInv.marksNonEscObj {s s' : LockState} {box : ℕ} (hs : LockInv L g o s)
    (h : MarksBox L .nonEscObj box s s') : LockInv L g o s' where
  boxNode := h.boxNode.trans hs.boxNode
  nonEsc l hl hn := by
    rw [h.kind l hl]
    split
    · exact .inl rfl
    · exact hs.nonEsc l hl hn
  nested_kind l hl hk := by
    rw [h.kind l hl] at hk
    split at hk
    · exact absurd hk (by decide)
    · obtain ⟨hbox, helim⟩ := hs.nested_kind l hl hk
      exact ⟨hbox, h.boxEliminated_mono helim⟩
  nonEscObj_kind l hl hk := by
    rw [h.kind l hl] at hk
    split at hk
    · next hbox => exact .inr (hbox ▸ h.boxEliminated_self)
    · exact (hs.nonEscObj_kind l hl hk).imp id h.boxEliminated_mono
  eliminated l hl he := by
    rw [h.kind l hl]
    split
    · decide
    · next hbox => exact hs.eliminated l hl ((h.boxEliminated_cases he).resolve_right hbox)
  coarsened l hl hc := by
    rw [h.kind l hl]
    split
    · decide
    · exact hs.coarsened l hl hc

/-- And when it is marked for locks that are nested. -/
theorem LockInv.marksNested {s s' : LockState} {box : ℕ} (hs : LockInv L g o s)
    (h : MarksBox L .nested box s s') (hnested : NestedBox L g o box) : LockInv L g o s' where
  boxNode := h.boxNode.trans hs.boxNode
  nonEsc l hl hn := by
    rw [h.kind l hl]
    split
    · exact .inr rfl
    · exact hs.nonEsc l hl hn
  nested_kind l hl hk := by
    rw [h.kind l hl] at hk
    split at hk
    · next hbox => exact ⟨hbox ▸ hnested, hbox ▸ h.boxEliminated_self⟩
    · obtain ⟨hbox, helim⟩ := hs.nested_kind l hl hk
      exact ⟨hbox, h.boxEliminated_mono helim⟩
  nonEscObj_kind l hl hk := by
    rw [h.kind l hl] at hk
    split at hk
    · exact absurd hk (by decide)
    · exact (hs.nonEscObj_kind l hl hk).imp id h.boxEliminated_mono
  eliminated l hl he := by
    rw [h.kind l hl]
    split
    · decide
    · next hbox => exact hs.eliminated l hl ((h.boxEliminated_cases he).resolve_right hbox)
  coarsened l hl hc := by
    rw [h.kind l hl]
    split
    · decide
    · exact hs.coarsened l hl hc

/-- What marking a node does. -/
theorem markEliminatedLockingNodes_cases (ho : o.eliminateNestedLocks = true) {s : LockState}
    (hs : LockInv L g o s) {a : ℕ} (ha : a ∈ L.locks) :
    (markEliminatedLockingNodes L o s a = s ∧
      (s.kind a = .nested ∨ s.kind a ≠ .nonEscObj ∧ ¬ NestedRegion L g o a)) ∨
    (NestedRegion L g o a ∧
      MarksBox L .nested (L.boxNode a) s (markEliminatedLockingNodes L o s a)) ∨
    (s.kind a = .nonEscObj ∧
      markEliminatedLockingNodes L o s a = markSameObject L o a s) := by
  unfold markEliminatedLockingNodes
  rw [if_pos ho]
  by_cases hnested : s.kind a = .nested
  · exact .inl ⟨by rw [if_pos hnested], .inl hnested⟩
  rw [if_neg hnested]
  by_cases hnon : s.kind a = .nonEscObj
  · exact .inr (.inr ⟨hnon, by simp [hnon]⟩)
  rw [if_pos hnon]
  have hnot : ¬ NonEsc L g o a := fun h => (hs.nonEsc a ha h).elim hnon hnested
  obtain ⟨kind, boxNode, boxEliminated, unique⟩ := s
  obtain rfl : boxNode = L.boxNode := hs.boxNode
  by_cases hlock : L.isLock a = true
  · rw [if_pos hlock]
    by_cases hregion : isNestedLockRegion L L.boxNode a = true
    · rw [if_pos hregion]
      refine .inr (.inl ⟨⟨ha, hlock, hregion, hnot⟩, ?_⟩)
      obtain ⟨hbox, hel, hkind⟩ := foldl_markUsers .nested
        (fun s' u => decide (s'.boxNode u = L.boxNode a)) (L.boxNode a) (by simp) (by simp_all)
        (L.outs (L.boxNode a))
        ⟨kind, L.boxNode, Function.update boxEliminated (L.boxNode a) true, unique⟩
      refine ⟨hbox, hel, fun l hl => ?_⟩
      rw [hkind]
      by_cases hb : L.boxNode l = L.boxNode a
      · have hmem : l ∈ L.outs (L.boxNode a) := hb ▸ L.mem_outs_box l hl
        simp [hb, hmem]
      · simp [hb]
    · rw [if_neg hregion]
      exact .inl ⟨rfl, .inr ⟨hnon, fun h => hregion h.isNested⟩⟩
  · rw [if_neg hlock]
    exact .inl ⟨rfl, .inr ⟨hnon, fun h => hlock h.isLock⟩⟩

/-- What marking the locks of an object keeps, when marking a box keeps it. -/
theorem markSameObject_invariant (ho : o.eliminateNestedLocks = true) {P : LockState → Prop}
    {s : LockState} {a : ℕ} (hs : LockInv L g o s) (hP : P s)
    (hstep : ∀ s s', ∀ u ∈ L.outs (L.objNode a),
      L.eqvUncast (L.objNode u) (L.objNode a) = true → LockInv L g o s → P s →
      s.boxEliminated (L.boxNode u) = false → MarksBox L .nonEscObj (L.boxNode u) s s' → P s') :
    LockInv L g o (markSameObject L o a s) ∧ P (markSameObject L o a s) := by
  refine Loops.invariant (P := fun s => LockInv L g o s ∧ P s) _ ⟨hs, hP⟩ ?_
  rintro s u hu ⟨hs, hP⟩
  by_cases heqv : L.eqvUncast (L.objNode u) (L.objNode a) = true
  · rw [if_pos heqv]
    have hbox : s.boxNode u = L.boxNode u := by rw [hs.boxNode]
    rw [hbox]
    obtain ⟨-, heq⟩ | ⟨hel, hmarks⟩ :=
      markEliminatedBox_cases ho hs.boxNode (L.boxNode u) (L.objNode a)
    · rw [heq]
      exact ⟨hs, hP⟩
    · exact ⟨hs.marksNonEscObj hmarks, hstep _ _ u hu heqv hs hP hel hmarks⟩
  · rw [if_neg heqv]
    exact ⟨hs, hP⟩

/-- Marking the locks of an object marks their boxes. -/
theorem markSameObject_reached (ho : o.eliminateNestedLocks = true) {s : LockState} {a u : ℕ}
    (hs : LockInv L g o s) (hu : u ∈ L.outs (L.objNode a))
    (heqv : L.eqvUncast (L.objNode u) (L.objNode a) = true) :
    (markSameObject L o a s).boxEliminated (L.boxNode u) = true := by
  have hstep : ∀ s, ∀ v ∈ L.outs (L.objNode a), LockInv L g o s →
      LockInv L g o (if L.eqvUncast (L.objNode v) (L.objNode a) then
        markEliminatedBox L o (s.boxNode v) (L.objNode a) s else s) ∧
      ∀ b, s.boxEliminated b = true →
        (if L.eqvUncast (L.objNode v) (L.objNode a) then
          markEliminatedBox L o (s.boxNode v) (L.objNode a) s else s).boxEliminated b = true := by
    intro s v _ hs
    split
    · obtain ⟨-, heq⟩ | ⟨-, hmarks⟩ :=
        markEliminatedBox_cases ho hs.boxNode (s.boxNode v) (L.objNode a)
      · rw [heq]
        exact ⟨hs, fun b hb => hb⟩
      · exact ⟨hs.marksNonEscObj hmarks, fun b hb => hmarks.boxEliminated_mono hb⟩
    · exact ⟨hs, fun b hb => hb⟩
  refine Loops.reached (I := LockInv L g o)
    (P := fun s => s.boxEliminated (L.boxNode u) = true) hu hs
    (fun s v hv hs => (hstep s v hv hs).1) (fun s v hv hs hb => (hstep s v hv hs).2 _ hb) ?_
  intro s hs
  have hbox : s.boxNode u = L.boxNode u := by rw [hs.boxNode]
  rw [if_pos heqv, hbox]
  obtain ⟨hel, heq⟩ | ⟨-, hmarks⟩ :=
    markEliminatedBox_cases ho hs.boxNode (L.boxNode u) (L.objNode a)
  · rw [heq]
    exact hel
  · exact hmarks.boxEliminated_self

/-- Marking a node keeps the invariant and the marks of boxes. -/
theorem LockInv.step (ho : o.eliminateNestedLocks = true) {s : LockState} (hs : LockInv L g o s)
    {a : ℕ} (ha : a ∈ L.locks) : LockInv L g o (markEliminatedLockingNodes L o s a) ∧
      ∀ b, s.boxEliminated b = true →
        (markEliminatedLockingNodes L o s a).boxEliminated b = true := by
  obtain ⟨heq, -⟩ | ⟨hregion, hmarks⟩ | ⟨-, heq⟩ := markEliminatedLockingNodes_cases ho hs ha
  · rw [heq]
    exact ⟨hs, fun b hb => hb⟩
  · exact ⟨hs.marksNested hmarks ⟨a, hregion, rfl⟩, fun b hb => hmarks.boxEliminated_mono hb⟩
  · rw [heq]
    exact markSameObject_invariant
      (P := fun s' => ∀ b, s.boxEliminated b = true → s'.boxEliminated b = true) ho hs
      (fun b hb => hb) fun _ _ u _ _ _ hP _ hmarks b hb => hmarks.boxEliminated_mono (hP b hb)

/-! ## Whole runs

Marks are not taken back, so after a run all covered locks are marked, in whatever order they were
visited. -/

/-- A box that some step of a run marks is marked at its end. -/
theorem run_boxEliminated (ho : o.eliminateNestedLocks = true) {order : List ℕ} {s : LockState}
    (hs : LockInv L g o s) (horder : order ⊆ L.locks) {a b : ℕ} (ha : a ∈ order)
    (hreach : ∀ s, LockInv L g o s →
      (markEliminatedLockingNodes L o s a).boxEliminated b = true) :
    (order.foldl (markEliminatedLockingNodes L o) s).boxEliminated b = true :=
  Loops.reached (I := LockInv L g o) (P := fun s => s.boxEliminated b = true) ha hs
    (fun _ _ hc hs => (hs.step ho (horder hc)).1)
    (fun _ _ hc hs hb => (hs.step ho (horder hc)).2 b hb) hreach

/-- The invariant after all locks of a list, in its order. -/
theorem run_lockInv (ho : o.eliminateNestedLocks = true) {order : List ℕ} {s : LockState}
    (hs : LockInv L g o s) (horder : order ⊆ L.locks) :
    LockInv L g o (order.foldl (markEliminatedLockingNodes L o) s) :=
  Loops.invariant order hs fun _ _ hc hs => (hs.step ho (horder hc)).1

/-- The node of a nested lock region marks its box. -/
theorem NestedRegion.reached (ho : o.eliminateNestedLocks = true) {a : ℕ}
    (h : NestedRegion L g o a) {s : LockState} (hs : LockInv L g o s) :
    (markEliminatedLockingNodes L o s a).boxEliminated (L.boxNode a) = true := by
  obtain ⟨heq, hnested | ⟨-, hnot⟩⟩ | ⟨-, hmarks⟩ | ⟨hnon, heq⟩ :=
    markEliminatedLockingNodes_cases ho hs h.mem
  · rw [heq]
    exact (hs.nested_kind a h.mem hnested).2
  · exact absurd h hnot
  · exact hmarks.boxEliminated_self
  · refine (hs.step ho h.mem).2 _ ?_
    exact (hs.nonEscObj_kind a h.mem hnon).resolve_left h.not_nonEsc

/-- In every order, the locks that are covered are marked. -/
theorem Covered.isEliminated (ho : o.eliminateNestedLocks = true) {order : List ℕ}
    {s : LockState} (hs : LockInv L g o s) (horder : order.Perm L.locks) {l : ℕ}
    (hl : l ∈ L.locks) (h : Covered L g o l) :
    (order.foldl (markEliminatedLockingNodes L o) s).kind l ≠ .regular := by
  have hend := run_lockInv ho hs horder.subset
  obtain hc | ⟨a, hregion, hbox⟩ | ⟨a, ha, hnon, hnot, u, hu, heqv, hbox⟩ := h
  · exact hend.coarsened l hl hc
  · refine hend.eliminated l hl ?_
    rw [← hbox]
    exact run_boxEliminated ho hs horder.subset (horder.mem_iff.2 hregion.mem)
      fun s hs => hregion.reached ho hs
  · refine hend.eliminated l hl ?_
    rw [← hbox]
    refine run_boxEliminated ho hs horder.subset (horder.mem_iff.2 ha) fun s hs => ?_
    obtain hk | hk := hs.nonEsc a ha hnon
    · obtain ⟨-, hnested | ⟨hnon', -⟩⟩ | ⟨hregion, -⟩ | ⟨-, heq⟩ :=
        markEliminatedLockingNodes_cases ho hs ha
      · exact absurd (hk.symm.trans hnested) (by decide)
      · exact absurd hk hnon'
      · exact absurd hnon hregion.not_nonEsc
      · rw [heq]
        exact markSameObject_reached ho hs hu heqv
    · exact absurd (hs.nested_kind a ha hk).1 hnot

/-! ## The order that marks least

Which other locks are marked depends on the order. In one order the nested regions come first and
the locks that escape analysis has marked last; then only covered ones are marked. -/

/-- Before the first lock that escape analysis marked is visited, only nested lock regions have
marked boxes. -/
structure BeforeNonEsc (L : LockGraph) (g : Nodes) (o : StackAllocationOptions) (s : LockState) :
    Prop where
  nonEscObj : ∀ l ∈ L.locks, s.kind l = .nonEscObj → NonEsc L g o l
  eliminated : ∀ b, s.boxEliminated b = true → NestedBox L g o b
  nested : ∀ l ∈ L.locks, s.boxEliminated (L.boxNode l) = true → s.kind l = .nested
  coarsened : ∀ l ∈ L.locks, s.kind l = .coarsened → L.isCoarsened l = true

/-- After that, the locks of objects that do not escape globally have marked boxes. -/
structure AtNonEsc (L : LockGraph) (g : Nodes) (o : StackAllocationOptions) (s : LockState) :
    Prop where
  nonEscObj : ∀ l ∈ L.locks, s.kind l = .nonEscObj →
    NonEsc L g o l ∨ s.boxEliminated (L.boxNode l) = true
  eliminated : ∀ b, s.boxEliminated b = true → NestedBox L g o b ∨ NonEscBox L g o b
  nestedBox : ∀ b, NestedBox L g o b → s.boxEliminated b = true
  nested : ∀ l ∈ L.locks, NestedBox L g o (L.boxNode l) → s.kind l = .nested
  coarsened : ∀ l ∈ L.locks, s.kind l = .coarsened → L.isCoarsened l = true

/-- A lock of an object that escapes marks nothing that must wait for the others. -/
theorem BeforeNonEsc.step (ho : o.eliminateNestedLocks = true) {s : LockState}
    (hs : LockInv L g o s) (hb : BeforeNonEsc L g o s) {a : ℕ} (ha : a ∈ L.locks)
    (hnot : ¬ NonEsc L g o a) : BeforeNonEsc L g o (markEliminatedLockingNodes L o s a) := by
  obtain ⟨heq, -⟩ | ⟨hregion, hmarks⟩ | ⟨hk, -⟩ := markEliminatedLockingNodes_cases ho hs ha
  · rw [heq]
    exact hb
  · constructor
    · intro l hl hk
      rw [hmarks.kind l hl] at hk
      split at hk
      · exact absurd hk (by decide)
      · exact hb.nonEscObj l hl hk
    · intro b he
      obtain he | rfl := hmarks.boxEliminated_cases he
      · exact hb.eliminated b he
      · exact ⟨a, hregion, rfl⟩
    · intro l hl he
      rw [hmarks.kind l hl]
      split
      · rfl
      · next hbox => exact hb.nested l hl ((hmarks.boxEliminated_cases he).resolve_right hbox)
    · intro l hl hk
      rw [hmarks.kind l hl] at hk
      split at hk
      · exact absurd hk (by decide)
      · exact hb.coarsened l hl hk
  · exact absurd (hb.nonEscObj a ha hk) hnot

/-- A lock of an object that does not escape marks its box, which is done then. -/
theorem AtNonEsc.step (ho : o.eliminateNestedLocks = true) {s : LockState}
    (hs : LockInv L g o s) (hb : AtNonEsc L g o s) {a : ℕ} (ha : a ∈ L.locks)
    (hnon : NonEsc L g o a) : AtNonEsc L g o (markEliminatedLockingNodes L o s a) := by
  obtain ⟨heq, -⟩ | ⟨hregion, -⟩ | ⟨hk, heq⟩ := markEliminatedLockingNodes_cases ho hs ha
  · rw [heq]
    exact hb
  · exact absurd hnon hregion.not_nonEsc
  · rw [heq]
    have hnot : ¬ NestedBox L g o (L.boxNode a) := fun h =>
      absurd (hk.symm.trans (hb.nested a ha h)) (by decide)
    refine (markSameObject_invariant ho hs hb ?_).2
    intro s s' u hu heqv _ hP hel hmarks
    have hu' : ¬ NestedBox L g o (L.boxNode u) := fun h =>
      absurd (hel.symm.trans (hP.nestedBox _ h)) (by decide)
    constructor
    · intro l hl hk
      rw [hmarks.kind l hl] at hk
      split at hk
      · next hbox => exact .inr (hbox ▸ hmarks.boxEliminated_self)
      · exact (hP.nonEscObj l hl hk).imp id hmarks.boxEliminated_mono
    · intro b he
      obtain he | rfl := hmarks.boxEliminated_cases he
      · exact hP.eliminated b he
      · exact .inr ⟨a, ha, hnon, hnot, u, hu, heqv, rfl⟩
    · exact fun b h => hmarks.boxEliminated_mono (hP.nestedBox b h)
    · intro l hl h
      rw [hmarks.kind l hl]
      split
      · next hbox => exact absurd (hbox ▸ h) hu'
      · exact hP.nested l hl h
    · intro l hl hk
      rw [hmarks.kind l hl] at hk
      split at hk
      · exact absurd hk (by decide)
      · exact hP.coarsened l hl hk

/-- What an order that visits the locks marked by escape analysis last leaves. -/
theorem AtNonEsc.covered {s : LockState} (hs : LockInv L g o s) (hb : AtNonEsc L g o s) {l : ℕ}
    (hl : l ∈ L.locks) (hk : s.kind l ≠ .regular) : Covered L g o l := by
  cases hkind : s.kind l with
  | regular => exact absurd hkind hk
  | nonEscObj =>
    obtain hnon | hel := hb.nonEscObj l hl hkind
    · exact hnon.covered hl
    · exact .inr (hb.eliminated _ hel)
  | coarsened => exact .inl (hb.coarsened l hl hkind)
  | nested => exact .inr (.inl (hs.nested_kind l hl hkind).1)

/-- When the nodes that escape analysis did not mark have been visited, all boxes of nested lock
regions are marked. -/
theorem BeforeNonEsc.atNonEsc (ho : o.eliminateNestedLocks = true) {first : List ℕ}
    {s : LockState} (hs : LockInv L g o s) (hb : BeforeNonEsc L g o s)
    (hfirst : ∀ a, a ∈ first ↔ a ∈ L.locks ∧ ¬ NonEsc L g o a) :
    LockInv L g o (first.foldl (markEliminatedLockingNodes L o) s) ∧
      AtNonEsc L g o (first.foldl (markEliminatedLockingNodes L o) s) := by
  have hsub : first ⊆ L.locks := fun a ha => ((hfirst a).1 ha).1
  obtain ⟨hs', hb'⟩ := Loops.invariant (P := fun s => LockInv L g o s ∧ BeforeNonEsc L g o s)
    (f := markEliminatedLockingNodes L o) first ⟨hs, hb⟩ fun s a ha h =>
      ⟨(h.1.step ho (hsub ha)).1, h.2.step ho h.1 (hsub ha) ((hfirst a).1 ha).2⟩
  have hbox : ∀ b, NestedBox L g o b →
      (first.foldl (markEliminatedLockingNodes L o) s).boxEliminated b = true := by
    rintro b ⟨a, hregion, rfl⟩
    exact run_boxEliminated ho hs hsub ((hfirst a).2 ⟨hregion.mem, hregion.not_nonEsc⟩)
      fun s hs => hregion.reached ho hs
  exact ⟨hs', fun l hl hk => .inl (hb'.nonEscObj l hl hk), fun b he => .inl (hb'.eliminated b he),
    hbox, fun l hl h => hb'.nested l hl (hbox _ h), hb'.coarsened⟩

/-- In some order, only the locks that are covered are marked. -/
theorem exists_order_covered (ho : o.eliminateNestedLocks = true) {s : LockState}
    (hs : LockInv L g o s) (hb : BeforeNonEsc L g o s) :
    ∃ order : List ℕ, order.Perm L.locks ∧ ∀ l ∈ L.locks,
      (order.foldl (markEliminatedLockingNodes L o) s).kind l ≠ .regular → Covered L g o l := by
  classical
  let last := L.locks.filter fun l => decide (NonEsc L g o l)
  let first := L.locks.filter fun l => !decide (NonEsc L g o l)
  refine ⟨first ++ last, ?_, ?_⟩
  · exact List.perm_append_comm.trans (List.filter_append_perm _ _)
  · intro l hl hk
    have hfirst : ∀ a, a ∈ first ↔ a ∈ L.locks ∧ ¬ NonEsc L g o a := by simp [first]
    obtain ⟨hs₁, hb₁⟩ := hb.atNonEsc ho hs hfirst
    rw [List.foldl_append] at hk
    obtain ⟨hs₂, hb₂⟩ := Loops.invariant (P := fun s => LockInv L g o s ∧ AtNonEsc L g o s)
      (f := markEliminatedLockingNodes L o) last ⟨hs₁, hb₁⟩ fun s a ha h => by
        obtain ⟨hmem, hnon⟩ : a ∈ L.locks ∧ NonEsc L g o a := by simpa [last] using ha
        exact ⟨(h.1.step ho hmem).1, h.2.step ho h.1 hmem hnon⟩
    exact hb₂.covered hs₂ hl hk

end StackAllocation
