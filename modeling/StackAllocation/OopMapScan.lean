import StackAllocation.OopMap
import Mathlib.Data.List.Lattice
import Mathlib.Data.List.Pairwise
import Mathlib.Tactic.Basic

/-!
# The frame scan visits the right slots

A compiled frame is well formed (`CompiledFrame`) when the slots its oop map and
its stack objects own do not overlap, and a reference into the frame is a
reference to one of its stack objects. For such a frame the scan terminates and
applies the closure to exactly the slots `CompiledFrame.ToVisit` describes, each
of them once (`CompiledFrame.oopLoop_scanned`).

The scan is a depth-first search whose stack is the C++ stack. The invariant
`Scanned` names what is still to be done, `pending`: the slots of the objects
that are being walked, and the slots of the map entries that are left. A slot
that is due (it belongs to the map, or to an object in `stack_oops`) is pending
or has been handled; the three step lemmas say how handling a slot and meeting a
new object change the pending slots, and the walk itself is an induction on fuel.
-/

namespace StackAllocation

section

variable {VMReg : Type} (F : FrameInfo VMReg) (flags : ScanFlags)

/-! ## The slots of a frame

The slots are those that the entries of the map name, and the reference fields of the stack objects.
They do not overlap, which is what the compiler has to see to. -/

/-- The slot of an entry that holds a reference. -/
def FrameInfo.entrySlot (omv : OopMapValue VMReg) : Option Slot :=
  match omv.type with
  | .oopValue => (F.location omv.reg).map fun loc => ⟨loc, false⟩
  | .narrowoopValue => (F.location omv.reg).map (F.narrowSlot flags omv.reg)
  | _ => none

/-- The slots of the oops and narrow oops of the map. -/
def FrameInfo.mapSlots : List Slot := F.map.filterMap (F.entrySlot flags)

/-- The slots of the derived pointers of the map. -/
def FrameInfo.derivedSlots : List Word :=
  F.map.filterMap fun omv => if omv.type = .derivedOopValue then F.location omv.reg else none

/-- The reference fields and elements of some objects; a type array has none. -/
def FrameInfo.fieldSlots (objects : List Word) : List Slot :=
  (objects.filter fun o => !F.isTypeArray o).flatMap F.oopSlots

end

/-- A compiled frame with its contents at the moment it is scanned. -/
structure CompiledFrame (VMReg : Type) (flags : ScanFlags) : Type extends FrameInfo VMReg where
  /-- the contents of the frame -/
  mem : Word → Word
  /-- the stack objects in the frame -/
  objects : List Word
  /-- there is a location for every register of the map -/
  located : ∀ omv ∈ map, (toFrameInfo.location omv.reg).isSome
  /-- no two of the map's slots and the objects' fields are in the same place -/
  nodup : (toFrameInfo.derivedSlots ++
    (toFrameInfo.mapSlots flags ++ toFrameInfo.fieldSlots objects).map Slot.addr).Nodup
  /-- the base of a derived pointer is not itself in the slot of a derived pointer -/
  base_notMem : ∀ omv ∈ map, omv.type = .derivedOopValue →
    ∀ b, toFrameInfo.location omv.contentReg = some b → b ∉ toFrameInfo.derivedSlots
  /-- a compressed reference is not a reference into the frame -/
  narrow_notInFrame : ∀ q ∈ toFrameInfo.mapSlots flags ++ toFrameInfo.fieldSlots objects,
    q.narrow = true → toFrameInfo.inFrame (toFrameInfo.load mem q) = false
  /-- a reference into the frame is a reference to one of the stack objects -/
  mem_objects : ∀ q ∈ toFrameInfo.mapSlots flags ++ toFrameInfo.fieldSlots objects,
    toFrameInfo.inFrame (toFrameInfo.load mem q) = true → toFrameInfo.load mem q ∈ objects
  /-- there are no stack objects when the runtime does not expect them -/
  runtime : flags.useStackAllocationRuntime = false →
    ∀ omv ∈ map, ∀ r, r = omv.reg ∨ r = omv.contentReg →
      ∀ loc, toFrameInfo.location r = some loc → toFrameInfo.inFrame (mem loc) = false

namespace CompiledFrame

variable {VMReg : Type} {flags : ScanFlags} (Fr : CompiledFrame VMReg flags)

/-! ## What is to be visited

The closure is to be applied to slots that refer out of the frame. A slot that refers to an object
in the frame is followed instead, and the slots of that object are treated in the same way. -/

/-- Whether a slot of the map is one the scan starts from: a compressed one, or
one that is not `NULL`. -/
def isRoot (q : Slot) : Bool := q.narrow || !Fr.isNull (Fr.mem q.addr)

/-- The slots the scan starts from. -/
def roots : List Slot := (Fr.mapSlots flags).filter Fr.isRoot

/-- The stack objects that are reachable from the frame through stack objects. -/
inductive Reached : Word → Prop
  | root {q : Slot} : q ∈ Fr.roots → Fr.inFrame (Fr.load Fr.mem q) = true →
      Reached (Fr.load Fr.mem q)
  | field {o : Word} {q : Slot} : Reached o → Fr.isTypeArray o = false → q ∈ Fr.oopSlots o →
      Fr.inFrame (Fr.load Fr.mem q) = true → Reached (Fr.load Fr.mem q)

/-- The slots the closure is to be applied to. -/
inductive ToVisit : Slot → Prop
  | root {q : Slot} : q ∈ Fr.roots → Fr.inFrame (Fr.load Fr.mem q) = false → ToVisit q
  | field {o : Word} {q : Slot} : Fr.Reached o → Fr.isTypeArray o = false → q ∈ Fr.oopSlots o →
      Fr.inFrame (Fr.load Fr.mem q) = false → ToVisit q

/-- The slots of the map and of the stack objects. -/
def refSlots : List Slot := Fr.mapSlots flags ++ Fr.fieldSlots Fr.objects

/-- The roots are among the slots of references. -/
theorem mem_refSlots_of_root {q : Slot} (hq : q ∈ Fr.roots) : q ∈ Fr.refSlots :=
  List.mem_append_left _ (List.mem_of_mem_filter hq)

/-- So are the fields of the objects in the frame, but for those of arrays of primitives. -/
theorem mem_refSlots_of_field {o : Word} {q : Slot} (ho : o ∈ Fr.objects)
    (ht : Fr.isTypeArray o = false) (hq : q ∈ Fr.oopSlots o) : q ∈ Fr.refSlots := by
  refine List.mem_append_right _ (List.mem_flatMap.mpr ⟨o, ?_, hq⟩)
  exact List.mem_filter.mpr ⟨ho, by simp [ht]⟩

/-- No two of the slots have the same address. -/
theorem addr_nodup : (Fr.refSlots.map Slot.addr).Nodup :=
  (List.nodup_append.mp Fr.nodup).2.1

/-- So no slot is listed twice. -/
theorem refSlots_nodup : Fr.refSlots.Nodup := Fr.addr_nodup.of_map _

/-- Two slots in one place are one slot. -/
theorem eq_of_addr_eq {q r : Slot} (hq : q ∈ Fr.refSlots) (hr : r ∈ Fr.refSlots)
    (h : q.addr = r.addr) : q = r :=
  List.inj_on_of_nodup_map Fr.addr_nodup hq hr h

/-- A slot of a reference is none of a derived pointer. -/
theorem addr_notMem_derivedSlots {q : Slot} (hq : q ∈ Fr.refSlots) :
    q.addr ∉ Fr.derivedSlots := fun hd =>
  (List.nodup_append.mp Fr.nodup).2.2 _ hd _ (List.mem_map_of_mem hq) rfl

/-- A slot of the map is not a field. -/
theorem notMem_mapSlots_of_field {o : Word} {q : Slot} (ho : o ∈ Fr.objects)
    (ht : Fr.isTypeArray o = false) (hq : q ∈ Fr.oopSlots o) : q ∉ Fr.mapSlots flags := by
  intro hmap
  have hfield : q ∈ Fr.fieldSlots Fr.objects :=
    List.mem_flatMap.mpr ⟨o, List.mem_filter.mpr ⟨ho, by simp [ht]⟩, hq⟩
  exact (List.nodup_append.mp Fr.refSlots_nodup).2.2 q hmap q hfield rfl

/-- A field has one owner. -/
theorem owner_unique {o p : Word} {q : Slot} (ho : o ∈ Fr.objects) (hp : p ∈ Fr.objects)
    (hto : Fr.isTypeArray o = false) (htp : Fr.isTypeArray p = false)
    (hqo : q ∈ Fr.oopSlots o) (hqp : q ∈ Fr.oopSlots p) : o = p := by
  have hpair := (List.nodup_flatMap.mp (List.nodup_append.mp Fr.refSlots_nodup).2.1).2
  have hsymm : Std.Symm (Function.onFun List.Disjoint Fr.oopSlots) :=
    ⟨fun _ _ h => List.Disjoint.symm h⟩
  by_contra hne
  exact hpair.forall (List.mem_filter.mpr ⟨ho, by simp [hto]⟩)
    (List.mem_filter.mpr ⟨hp, by simp [htp]⟩) hne hqo hqp

/-- The slots of one object are apart. -/
theorem oopSlots_nodup {o : Word} (ho : o ∈ Fr.objects) (ht : Fr.isTypeArray o = false) :
    (Fr.oopSlots o).Nodup :=
  (List.nodup_flatMap.mp (List.nodup_append.mp Fr.refSlots_nodup).2.1).1 o
    (List.mem_filter.mpr ⟨ho, by simp [ht]⟩)

/-! ## The invariant of the scan

What is to be done is kept as a list of pending slots. Every slot that has become due is on it or
has been handled, and no slot is handled twice; the contents of a pending slot are those from before
the scan. -/

/-- A slot is due if it belongs to the map or to an object the scan has met. -/
def Due (s : ScanState) (q : Slot) : Prop :=
  q ∈ Fr.roots ∨ ∃ o ∈ s.stackOops, q ∈ Fr.oopSlots o

/-- The scan has been to the object. -/
def Met (s : ScanState) (o : Word) : Prop := Fr.isTypeArray o = true ∨ o ∈ s.stackOops

/-- The slot needs no more work: it refers to an object of the frame the scan has
been to, or the closure was applied to it. -/
def Handled (s : ScanState) (q : Slot) : Prop :=
  if Fr.inFrame (Fr.load Fr.mem q) then Fr.Met s (Fr.load Fr.mem q) else q ∈ s.calls.map Prod.fst

/-- The invariant of the second loop of `all_do`, which started in `s₀`. -/
structure Scanned (s₀ : ScanState) (pending : List Slot) (s : ScanState) : Prop where
  /-- the objects met are reachable objects with references -/
  seen : ∀ o ∈ s.stackOops, o ∈ Fr.objects ∧ Fr.isTypeArray o = false ∧ Fr.Reached o
  /-- pending slots are due -/
  pending_due : ∀ q ∈ pending, Fr.Due s q
  /-- no slot is both visited and pending, none is either twice -/
  once : (s.calls.map Prod.fst ++ pending).Nodup
  /-- a slot that is due is pending or handled -/
  handled : ∀ q, Fr.Due s q → q ∈ pending ∨ Fr.Handled s q
  /-- the closure was applied to due slots, with the frame's own contents, which were not
  addresses in the frame -/
  calls : ∀ c ∈ s.calls, Fr.Due s c.1 ∧ c.2 = Fr.mem c.1.addr ∧
    Fr.inFrame (Fr.load Fr.mem c.1) = false
  /-- only the slots the closure was applied to have changed -/
  mem : ∀ a, a ∉ s.calls.map (fun c => c.1.addr) → s.mem a = s₀.mem a
  /-- the derived pointer table has not changed -/
  table : s.active = s₀.active ∧ s.entries = s₀.entries

variable {Fr} {s₀ s s' : ScanState} {pending : List Slot} {q : Slot}

/-- A slot that has to be visited stays so when more stack objects are met. -/
theorem Due.mono (h : s.stackOops ⊆ s'.stackOops) (hq : Fr.Due s q) : Fr.Due s' q := by
  rcases hq with hq | ⟨o, ho, hq⟩
  · exact .inl hq
  · exact .inr ⟨o, h ho, hq⟩

/-- A stack object that was met stays so. -/
theorem Met.mono {o : Word} (h : s.stackOops ⊆ s'.stackOops) (ho : Fr.Met s o) : Fr.Met s' o :=
  ho.imp_right fun hm => h hm

/-- Meeting more objects does not undo anything. -/
theorem Handled.mono {new : List Word} (h : s.stackOops ⊆ new) (hq : Fr.Handled s q) :
    Fr.Handled { s with stackOops := new } q := by
  unfold Handled at hq ⊢
  split
  · rw [if_pos ‹_›] at hq
    exact hq.mono h
  · rwa [if_neg ‹_›] at hq

/-- What is due is a slot of a reference. -/
theorem Scanned.mem_refSlots (h : Fr.Scanned s₀ pending s) (hq : Fr.Due s q) :
    q ∈ Fr.refSlots := by
  rcases hq with hq | ⟨o, ho, hq⟩
  · exact Fr.mem_refSlots_of_root hq
  · obtain ⟨hobj, ht, -⟩ := h.seen o ho
    exact Fr.mem_refSlots_of_field hobj ht hq

/-- A slot the closure was not applied to still has the contents it had before the
scan. -/
theorem Scanned.mem_eq (hs₀ : ∀ q ∈ Fr.refSlots, s₀.mem q.addr = Fr.mem q.addr)
    (h : Fr.Scanned s₀ pending s) (hq : q ∈ Fr.refSlots) (hnot : q ∉ s.calls.map Prod.fst) :
    s.mem q.addr = Fr.mem q.addr := by
  rw [h.mem, hs₀ q hq]
  intro hmem
  obtain ⟨c, hc, hac⟩ := List.mem_map.mp hmem
  have hcq : c.1 = q := Fr.eq_of_addr_eq (h.mem_refSlots (h.calls c hc).1) hq hac
  exact hnot (hcq ▸ List.mem_map_of_mem hc)

/-- A slot that has not been visited yet has its value from the start. -/
theorem Scanned.mem_eq_of_pending (hs₀ : ∀ q ∈ Fr.refSlots, s₀.mem q.addr = Fr.mem q.addr)
    (h : Fr.Scanned s₀ (q :: pending) s) : s.mem q.addr = Fr.mem q.addr :=
  h.mem_eq hs₀ (h.mem_refSlots (h.pending_due q List.mem_cons_self)) fun hmem =>
    (List.nodup_append.mp h.once).2.2 q hmem q List.mem_cons_self rfl

/-- So what is read from it is what was there at the start. -/
theorem Scanned.load_eq (hs₀ : ∀ q ∈ Fr.refSlots, s₀.mem q.addr = Fr.mem q.addr)
    (h : Fr.Scanned s₀ (q :: pending) s) : Fr.load s.mem q = Fr.load Fr.mem q := by
  rw [FrameInfo.load, FrameInfo.load, h.mem_eq_of_pending hs₀]

/-- A pending slot that refers into the frame refers to a reachable stack object, and
is not compressed. -/
theorem Scanned.target (h : Fr.Scanned s₀ (q :: pending) s)
    (hq : Fr.inFrame (Fr.load Fr.mem q) = true) :
    q.narrow = false ∧ Fr.load Fr.mem q ∈ Fr.objects ∧ Fr.Reached (Fr.load Fr.mem q) := by
  have hdue := h.pending_due q List.mem_cons_self
  have hslot := h.mem_refSlots hdue
  refine ⟨?_, Fr.mem_objects q hslot hq, ?_⟩
  · by_contra hn
    have := Fr.narrow_notInFrame q hslot (by simpa using hn)
    rw [hq] at this
    cases this
  · rcases hdue with hroot | ⟨o, ho, hqo⟩
    · exact .root hroot hq
    · obtain ⟨-, ht, hr⟩ := h.seen o ho
      exact .field hr ht hqo hq

/-! ### Steps

The scan does one of three things with a slot: it drops it, applies the closure, or meets a new
object. Each has its step lemma. -/

/-- A pending slot that has been handled is no longer pending. -/
theorem Scanned.drop (h : Fr.Scanned s₀ (q :: pending) s) (hq : Fr.Handled s q) :
    Fr.Scanned s₀ pending s := by
  refine ⟨h.seen, fun r hr => h.pending_due r (List.mem_cons_of_mem _ hr), ?_, ?_, h.calls,
    h.mem, h.table⟩
  · exact h.once.sublist ((List.sublist_cons_self _ _).append_left _)
  · intro r hr
    rcases h.handled r hr with hmem | hdone
    · rcases List.mem_cons.mp hmem with rfl | hmem
      · exact .inr hq
      · exact .inl hmem
    · exact .inr hdone

/-- The closure is applied to a pending slot. -/
theorem Scanned.doOop (hs₀ : ∀ q ∈ Fr.refSlots, s₀.mem q.addr = Fr.mem q.addr)
    (h : Fr.Scanned s₀ (q :: pending) s) (hq : Fr.inFrame (Fr.load Fr.mem q) = false)
    (closure : OopClosure) : Fr.Scanned s₀ pending (s.doOop closure q) := by
  have hdue := h.pending_due q List.mem_cons_self
  refine ⟨h.seen, fun r hr => h.pending_due r (List.mem_cons_of_mem _ hr), ?_, ?_, ?_, ?_,
    h.table⟩
  · have := h.once
    simpa [ScanState.doOop] using this
  · intro r hr
    rcases h.handled r hr with hmem | hdone
    · rcases List.mem_cons.mp hmem with rfl | hmem
      · right
        simp [Handled, hq, ScanState.doOop]
      · exact .inl hmem
    · right
      unfold Handled at hdone ⊢
      split
      · rwa [if_pos ‹_›] at hdone
      · rw [if_neg ‹_›] at hdone
        simp only [ScanState.doOop, List.map_append, List.mem_append]
        exact .inl hdone
  · intro c hc
    rcases List.mem_append.mp hc with hc | hc
    · exact h.calls c hc
    · obtain rfl := List.mem_singleton.mp hc
      exact ⟨hdue, h.mem_eq_of_pending hs₀, hq⟩
  · intro a ha
    simp only [ScanState.doOop, List.map_append, List.mem_append, not_or, List.map_cons,
      List.map_nil, List.mem_singleton] at ha
    simp only [ScanState.doOop]
    rw [Function.update_of_ne ha.2, h.mem a ha.1]

/-- A new object is met: its fields are now pending. -/
theorem Scanned.meet {o : Word} (h : Fr.Scanned s₀ pending s) (hobj : o ∈ Fr.objects)
    (ht : Fr.isTypeArray o = false) (hr : Fr.Reached o) (hnew : o ∉ s.stackOops) :
    Fr.Scanned s₀ (Fr.oopSlots o ++ pending) { s with stackOops := s.stackOops ++ [o] } := by
  have hsub : s.stackOops ⊆ s.stackOops ++ [o] := List.subset_append_left _ _
  -- no field of the new object was due before
  have hfresh : ∀ q ∈ Fr.oopSlots o, ¬ Fr.Due s q := by
    rintro q hq (hroot | ⟨p, hp, hqp⟩)
    · exact Fr.notMem_mapSlots_of_field hobj ht hq (List.mem_of_mem_filter hroot)
    · obtain ⟨hpo, hpt, -⟩ := h.seen p hp
      obtain rfl := Fr.owner_unique hobj hpo ht hpt hq hqp
      exact hnew hp
  refine ⟨?_, ?_, ?_, ?_, ?_, h.mem, h.table⟩
  · intro p hp
    rcases List.mem_append.mp hp with hp | hp
    · exact h.seen p hp
    · obtain rfl := List.mem_singleton.mp hp
      exact ⟨hobj, ht, hr⟩
  · intro q hq
    rcases List.mem_append.mp hq with hq | hq
    · exact .inr ⟨o, List.mem_append_right _ List.mem_cons_self, hq⟩
    · exact (h.pending_due q hq).mono hsub
  · obtain ⟨hcalls, hpend, hdisj⟩ := List.nodup_append.mp h.once
    refine List.nodup_append.mpr ⟨hcalls, List.nodup_append.mpr ⟨?_, hpend, ?_⟩, ?_⟩
    · exact Fr.oopSlots_nodup hobj ht
    · rintro q hq r hr rfl
      exact hfresh q hq (h.pending_due q hr)
    · rintro q hq r hr rfl
      rcases List.mem_append.mp hr with hr | hr
      · obtain ⟨c, hc, rfl⟩ := List.mem_map.mp hq
        exact hfresh c.1 hr (h.calls c hc).1
      · exact hdisj q hq q hr rfl
  · intro q hq
    rcases hq with hroot | ⟨p, hp, hqp⟩
    · exact (h.handled q (.inl hroot)).imp (List.mem_append_right _) (Handled.mono hsub)
    · rcases List.mem_append.mp hp with hp | hp
      · exact (h.handled q (.inr ⟨p, hp, hqp⟩)).imp (List.mem_append_right _)
          (Handled.mono hsub)
      · obtain rfl := List.mem_singleton.mp hp
        exact .inl (List.mem_append_left _ hqp)
  · intro c hc
    obtain ⟨hdue, hrest⟩ := h.calls c hc
    exact ⟨hdue.mono hsub, hrest⟩

/-! ## The walk

The walk of an object handles its slots and walks the objects that these refer to. Its statement
says which slots are left pending, and the induction is on the fuel, of which the objects that were
not met yet are the measure. -/

/-- The objects the scan has not met yet. -/
def unseen (Fr : CompiledFrame VMReg flags) (s : ScanState) : List Word :=
  Fr.objects.filter fun o => o ∉ s.stackOops

/-- Fewer objects are left when more were met. -/
theorem unseen_mono (h : s.stackOops ⊆ s'.stackOops) :
    (Fr.unseen s').length ≤ (Fr.unseen s).length := by
  apply List.Sublist.length_le
  apply List.monotone_filter_right
  intro o ho
  simp only [decide_eq_true_eq] at ho ⊢
  exact fun hm => ho (h hm)

/-- An object that is met for the first time leaves one less, which bounds the recursion. -/
theorem unseen_meet {o : Word} (hobj : o ∈ Fr.objects) (hnew : o ∉ s.stackOops) :
    (Fr.unseen { s with stackOops := s.stackOops ++ [o] }).length < (Fr.unseen s).length := by
  have hfilter : Fr.unseen { s with stackOops := s.stackOops ++ [o] } =
      (Fr.unseen s).filter fun p => p ≠ o := by
    simp only [unseen, List.filter_filter]
    congr 1
    funext p
    simp [and_comm]
  rw [hfilter, List.length_filter_lt_length_iff_exists]
  exact ⟨o, List.mem_filter.mpr ⟨hobj, by simpa using hnew⟩, by simp⟩

/-- A walk from `s` ends in a state where the pending slots are left, no object has
been forgotten, and `P` holds. -/
def WalksTo (Fr : CompiledFrame VMReg flags) (s₀ : ScanState) (pending : List Slot)
    (s : ScanState) (P : ScanState → Prop) (r : Option ScanState) : Prop :=
  ∃ s', r = some s' ∧ Fr.Scanned s₀ pending s' ∧ s.stackOops ⊆ s'.stackOops ∧ P s'

/-- A walk over fields, given that the recursive walk meets the objects it is
called for. -/
theorem oopClosureWalker_walksTo (hs₀ : ∀ q ∈ Fr.refSlots, s₀.mem q.addr = Fr.mem q.addr)
    (closure : OopClosure) {fuel : ℕ} {walk : Word → ScanState → Option ScanState}
    (hwalk : ∀ o s pending, Fr.Scanned s₀ pending s → o ∈ Fr.objects → Fr.Reached o →
      (Fr.unseen s).length < fuel → Fr.WalksTo s₀ pending s (fun s' => Fr.Met s' o) (walk o s))
    (qs : List Slot) :
    ∀ s, Fr.Scanned s₀ (qs ++ pending) s → (Fr.unseen s).length < fuel →
      Fr.WalksTo s₀ pending s (fun _ => True)
        (oopClosureWalker Fr.toFrameInfo closure walk qs s) := by
  induction qs with
  | nil =>
    intro s hs _
    exact ⟨s, rfl, hs, List.Subset.refl _, trivial⟩
  | cons q qs ih =>
    intro s hs hfuel
    rw [List.cons_append] at hs
    rw [oopClosureWalker, hs.load_eq hs₀]
    cases hq : Fr.inFrame (Fr.load Fr.mem q) with
    | true =>
      obtain ⟨hwide, hobj, hreach⟩ := hs.target hq
      have hload : s.mem q.addr = Fr.load Fr.mem q := by
        rw [← hs.load_eq hs₀, FrameInfo.load, hwide]
        rfl
      obtain ⟨s₁, hw, hs₁, hsub₁, hmet⟩ := hwalk _ s _ hs hobj hreach hfuel
      have hdone : Fr.Handled s₁ q := by
        rw [Handled, if_pos hq]
        exact hmet
      obtain ⟨s₂, hr, hs₂, hsub₂, -⟩ := ih s₁ (hs₁.drop hdone)
        (Nat.lt_of_le_of_lt (unseen_mono hsub₁) hfuel)
      refine ⟨s₂, ?_, hs₂, List.Subset.trans hsub₁ hsub₂, trivial⟩
      rw [if_pos rfl, hwide, hload, hw]
      exact hr
    | false =>
      obtain ⟨s₂, hr, hs₂, hsub, -⟩ := ih (s.doOop closure q) (hs.doOop hs₀ hq closure) hfuel
      exact ⟨s₂, hr, hs₂, hsub, trivial⟩

/-- The walk of an object meets it, by induction on the fuel, which covers the objects
not met yet. -/
theorem stackOopDo_walksTo (hs₀ : ∀ q ∈ Fr.refSlots, s₀.mem q.addr = Fr.mem q.addr)
    (closure : OopClosure) (fuel : ℕ) :
    ∀ o s pending, Fr.Scanned s₀ pending s → o ∈ Fr.objects → Fr.Reached o →
      (Fr.unseen s).length < fuel →
      Fr.WalksTo s₀ pending s (fun s' => Fr.Met s' o)
        (stackOopDo Fr.toFrameInfo closure fuel o s) := by
  induction fuel with
  | zero =>
    intro o s pending _ _ _ hfuel
    omega
  | succ fuel ih =>
    intro o s pending hs hobj hreach hfuel
    rw [stackOopDo]
    cases ht : Fr.isTypeArray o with
    | true => exact ⟨s, rfl, hs, List.Subset.refl _, .inl ht⟩
    | false =>
      by_cases hseen : o ∈ s.stackOops
      · refine ⟨s, ?_, hs, List.Subset.refl _, .inr hseen⟩
        rw [if_neg Bool.false_ne_true, if_pos hseen]
      · have hlt := unseen_meet hobj hseen
        obtain ⟨s', hr, hs', hsub, -⟩ :=
          oopClosureWalker_walksTo hs₀ closure ih (Fr.oopSlots o) _
            (hs.meet hobj ht hreach hseen) (by omega)
        refine ⟨s', ?_, hs', fun p hp => hsub (List.mem_append_left _ hp),
          .inr (hsub (List.mem_append_right _ List.mem_cons_self))⟩
        rw [if_neg Bool.false_ne_true, if_neg hseen]
        exact hr

/-! ## The loop over the map

The entries of the map are handled one after the other, with the slots of the later ones pending. At
the end nothing is pending and the calls of the closure are exactly the ones that were asked for. -/

/-- The slots the scan starts from, of some entries of the map. -/
def rootsOf (Fr : CompiledFrame VMReg flags) (omvs : List (OopMapValue VMReg)) : List Slot :=
  (omvs.filterMap (Fr.entrySlot flags)).filter Fr.isRoot

/-- An entry of a kind that this pass does not look at. -/
theorem rootsOf_cons_of_none {omv : OopMapValue VMReg} {omvs : List (OopMapValue VMReg)}
    (h : Fr.entrySlot flags omv = none) : Fr.rootsOf (omv :: omvs) = Fr.rootsOf omvs := by
  rw [rootsOf, List.filterMap_cons_none h, rootsOf]

/-- An entry whose slot has a reference. -/
theorem rootsOf_cons_of_root {omv : OopMapValue VMReg} {omvs : List (OopMapValue VMReg)}
    (h : Fr.entrySlot flags omv = some q) (hq : Fr.isRoot q = true) :
    Fr.rootsOf (omv :: omvs) = q :: Fr.rootsOf omvs := by
  rw [rootsOf, List.filterMap_cons_some h, List.filter_cons_of_pos hq, rootsOf]

/-- An entry whose slot has none is skipped. -/
theorem rootsOf_cons_of_null {omv : OopMapValue VMReg} {omvs : List (OopMapValue VMReg)}
    (h : Fr.entrySlot flags omv = some q) (hq : Fr.isRoot q = false) :
    Fr.rootsOf (omv :: omvs) = Fr.rootsOf omvs := by
  rw [rootsOf, List.filterMap_cons_some h, List.filter_cons_of_neg (by simp [hq]), rootsOf]

/-- The slot of an entry is a slot of the map. -/
theorem mem_mapSlots {omv : OopMapValue VMReg} (homv : omv ∈ Fr.map)
    (h : Fr.entrySlot flags omv = some q) : q ∈ Fr.mapSlots flags :=
  List.mem_filterMap.mpr ⟨omv, homv, h⟩

/-- The closure is not applied to a `NULL` of the map. -/
theorem Scanned.notMem_calls (h : Fr.Scanned s₀ pending s) (hmap : q ∈ Fr.mapSlots flags)
    (hnull : Fr.isRoot q = false) : q ∉ s.calls.map Prod.fst := by
  intro hmem
  obtain ⟨c, hc, rfl⟩ := List.mem_map.mp hmem
  rcases (h.calls c hc).1 with hroot | ⟨o, ho, hqo⟩
  · have := List.of_mem_filter hroot
    rw [hnull] at this
    cases this
  · obtain ⟨hobj, ht, -⟩ := h.seen o ho
    exact Fr.notMem_mapSlots_of_field hobj ht hqo hmap

/-- The flag is only off when there is nothing in the frame to find. -/
theorem flag_and_inFrame {omv : OopMapValue VMReg} (homv : omv ∈ Fr.map) {r : VMReg}
    (hr : r = omv.reg ∨ r = omv.contentReg) {loc : Word} (hloc : Fr.location r = some loc) :
    (flags.useStackAllocationRuntime && Fr.inFrame (Fr.mem loc)) = Fr.inFrame (Fr.mem loc) := by
  cases hflag : flags.useStackAllocationRuntime with
  | true => rw [Bool.true_and]
  | false => rw [Bool.false_and, Fr.runtime hflag omv homv r hr loc hloc]

/-- The loop over the entries of a map visits each root and all that it leads to in the frame. The
induction is on the entries, with the rest of them pending. -/
theorem oopLoop_scanned (hs₀ : ∀ q ∈ Fr.refSlots, s₀.mem q.addr = Fr.mem q.addr)
    (hverify : flags.verifyStack = false) (closure : OopClosure) {fuel : ℕ}
    (omvs : List (OopMapValue VMReg)) (hmap : ∀ omv ∈ omvs, omv ∈ Fr.map) :
    ∀ s, Fr.Scanned s₀ (Fr.rootsOf omvs) s → (Fr.unseen s).length < fuel →
      ∃ s', oopLoop Fr.toFrameInfo flags closure fuel omvs s = some s' ∧ Fr.Scanned s₀ [] s' := by
  induction omvs with
  | nil =>
    intro s hs _
    exact ⟨s, rfl, hs⟩
  | cons omv omvs ih =>
    intro s hs hfuel
    have homv := hmap omv List.mem_cons_self
    have ih := ih fun o ho => hmap o (List.mem_cons_of_mem _ ho)
    obtain ⟨loc, hloc⟩ := Option.isSome_iff_exists.mp (Fr.located omv homv)
    rw [oopLoop, hloc]
    cases htype : omv.type with
    | oopValue =>
      have hslot : Fr.entrySlot flags omv = some ⟨loc, false⟩ := by
        simp [FrameInfo.entrySlot, htype, hloc]
      cases hnull : Fr.isNull (Fr.mem loc) with
      | true =>
        have hroot : Fr.isRoot ⟨loc, false⟩ = false := by simp [isRoot, hnull]
        have hq := mem_mapSlots homv hslot
        have hmem : s.mem loc = Fr.mem loc :=
          hs.mem_eq hs₀ (List.mem_append_left _ hq) (hs.notMem_calls hq hroot)
        rw [rootsOf_cons_of_null hslot hroot] at hs
        simpa only [hmem, hnull, if_true] using ih s hs hfuel
      | false =>
        have hroot : Fr.isRoot ⟨loc, false⟩ = true := by simp [isRoot, hnull]
        rw [rootsOf_cons_of_root hslot hroot] at hs
        have hmem : s.mem loc = Fr.mem loc := hs.mem_eq_of_pending hs₀
        have hflag := flag_and_inFrame homv (.inl rfl) hloc
        simp only [hmem, hnull, hflag, hverify, Bool.false_and, Bool.false_eq_true, if_false]
        cases hin : Fr.inFrame (Fr.mem loc) with
        | true =>
          obtain ⟨-, hobj, hreach⟩ := hs.target (q := ⟨loc, false⟩) hin
          obtain ⟨s₁, hw, hs₁, hsub, hmet⟩ :=
            stackOopDo_walksTo hs₀ closure fuel _ s _ hs hobj hreach hfuel
          have hdone : Fr.Handled s₁ ⟨loc, false⟩ := by
            rw [Handled, if_pos (by exact hin)]
            exact hmet
          obtain ⟨s₂, hr, hs₂⟩ := ih s₁ (hs₁.drop hdone)
            (Nat.lt_of_le_of_lt (unseen_mono hsub) hfuel)
          refine ⟨s₂, ?_, hs₂⟩
          rw [if_pos rfl]
          rw [show Fr.mem loc = Fr.load Fr.mem ⟨loc, false⟩ from rfl, hw]
          exact hr
        | false =>
          have hs₁ := hs.doOop hs₀ (q := ⟨loc, false⟩) hin closure
          simpa only [Bool.false_eq_true, if_false] using ih _ hs₁ hfuel
    | narrowoopValue =>
      have hslot : Fr.entrySlot flags omv = some (Fr.narrowSlot flags omv.reg loc) := by
        simp [FrameInfo.entrySlot, htype, hloc]
      have hroot : Fr.isRoot (Fr.narrowSlot flags omv.reg loc) = true := rfl
      rw [rootsOf_cons_of_root hslot hroot] at hs
      have hin := Fr.narrow_notInFrame _ (List.mem_append_left _ (mem_mapSlots homv hslot)) rfl
      exact ih _ (hs.doOop hs₀ hin closure) hfuel
    | calleeSavedValue | derivedOopValue =>
      have hslot : Fr.entrySlot flags omv = none := by simp [FrameInfo.entrySlot, htype]
      rw [rootsOf_cons_of_none hslot] at hs
      exact ih s hs hfuel

/-- Every object reachable from the frame has been met once nothing is pending. -/
theorem Scanned.met_of_reached (h : Fr.Scanned s₀ [] s) {o : Word} (ho : Fr.Reached o) :
    Fr.Met s o := by
  have hhandled : ∀ q, Fr.Due s q → Fr.Handled s q := fun q hq =>
    (h.handled q hq).resolve_left List.not_mem_nil
  induction ho with
  | root hq hin =>
    have := hhandled _ (.inl hq)
    rwa [Handled, if_pos hin] at this
  | @field o q _ ht hq hin ih =>
    rcases ih with hta | hmem
    · rw [ht] at hta
      cases hta
    · have := hhandled _ (.inr ⟨o, hmem, hq⟩)
      rwa [Handled, if_pos hin] at this

/-- The closure was applied to the slots it was to be applied to. -/
theorem Scanned.mem_calls_iff (h : Fr.Scanned s₀ [] s) :
    q ∈ s.calls.map Prod.fst ↔ Fr.ToVisit q := by
  constructor
  · intro hq
    obtain ⟨c, hc, rfl⟩ := List.mem_map.mp hq
    obtain ⟨hdue, -, hin⟩ := h.calls c hc
    rcases hdue with hroot | ⟨o, ho, hqo⟩
    · exact .root hroot hin
    · obtain ⟨-, ht, hr⟩ := h.seen o ho
      exact .field hr ht hqo hin
  · intro hq
    have hhandled : Fr.Due s q → Fr.Handled s q := fun hd =>
      (h.handled q hd).resolve_left List.not_mem_nil
    cases hq with
    | root hroot hin =>
      have := hhandled (.inl hroot)
      rwa [Handled, if_neg (by simp [hin])] at this
    | @field o _ hr ht hqo hin =>
      rcases h.met_of_reached hr with hta | hmem
      · rw [ht] at hta
        cases hta
      · have := hhandled (.inr ⟨o, hmem, hqo⟩)
        rwa [Handled, if_neg (by simp [hin])] at this

/-- The scan starts with the slots of the map pending. -/
theorem scanned_start (hcalls : s.calls = []) :
    Fr.Scanned { s with stackOops := [] } Fr.roots { s with stackOops := [] } := by
  refine ⟨by simp, fun q hq => .inl hq, ?_, ?_, by simp [hcalls], fun _ _ => rfl, rfl, rfl⟩
  · simp only [hcalls, List.map_nil, List.nil_append]
    exact (Fr.refSlots_nodup.sublist (List.sublist_append_left _ _)).filter _
  · rintro q (hq | ⟨o, ho, -⟩)
    · exact .inl hq
    · simp at ho

end CompiledFrame

end StackAllocation
