import StackAllocation.ClosedGraph
import Mathlib.Data.List.Perm.Basic

/-!
# Adjusting scalar replaceability

Step 3 of `compute_escape` goes over the objects that do not escape globally and clears
`scalar_replaceable` where an object is merged with another, has an unknown field, or is
accessed in a way that scalar replacement cannot follow. Examining one object may clear the
flag of others, also of objects that were examined and pushed before.

Merging is symmetric: two objects in one local variable, or two bases of one field, each
find the other. So what the examination of an object clears elsewhere its owner's own
examination clears too, and the order of the worklist makes no difference to the objects on
it. It does to an object that escapes globally: it is not on the worklist, nobody examines
it, and whether its flag is cleared depends on who is examined first.
-/

namespace StackAllocation

/-! ## The sources

The routine looks at the uses of an object and then at its fields. It returns in the middle of the
first loop if it finds a reason; the second loop marks objects and goes on. -/

/-- A user of an address, as far as the adjustment looks at it. -/
structure AddressUser : Type where
  isLoadStore : Bool
  isMem : Bool
  isMismatchedAccess : Bool
  deriving DecidableEq, Repr

/-- The `AddP` of a field: whether its base is top, whether its address is a `CheckCastPP`, and
its users. -/
structure AddressNode : Type where
  baseIsTop : Bool
  addressIsCheckCastPP : Bool
  users : List AddressUser
  deriving DecidableEq, Repr

/-- An unsafe access that was parsed as maybe off heap. -/
def AddressNode.isMaybeOffHeap (a : AddressNode) : Bool :=
  a.baseIsTop && a.addressIsCheckCastPP

/-- The field's value is unknown after the access. -/
def AddressUser.hidesValue (u : AddressUser) : Bool :=
  u.isLoadStore || (u.isMem && u.isMismatchedAccess)

/-- `set_scalar_replaceable(false)` -/
def clearScalarReplaceable (g : Nodes) (n : ℕ) : Nodes :=
  Function.update g n { g n with scalarReplaceable := false }

/-- Another object that the same node refers to: both lose their flags. -/
def markOther (jobj : ℕ) (g : Nodes) (e : ℕ) : Nodes :=
  if (g e).type = .javaObject ∧ e ≠ jobj then
    clearScalarReplaceable (clearScalarReplaceable g jobj) e
  else g

/-- The first loop of `adjust_scalar_replaceable_state`: whether the method returns in it. -/
def adjustUses (jobj : ℕ) : List Use → Nodes → Bool × Nodes
  | [], g => (false, g)
  -- only local variables have such uses
  | .base _ :: us, g => adjustUses jobj us g
  | .edge use :: us, g =>
    if (g use).type = .arraycopy then adjustUses jobj us g
    -- 1. stored into a field with unknown offset
    else if (g use).type = .field ∧ (g use).offset = none then
      (true, clearScalarReplaceable g jobj)
    -- 2. stored into a field with multiple bases one of which is null
    else if (g use).type = .field ∧ 1 < (g use).bases.length ∧ nullObj ∈ (g use).bases then
      (true, clearScalarReplaceable g jobj)
    else
      -- 3. merged with other objects
      let g := (g use).edges.foldl (markOther jobj) g
      if (g jobj).scalarReplaceable then adjustUses jobj us g else (true, g)

/-- The second loop of `adjust_scalar_replaceable_state`. -/
def adjustFields (A : ℕ → AddressNode) (jobj : ℕ) : List ℕ → Nodes → Nodes
  | [], g => g
  | field :: es, g =>
    if (g field).type = .arraycopy then adjustFields A jobj es g
    -- 4. a field with unknown offset
    else if (g field).offset = none then clearScalarReplaceable g jobj
    -- 5. an access after which the value is unknown
    else if (A field).isMaybeOffHeap then clearScalarReplaceable g jobj
    else if (A field).users.any AddressUser.hidesValue then clearScalarReplaceable g jobj
    -- 6. the address may point to more than one object
    else if 1 < (g field).bases.length then
      adjustFields A jobj es ((g field).bases.foldl (markOther jobj) g)
    else adjustFields A jobj es g

/-- `adjust_scalar_replaceable_state` -/
def adjustScalarReplaceableState (A : ℕ → AddressNode) (g : Nodes) (jobj : ℕ) : Nodes :=
  match adjustUses jobj (g jobj).uses g with
  | (true, g) => g
  | (false, g) => adjustFields A jobj (g jobj).edges g

/-- The state of step 3: the graph, `_is_non_escaping` of the ideal nodes, and `alloc_worklist`. -/
structure Adjustment : Type where
  graph : Nodes
  isNonEscaping : ℕ → Bool
  allocWorklist : List ℕ

/-- One turn of the loop of step 3. -/
def adjustObject (A : ℕ → AddressNode) (s : Adjustment) (ptn : ℕ) : Adjustment :=
  let noescape := decide ((s.graph ptn).escapeState = .noEscape)
  let flags :=
    if (s.graph ptn).ideal = .allocate ∨ (s.graph ptn).ideal = .callStaticJava then
      Function.update s.isNonEscaping ptn noescape
    else s.isNonEscaping
  if noescape && (s.graph ptn).scalarReplaceable then
    let g := adjustScalarReplaceableState A s.graph ptn
    if (g ptn).scalarReplaceable then ⟨g, flags, s.allocWorklist ++ [ptn]⟩
    else ⟨g, flags, s.allocWorklist⟩
  else ⟨clearScalarReplaceable s.graph ptn, flags, s.allocWorklist⟩

/-- Step 3 of `compute_escape`. -/
def adjustObjects (A : ℕ → AddressNode) (g : Nodes) (isNonEscaping : ℕ → Bool)
    (nonEscaped : List ℕ) : Adjustment :=
  nonEscaped.foldl (adjustObject A) ⟨g, isNonEscaping, []⟩

/-! ## What bars an object

The reasons do not depend on the flags, so they are the same whatever was cleared before. What is
cleared for another object is what this object's own examination would clear. -/

/-- The use shows that the object is stored where it cannot be followed, or is merged. -/
def UseBars (g : Nodes) (jobj use : ℕ) : Prop :=
  (g use).type ≠ .arraycopy ∧
    ((g use).type = .field ∧ (g use).offset = none ∨
      (g use).type = .field ∧ 1 < (g use).bases.length ∧ nullObj ∈ (g use).bases ∨
      ∃ e ∈ (g use).edges, (g e).type = .javaObject ∧ e ≠ jobj)

/-- The field is unknown, is accessed in an unknown way, or may be another object's. -/
def FieldBars (A : ℕ → AddressNode) (g : Nodes) (jobj field : ℕ) : Prop :=
  (g field).type ≠ .arraycopy ∧
    ((g field).offset = none ∨ (A field).isMaybeOffHeap = true ∨
      (A field).users.any AddressUser.hidesValue = true ∨
      1 < (g field).bases.length ∧ ∃ b ∈ (g field).bases, (g b).type = .javaObject ∧ b ≠ jobj)

/-- What the object's own examination finds. -/
def Barred (A : ℕ → AddressNode) (g : Nodes) (jobj : ℕ) : Prop :=
  (∃ use, .edge use ∈ (g jobj).uses ∧ UseBars g jobj use) ∨
    ∃ field ∈ (g jobj).edges, FieldBars A g jobj field

/-- The graphs differ in flags, and only nodes with `P` have lost theirs. -/
structure Cleared (P : ℕ → Prop) (g g' : Nodes) : Prop where
  rest : ∀ n, { g' n with scalarReplaceable := true } = { g n with scalarReplaceable := true }
  kept : ∀ n, ¬ P n → (g' n).scalarReplaceable = (g n).scalarReplaceable
  le : ∀ n, (g' n).scalarReplaceable = true → (g n).scalarReplaceable = true

namespace Cleared

variable {P : ℕ → Prop} {g g' g'' : Nodes}

theorem refl (P : ℕ → Prop) (g : Nodes) : Cleared P g g :=
  ⟨fun _ => rfl, fun _ _ => rfl, fun _ => id⟩

/-- Flags that are cleared in several steps. -/
theorem trans (h : Cleared P g g') (h' : Cleared P g' g'') : Cleared P g g'' where
  rest n := (h'.rest n).trans (h.rest n)
  kept n hn := (h'.kept n hn).trans (h.kept n hn)
  le n hn := h.le n (h'.le n hn)

/-- What is not the flag stays. -/
theorem same (h : Cleared P g g') {α : Type} (f : PointsToNode → α)
    (hf : ∀ m, f { m with scalarReplaceable := true } = f m) (n : ℕ) : f (g' n) = f (g n) := by
  rw [← hf, h.rest n, hf]

theorem type (h : Cleared P g g') (n : ℕ) : (g' n).type = (g n).type :=
  h.same PointsToNode.type (fun _ => rfl) n

theorem ideal (h : Cleared P g g') (n : ℕ) : (g' n).ideal = (g n).ideal :=
  h.same PointsToNode.ideal (fun _ => rfl) n

theorem edges (h : Cleared P g g') (n : ℕ) : (g' n).edges = (g n).edges :=
  h.same PointsToNode.edges (fun _ => rfl) n

theorem uses (h : Cleared P g g') (n : ℕ) : (g' n).uses = (g n).uses :=
  h.same PointsToNode.uses (fun _ => rfl) n

theorem bases (h : Cleared P g g') (n : ℕ) : (g' n).bases = (g n).bases :=
  h.same PointsToNode.bases (fun _ => rfl) n

theorem offset (h : Cleared P g g') (n : ℕ) : (g' n).offset = (g n).offset :=
  h.same PointsToNode.offset (fun _ => rfl) n

theorem escapeState (h : Cleared P g g') (n : ℕ) : (g' n).escapeState = (g n).escapeState :=
  h.same PointsToNode.escapeState (fun _ => rfl) n

/-- What bars an object does not depend on flags. -/
theorem useBars (h : Cleared P g g') {j u : ℕ} : UseBars g' j u ↔ UseBars g j u := by
  simp only [UseBars, h.type, h.offset, h.bases, h.edges]

/-- Which fields bar an object does not depend on the flags. -/
theorem fieldBars (h : Cleared P g g') {A : ℕ → AddressNode} {j f : ℕ} :
    FieldBars A g' j f ↔ FieldBars A g j f := by
  simp only [FieldBars, h.type, h.offset, h.bases]

/-- A flag that is cleared. -/
theorem clear (n : ℕ) (hn : P n ∨ (g n).scalarReplaceable = false) :
    Cleared P g (clearScalarReplaceable g n) where
  rest m := by
    rcases eq_or_ne m n with rfl | hne
    · rw [clearScalarReplaceable, Function.update_self]
    · rw [clearScalarReplaceable, Function.update_of_ne hne]
  kept m hm := by
    rcases eq_or_ne m n with rfl | hne
    · rw [clearScalarReplaceable, Function.update_self, hn.resolve_left hm]
    · rw [clearScalarReplaceable, Function.update_of_ne hne]
  le m hm := by
    rcases eq_or_ne m n with rfl | hne
    · rw [clearScalarReplaceable, Function.update_self] at hm
      cases hm
    · rwa [clearScalarReplaceable, Function.update_of_ne hne] at hm

end Cleared

/-- The flag is cleared. -/
@[simp] theorem clearScalarReplaceable_self (g : Nodes) (n : ℕ) :
    (clearScalarReplaceable g n n).scalarReplaceable = false := by
  rw [clearScalarReplaceable, Function.update_self]

section

variable {A : ℕ → AddressNode} {P : ℕ → Prop} {g g' : Nodes} {jobj : ℕ}

/-- Another object that shares a field or a variable with the one that is examined loses its flag
too. -/
theorem markOther_cleared {e : ℕ} (hj : P jobj)
    (he : (g e).type = .javaObject → e ≠ jobj → P e) : Cleared P g (markOther jobj g e) := by
  unfold markOther
  split
  · next h => exact (Cleared.clear jobj (.inl hj)).trans (Cleared.clear e (.inl (he h.1 h.2)))
  · exact Cleared.refl P g

/-- Marking the objects of a list. -/
theorem foldl_markOther_cleared {l : List ℕ}
    (hother : ∀ e ∈ l, (g e).type = .javaObject → e ≠ jobj → P e ∧ P jobj) :
    Cleared P g (l.foldl (markOther jobj) g) := by
  induction l generalizing g with
  | nil => exact Cleared.refl P g
  | cons e l ih =>
    obtain ⟨hhead, htail⟩ := List.forall_mem_cons.1 hother
    have hstep : Cleared P g (markOther jobj g e) := by
      by_cases h : (g e).type = .javaObject ∧ e ≠ jobj
      · exact markOther_cleared (hhead h.1 h.2).2 fun hty hne => (hhead hty hne).1
      · rw [markOther, if_neg h]
        exact Cleared.refl P g
    refine hstep.trans (ih fun e' he' hty hne => htail e' he' ?_ hne)
    rwa [hstep.type] at hty

/-- One other object in the list is enough. -/
theorem foldl_markOther_of_mem {l : List ℕ} (h : ∃ e ∈ l, (g e).type = .javaObject ∧ e ≠ jobj) :
    ((l.foldl (markOther jobj) g) jobj).scalarReplaceable = false := by
  have hkeep : ∀ (l : List ℕ) (g : Nodes), (g jobj).scalarReplaceable = false →
      ((l.foldl (markOther jobj) g) jobj).scalarReplaceable = false := by
    intro l g hfalse
    have hcleared : Cleared (fun _ => True) g (l.foldl (markOther jobj) g) :=
      foldl_markOther_cleared fun _ _ _ _ => ⟨trivial, trivial⟩
    by_contra htrue
    rw [Bool.not_eq_false] at htrue
    rw [hcleared.le jobj htrue] at hfalse
    cases hfalse
  induction l generalizing g with
  | nil =>
    obtain ⟨e, he, -⟩ := h
    exact absurd he List.not_mem_nil
  | cons e' l ih =>
    rw [List.foldl_cons]
    by_cases hmark : (g e').type = .javaObject ∧ e' ≠ jobj
    · apply hkeep
      rw [markOther, if_pos hmark, clearScalarReplaceable, Function.update_of_ne hmark.2.symm]
      exact clearScalarReplaceable_self g jobj
    · rw [markOther, if_neg hmark]
      obtain ⟨e, he, hother⟩ := h
      rcases List.mem_cons.1 he with rfl | he
      · exact absurd hother hmark
      · exact ih ⟨e, he, hother⟩

/-- Without other objects nothing is marked. -/
theorem foldl_markOther_of_not {l : List ℕ}
    (h : ¬ ∃ e ∈ l, (g e).type = .javaObject ∧ e ≠ jobj) : l.foldl (markOther jobj) g = g := by
  induction l with
  | nil => rfl
  | cons e l ih =>
    have hhead : ¬ ((g e).type = .javaObject ∧ e ≠ jobj) := fun he =>
      h ⟨e, List.mem_cons_self, he⟩
    rw [List.foldl_cons, markOther, if_neg hhead]
    exact ih fun ⟨e', he', hother⟩ => h ⟨e', List.mem_cons_of_mem _ he', hother⟩

/-! ## One examination

Each loop either finds a reason, and clears the flag of the object, or leaves the graph but for
flags of other objects that share a node with it. -/

/-- The uses of an object that is not barred by them leave the graph as it is. -/
theorem adjustUses_of_not {us : List Use} (hsr : (g jobj).scalarReplaceable = true)
    (h : ∀ use, .edge use ∈ us → ¬ UseBars g jobj use) :
    adjustUses jobj us g = (false, g) := by
  induction us with
  | nil => rfl
  | cons u us ih =>
    have htail := ih fun use hu => h use (List.mem_cons_of_mem _ hu)
    cases u with
    | base f => exact htail
    | edge use =>
      have hfree := h use List.mem_cons_self
      unfold adjustUses
      split
      · exact htail
      next hty =>
      split
      · next hbot => exact absurd ⟨hty, .inl hbot⟩ hfree
      split
      · next hnull => exact absurd ⟨hty, .inr (.inl hnull)⟩ hfree
      rw [foldl_markOther_of_not fun hother => hfree ⟨hty, .inr (.inr hother)⟩]
      simp only [hsr, if_true]
      exact htail

/-- One use that bars the object makes the method return. -/
theorem adjustUses_of_bars {us : List Use} (hsr : (g jobj).scalarReplaceable = true)
    (h : ∃ use, .edge use ∈ us ∧ UseBars g jobj use) :
    (adjustUses jobj us g).1 = true ∧
      ((adjustUses jobj us g).2 jobj).scalarReplaceable = false := by
  induction us with
  | nil =>
    obtain ⟨use, huse, -⟩ := h
    exact absurd huse List.not_mem_nil
  | cons u us ih =>
    cases u with
    | base f =>
      obtain ⟨use, huse, hbars⟩ := h
      refine ih ⟨use, ?_, hbars⟩
      rcases List.mem_cons.1 huse with heq | huse
      · cases heq
      · exact huse
    | edge use =>
      -- unless this use bars the object, a later one does
      have hlater : ¬ UseBars g jobj use → ∃ use', .edge use' ∈ us ∧ UseBars g jobj use' := by
        intro hfree
        obtain ⟨use', huse', hbars⟩ := h
        rcases List.mem_cons.1 huse' with heq | huse'
        · cases heq
          exact absurd hbars hfree
        · exact ⟨use', huse', hbars⟩
      unfold adjustUses
      split
      · next hty => exact ih (hlater fun hbars => hbars.1 hty)
      next hty =>
      split
      · exact ⟨rfl, clearScalarReplaceable_self g jobj⟩
      next hbot =>
      split
      · exact ⟨rfl, clearScalarReplaceable_self g jobj⟩
      next hnull =>
      by_cases hother : ∃ e ∈ (g use).edges, (g e).type = .javaObject ∧ e ≠ jobj
      · have hfalse := foldl_markOther_of_mem hother
        simp only [hfalse, Bool.false_eq_true, if_false]
        exact ⟨trivial, trivial⟩
      · rw [foldl_markOther_of_not hother]
        simp only [hsr, if_true]
        refine ih (hlater fun hbars => ?_)
        rcases hbars.2 with h | h | h
        · exact hbot h
        · exact hnull h
        · exact hother h

/-- What the first loop clears. -/
theorem adjustUses_cleared {us : List Use} (hj : P jobj)
    (hother : ∀ use, .edge use ∈ us → (g use).type ≠ .arraycopy → ∀ e ∈ (g use).edges,
      (g e).type = .javaObject → e ≠ jobj → P e) : Cleared P g (adjustUses jobj us g).2 := by
  induction us generalizing g with
  | nil => exact Cleared.refl P g
  | cons u us ih =>
    cases u with
    | base f => exact ih fun use hu => hother use (List.mem_cons_of_mem _ hu)
    | edge use =>
      unfold adjustUses
      split
      · exact ih fun use hu => hother use (List.mem_cons_of_mem _ hu)
      next hty =>
      split
      · exact Cleared.clear jobj (.inl hj)
      split
      · exact Cleared.clear jobj (.inl hj)
      have hmark : Cleared P g ((g use).edges.foldl (markOther jobj) g) :=
        foldl_markOther_cleared fun e he hety hne =>
          ⟨hother use List.mem_cons_self hty e he hety hne, hj⟩
      simp only
      split
      · refine hmark.trans (ih fun use' hu hty' e he hety => ?_)
        rw [hmark.type] at hty' hety
        rw [hmark.edges] at he
        exact hother use' (List.mem_cons_of_mem _ hu) hty' e he hety
      · exact hmark

/-- The second loop for an object that no field bars. -/
theorem adjustFields_of_not {es : List ℕ} (h : ∀ f ∈ es, ¬ FieldBars A g jobj f) :
    adjustFields A jobj es g = g := by
  induction es with
  | nil => rfl
  | cons f es ih =>
    obtain ⟨hfree, htail⟩ := List.forall_mem_cons.1 h
    unfold adjustFields
    split
    · exact ih htail
    next hty =>
    split
    · next hbot => exact absurd ⟨hty, .inl hbot⟩ hfree
    split
    · next hraw => exact absurd ⟨hty, .inr (.inl hraw)⟩ hfree
    split
    · next husers => exact absurd ⟨hty, .inr (.inr (.inl husers))⟩ hfree
    split
    · next hcount =>
      rw [foldl_markOther_of_not fun hother => hfree ⟨hty, .inr (.inr (.inr ⟨hcount, hother⟩))⟩]
      exact ih htail
    · exact ih htail

/-- What the second loop clears. -/
theorem adjustFields_cleared {es : List ℕ} (hj : P jobj)
    (hother : ∀ f ∈ es, (g f).type ≠ .arraycopy → 1 < (g f).bases.length → ∀ b ∈ (g f).bases,
      (g b).type = .javaObject → b ≠ jobj → P b) : Cleared P g (adjustFields A jobj es g) := by
  induction es generalizing g with
  | nil => exact Cleared.refl P g
  | cons f es ih =>
    obtain ⟨hhead, htail⟩ := List.forall_mem_cons.1 hother
    unfold adjustFields
    split
    · exact ih htail
    next hty =>
    split
    · exact Cleared.clear jobj (.inl hj)
    split
    · exact Cleared.clear jobj (.inl hj)
    split
    · exact Cleared.clear jobj (.inl hj)
    split
    · next hcount =>
      have hmark : Cleared P g ((g f).bases.foldl (markOther jobj) g) :=
        foldl_markOther_cleared fun b hb hbty hne => ⟨hhead hty hcount b hb hbty hne, hj⟩
      refine hmark.trans (ih fun f' hf' hty' hcount' b hb hbty => ?_)
      rw [hmark.type] at hty' hbty
      rw [hmark.bases] at hb hcount'
      exact htail f' hf' hty' hcount' b hb hbty
    · exact ih htail

/-- One field that bars the object clears its flag. -/
theorem adjustFields_of_bars {es : List ℕ} (h : ∃ f ∈ es, FieldBars A g jobj f) :
    ((adjustFields A jobj es g) jobj).scalarReplaceable = false := by
  induction es generalizing g with
  | nil =>
    obtain ⟨f, hf, -⟩ := h
    exact absurd hf List.not_mem_nil
  | cons f es ih =>
    -- unless this field bars the object, a later one does
    have hlater : ¬ FieldBars A g jobj f → ∃ f' ∈ es, FieldBars A g jobj f' := by
      intro hfree
      obtain ⟨f', hf', hbars⟩ := h
      rcases List.mem_cons.1 hf' with rfl | hf'
      · exact absurd hbars hfree
      · exact ⟨f', hf', hbars⟩
    unfold adjustFields
    split
    · next hty => exact ih (hlater fun hbars => hbars.1 hty)
    split
    · exact clearScalarReplaceable_self g jobj
    next hbot =>
    split
    · exact clearScalarReplaceable_self g jobj
    next hraw =>
    split
    · exact clearScalarReplaceable_self g jobj
    next husers =>
    split
    · next hcount =>
      by_cases hother : ∃ b ∈ (g f).bases, (g b).type = .javaObject ∧ b ≠ jobj
      · have hmarked := foldl_markOther_of_mem hother
        have hrest : Cleared (fun _ => True) ((g f).bases.foldl (markOther jobj) g)
            (adjustFields A jobj es ((g f).bases.foldl (markOther jobj) g)) :=
          adjustFields_cleared trivial fun _ _ _ _ _ _ _ _ => trivial
        exact Bool.eq_false_iff.2 fun htrue =>
          Bool.false_ne_true (hmarked.symm.trans (hrest.le jobj htrue))
      · rw [foldl_markOther_of_not hother]
        refine ih (hlater fun hbars => ?_)
        rcases hbars.2 with h | h | h | h
        · exact hbot h
        · exact hraw h
        · exact husers h
        · exact hother h.2
    · next hcount =>
      refine ih (hlater fun hbars => ?_)
      rcases hbars.2 with h | h | h | h
      · exact hbot h
      · exact hraw h
      · exact husers h
      · exact hcount h.1

/-- An object that is not barred is left, and the graph with it. -/
theorem adjustScalarReplaceableState_of_not (hsr : (g jobj).scalarReplaceable = true)
    (h : ¬ Barred A g jobj) : adjustScalarReplaceableState A g jobj = g := by
  have huses : adjustUses jobj (g jobj).uses g = (false, g) :=
    adjustUses_of_not hsr fun use hu hbars => h (.inl ⟨use, hu, hbars⟩)
  rw [adjustScalarReplaceableState, huses]
  exact adjustFields_of_not fun f hf hbars => h (.inr ⟨f, hf, hbars⟩)

/-- A barred object loses its flag. -/
theorem adjustScalarReplaceableState_of_barred (hsr : (g jobj).scalarReplaceable = true)
    (h : Barred A g jobj) :
    ((adjustScalarReplaceableState A g jobj) jobj).scalarReplaceable = false := by
  unfold adjustScalarReplaceableState
  by_cases hbars : ∃ use, .edge use ∈ (g jobj).uses ∧ UseBars g jobj use
  · obtain ⟨hreturns, hfalse⟩ := adjustUses_of_bars hsr hbars
    obtain ⟨returns, g', heq⟩ : ∃ returns g', adjustUses jobj (g jobj).uses g = (returns, g') :=
      ⟨_, _, rfl⟩
    rw [heq] at hreturns hfalse ⊢
    simp only at hreturns
    subst hreturns
    exact hfalse
  · rw [adjustUses_of_not hsr fun use hu hbar => hbars ⟨use, hu, hbar⟩]
    exact adjustFields_of_bars (h.resolve_left hbars)

/-- What an examination clears, the owner's own examination clears too: another object in a use
has the same use, another base of a field the same field. -/
theorem adjustScalarReplaceableState_cleared (hg : WellFormed g)
    (hjava : (g jobj).type = .javaObject) (hj : P jobj)
    (hbarred : ∀ n, Barred A g n → P n) (hnull : P nullObj) :
    Cleared P g (adjustScalarReplaceableState A g jobj) := by
  have huses : Cleared P g (adjustUses jobj (g jobj).uses g).2 := by
    refine adjustUses_cleared hj fun use hu hty e he hety hne => hbarred e (.inl ⟨use, ?_, ?_⟩)
    · refine (hg.mem_uses use e).2 ⟨he, fun hfield => ?_⟩
      rw [hety] at hfield
      cases hfield.2
    · exact ⟨hty, .inr (.inr ⟨jobj, ((hg.mem_uses use jobj).1 hu).1, hjava, hne.symm⟩)⟩
  obtain ⟨returns, g', heq⟩ : ∃ returns g', adjustUses jobj (g jobj).uses g = (returns, g') :=
    ⟨_, _, rfl⟩
  rw [heq] at huses
  rw [adjustScalarReplaceableState, heq]
  cases returns with
  | true => exact huses
  | false =>
    refine huses.trans (adjustFields_cleared hj fun f hf hty hcount b hb hbty hne => ?_)
    rw [huses.edges] at hf
    rw [huses.type] at hty hbty
    rw [huses.bases] at hcount hb
    by_cases hbnull : b = nullObj
    · rwa [hbnull]
    have hfield := (hg.bases_field f b hb).1
    have hbase := ((hg.mem_object_edges f jobj hjava hfield).1 hf).1
    refine hbarred b (.inr ⟨f, (hg.mem_object_edges f b hbty hfield).2 ⟨hb, hbnull⟩, hty, ?_⟩)
    exact .inr (.inr (.inr ⟨hcount, jobj, hbase, hjava, Ne.symm hne⟩))

/-! ## The loop

Since the reasons stay the same, the outcome of the loop is a set: the objects that are barred, and
those that share a node with an examined one. Which objects are in it does not depend on the
order. -/

/-- The graph stays well formed: nothing in it depends on the flags. -/
theorem Cleared.wellFormed (h : Cleared P g g') (hg : WellFormed g) : WellFormed g' := by
  have hptr := h.same PointsToNode.hasUnknownPtr fun _ => rfl
  have hbase := h.same PointsToNode.hasUnknownBase fun _ => rfl
  have hsrc := h.same PointsToNode.arraycopySrc fun _ => rfl
  have hdst := h.same PointsToNode.arraycopyDst fun _ => rfl
  have hfields := h.same PointsToNode.fieldsEscapeState fun _ => rfl
  constructor <;>
    simp only [h.type, h.ideal, h.edges, h.uses, h.bases, h.escapeState, hptr, hbase, hsrc, hdst,
      hfields]
  · exact hg.mem_uses
  · exact hg.mem_base_uses
  · exact hg.mem_object_edges
  · exact hg.bases_field
  · exact hg.object_edges
  · exact hg.unknownPtr
  · exact hg.unknownBase
  · exact hg.arraycopySrc
  · exact hg.arraycopyDst
  · exact hg.arraycopy_dst_type
  · exact hg.phantom_type
  · exact hg.phantom_escapes
  · exact hg.null_type
  · exact hg.null_ideal
  · exact hg.null_edges
  · exact hg.null_flags
  · exact hg.state_le

/-- Nor does it depend on the flags which objects are barred. -/
theorem Cleared.barred (h : Cleared P g g') {n : ℕ} : Barred A g' n ↔ Barred A g n := by
  simp only [Barred, h.uses, h.edges, h.useBars, h.fieldBars]

/-- The objects that step 3 takes the flag from. -/
def Loses (A : ℕ → AddressNode) (g : Nodes) (n : ℕ) : Prop :=
  Barred A g n ∨ n = nullObj ∨ (g n).escapeState ≠ .noEscape

/-- The worklist has objects apart from null. -/
def ListsObjects (g : Nodes) (l : List ℕ) : Prop :=
  ∀ n ∈ l, (g n).type = .javaObject ∧ n ≠ nullObj

variable {s : Adjustment}

/-- One turn: what it clears, what becomes of the object, and what is pushed. -/
theorem adjustObject_spec {n : ℕ} (hg : WellFormed g) (hs : Cleared (Loses A g) g s.graph)
    (hjava : (g n).type = .javaObject) (hnull : n ≠ nullObj) :
    Cleared (Loses A g) s.graph (adjustObject A s n).graph ∧
      (((adjustObject A s n).graph n).scalarReplaceable = true ↔
        (s.graph n).scalarReplaceable = true ∧ ¬ Loses A g n) ∧
      (adjustObject A s n).allocWorklist =
        s.allocWorklist ++
          [n].filter fun m => ((adjustObject A s n).graph m).scalarReplaceable := by
  unfold adjustObject
  simp only [Bool.and_eq_true, decide_eq_true_eq]
  split
  · next h =>
    obtain ⟨hescape, hsr⟩ := h
    by_cases hbarred : Barred A g n
    · have hfalse := adjustScalarReplaceableState_of_barred hsr (hs.barred.2 hbarred)
      have hcleared := adjustScalarReplaceableState_cleared (P := Loses A g) (A := A)
        (hs.wellFormed hg) (by rwa [hs.type]) (.inl hbarred)
        (fun m hm => .inl (hs.barred.1 hm)) (.inr (.inl rfl))
      simp only [hfalse, Bool.false_eq_true, if_false]
      refine ⟨hcleared, ?_, ?_⟩
      · simp [Loses, hbarred]
      · simp [hfalse]
    · have hsame := adjustScalarReplaceableState_of_not hsr fun hb => hbarred (hs.barred.1 hb)
      simp only [hsame, hsr, if_true]
      refine ⟨Cleared.refl _ _, ?_, ?_⟩
      · rw [hs.escapeState] at hescape
        simp [Loses, hbarred, hnull, hescape]
      · simp [hsr]
  · next h =>
    have hlost : Loses A g n ∨ (s.graph n).scalarReplaceable = false := by
      by_cases hsr : (s.graph n).scalarReplaceable = true
      · refine .inl (.inr (.inr fun hescape => h ⟨?_, hsr⟩))
        rwa [hs.escapeState]
      · exact .inr (Bool.eq_false_iff.2 hsr)
    refine ⟨Cleared.clear n hlost, ?_, ?_⟩
    · rw [clearScalarReplaceable_self]
      refine ⟨fun hfalse => absurd hfalse Bool.false_ne_true, fun ⟨hsr, hnot⟩ => ?_⟩
      rcases hlost with hlost | hlost
      · exact absurd hlost hnot
      · exact absurd (hlost.symm.trans hsr) Bool.false_ne_true
    · simp

/-- The loop: what it clears, which objects keep their flag, and what is pushed. -/
theorem foldl_adjustObject_spec {l : List ℕ} (hg : WellFormed g)
    (hs : Cleared (Loses A g) g s.graph) (hl : ListsObjects g l) :
    Cleared (Loses A g) s.graph (l.foldl (adjustObject A) s).graph ∧
      (∀ n ∈ l, ((l.foldl (adjustObject A) s).graph n).scalarReplaceable = true ↔
        (g n).scalarReplaceable = true ∧ ¬ Loses A g n) ∧
      (l.foldl (adjustObject A) s).allocWorklist = s.allocWorklist ++
        l.filter fun n => ((l.foldl (adjustObject A) s).graph n).scalarReplaceable := by
  induction l generalizing s with
  | nil => exact ⟨Cleared.refl _ _, fun n hn => absurd hn List.not_mem_nil, by simp⟩
  | cons n l ih =>
    obtain ⟨⟨hjava, hnull⟩, hl⟩ := List.forall_mem_cons.1 hl
    obtain ⟨hstep, hflag, hpushed⟩ := adjustObject_spec hg hs hjava hnull
    obtain ⟨hrest, hflags, hlist⟩ := ih (hs.trans hstep) hl
    rw [List.foldl_cons]
    -- after its own turn the object keeps what it has
    have hsettled : ((l.foldl (adjustObject A) (adjustObject A s n)).graph n).scalarReplaceable =
        ((adjustObject A s n).graph n).scalarReplaceable := by
      by_cases hlost : Loses A g n
      · have hfalse : ((adjustObject A s n).graph n).scalarReplaceable = false :=
          Bool.eq_false_iff.2 fun htrue => (hflag.1 htrue).2 hlost
        rw [hfalse]
        exact Bool.eq_false_iff.2 fun htrue =>
          Bool.false_ne_true (hfalse.symm.trans (hrest.le n htrue))
      · exact hrest.kept n hlost
    refine ⟨hstep.trans hrest, List.forall_mem_cons.2 ⟨?_, hflags⟩, ?_⟩
    · rw [hsettled, hflag]
      refine and_congr_left fun hkept => ?_
      rw [hs.kept n hkept]
    · rw [hlist, hpushed, List.append_assoc]
      congr 1
      simp only [List.filter_cons, List.filter_nil, hsettled]
      split <;> rfl

/-- Step 3 on a well-formed graph. -/
theorem adjustObjects_spec {l : List ℕ} (hg : WellFormed g) (hl : ListsObjects g l)
    (flags : ℕ → Bool) :
    (∀ n ∈ l, ((adjustObjects A g flags l).graph n).scalarReplaceable = true ↔
        (g n).scalarReplaceable = true ∧ ¬ Loses A g n) ∧
      (adjustObjects A g flags l).allocWorklist =
        l.filter fun n => ((adjustObjects A g flags l).graph n).scalarReplaceable := by
  obtain ⟨-, hflags, hlist⟩ := foldl_adjustObject_spec (s := ⟨g, flags, []⟩) (A := A) hg
    (Cleared.refl _ _) hl
  exact ⟨hflags, hlist⟩

end

/-! ## A completed graph

The graph after completion is well formed, and the worklist has all objects that may keep their
flag. Objects that are not on the list are not among those that matter. -/

/-- The allocations that are left scalar replaceable. -/
def LeftScalarReplaceable (A : ℕ → AddressNode) (g : Nodes) (flags : ℕ → Bool) (l : List ℕ)
    (n : ℕ) : Prop :=
  EscapeCandidate g n ∧ ((adjustObjects A g flags l).graph n).scalarReplaceable = true

/-- Every order of the worklist leaves the same allocations of `S` scalar replaceable, pushes the
same objects, and what is pushed is left scalar replaceable. -/
def OrderIndependent (A : ℕ → AddressNode) (g : Nodes) (flags : ℕ → Bool) (nonEscaped : List ℕ)
    (S : ℕ → Prop) : Prop :=
  ∀ l, l.Perm nonEscaped →
    (∀ n, S n →
      (LeftScalarReplaceable A g flags l n ↔ LeftScalarReplaceable A g flags nonEscaped n)) ∧
    (adjustObjects A g flags l).allocWorklist.Perm
      (adjustObjects A g flags nonEscaped).allocWorklist ∧
    ∀ n ∈ (adjustObjects A g flags l).allocWorklist,
      ((adjustObjects A g flags l).graph n).scalarReplaceable = true

/-- The loop gives the same flags for every order of the worklist. It is enough that the graph is
well formed and that the list has all objects. -/
theorem orderIndependent_of_wellFormed {A : ℕ → AddressNode} {g : Nodes} {nonEscaped : List ℕ}
    (hg : WellFormed g) (hl : ListsObjects g nonEscaped) (flags : ℕ → Bool) :
    OrderIndependent A g flags nonEscaped fun n => n ∈ nonEscaped := by
  intro l hperm
  have hl' : ListsObjects g l := fun n hn => hl n (hperm.mem_iff.1 hn)
  obtain ⟨hflags, hlist⟩ := adjustObjects_spec (A := A) hg hl flags
  obtain ⟨hflags', hlist'⟩ := adjustObjects_spec (A := A) hg hl' flags
  have hsame : ∀ n ∈ l, ((adjustObjects A g flags l).graph n).scalarReplaceable =
      ((adjustObjects A g flags nonEscaped).graph n).scalarReplaceable := fun n hn => by
    rw [Bool.eq_iff_iff, hflags' n hn, hflags n (hperm.mem_iff.1 hn)]
  refine ⟨fun n hn => ?_, ?_, fun n hn => ?_⟩
  · rw [LeftScalarReplaceable, LeftScalarReplaceable, hsame n (hperm.mem_iff.2 hn)]
  · rw [hlist, hlist', List.filter_congr hsame]
    exact hperm.filter _
  · rw [hlist'] at hn
    exact (List.mem_filter.1 hn).2

/-- The list that is left of completion has all objects that may keep their flag. -/
theorem ListsNonEscaped.listsObjects {g : Nodes} {l : List ℕ} (hg : WellFormed g)
    (h : ListsNonEscaped g l) : ListsObjects g l := by
  intro n hn
  obtain ⟨hjava, hideal⟩ := h.candidate n hn
  refine ⟨hjava, ?_⟩
  rintro rfl
  rw [hg.null_ideal] at hideal
  rcases hideal with hideal | hideal <;> cases hideal

/-- On a completed graph the order of the worklist makes no difference to the allocations that do
not escape globally. -/
theorem completeConnectionGraph_orderIndependent {fuel : ℕ} {clock : Clock} {W : Worklists}
    {I : InitInfo} {g g' : Nodes} {nonEscaped nonEscaped' : List ℕ}
    (hconstructed : Constructed W g nonEscaped)
    (h : completeConnectionGraph fuel clock W I g nonEscaped = some (.finished (g', nonEscaped')))
    (A : ℕ → AddressNode) (flags : ℕ → Bool) :
    OrderIndependent A g' flags nonEscaped' fun n =>
      n ∈ nonEscaped' ∨ (g' n).escapeState ≠ .globalEscape := by
  obtain ⟨hfinished, hlists⟩ := completeConnectionGraph_finished hconstructed h
  have hg := hfinished.wellFormed
  intro l hperm
  obtain ⟨hleft, hpushed⟩ :=
    orderIndependent_of_wellFormed (A := A) hg (hlists.listsObjects hg) flags l hperm
  refine ⟨fun n hn => ?_, hpushed⟩
  by_cases hcandidate : EscapeCandidate g' n
  · exact hleft n (hn.elim id (hlists.nonEscaped n hcandidate))
  · exact iff_of_false (fun h => hcandidate h.1) fun h => hcandidate h.1

/-! ### An object that escapes globally

Object 3 is returned (2) and is merged with 5 in one variable (4), and 5 with 7 in another
(6). Only 5 and 7 are on the worklist. -/

/-- The nodes of the example. -/
def returnedNodes : List PointsToNode :=
  [blankNode .javaObject .other .globalEscape,
   blankNode .javaObject .nullConP .noEscape,
   { blankNode .localVar .other .globalEscape with edges := [3] },
   { blankNode .javaObject .allocate .noEscape with uses := [.edge 2, .edge 4] },
   { blankNode .localVar .other .noEscape with edges := [3, 5] },
   { blankNode .javaObject .allocate .noEscape with uses := [.edge 4, .edge 6] },
   { blankNode .localVar .other .noEscape with edges := [5, 7] },
   { blankNode .javaObject .allocate .noEscape with uses := [.edge 6] }]

/-- The graph of the example. -/
def returnedGraph : Nodes := fun n => returnedNodes.getD n outside

/-- Its worklists. -/
def returnedWorklists : Worklists where
  ptnodes := List.range 8
  javaObjects := [0, 1, 3, 5, 7]
  oopFields := []

/-- No address is of interest. -/
def noAddress : AddressNode := ⟨false, false, []⟩

/-- The graph has eight nodes. -/
theorem returnedGraph_of_le {n : ℕ} (hn : 8 ≤ n) : returnedGraph n = outside := by
  have hlen : returnedNodes.length = 8 := rfl
  unfold returnedGraph
  rw [List.getD_eq_getElem?_getD, List.getElem?_eq_none (by omega)]
  rfl

/-- It is a graph that construction may leave. -/
theorem returnedGraph_constructed : Constructed returnedWorklists returnedGraph [3, 5, 7] := by
  refine constructed_of_lt (k := 8) ?_ (fun n => returnedGraph_of_le) (by decide) (by decide)
  exact wellFormed_of_lt (k := 8) (fun n => returnedGraph_of_le) (by decide) (by decide) (by decide)
    (by decide)

/-- The completion of the example finishes with two objects, and the flag at the returned object
depends on their order. -/
def returnedFlags : Ended (Nodes × List ℕ) → Bool
  | .finished (g, l) => decide (l = [5, 7] ∧ ((g 3).type = .javaObject ∧
      ((g 3).ideal = .allocate ∨ (g 3).ideal = .callStaticJava)) ∧
      ((adjustObjects (fun _ => noAddress) g (fun _ => false) [5, 7]).graph 3).scalarReplaceable =
        false ∧
      ((adjustObjects (fun _ => noAddress) g (fun _ => false) [7, 5]).graph 3).scalarReplaceable =
        true)
  | _ => false

/-- The completion of the example finishes; the two orders of the worklist leave different flags
at the returned object. -/
theorem completeConnectionGraph_returnedGraph :
    ∃ g, completeConnectionGraph 40 Clock.unlimited returnedWorklists exceptionInit returnedGraph
        [3, 5, 7] = some (.finished (g, [5, 7])) ∧ EscapeCandidate g 3 ∧
      ((adjustObjects (fun _ => noAddress) g (fun _ => false) [5, 7]).graph 3).scalarReplaceable =
        false ∧
      ((adjustObjects (fun _ => noAddress) g (fun _ => false) [7, 5]).graph 3).scalarReplaceable =
        true := by
  have h : (completeConnectionGraph 40 Clock.unlimited returnedWorklists exceptionInit
      returnedGraph [3, 5, 7]).any returnedFlags = true := by decide +kernel
  generalize completeConnectionGraph 40 Clock.unlimited returnedWorklists exceptionInit
    returnedGraph [3, 5, 7] = r at h ⊢
  obtain _ | ⟨⟨g, l⟩⟩ | _ := r
  · cases h
  · obtain ⟨rfl, hflags⟩ := of_decide_eq_true h
    exact ⟨g, rfl, hflags⟩
  · cases h

/-- With all allocations, also those that escape globally, the order matters. -/
theorem not_orderIndependent_returnedGraph :
    Constructed returnedWorklists returnedGraph [3, 5, 7] ∧
    ∃ g nonEscaped, completeConnectionGraph 40 Clock.unlimited returnedWorklists exceptionInit
        returnedGraph [3, 5, 7] = some (.finished (g, nonEscaped)) ∧
      ¬ OrderIndependent (fun _ => noAddress) g (fun _ => false) nonEscaped fun _ => True := by
  obtain ⟨g, hfinished, hcandidate, hfirst, hsecond⟩ := completeConnectionGraph_returnedGraph
  refine ⟨returnedGraph_constructed, g, [5, 7], hfinished, fun h => ?_⟩
  obtain ⟨hleft, -⟩ := h [7, 5] (List.Perm.swap 5 7 [])
  obtain ⟨-, htrue⟩ := (hleft 3 trivial).1 ⟨hcandidate, hsecond⟩
  exact Bool.false_ne_true (hfirst.symm.trans htrue)

/-- The order of the worklist of the example makes no difference to the others. -/
theorem orderIndependent_returnedGraph :
    ∃ g nonEscaped, completeConnectionGraph 40 Clock.unlimited returnedWorklists exceptionInit
        returnedGraph [3, 5, 7] = some (.finished (g, nonEscaped)) ∧
      OrderIndependent (fun _ => noAddress) g (fun _ => false) nonEscaped fun n =>
        n ∈ nonEscaped ∨ (g n).escapeState ≠ .globalEscape := by
  obtain ⟨g, hfinished, -⟩ := completeConnectionGraph_returnedGraph
  exact ⟨g, [5, 7], hfinished, completeConnectionGraph_orderIndependent returnedGraph_constructed
    hfinished (fun _ => noAddress) fun _ => false⟩

end StackAllocation
