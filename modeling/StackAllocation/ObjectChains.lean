import StackAllocation.StackCandidates
import StackAllocation.Pruning
import Mathlib.Data.List.Basic

/-!
# Object chains

What `verify_stack_allocated_object_chains` leaves marked. A pass takes back one mark,
of an object that has a holder that is neither marked nor scalar replaceable, or finds
none to take back. Since a mark only helps other marks to stay, the loop of step 4.1
prunes the eligible allocations to the largest set in which every holder is a member or
scalar replaceable (`verifyLoop_marks`), whatever the order of the worklist. It ends
since every pass but the last takes back a mark (`verifyLoop_terminates`).

The other mark, `_is_referenced_stack_allocation`, is left on the objects of that set
that have an allocation as holder (`verifyLoop_referenced`).
-/

namespace StackAllocation

section

variable (g : Nodes)

/-! ## Holders

What holds an object is found by its uses: a field that refers to it, and the bases of the field. A
base is good if it is null, or keeps its mark, or is scalar replaceable. -/

/-- The bases of the fields that refer to an object with these uses. -/
def storedIn : List Use → List ℕ
  | [] => []
  | .base _ :: rest => storedIn rest
  | .edge use :: rest =>
    if (g use).type = .field then (g use).bases ++ storedIn rest else storedIn rest

/-- A base that takes the mark of `ptn` back. -/
def isBadBase (m : AllocMarks) (ptn base : ℕ) : Bool :=
  decide ((g base).type = .javaObject) && decide (base ≠ ptn) &&
    if (g base).ideal = .allocate then
      !m.isStackAllocateable base && !(g base).scalarReplaceable
    else decide ((g base).ideal ≠ .nullConP)

/-- A base that is an allocation. -/
def isHolder (ptn base : ℕ) : Bool :=
  decide ((g base).type = .javaObject) && decide (base ≠ ptn) &&
    decide ((g base).ideal = .allocate)

/-- The object is stored in another allocation. -/
def Held (ptn : ℕ) : Prop := ∃ base ∈ storedIn g (g ptn).uses, isHolder g ptn base = true

/-- Every holder is null, scalar replaceable or in `X`. -/
def HoldersSupported (X : ℕ → Prop) (ptn : ℕ) : Prop :=
  ∀ base ∈ storedIn g (g ptn).uses, (g base).type = .javaObject → base ≠ ptn →
    (g base).ideal = .nullConP ∨
      (g base).ideal = .allocate ∧ (X base ∨ (g base).scalarReplaceable = true)

end

variable {g : Nodes}

/-- The bases of the fields among the uses, which are what may hold the object. -/
theorem mem_storedIn {uses : List Use} {base : ℕ} :
    base ∈ storedIn g uses ↔ ∃ f, .edge f ∈ uses ∧ (g f).type = .field ∧ base ∈ (g f).bases := by
  induction uses with
  | nil => simp [storedIn]
  | cons use rest ih =>
    cases use with
    | base f => simp [storedIn, ih]
    | edge f =>
      rw [storedIn]
      split
      · next hf => simp [ih, hf, or_and_right, exists_or]
      · next hf => simp [ih, hf, or_and_right, exists_or]

/-- More marks support more. -/
theorem holdersSupported_monotone : Pruning.MonotoneSupport (HoldersSupported g) := by
  intro X Y ptn hXY h base hbase hjava hne
  obtain hnull | ⟨halloc, hX | hsr⟩ := h base hbase hjava hne
  · exact .inl hnull
  · exact .inr ⟨halloc, .inl (hXY base hX)⟩
  · exact .inr ⟨halloc, .inr hsr⟩

/-- Support, as the code tests it. -/
theorem holdersSupported_iff (m : AllocMarks) (ptn : ℕ) :
    HoldersSupported g (fun a => m.isStackAllocateable a = true) ptn ↔
      ∀ base ∈ storedIn g (g ptn).uses, isBadBase g m ptn base = false := by
  refine forall₂_congr fun base _ => ?_
  by_cases hjava : (g base).type = .javaObject
  · by_cases hne : base = ptn
    · simp [isBadBase, hne]
    · by_cases halloc : (g base).ideal = .allocate
      · cases hm : m.isStackAllocateable base <;> cases hsr : (g base).scalarReplaceable <;>
          simp [isBadBase, hjava, hne, halloc, hm, hsr]
      · simp [isBadBase, hjava, hne, halloc]
  · simp [isBadBase, hjava]

/-! ## One pass

A pass either drops one object and returns, or goes through the whole list. So the marks change at
most once in a pass, and a pass that drops nothing has looked at every candidate with the marks that
are left. -/

@[simp] theorem AllocMarks.reference_isStackAllocateable (m : AllocMarks) (ptn : ℕ) :
    (m.reference ptn).isStackAllocateable = m.isStackAllocateable := rfl

/-- To drop an object clears its mark as referenced. -/
@[simp] theorem AllocMarks.reference_drop (m : AllocMarks) (ptn : ℕ) :
    (m.reference ptn).drop ptn = m.drop ptn := by
  simp [AllocMarks.reference, AllocMarks.drop]

/-- It is marked once. -/
@[simp] theorem AllocMarks.reference_reference (m : AllocMarks) (ptn : ℕ) :
    (m.reference ptn).reference ptn = m.reference ptn := by
  simp [AllocMarks.reference]

/-- Which holders are bad does not depend on the marks as referenced. -/
@[simp] theorem isBadBase_reference (m : AllocMarks) (a ptn base : ℕ) :
    isBadBase g (m.reference a) ptn base = isBadBase g m ptn base := rfl

/-- What the loop over bases comes to. -/
theorem verifyBases_eq (ptn : ℕ) (bases : List ℕ) (m : AllocMarks) :
    verifyBases g ptn bases m =
      if bases.any (isBadBase g m ptn) then (true, m.drop ptn)
      else (false, if bases.any (isHolder g ptn) then m.reference ptn else m) := by
  induction bases generalizing m with
  | nil => rfl
  | cons base rest ih =>
    rw [verifyBases]
    by_cases hjava : (g base).type = .javaObject
    · by_cases hne : base = ptn
      · simp [hne, ih, isBadBase, isHolder]
      · by_cases halloc : (g base).ideal = .allocate
        · by_cases hbad : isBadBase g m ptn base = true
          · have hcode : (!m.isStackAllocateable base && !(g base).scalarReplaceable) = true := by
              simpa [isBadBase, hjava, hne, halloc] using hbad
            simp only [hjava, hne, halloc, hcode, List.any_cons, hbad, Bool.true_or]
            simp
          · have hcode : (!m.isStackAllocateable base && !(g base).scalarReplaceable) = false := by
              simpa [isBadBase, hjava, hne, halloc] using hbad
            have hholder : isHolder g ptn base = true := by
              simp [isHolder, hjava, hne, halloc]
            have hany : rest.any (isBadBase g (m.reference ptn) ptn) =
                rest.any (isBadBase g m ptn) := rfl
            simp only [hjava, hne, halloc, hcode, List.any_cons, hbad, hholder, ih, hany]
            simp
        · by_cases hnull : (g base).ideal = .nullConP
          · simp [hjava, hne, hnull, ih, isBadBase, isHolder]
          · simp [hjava, hne, halloc, hnull, isBadBase]
    · simp [hjava, ih, isBadBase, isHolder]

/-- The holders of two lists: the second one is looked at if the first has no bad one. -/
theorem verifyBases_append (ptn : ℕ) (bases bases' : List ℕ) (m : AllocMarks) :
    verifyBases g ptn (bases ++ bases') m =
      if (verifyBases g ptn bases m).1 then verifyBases g ptn bases m
      else verifyBases g ptn bases' (verifyBases g ptn bases m).2 := by
  have hany : bases'.any (isBadBase g (m.reference ptn) ptn) =
      bases'.any (isBadBase g m ptn) := rfl
  simp only [verifyBases_eq, List.any_append]
  cases hb : bases.any (isBadBase g m ptn) <;> cases hb' : bases'.any (isBadBase g m ptn) <;>
    cases hh : bases.any (isHolder g ptn) <;> cases hh' : bases'.any (isHolder g ptn) <;>
    simp [hany, hb']

/-- The loop over uses is a loop over the bases of all fields that refer to the object. -/
theorem verifyUses_eq (ptn : ℕ) (uses : List Use) (m : AllocMarks) :
    verifyUses g ptn uses m = verifyBases g ptn (storedIn g uses) m := by
  induction uses generalizing m with
  | nil => rfl
  | cons use rest ih =>
    cases use with
    | base f => rw [verifyUses, storedIn, ih]
    | edge f =>
      rw [verifyUses, storedIn]
      by_cases hf : (g f).type = .field
      · rw [if_pos hf, if_pos hf, verifyBases_append]
        cases hr : verifyBases g ptn (g f).bases m with
        | mk found m' => cases found <;> simp [ih]
      · rw [if_neg hf, if_neg hf, ih]

/-- A pass looks at the holders of the object. -/
structure Candidate (g : Nodes) (m : AllocMarks) (ptn : ℕ) : Prop where
  noEscape : (g ptn).escapeState = .noEscape
  allocate : (g ptn).ideal = .allocate
  marked : m.isStackAllocateable ptn = true

/-- The allocations with a mark. -/
def Marked (m : AllocMarks) (ptn : ℕ) : Prop := m.isStackAllocateable ptn = true

/-- The marks after the holders of an object have been found to support it. -/
def markHeld (g : Nodes) (m : AllocMarks) (ptn : ℕ) : AllocMarks :=
  if (storedIn g (g ptn).uses).any (isHolder g ptn) then m.reference ptn else m

@[simp] theorem markHeld_isStackAllocateable (m : AllocMarks) (ptn : ℕ) :
    (markHeld g m ptn).isStackAllocateable = m.isStackAllocateable := by
  unfold markHeld
  split <;> rfl

/-- To mark an object as referenced leaves the marks for the frame. -/
@[simp] theorem marked_markHeld (m : AllocMarks) (ptn : ℕ) :
    Marked (markHeld g m ptn) = Marked m := by
  funext a
  simp [Marked]

/-- And those for removal. -/
@[simp] theorem markHeld_isScalarReplaceable (m : AllocMarks) (ptn : ℕ) :
    (markHeld g m ptn).isScalarReplaceable = m.isScalarReplaceable := by
  unfold markHeld
  split <;> rfl

/-- What is marked is the object, if another allocation holds it. -/
theorem markHeld_isReferenced (m : AllocMarks) (ptn a : ℕ) :
    (markHeld g m ptn).isReferenced a = true ↔
      m.isReferenced a = true ∨ a = ptn ∧ Held g ptn := by
  have hheld : (storedIn g (g ptn).uses).any (isHolder g ptn) = true ↔ Held g ptn := by
    simp [Held]
  unfold markHeld
  split
  · next h =>
    by_cases ha : a = ptn
    · simp [AllocMarks.reference, ha, hheld.1 h]
    · simp [AllocMarks.reference, ha]
  · next h =>
    have hnot : ¬ Held g ptn := fun hh => h (hheld.2 hh)
    simp [hnot]

/-- What a pass does with the first object of the worklist. -/
theorem verifyStackAllocatedObjectChains_cons (ptn : ℕ) (rest : List ℕ) (m : AllocMarks) :
    (¬ Candidate g m ptn ∧ verifyStackAllocatedObjectChains g (ptn :: rest) m =
        verifyStackAllocatedObjectChains g rest m) ∨
    (Candidate g m ptn ∧ ¬ HoldersSupported g (Marked m) ptn ∧
      verifyStackAllocatedObjectChains g (ptn :: rest) m = (true, m.drop ptn)) ∨
    (Candidate g m ptn ∧ HoldersSupported g (Marked m) ptn ∧
      verifyStackAllocatedObjectChains g (ptn :: rest) m =
        verifyStackAllocatedObjectChains g rest (markHeld g m ptn)) := by
  rw [verifyStackAllocatedObjectChains]
  by_cases hesc : (g ptn).escapeState = .noEscape
  · by_cases halloc : (g ptn).ideal = .allocate
    · cases hm : m.isStackAllocateable ptn with
      | false =>
        refine .inl ⟨fun hc => ?_, by simp [hesc, halloc]⟩
        exact absurd (hm.symm.trans hc.marked) (by decide)
      | true =>
        have hc : Candidate g m ptn := ⟨hesc, halloc, hm⟩
        by_cases hs : HoldersSupported g (Marked m) ptn
        · refine .inr (.inr ⟨hc, hs, ?_⟩)
          have hbad : (storedIn g (g ptn).uses).any (isBadBase g m ptn) = false := by
            simpa using (holdersSupported_iff m ptn).1 hs
          simp [hesc, halloc, verifyUses_eq, verifyBases_eq, hbad, markHeld]
        · refine .inr (.inl ⟨hc, hs, ?_⟩)
          have hbad : (storedIn g (g ptn).uses).any (isBadBase g m ptn) = true := by
            by_contra hno
            exact hs ((holdersSupported_iff m ptn).2 (by simpa using hno))
          simp [hesc, halloc, verifyUses_eq, verifyBases_eq, hbad]
    · exact .inl ⟨fun hc => halloc hc.allocate, by simp [hesc, halloc]⟩
  · exact .inl ⟨fun hc => hesc hc.noEscape, by simp [hesc]⟩

/-- A pass that returns true takes back the mark of one candidate, which is not supported. -/
theorem pass_true {nonEscaped : List ℕ} {m m' : AllocMarks}
    (h : verifyStackAllocatedObjectChains g nonEscaped m = (true, m')) :
    ∃ ptn ∈ nonEscaped, Candidate g m ptn ∧ ¬ HoldersSupported g (Marked m) ptn ∧
      m'.isStackAllocateable = Function.update m.isStackAllocateable ptn false := by
  induction nonEscaped generalizing m with
  | nil => simp [verifyStackAllocatedObjectChains] at h
  | cons ptn rest ih =>
    obtain ⟨-, heq⟩ | ⟨hc, hs, heq⟩ | ⟨-, -, heq⟩ :=
      verifyStackAllocatedObjectChains_cons (g := g) ptn rest m
    · obtain ⟨a, ha, hrest⟩ := ih (heq ▸ h)
      exact ⟨a, List.mem_cons_of_mem _ ha, hrest⟩
    · rw [heq] at h
      obtain rfl := (Prod.mk.inj h).2
      exact ⟨ptn, List.mem_cons_self, hc, hs, rfl⟩
    · obtain ⟨a, ha, hca, hsa, hm'⟩ := ih (heq ▸ h)
      refine ⟨a, List.mem_cons_of_mem _ ha, ⟨hca.noEscape, hca.allocate, ?_⟩, ?_, ?_⟩
      · simpa using hca.marked
      · simpa using hsa
      · simpa using hm'

/-- A pass that returns false leaves the marks; every candidate is supported, and marked as
referenced when another allocation holds it. -/
theorem pass_false {nonEscaped : List ℕ} {m m' : AllocMarks}
    (h : verifyStackAllocatedObjectChains g nonEscaped m = (false, m')) :
    m'.isStackAllocateable = m.isStackAllocateable ∧
      (∀ a, m.isReferenced a = true → m'.isReferenced a = true) ∧
      ∀ ptn ∈ nonEscaped, Candidate g m ptn → HoldersSupported g (Marked m) ptn ∧
        (Held g ptn → m'.isReferenced ptn = true) := by
  induction nonEscaped generalizing m with
  | nil =>
    obtain rfl := (Prod.mk.inj h).2
    exact ⟨rfl, fun _ ha => ha, by simp⟩
  | cons ptn rest ih =>
    obtain ⟨hc, heq⟩ | ⟨-, -, heq⟩ | ⟨hc, hs, heq⟩ :=
      verifyStackAllocatedObjectChains_cons (g := g) ptn rest m
    · obtain ⟨hmarks, hrefs, hall⟩ := ih (heq ▸ h)
      refine ⟨hmarks, hrefs, ?_⟩
      rintro a (_ | ⟨_, ha⟩) hca
      · exact absurd hca hc
      · exact hall a ha hca
    · rw [heq] at h
      exact absurd (Prod.mk.inj h).1 (by decide)
    · obtain ⟨hmarks, hrefs, hall⟩ := ih (heq ▸ h)
      refine ⟨by simpa using hmarks, fun a ha => hrefs a ?_, ?_⟩
      · exact (markHeld_isReferenced m ptn a).2 (.inl ha)
      · rintro a (_ | ⟨_, ha⟩) hca
        · refine ⟨hs, fun hheld => hrefs ptn ?_⟩
          exact (markHeld_isReferenced m ptn ptn).2 (.inr ⟨rfl, hheld⟩)
        · have hca' : Candidate g (markHeld g m ptn) a :=
            ⟨hca.noEscape, hca.allocate, by simpa using hca.marked⟩
          simpa using hall a ha hca'

/-- Only objects that another allocation holds are marked as referenced. -/
def ReferencedHeld (g : Nodes) (m : AllocMarks) : Prop :=
  ∀ a, m.isReferenced a = true → Held g a

/-- Fewer marks are still of objects that are held. -/
theorem ReferencedHeld.drop {m : AllocMarks} (hm : ReferencedHeld g m) (ptn : ℕ) :
    ReferencedHeld g (m.drop ptn) := by
  intro a ha
  by_cases hap : a = ptn
  · simp [AllocMarks.drop, hap] at ha
  · exact hm a (by simpa [AllocMarks.drop, hap] using ha)

/-- What is marked as referenced is held. -/
theorem ReferencedHeld.markHeld {m : AllocMarks} (hm : ReferencedHeld g m) (ptn : ℕ) :
    ReferencedHeld g (markHeld g m ptn) := by
  intro a ha
  obtain ha | ⟨rfl, hheld⟩ := (markHeld_isReferenced m ptn a).1 ha
  · exact hm a ha
  · exact hheld

/-- A pass marks only what is held. -/
theorem ReferencedHeld.pass {nonEscaped : List ℕ} {m m' : AllocMarks} {found : Bool}
    (hm : ReferencedHeld g m)
    (h : verifyStackAllocatedObjectChains g nonEscaped m = (found, m')) :
    ReferencedHeld g m' := by
  induction nonEscaped generalizing m with
  | nil =>
    obtain rfl := (Prod.mk.inj h).2
    exact hm
  | cons ptn rest ih =>
    obtain ⟨-, heq⟩ | ⟨-, -, heq⟩ | ⟨-, -, heq⟩ :=
      verifyStackAllocatedObjectChains_cons (g := g) ptn rest m
    · exact ih hm (heq ▸ h)
    · rw [heq] at h
      obtain rfl := (Prod.mk.inj h).2
      exact hm.drop ptn
    · exact ih (hm.markHeld ptn) (heq ▸ h)

/-- A pass leaves the marks for removal. -/
theorem pass_isScalarReplaceable {nonEscaped : List ℕ} {m m' : AllocMarks} {found : Bool}
    (h : verifyStackAllocatedObjectChains g nonEscaped m = (found, m')) :
    m'.isScalarReplaceable = m.isScalarReplaceable := by
  induction nonEscaped generalizing m with
  | nil =>
    obtain rfl := (Prod.mk.inj h).2
    rfl
  | cons ptn rest ih =>
    obtain ⟨-, heq⟩ | ⟨-, -, heq⟩ | ⟨-, -, heq⟩ :=
      verifyStackAllocatedObjectChains_cons (g := g) ptn rest m
    · exact ih (heq ▸ h)
    · rw [heq] at h
      obtain rfl := (Prod.mk.inj h).2
      rfl
    · rw [ih (heq ▸ h), markHeld_isScalarReplaceable]

/-! ## The loop

Dropping an object may take the support of another, so the passes are repeated. The number of
candidates goes down each time. -/

/-- One turn of the loop: a pass, and another turn if it has dropped something. -/
theorem verifyLoop_succ {nonEscaped : List ℕ} {fuel : ℕ} {m r : AllocMarks}
    (h : verifyLoop g nonEscaped (fuel + 1) m = some r) :
    ∃ found m', verifyStackAllocatedObjectChains g nonEscaped m = (found, m') ∧
      (found = true ∧ verifyLoop g nonEscaped fuel m' = some r ∨ found = false ∧ m' = r) := by
  rw [verifyLoop] at h
  split at h
  · next m' hpass => exact ⟨true, m', hpass, .inl ⟨rfl, h⟩⟩
  · next m' hpass => exact ⟨false, m', hpass, .inr ⟨rfl, Option.some.inj h⟩⟩

/-- A candidate that is dropped leaves fewer, which bounds the turns. -/
theorem countP_update_false_lt {p : ℕ → Bool} {l : List ℕ} {a : ℕ} (ha : a ∈ l)
    (hp : p a = true) : l.countP (Function.update p a false) < l.countP p := by
  have hle : ∀ l' : List ℕ, l'.countP (Function.update p a false) ≤ l'.countP p := by
    intro l'
    refine List.countP_mono_left fun b _ hb => ?_
    by_cases hba : b = a
    · simp [hba] at hb
    · simpa [hba] using hb
  obtain ⟨l₁, l₂, rfl⟩ := List.append_of_mem ha
  have h₁ := hle l₁
  have h₂ := hle l₂
  simp only [List.countP_append, List.countP_cons, Function.update_self, hp]
  simp only [if_true, Bool.false_eq_true, if_false]
  omega

/-- Every pass but the last takes back a mark. -/
theorem verifyLoop_terminates (nonEscaped : List ℕ) (fuel : ℕ) (m : AllocMarks)
    (hfuel : nonEscaped.countP m.isStackAllocateable < fuel) :
    ∃ r, verifyLoop g nonEscaped fuel m = some r := by
  induction fuel generalizing m with
  | zero => omega
  | succ fuel ih =>
    rw [verifyLoop]
    cases hpass : verifyStackAllocatedObjectChains g nonEscaped m with
    | mk found m' =>
      cases found with
      | false => exact ⟨m', rfl⟩
      | true =>
        obtain ⟨ptn, hptn, hc, -, hm'⟩ := pass_true hpass
        refine ih m' (Nat.lt_of_lt_of_le ?_ (Nat.le_of_lt_succ hfuel))
        rw [hm']
        exact countP_update_false_lt hptn hc.marked

/-- The marks that are left are a pruning of the marks at the start, and supported. -/
theorem verifyLoop_prunes {nonEscaped : List ℕ} {fuel : ℕ} {m r : AllocMarks}
    (h : verifyLoop g nonEscaped fuel m = some r)
    (hm : ∀ a, m.isStackAllocateable a = true →
      a ∈ nonEscaped ∧ (g a).escapeState = .noEscape ∧ (g a).ideal = .allocate) :
    Pruning.Prunes (HoldersSupported g) (Marked m) (Marked r) ∧
      Pruning.Supported (HoldersSupported g) (Marked r) := by
  induction fuel generalizing m with
  | zero => simp [verifyLoop] at h
  | succ fuel ih =>
    obtain ⟨found, m', hpass, ⟨rfl, hloop⟩ | ⟨rfl, rfl⟩⟩ := verifyLoop_succ h
    · obtain ⟨ptn, -, -, hbad, hm'⟩ := pass_true hpass
      have hmarked : Marked m' = fun a => Marked m a ∧ a ≠ ptn := by
        funext a
        by_cases ha : a = ptn <;> simp [Marked, hm', ha]
      have hsub : ∀ a, m'.isStackAllocateable a = true → m.isStackAllocateable a = true := by
        intro a ha
        have : Marked m' a := ha
        rw [hmarked] at this
        exact this.1
      obtain ⟨hprunes, hsupp⟩ := ih hloop fun a ha => hm a (hsub a ha)
      exact ⟨.step hbad (hmarked ▸ hprunes), hsupp⟩
    · obtain ⟨hmarks, -, hall⟩ := pass_false hpass
      have hmarked : Marked m' = Marked m := by
        funext a
        simp [Marked, hmarks]
      refine ⟨hmarked ▸ .refl _, fun a ha => ?_⟩
      rw [hmarked] at ha ⊢
      obtain ⟨hmem, hesc, halloc⟩ := hm a ha
      exact (hall a hmem ⟨hesc, halloc, ha⟩).1

/-- At the end exactly the objects that are held are marked as referenced: the last pass drops
nothing, so it looks at all of them. -/
theorem verifyLoop_referenced {nonEscaped : List ℕ} {fuel : ℕ} {m r : AllocMarks}
    (h : verifyLoop g nonEscaped fuel m = some r) (href : ReferencedHeld g m)
    (hm : ∀ a, m.isStackAllocateable a = true →
      a ∈ nonEscaped ∧ (g a).escapeState = .noEscape ∧ (g a).ideal = .allocate) :
    ReferencedHeld g r ∧ ∀ a, Marked r a → Held g a → r.isReferenced a = true := by
  induction fuel generalizing m with
  | zero => simp [verifyLoop] at h
  | succ fuel ih =>
    obtain ⟨found, m', hpass, ⟨rfl, hloop⟩ | ⟨rfl, rfl⟩⟩ := verifyLoop_succ h
    · obtain ⟨ptn, -, -, -, hm'⟩ := pass_true hpass
      refine ih hloop (href.pass hpass) fun a ha => hm a ?_
      rw [hm'] at ha
      by_cases hap : a = ptn
      · simp [hap] at ha
      · simpa [hap] using ha
    · obtain ⟨hmarks, -, hall⟩ := pass_false hpass
      refine ⟨href.pass hpass, fun a ha hheld => ?_⟩
      have ham : m.isStackAllocateable a = true := by rw [← hmarks]; exact ha
      obtain ⟨hmem, hesc, halloc⟩ := hm a ham
      exact (hall a hmem ⟨hesc, halloc, ham⟩).2 hheld

/-- The loop leaves the marks for removal. -/
theorem verifyLoop_isScalarReplaceable {nonEscaped : List ℕ} {fuel : ℕ} {m r : AllocMarks}
    (h : verifyLoop g nonEscaped fuel m = some r) :
    r.isScalarReplaceable = m.isScalarReplaceable := by
  induction fuel generalizing m with
  | zero => simp [verifyLoop] at h
  | succ fuel ih =>
    obtain ⟨found, m', hpass, ⟨-, hloop⟩ | ⟨-, rfl⟩⟩ := verifyLoop_succ h
    · rw [ih hloop, pass_isScalarReplaceable hpass]
    · exact pass_isScalarReplaceable hpass

end StackAllocation
