import StackAllocation.PointsTo
import Mathlib.Logic.Basic

/-!
# Folding pointer comparisons

`optimizePtrCompare` answers a comparison of two references from what the connection
graph says they may point to. A points-to set over-approximates the value of a
reference: the value is denoted by one of the Java objects in the set. An allocation
denotes all the objects it creates, which are several when it is in a loop; the
phantom object denotes what the analysis does not see, hence no object of an
allocation that does not escape.

The answers are right except in one case. Two references to one non-escaping
allocation are taken for equal (`Comparing the same not escaping object`), but they
may refer to objects it created in different iterations.
-/

namespace StackAllocation

/-- What `optimize_ptr_compare` replaces a comparison by. -/
inductive PointerComparison : Type where
  /-- `_pcmp_eq` -/
  | pcmpEq
  /-- `_pcmp_neq` -/
  | pcmpNeq
  deriving DecidableEq, Repr

/-- The value of a reference. -/
inductive RefValue : Type where
  | null
  /-- the object a Java object node created as its `instance`-th -/
  | created (site instanceNumber : ℕ)
  /-- an object from elsewhere -/
  | external (n : ℕ)
  deriving DecidableEq, Repr

/-- `is_Allocate() || is_CallStaticJava()`. -/
def IdealKind.isAllocateOrCall : IdealKind → Bool
  | .allocate | .callStaticJava => true
  | _ => false

/-- What is known of the constants among the Java objects. Types are unique: `t1 == t2`
compares the constants. -/
structure PointerConstants (g : Nodes) (Ty : Type) : Type where
  /-- `ideal_node()->is_Con()`, which also holds of top -/
  isCon : ℕ → Bool
  /-- `get_ptr_type()->make_ptr()` -/
  ptrType : ℕ → Ty
  /-- the pointer a constant type stands for -/
  valueOf : Ty → RefValue
  not_isCon : ∀ j, (g j).ideal.isAllocateOrCall = true → isCon j = false
  valueOf_ne_created : ∀ t j i, valueOf t ≠ .created j i
  valueOf_inj : ∀ j k, isCon j = true → isCon k = true → j ≠ phantomObj → k ≠ phantomObj →
    valueOf (ptrType j) = valueOf (ptrType k) → ptrType j = ptrType k

/-! ## The code

The comparison is of two nodes of the connection graph. What the code looks at is the unique object
of a node, if it has one, the points-to sets, and the states of the objects; constants are compared
by their types. -/

section

variable (g : Nodes)

/-- The loop of `unique_java_object` over the edges. -/
def uniqueJavaObjectLoop : List ℕ → Option ℕ → Option ℕ
  | [], jobj => jobj
  | e :: es, jobj =>
    if (g e).type = .javaObject then
      match jobj with
      | none => uniqueJavaObjectLoop es (some e)
      | some j => if j ≠ e then none else uniqueJavaObjectLoop es (some j)
    else uniqueJavaObjectLoop es jobj

/-- `unique_java_object`, for a node of the graph. -/
def uniqueJavaObject (n : ℕ) : Option ℕ :=
  if (g n).type = .javaObject then some n else uniqueJavaObjectLoop g (g n).edges none

/-- `PointsToNode::points_to`. -/
def pointsTo (n j : ℕ) : Bool :=
  if (g n).type = .javaObject then decide (n = j) else decide (j ∈ (g n).edges)

/-- `PointsToNode::meet`. -/
def meet (n m : ℕ) : Bool :=
  if n = m then true
  else if (g m).type = .javaObject then pointsTo g n m
  else if (g n).type = .javaObject then pointsTo g m n
  else (g n).edges.any fun e => decide (e ∈ (g m).edges)

/-- `escape_state() == NoEscape` of an allocation or call. -/
def isNonEscapingAllocation (j : ℕ) : Bool :=
  decide ((g j).escapeState = .noEscape) && (g j).ideal.isAllocateOrCall

/-- `PointsToNode::non_escaping_allocation`. -/
def nonEscapingAllocation (n : ℕ) : Bool :=
  if (g n).type = .javaObject then isNonEscapingAllocation g n
  else (g n).edges.all fun e =>
    if (g e).type = .javaObject then isNonEscapingAllocation g e else true

variable {Ty : Type} [DecidableEq Ty] {g} (C : PointerConstants g Ty)

/-- The comparison of two constants. -/
def compareConstants (jobj₁ jobj₂ : Option ℕ) : Option PointerComparison :=
  match jobj₁, jobj₂ with
  | some j₁, some j₂ =>
    if j₁ ≠ phantomObj ∧ j₂ ≠ phantomObj ∧ C.isCon j₁ = true ∧ C.isCon j₂ = true then
      if C.ptrType j₁ = C.ptrType j₂ then some .pcmpEq else some .pcmpNeq
    else none
  | _, _ => none

variable (g) in
/-- The comparison of disjoint points-to sets. -/
def compareSets (n₁ n₂ : ℕ) : Option PointerComparison :=
  if meet g n₁ n₂ then none
  else
    let set1HasUnknownPtr := pointsTo g n₁ phantomObj
    let set2HasUnknownPtr := pointsTo g n₂ phantomObj
    let set1HasNullPtr := pointsTo g n₁ nullObj
    let set2HasNullPtr := pointsTo g n₂ nullObj
    if (set1HasUnknownPtr && set2HasNullPtr) || (set2HasUnknownPtr && set1HasNullPtr) then none
    else if !set1HasUnknownPtr && !set1HasNullPtr && nonEscapingAllocation g n₁ then some .pcmpNeq
    else if !set2HasUnknownPtr && !set2HasNullPtr && nonEscapingAllocation g n₂ then some .pcmpNeq
    else none

variable (g) in
/-- The reference to a unique non-escaping object compared with another one. -/
def compareNonEscaping (jobj : Option ℕ) (other : ℕ) : Bool :=
  match jobj with
  | some j => isNonEscapingAllocation g j && !pointsTo g other j
  | none => false

variable (g) in
/-- Both references have the same non-escaping object. -/
def sameNonEscaping (jobj₁ jobj₂ : Option ℕ) : Bool :=
  match jobj₁ with
  | some j => decide ((g j).escapeState = .noEscape) && decide (jobj₂ = some j)
  | none => false

/-- `optimize_ptr_compare`, for a comparison of two references. -/
def optimizePtrCompare (n₁ n₂ : ℕ) : Option PointerComparison :=
  let jobj₁ := uniqueJavaObject g n₁
  let jobj₂ := uniqueJavaObject g n₂
  if sameNonEscaping g jobj₁ jobj₂ then some .pcmpEq
  else if compareNonEscaping g jobj₁ n₂ then some .pcmpNeq
  else if compareNonEscaping g jobj₂ n₁ then some .pcmpNeq
  else
    match compareConstants C jobj₁ jobj₂ with
    | some answer => some answer
    | none => compareSets g n₁ n₂

end

/-! ## What references may be

A Java object of the graph stands for all objects that its allocation creates, or for whatever is
unknown. So two references with one object in the graph may still be two objects, if the allocation
is run again. -/

section

variable {g : Nodes} {Ty : Type} (C : PointerConstants g Ty)

variable (g) in
/-- The object was created by an allocation that does not escape. -/
def RefValue.Hidden (v : RefValue) : Prop :=
  ∃ j i, v = .created j i ∧ isNonEscapingAllocation g j = true

/-- The references a Java object stands for. -/
inductive Denotes : ℕ → RefValue → Prop
  /-- an object an allocation or a call creates -/
  | created {j : ℕ} (i : ℕ) : (g j).ideal.isAllocateOrCall = true → Denotes j (.created j i)
  /-- a constant, `NULL` among them -/
  | constant {j : ℕ} : C.isCon j = true → j ≠ phantomObj → Denotes j (C.valueOf (C.ptrType j))
  /-- what the analysis does not see -/
  | unseen {j : ℕ} {v : RefValue} : (g j).escapeState ≠ .noEscape →
      C.isCon j = false ∨ j = phantomObj → ¬ v.Hidden g → Denotes j v

variable (g) in
/-- The points-to set of a reference. -/
def InPointsToSet (n j : ℕ) : Prop := (g j).type = .javaObject ∧ pointsTo g n j = true

/-- The points-to set over-approximates the value of a reference. -/
def Covers (n : ℕ) (v : RefValue) : Prop := ∃ j, InPointsToSet g n j ∧ Denotes C j v

/-- An execution that reaches the comparison: the values of the references, where only an
allocation that `repeats` has created more than one object. -/
structure Comparison (repeats : ℕ → Prop) (n₁ n₂ : ℕ) : Type where
  value : ℕ → RefValue
  covers_left : Covers C n₁ (value n₁)
  covers_right : Covers C n₂ (value n₂)
  once : ∀ n j i, value n = .created j i → i ≠ 0 → repeats j

/-- The answer is right in every execution. -/
def ComparesSoundly [DecidableEq Ty] (repeats : ℕ → Prop) (n₁ n₂ : ℕ) : Prop :=
  ∀ E : Comparison C repeats n₁ n₂,
    (optimizePtrCompare C n₁ n₂ = some .pcmpEq → E.value n₁ = E.value n₂) ∧
      (optimizePtrCompare C n₁ n₂ = some .pcmpNeq → E.value n₁ ≠ E.value n₂)

variable (g) in
/-- Two references have one and the same non-escaping allocation as their only object, and
the allocation is repeated. -/
def SharesRepeated (repeats : ℕ → Prop) (n₁ n₂ : ℕ) : Prop :=
  n₁ ≠ n₂ ∧ ∃ j, uniqueJavaObject g n₁ = some j ∧ uniqueJavaObject g n₂ = some j ∧
    isNonEscapingAllocation g j = true ∧ repeats j

/-! ## The queries

What each query of the code says of the points-to sets, with no word of executions. -/

/-- The loop over the edges keeps to the one object that it has found, and gives up at another. -/
theorem uniqueJavaObjectLoop_eq {j k : ℕ} {es : List ℕ}
    (h : uniqueJavaObjectLoop g es (some k) = some j) :
    j = k ∧ ∀ e ∈ es, (g e).type = .javaObject → e = j := by
  induction es with
  | nil => exact ⟨(Option.some.inj h).symm, fun e he => absurd he List.not_mem_nil⟩
  | cons e es ih =>
    rw [uniqueJavaObjectLoop] at h
    split at h
    case isTrue =>
      split at h
      case isTrue => cases h
      case isFalse hke =>
        obtain ⟨rfl, hes⟩ := ih h
        refine ⟨rfl, fun e' he' htype => ?_⟩
        rcases List.mem_cons.1 he' with rfl | he'
        · exact (not_not.1 hke).symm
        · exact hes e' he' htype
    case isFalse hne =>
      obtain ⟨rfl, hes⟩ := ih h
      refine ⟨rfl, fun e' he' htype => ?_⟩
      rcases List.mem_cons.1 he' with rfl | he'
      · exact absurd htype hne
      · exact hes e' he' htype

/-- What it returns is the only object among the edges. -/
theorem uniqueJavaObjectLoop_none {j : ℕ} {es : List ℕ}
    (h : uniqueJavaObjectLoop g es none = some j) :
    j ∈ es ∧ (g j).type = .javaObject ∧ ∀ e ∈ es, (g e).type = .javaObject → e = j := by
  induction es with
  | nil => cases h
  | cons e es ih =>
    rw [uniqueJavaObjectLoop] at h
    split at h
    case isTrue htype =>
      obtain ⟨rfl, hes⟩ := uniqueJavaObjectLoop_eq h
      refine ⟨List.mem_cons_self, htype, fun e' he' htype' => ?_⟩
      rcases List.mem_cons.1 he' with rfl | he'
      · rfl
      · exact hes e' he' htype'
    case isFalse hne =>
      obtain ⟨hmem, htype, hes⟩ := ih h
      refine ⟨List.mem_cons_of_mem _ hmem, htype, fun e' he' htype' => ?_⟩
      rcases List.mem_cons.1 he' with rfl | he'
      · exact absurd htype' hne
      · exact hes e' he' htype'

/-- A unique Java object is the points-to set. -/
theorem inPointsToSet_iff_of_unique {n j : ℕ} (h : uniqueJavaObject g n = some j) (k : ℕ) :
    InPointsToSet g n k ↔ k = j := by
  rw [InPointsToSet, pointsTo]
  rw [uniqueJavaObject] at h
  split at h
  case isTrue htype =>
    obtain rfl := Option.some.inj h
    rw [if_pos htype, decide_eq_true_eq]
    refine ⟨fun hk => hk.2.symm, ?_⟩
    rintro rfl
    exact ⟨htype, rfl⟩
  case isFalse htype =>
    obtain ⟨hmem, hj, hes⟩ := uniqueJavaObjectLoop_none h
    rw [if_neg htype, decide_eq_true_eq]
    refine ⟨fun hk => hes k hk.2 hk.1, ?_⟩
    rintro rfl
    exact ⟨hj, hmem⟩

/-- References whose sets meet nowhere have no common object. -/
theorem disjoint_of_not_meet {n₁ n₂ : ℕ} (h : ¬ meet g n₁ n₂ = true) {j : ℕ}
    (h₁ : InPointsToSet g n₁ j) (h₂ : InPointsToSet g n₂ j) : False := by
  rw [meet] at h
  split at h
  case isTrue => exact h rfl
  case isFalse =>
    rw [InPointsToSet, pointsTo] at h₁ h₂
    by_cases htype₂ : (g n₂).type = .javaObject
    · rw [if_pos htype₂] at h
      rw [if_pos htype₂, decide_eq_true_eq] at h₂
      obtain ⟨-, rfl⟩ := h₂
      exact h h₁.2
    · rw [if_neg htype₂] at h
      rw [if_neg htype₂, decide_eq_true_eq] at h₂
      by_cases htype₁ : (g n₁).type = .javaObject
      · rw [if_pos htype₁] at h
        rw [if_pos htype₁, decide_eq_true_eq] at h₁
        obtain ⟨-, rfl⟩ := h₁
        rw [pointsTo, if_neg htype₂, decide_eq_true_eq] at h
        exact h h₂.2
      · rw [if_neg htype₁] at h
        rw [if_neg htype₁, decide_eq_true_eq] at h₁
        refine h (List.any_eq_true.2 ⟨j, h₁.2, ?_⟩)
        rw [decide_eq_true_eq]
        exact h₂.2

/-- If all objects of a node are allocations that do not escape, so is each of them. -/
theorem isNonEscapingAllocation_of_mem {n j : ℕ} (h : nonEscapingAllocation g n = true)
    (hj : InPointsToSet g n j) : isNonEscapingAllocation g j = true := by
  rw [nonEscapingAllocation] at h
  rw [InPointsToSet, pointsTo] at hj
  split at h
  case isTrue htype =>
    rw [if_pos htype, decide_eq_true_eq] at hj
    obtain ⟨-, rfl⟩ := hj
    exact h
  case isFalse htype =>
    rw [if_neg htype, decide_eq_true_eq] at hj
    have hall := List.all_eq_true.1 h j hj.2
    rwa [if_pos hj.1] at hall

/-! ## What they tell of the values

The points-to set covers the value of a reference in every execution. From this each query gives a
fact about values: that two references differ, or that they are one object. -/

variable {C}

/-- A non-escaping allocation stands for the objects it creates only. -/
theorem Denotes.exists_created {j : ℕ} {v : RefValue} (h : Denotes C j v)
    (hj : isNonEscapingAllocation g j = true) : ∃ i, v = .created j i := by
  rw [isNonEscapingAllocation, Bool.and_eq_true, decide_eq_true_eq] at hj
  cases h with
  | created i => exact ⟨i, rfl⟩
  | constant hcon =>
    rw [C.not_isCon j hj.2] at hcon
    cases hcon
  | unseen hescape => exact absurd hj.1 hescape

/-- No other Java object stands for them. -/
theorem Denotes.eq_of_created {j k i : ℕ} (h : Denotes C k (.created j i))
    (hj : isNonEscapingAllocation g j = true) : k = j := by
  generalize hv : RefValue.created j i = v at h
  cases h with
  | created => exact (RefValue.created.inj hv).1.symm
  | constant => exact absurd hv.symm (C.valueOf_ne_created _ _ _)
  | unseen _ _ hseen => exact absurd ⟨j, i, hv.symm, hj⟩ hseen

/-- A reference to a non-escaping allocation differs from one that does not point to it. -/
theorem ne_of_not_inPointsToSet {n₂ j : ℕ} {v₁ v₂ : RefValue}
    (hj : isNonEscapingAllocation g j = true) (h₁ : Denotes C j v₁) (h₂ : Covers C n₂ v₂)
    (hn : ¬ InPointsToSet g n₂ j) : v₁ ≠ v₂ := by
  obtain ⟨i, rfl⟩ := h₁.exists_created hj
  obtain ⟨k, hk, hdenotes⟩ := h₂
  rintro rfl
  obtain rfl := hdenotes.eq_of_created hj
  exact hn hk

/-- A constant other than the unknown object stands for one value. -/
theorem Denotes.eq_valueOf {j : ℕ} {v : RefValue} (h : Denotes C j v) (hcon : C.isCon j = true)
    (hphantom : j ≠ phantomObj) : v = C.valueOf (C.ptrType j) := by
  cases h with
  | created _ hkind =>
    rw [C.not_isCon j hkind] at hcon
    cases hcon
  | constant => rfl
  | unseen _ hunseen =>
    rcases hunseen with hnot | heq
    · rw [hnot] at hcon
      cases hcon
    · exact absurd heq hphantom

/-- The value of a reference with a unique Java object. -/
theorem Covers.denotes {n j : ℕ} {v : RefValue} (h : Covers C n v)
    (hunique : uniqueJavaObject g n = some j) : Denotes C j v := by
  obtain ⟨k, hk, hdenotes⟩ := h
  obtain rfl := (inPointsToSet_iff_of_unique hunique k).1 hk
  exact hdenotes

/-- A single allocation that does not escape, and a node that cannot refer to it. -/
theorem Covers.ne_of_compareNonEscaping {n₁ n₂ : ℕ} {v₁ v₂ : RefValue} (h₁ : Covers C n₁ v₁)
    (h₂ : Covers C n₂ v₂) (h : compareNonEscaping g (uniqueJavaObject g n₁) n₂ = true) :
    v₁ ≠ v₂ := by
  cases hunique : uniqueJavaObject g n₁ with
  | none =>
    rw [hunique] at h
    cases h
  | some j =>
    rw [hunique, compareNonEscaping, Bool.and_eq_true, Bool.not_eq_true'] at h
    refine ne_of_not_inPointsToSet h.1 (h₁.denotes hunique) h₂ fun hmem => ?_
    rw [InPointsToSet, h.2] at hmem
    exact Bool.false_ne_true hmem.2

/-- Two constants are compared by their types. -/
theorem Covers.compareConstants [DecidableEq Ty] {n₁ n₂ : ℕ} {v₁ v₂ : RefValue}
    (h₁ : Covers C n₁ v₁) (h₂ : Covers C n₂ v₂) {answer : PointerComparison}
    (h : StackAllocation.compareConstants C (uniqueJavaObject g n₁) (uniqueJavaObject g n₂) =
      some answer) : answer = .pcmpEq ∧ v₁ = v₂ ∨ answer = .pcmpNeq ∧ v₁ ≠ v₂ := by
  unfold StackAllocation.compareConstants at h
  split at h
  case h_2 => cases h
  case h_1 j₁ j₂ hunique₁ hunique₂ =>
    split at h
    case isFalse => cases h
    case isTrue hcon =>
      obtain ⟨hphantom₁, hphantom₂, hcon₁, hcon₂⟩ := hcon
      obtain rfl := (h₁.denotes hunique₁).eq_valueOf hcon₁ hphantom₁
      obtain rfl := (h₂.denotes hunique₂).eq_valueOf hcon₂ hphantom₂
      split at h
      case isTrue htype =>
        obtain rfl := Option.some.inj h
        exact .inl ⟨rfl, by rw [htype]⟩
      case isFalse htype =>
        obtain rfl := Option.some.inj h
        exact .inr ⟨rfl, fun heq => htype (C.valueOf_inj j₁ j₂ hcon₁ hcon₂ hphantom₁ hphantom₂ heq)⟩

/-- References to non-escaping allocations only differ from all others. -/
theorem Covers.ne_of_nonEscapingAllocation {n₁ n₂ : ℕ} {v₁ v₂ : RefValue} (h₁ : Covers C n₁ v₁)
    (h₂ : Covers C n₂ v₂) (hall : nonEscapingAllocation g n₁ = true)
    (hmeet : ∀ j, InPointsToSet g n₁ j → ¬ InPointsToSet g n₂ j) : v₁ ≠ v₂ := by
  obtain ⟨j, hj, hdenotes⟩ := h₁
  exact ne_of_not_inPointsToSet (isNonEscapingAllocation_of_mem hall hj) hdenotes h₂ (hmeet j hj)

/-- Sets that do not meet: one of them has only allocations that do not escape, so the values
differ. -/
theorem Covers.compareSets {n₁ n₂ : ℕ} {v₁ v₂ : RefValue} (h₁ : Covers C n₁ v₁)
    (h₂ : Covers C n₂ v₂) {answer : PointerComparison}
    (h : StackAllocation.compareSets g n₁ n₂ = some answer) : answer = .pcmpNeq ∧ v₁ ≠ v₂ := by
  unfold StackAllocation.compareSets at h
  split at h
  case isTrue => cases h
  case isFalse hmeet =>
    simp only [Bool.and_eq_true] at h
    split at h
    case isTrue => cases h
    case isFalse =>
      split at h
      case isTrue hall =>
        obtain rfl := Option.some.inj h
        exact ⟨rfl, h₁.ne_of_nonEscapingAllocation h₂ hall.2
          fun j hj hj' => disjoint_of_not_meet hmeet hj hj'⟩
      case isFalse =>
        split at h
        case isTrue hall =>
          obtain rfl := Option.some.inj h
          exact ⟨rfl, (h₂.ne_of_nonEscapingAllocation h₁ hall.2
            fun j hj hj' => disjoint_of_not_meet hmeet hj' hj).symm⟩
        case isFalse => cases h

/-- The same non-escaping object: the references are equal when it is one object. -/
theorem Comparison.eq_of_sameNonEscaping {repeats : ℕ → Prop} {n₁ n₂ : ℕ}
    (E : Comparison C repeats n₁ n₂) (hshares : ¬ SharesRepeated g repeats n₁ n₂)
    (h : sameNonEscaping g (uniqueJavaObject g n₁) (uniqueJavaObject g n₂) = true) :
    E.value n₁ = E.value n₂ := by
  by_cases hn : n₁ = n₂
  · exact congrArg E.value hn
  cases hunique₁ : uniqueJavaObject g n₁ with
  | none =>
    rw [hunique₁] at h
    cases h
  | some j =>
    rw [hunique₁, sameNonEscaping, Bool.and_eq_true, decide_eq_true_eq, decide_eq_true_eq] at h
    obtain ⟨hescape, hunique₂⟩ := h
    have h₁ := E.covers_left.denotes hunique₁
    have h₂ := E.covers_right.denotes hunique₂
    generalize hv₁ : E.value n₁ = v₁ at h₁
    generalize hv₂ : E.value n₂ = v₂ at h₂
    cases h₁ with
    | created i₁ hkind =>
      have hj : isNonEscapingAllocation g j = true := by
        rw [isNonEscapingAllocation, hkind, hescape]
        rfl
      obtain ⟨i₂, rfl⟩ := h₂.exists_created hj
      have honce : ¬ repeats j := fun hrepeats =>
        hshares ⟨hn, j, hunique₁, hunique₂, hj, hrepeats⟩
      have hi₁ : i₁ = 0 := by_contra fun hi => honce (E.once n₁ j i₁ hv₁ hi)
      have hi₂ : i₂ = 0 := by_contra fun hi => honce (E.once n₂ j i₂ hv₂ hi)
      rw [hi₁, hi₂]
    | constant hcon hphantom => exact (h₂.eq_valueOf hcon hphantom).symm
    | unseen hno => exact absurd hescape hno

/-! ## The answers

Each branch of the code is one of these facts. Only the last, that both have the same object, needs
that the allocation is not run again in between. -/

/-- A comparison is folded rightly unless the two references have one repeated non-escaping
allocation as their only object. -/
theorem comparesSoundly_iff [DecidableEq Ty] (C : PointerConstants g Ty) (repeats : ℕ → Prop)
    (n₁ n₂ : ℕ) : ComparesSoundly C repeats n₁ n₂ ↔ ¬ SharesRepeated g repeats n₁ n₂ := by
  constructor
  · rintro hsound ⟨hn, j, hunique₁, hunique₂, hj, hrepeats⟩
    -- An execution in which the references are the first and the second object.
    have hkind : (g j).ideal.isAllocateOrCall = true := by
      rw [isNonEscapingAllocation, Bool.and_eq_true] at hj
      exact hj.2
    have hcovers (n i : ℕ) (hunique : uniqueJavaObject g n = some j) :
        Covers C n (.created j i) :=
      ⟨j, (inPointsToSet_iff_of_unique hunique j).2 rfl, .created i hkind⟩
    let E : Comparison C repeats n₁ n₂ :=
      { value := fun n => .created j (if n = n₁ then 0 else 1)
        covers_left := hcovers n₁ _ hunique₁
        covers_right := hcovers n₂ _ hunique₂
        once := fun n j' i hvalue _ => (RefValue.created.inj hvalue).1 ▸ hrepeats }
    have heq := (hsound E).1 (by
      rw [isNonEscapingAllocation, Bool.and_eq_true] at hj
      simp [optimizePtrCompare, hunique₁, hunique₂, sameNonEscaping, hj.1])
    simp [E, Ne.symm hn] at heq
  · intro hshares E
    unfold optimizePtrCompare
    by_cases hsame : sameNonEscaping g (uniqueJavaObject g n₁) (uniqueJavaObject g n₂) = true
    · rw [if_pos hsame]
      exact ⟨fun _ => E.eq_of_sameNonEscaping hshares hsame, nofun⟩
    rw [if_neg hsame]
    by_cases hleft : compareNonEscaping g (uniqueJavaObject g n₁) n₂ = true
    · rw [if_pos hleft]
      exact ⟨nofun,
        fun _ => E.covers_left.ne_of_compareNonEscaping E.covers_right hleft⟩
    rw [if_neg hleft]
    by_cases hright : compareNonEscaping g (uniqueJavaObject g n₂) n₁ = true
    · rw [if_pos hright]
      exact ⟨nofun,
        fun _ => (E.covers_right.ne_of_compareNonEscaping E.covers_left hright).symm⟩
    rw [if_neg hright]
    cases hconstants : StackAllocation.compareConstants C (uniqueJavaObject g n₁)
        (uniqueJavaObject g n₂) with
    | some answer =>
      rcases E.covers_left.compareConstants E.covers_right hconstants with ⟨rfl, heq⟩ | ⟨rfl, hne⟩
      · exact ⟨fun _ => heq, nofun⟩
      · exact ⟨nofun, fun _ => hne⟩
    | none =>
      constructor
      · intro hsets
        obtain ⟨hanswer, -⟩ := E.covers_left.compareSets E.covers_right hsets
        cases hanswer
      · intro hsets
        exact (E.covers_left.compareSets E.covers_right hsets).2

/-- The graph of a loop that keeps the holder of the previous iteration's object and
compares the object in it with the one of this iteration: `keep.f == a`, where `keep` is
`NULL` or the previous `Holder(a)`. Node 2 is the allocation of `a`, 3 that of the holder. -/
def keepInLoop : Nodes
  | 1 => blankNode .javaObject .nullConP .noEscape
  | 2 => blankNode .javaObject .allocate .noEscape
  | 3 => { blankNode .javaObject .allocate .noEscape with edges := [6, 7] }
  | 4 => { blankNode .localVar .other .noEscape with edges := [2] }
  | 5 => { blankNode .localVar .other .noEscape with edges := [1, 3] }
  | 6 => { blankNode .field .other .noEscape with edges := [4, 2], bases := [3], isOop := true }
  | 7 => { blankNode .field .other .noEscape with edges := [2], bases := [5, 3], isOop := true }
  | 8 => { blankNode .localVar .other .noEscape with edges := [7, 2] }
  | _ => blankNode .javaObject .other .globalEscape

/-- Its only constants are the phantom object and `NULL`. -/
def keepInLoopConstants : PointerConstants keepInLoop Unit where
  isCon := fun j => decide (j ≤ 1)
  ptrType := fun _ => ()
  valueOf := fun _ => .null
  not_isCon := fun j hkind => by
    match j with
    | 0 => cases hkind
    | 1 => cases hkind
    | j + 2 => exact decide_eq_false (by omega)
  valueOf_ne_created := fun _ _ _ h => by cases h
  valueOf_inj := fun _ _ _ _ _ _ _ => rfl

/-- The comparison is folded to equal, though `keep.f` is the first object and `a` the
second. -/
theorem not_comparesSoundly_keepInLoop :
    ¬ ComparesSoundly keepInLoopConstants (fun j => j = 2) 8 4 := by
  intro hsound
  let E : Comparison keepInLoopConstants (fun j => j = 2) 8 4 :=
    { value := fun n => .created 2 (if n = 8 then 0 else 1)
      covers_left := ⟨2, ⟨rfl, rfl⟩, .created 0 rfl⟩
      covers_right := ⟨2, ⟨rfl, rfl⟩, .created 1 rfl⟩
      once := fun n j i hvalue _ => (RefValue.created.inj hvalue).1.symm }
  exact absurd ((hsound E).1 rfl) (by decide)

end

end StackAllocation
