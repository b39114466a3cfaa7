import StackAllocation.FieldValues

/-!
# Null values of allocations

`find_init_values` with the null object, for one allocation and then for all of them: each
oop field whose initial value no captured store records refers to null afterwards
(`addAllNullValues_nullInit`), and the null object is closed again.
-/

namespace StackAllocation

/-- An oop field of an allocation that keeps its default: at an unknown offset, or not captured by
an initializing store. -/
structure NeedsNull (I : InitInfo) (g : Nodes) (pta field : ℕ) : Prop where
  type : (g field).type = .field
  isOop : (g field).isOop = true
  default : ∀ offset, (g field).offset = some offset →
    I.isRawptr field = false ∧ I.hasCapturedStore pta offset = false

/-- A field that needs no null before needs none when edges were added. -/
theorem Extends.needsNull {I : InitInfo} {g g' : Nodes} (h : Extends g g') {pta field : ℕ}
    (hn : NeedsNull I g' pta field) : NeedsNull I g pta field := by
  obtain ⟨hty, hoop, hdefault⟩ := hn
  rw [h.type] at hty
  rw [h.isOop] at hoop
  rw [h.offset] at hdefault
  exact ⟨hty, hoop, hdefault⟩

/-- Some oop field of the allocation at the offset refers to null. -/
def HasNull (g : Nodes) (pta : ℕ) (offset : Option ℤ) : Prop :=
  ∃ f ∈ (g pta).edges, (g f).type = .field ∧ (g f).isOop = true ∧ (g f).offset = offset ∧
    nullObj ∈ (g f).edges

/-- A field that has the null object keeps it. -/
theorem HasNull.extends {g g' : Nodes} {pta : ℕ} {offset : Option ℤ} (h : HasNull g pta offset)
    (hext : Extends g g') : HasNull g' pta offset := by
  obtain ⟨f, hf, hty, hoop, hoff, hnull⟩ := h
  exact ⟨f, hext.edges pta hf, (hext.type f).trans hty, (hext.isOop f).trans hoop,
    (hext.offset f).trans hoff, hext.edges f hnull⟩

/-- In a closed graph the other fields at the offset refer to null as well. -/
theorem HasNull.mem_edges {g : Nodes} (hg : WellFormed g) (hclosed : Closed g nullObj) {pta f : ℕ}
    (hpta : (g pta).type = .javaObject) (hphantom : pta ≠ phantomObj) (hf : f ∈ (g pta).edges)
    (hty : (g f).type = .field) (hoop : (g f).isOop = true)
    (h : HasNull g pta (g f).offset) : nullObj ∈ (g f).edges := by
  obtain ⟨f₁, hf₁, hty₁, hoop₁, hoff₁, hnull⟩ := h
  by_cases heq : f = f₁
  · rwa [heq]
  · have hbase := (hg.mem_object_edges f₁ pta hpta hty₁).1 hf₁
    have huse : .edge f₁ ∈ (g nullObj).uses := by
      refine (hg.mem_uses f₁ nullObj).2 ⟨hnull, fun h => ?_⟩
      exact absurd (hty₁.symm.trans h.1) (by decide)
    have hoff : sameOffset (g f₁).offset (g f).offset = true := by simp [sameOffset, hoff₁]
    have hnotLocal : (g pta).type ≠ .localVar := by
      rw [hpta]
      decide
    have hnotCopy : (g f).type ≠ .arraycopy := by
      rw [hty]
      decide
    have hrelated : Related g f₁ pta (.edge f) :=
      ⟨f, rfl, ⟨heq, hoop, hoff⟩, .inr ⟨hnotLocal, hphantom, hbase.2, hf, hnotCopy⟩⟩
    have hdep : Dep g f₁ (.edge f) := by
      refine ⟨?_, .inr ⟨hty₁, hoop₁, .inr ⟨pta, hbase.1, .inl hrelated⟩⟩⟩
      rw [hty₁]
      decide
    obtain hmem | ⟨hcopy, -⟩ := hclosed f₁ _ huse hdep
    · exact hmem
    · exact absurd hcopy hnotCopy

/-! ## One allocation

The loop looks at the fields of one allocation in order. The first field at an offset gets null,
unless a captured store has its value, and the others at the offset get it when the null object is
closed. Of the fields at an unknown offset the first one gets it. -/

section

variable {I : InitInfo} {pta : ℕ}

/-- A field with the unknown offset. -/
theorem initField_bottom {w : InitWalk} {field : ℕ} (hty : (w.graph field).type = .field)
    (hoop : (w.graph field).isOop = true) (hoff : (w.graph field).offset = none)
    (hvisited : w.visitedBottomOffset = false) :
    initField I pta w field =
      ⟨addFieldValue nullObj w.toWalk field, (addEdge w.graph field nullObj).1, w.offsets⟩ := by
  unfold initField addFieldValue
  simp only [hty, hoop, hoff, hvisited, ne_eq, not_true_eq_false, Bool.true_eq_false, or_self,
    if_false, Bool.false_eq_true]
  obtain ⟨_ | _, g⟩ := addEdge w.graph field nullObj
  · simp only [← hvisited]
  · rfl

/-- What the loop over the fields keeps. -/
structure InitInv (I : InitInfo) (pta : ℕ) (w₀ : Walk) (w : InitWalk) : Prop where
  walked : Walked nullObj w₀ w.toWalk
  pending : Pending w.toWalk 0
  newEdges : w.newEdges = w₀.newEdges → w.toWalk = w₀
  visited : w.visitedBottomOffset = true → HasNull w.graph pta none
  offsets : ∀ o ∈ w.offsets, I.hasCapturedStore pta o = true ∨ HasNull w.graph pta (some o)

/-- The field has been seen. -/
def InitDone (I : InitInfo) (pta field : ℕ) (w : InitWalk) : Prop :=
  NeedsNull I w.graph pta field → HasNull w.graph pta (w.graph field).offset

/-- A field gets null; the record of the offsets may grow by the field's. -/
theorem InitInv.fieldValue {w₀ : Walk} {w : InitWalk} (h : InitInv I pta w₀ w) {field : ℕ}
    (hmem : field ∈ (w.graph pta).edges) (hty : (w.graph field).type = .field)
    (hoop : (w.graph field).isOop = true) (visited : Bool) (offsets : List ℤ)
    (hvisited : visited = true → w.visitedBottomOffset = true ∨ (w.graph field).offset = none)
    (hoffsets : ∀ o ∈ offsets, o ∈ w.offsets ∨ (w.graph field).offset = some o) :
    InitInv I pta w₀ ⟨addFieldValue nullObj w.toWalk field, visited, offsets⟩ ∧
      HasNull (addFieldValue nullObj w.toWalk field).graph pta (w.graph field).offset := by
  have hw := h.walked.walkable
  have hrun := walked_addFieldValue hw hw.wellFormed.null_type hty
  have hext := hrun.run.extends
  have hnull : HasNull (addFieldValue nullObj w.toWalk field).graph pta (w.graph field).offset :=
    ⟨field, hext.edges pta hmem, (hext.type field).trans hty, (hext.isOop field).trans hoop,
      hext.offset field, mem_addFieldValue hw.wellFormed hty⟩
  refine ⟨⟨h.walked.trans hrun, ?_, ?_, ?_, ?_⟩, hnull⟩
  · obtain ⟨-, heq⟩ | ⟨g, hadd, heq⟩ := addFieldValue_cases hw.wellFormed nullObj hty
    · simp only [heq]
      exact h.pending
    · simp only [heq]
      exact h.pending.fieldValue hw hty hadd (Nat.zero_le _)
  · intro hnew
    obtain ⟨-, heq⟩ | ⟨g, hadd, heq⟩ := addFieldValue_cases hw.wellFormed nullObj hty
    · simp only [heq] at hnew ⊢
      exact h.newEdges hnew
    · simp only [heq] at hnew
      have := h.walked.newEdges
      omega
  · intro hv
    obtain hv | hoff := hvisited hv
    · exact (h.visited hv).extends hext
    · rwa [hoff] at hnull
  · intro o ho
    obtain ho | hoff := hoffsets o ho
    · exact (h.offsets o ho).imp id fun h => h.extends hext
    · rw [hoff] at hnull
      exact .inr hnull

/-- One field. -/
theorem InitInv.initField {w₀ : Walk} {w : InitWalk} (h : InitInv I pta w₀ w) {field : ℕ}
    (hmem : field ∈ (w.graph pta).edges) :
    InitInv I pta w₀ (initField I pta w field) ∧ InitDone I pta field (initField I pta w field) ∧
      Extends w.graph (initField I pta w field).graph := by
  by_cases hskip : (w.graph field).type ≠ .field ∨ (w.graph field).isOop = false
  · rw [StackAllocation.initField, if_pos hskip]
    refine ⟨h, fun hneeds => ?_, Extends.refl _⟩
    obtain hty | hoop := hskip
    · exact absurd hneeds.type hty
    · exact absurd (hoop.symm.trans hneeds.isOop) (by decide)
  have hty : (w.graph field).type = .field := by
    by_contra hty
    exact hskip (.inl hty)
  have hoop : (w.graph field).isOop = true := by
    by_contra hoop
    exact hskip (.inr (by simpa using hoop))
  cases hoff : (w.graph field).offset with
  | none =>
    by_cases hvisited : w.visitedBottomOffset = true
    · rw [StackAllocation.initField, if_neg hskip]
      simp only [hoff, hvisited, if_true]
      refine ⟨h, fun _ => ?_, Extends.refl _⟩
      rw [hoff]
      exact h.visited hvisited
    · rw [initField_bottom hty hoop hoff (by simpa using hvisited)]
      obtain ⟨hinv, hnull⟩ := h.fieldValue hmem hty hoop (addEdge w.graph field nullObj).1
        w.offsets (fun _ => .inr hoff) fun o ho => .inl ho
      have hwalked := walked_addFieldValue h.walked.walkable
        h.walked.walkable.wellFormed.null_type hty
      refine ⟨hinv, fun _ => ?_, hwalked.run.extends⟩
      rwa [hwalked.run.extends.offset]
  | some offset =>
    rw [StackAllocation.initField, if_neg hskip]
    simp only [hoff]
    by_cases hraw : I.isRawptr field = true
    · rw [if_pos hraw]
      refine ⟨h, fun hneeds => ?_, Extends.refl _⟩
      exact absurd (hraw.symm.trans (hneeds.default offset hoff).1) (by decide)
    rw [if_neg hraw]
    by_cases hseen : offset ∈ w.offsets
    · rw [if_pos hseen]
      refine ⟨h, fun hneeds => ?_, Extends.refl _⟩
      rw [hoff]
      obtain hcaptured | hnull := h.offsets offset hseen
      · exact absurd (hcaptured.symm.trans (hneeds.default offset hoff).2) (by decide)
      · exact hnull
    rw [if_neg hseen]
    by_cases hcaptured : I.hasCapturedStore pta offset = true
    · rw [if_pos hcaptured]
      refine ⟨⟨h.walked, h.pending, h.newEdges, h.visited, fun o ho => ?_⟩, fun hneeds => ?_,
        Extends.refl _⟩
      · obtain ho | ho := List.mem_append.1 ho
        · exact h.offsets o ho
        · obtain rfl : o = offset := by simpa using ho
          exact .inl hcaptured
      · exact absurd (hcaptured.symm.trans (hneeds.default offset hoff).2) (by decide)
    · rw [if_neg hcaptured]
      obtain ⟨hinv, hnull⟩ := h.fieldValue hmem hty hoop w.visitedBottomOffset
        (w.offsets ++ [offset]) .inl (fun o ho => by
          refine (List.mem_append.1 ho).imp id fun ho => ?_
          obtain rfl : o = offset := by simpa using ho
          exact hoff)
      have hwalked := walked_addFieldValue h.walked.walkable
        h.walked.walkable.wellFormed.null_type hty
      refine ⟨hinv, fun _ => ?_, hwalked.run.extends⟩
      rwa [hwalked.run.extends.offset]

/-- The field stays seen. -/
theorem InitDone.extends {w w' : InitWalk} {field : ℕ} (h : InitDone I pta field w)
    (hext : Extends w.graph w'.graph) : InitDone I pta field w' := by
  intro hneeds
  rw [hext.offset]
  exact (h (hext.needsNull hneeds)).extends hext

/-- All fields. -/
theorem findInitValuesNull_walked {g : Nodes} (hg : WellFormed g) (hclosed : Closed g nullObj)
    (halloc : (g pta).ideal = .allocate) {w : Walk} (hw : findInitValuesNull I ⟨g, [], 0⟩ pta = w) :
    Walked nullObj ⟨g, [], 0⟩ w ∧ Pending w 0 ∧ (w.newEdges = 0 → w = ⟨g, [], 0⟩) ∧
      ∀ f ∈ (g pta).edges, NeedsNull I g pta f → HasNull w.graph pta (g f).offset := by
  have hstart : Walkable ⟨g, [], 0⟩ := ⟨hg, by simp⟩
  have hinv : InitInv I pta ⟨g, [], 0⟩ ⟨⟨g, [], 0⟩, false, []⟩ := by
    refine ⟨Walked.refl hstart, ⟨fun use v huse hdep => .inl (hclosed use v huse hdep), ?_⟩,
      fun _ => rfl, ?_, ?_⟩
    · simp
    · intro h
      exact absurd h Bool.false_ne_true
    · simp
  have hstep : ∀ w, ∀ f ∈ (g pta).edges, InitInv I pta ⟨g, [], 0⟩ w →
      InitInv I pta ⟨g, [], 0⟩ (initField I pta w f) ∧ InitDone I pta f (initField I pta w f) ∧
        Extends w.graph (initField I pta w f).graph :=
    fun w f hf h => h.initField (h.walked.run.extends.edges pta hf)
  unfold findInitValuesNull at hw
  rw [if_neg (not_not_intro halloc)] at hw
  subst hw
  have hend := Loops.invariant (P := InitInv I pta ⟨g, [], 0⟩) (g pta).edges hinv
    fun w f hf h => (hstep w f hf h).1
  refine ⟨hend.walked, hend.pending, hend.newEdges, fun f hf hneeds => ?_⟩
  have hdone := Loops.reached (P := InitDone I pta f) hf hinv
    (fun w f hf h => (hstep w f hf h).1)
    (fun w f' hf' h hdone => hdone.extends (hstep w f' hf' h).2.2) fun w h => (hstep w f hf h).2.1
  have hext := hend.walked.run.extends
  rw [← hext.offset]
  refine hdone ⟨(hext.type f).trans hneeds.type, (hext.isOop f).trans hneeds.isOop, ?_⟩
  intro offset hoff
  rw [hext.offset] at hoff
  exact hneeds.default offset hoff

/-- The allocation has its null values. -/
def NullInit (I : InitInfo) (g : Nodes) (pta : ℕ) : Prop :=
  (g pta).escapeState = .noEscape → (g pta).ideal = .allocate →
    ∀ f ∈ (g pta).edges, NeedsNull I g pta f → nullObj ∈ (g f).edges

/-- The null values of one allocation stay when others get theirs. -/
theorem NullInit.nullAdded {g g' : Nodes} (h : NullInit I g pta) (hadd : NullAdded g g')
    (hpta : (g pta).type = .javaObject) : NullInit I g' pta := by
  intro hescape halloc f hf hneeds
  rw [hadd.escapeState] at hescape
  rw [hadd.grown.ideal] at halloc
  rw [hadd.object_edges pta f hpta] at hf
  exact hadd.grown.edges f (h hescape halloc f hf (hadd.grown.needsNull hneeds))

/-- One allocation: each field that it may leave at zero gets the null object, and the graph is
closed under it again. -/
theorem addNullValues_nullInit {fuel : ℕ} {g g' : Nodes} (hg : WellFormed g)
    (hclosed : Closed g nullObj) (hpta : (g pta).type = .javaObject)
    (h : addNullValues fuel I g pta = some g') :
    GraphRun nullObj g g' ∧ WellFormed g' ∧ Closed g' nullObj ∧ NullInit I g' pta := by
  unfold addNullValues at h
  by_cases hescape : (g pta).escapeState = .noEscape
  swap
  · rw [if_neg hescape] at h
    obtain rfl := Option.some.inj h
    exact ⟨Relation.ReflTransGen.refl, hg, hclosed, fun h => absurd h hescape⟩
  rw [if_pos hescape] at h
  by_cases halloc : (g pta).ideal = .allocate
  swap
  · have hsame : findInitValuesNull I ⟨g, [], 0⟩ pta = ⟨g, [], 0⟩ := if_pos halloc
    simp only [hsame, Nat.lt_irrefl, if_false] at h
    obtain rfl := Option.some.inj h
    exact ⟨Relation.ReflTransGen.refl, hg, hclosed, fun _ h => absurd h halloc⟩
  have hphantom : pta ≠ phantomObj := by
    rintro rfl
    exact absurd (hg.phantom_escapes.1.symm.trans hescape) (by decide)
  obtain ⟨hwalked, hpending, hzero, hnull⟩ := findInitValuesNull_walked hg hclosed halloc rfl
  -- the fields that have got null make those at the same offset refer to it as well
  have hinit : ∀ g', GraphRun nullObj (findInitValuesNull I ⟨g, [], 0⟩ pta).graph g' →
      WellFormed g' → Closed g' nullObj →
        GraphRun nullObj g g' ∧ WellFormed g' ∧ Closed g' nullObj ∧ NullInit I g' pta := by
    intro g' hrun hg' hclosed'
    have hall : GraphRun nullObj g g' := Relation.ReflTransGen.trans hwalked.run hrun
    have hadd := hall.nullAdded
    refine ⟨hall, hg', hclosed', fun _ _ f hf hneeds => ?_⟩
    refine HasNull.mem_edges hg' hclosed' ?_ hphantom hf hneeds.type hneeds.isOop ?_
    · rw [hadd.grown.type, hpta]
    · rw [hadd.grown.offset]
      refine (hnull f ?_ (hadd.grown.needsNull hneeds)).extends hrun.extends
      exact (hadd.object_edges pta f hpta).1 hf
  simp only at h
  split at h
  · obtain ⟨⟨g₁, k⟩, hcall, rfl⟩ := Option.map_eq_some_iff.1 h
    obtain ⟨w, hw, rfl, -⟩ := addJavaObjectEdges_eq_some hcall
    obtain ⟨hwf, hentries⟩ := hwalked.walkable
    have hstart : Walkable ⟨(findInitValuesNull I ⟨g, [], 0⟩ pta).graph,
        (findInitValuesNull I ⟨g, [], 0⟩ pta).worklist, 0⟩ := ⟨hwf, hentries⟩
    have hrest := walkWorklist_walked hstart hwf.null_type hw
    exact hinit _ hrest.run hrest.walkable.wellFormed
      (Pending.closed hstart ⟨hpending.deps, hpending.walked⟩ (Nat.zero_le _) hw)
  · next hnew =>
    obtain rfl := Option.some.inj h
    have hsame := hzero (by omega)
    refine hinit _ Relation.ReflTransGen.refl hwalked.walkable.wellFormed ?_
    rw [hsame]
    exact hclosed

end

/-! ## All allocations

An allocation gets its null values and the null object is closed, before the next one has its turn.
The later turns add null to more nodes and take it from none, so what the earlier ones have settled
stays. -/

/-- The last loop of `complete_connection_graph`. -/
theorem addAllNullValues_nullInit {I : InitInfo} {fuel : ℕ} {l : List ℕ} {g g' : Nodes}
    (hg : WellFormed g) (hclosed : Closed g nullObj) (hl : ∀ pta ∈ l, (g pta).type = .javaObject)
    (h : addAllNullValues fuel I l g = some g') :
    GraphRun nullObj g g' ∧ WellFormed g' ∧ Closed g' nullObj ∧ ∀ pta ∈ l, NullInit I g' pta := by
  induction l generalizing g with
  | nil =>
    obtain rfl := Option.some.inj h
    exact ⟨Relation.ReflTransGen.refl, hg, hclosed, by simp⟩
  | cons pta l ih =>
    rw [addAllNullValues] at h
    split at h
    · cases h
    · next g₁ hfirst =>
      have hpta := hl pta List.mem_cons_self
      obtain ⟨hrun, hg₁, hclosed₁, hinit⟩ := addNullValues_nullInit hg hclosed hpta hfirst
      have hl₁ : ∀ n ∈ l, (g₁ n).type = .javaObject := fun n hn => by
        rw [hrun.extends.type]
        exact hl n (List.mem_cons_of_mem _ hn)
      obtain ⟨hrest, hg', hclosed', hall⟩ := ih hg₁ hclosed₁ hl₁ h
      refine ⟨Relation.ReflTransGen.trans hrun hrest, hg', hclosed', fun n hn => ?_⟩
      obtain rfl | hn := List.mem_cons.1 hn
      · refine hinit.nullAdded hrest.nullAdded ?_
        rw [hrun.extends.type, hpta]
      · exact hall n hn

/-- A further call for an allocation that has its null values adds nothing. -/
theorem NullInit.findInitValuesNull_eq {I : InitInfo} {g : Nodes} {pta : ℕ} (hg : WellFormed g)
    (h : NullInit I g pta) (hescape : (g pta).escapeState = .noEscape) (wl : List Use) (k : ℕ) :
    findInitValuesNull I ⟨g, wl, k⟩ pta = ⟨g, wl, k⟩ := by
  unfold findInitValuesNull
  split
  · rfl
  · next halloc =>
    refine Loops.invariant (P := fun w : InitWalk => w.toWalk = ⟨g, wl, k⟩) (g pta).edges rfl
      fun w f hf hw => ?_
    have hgraph : w.graph = g := congrArg Walk.graph hw
    have hwf : WellFormed w.toWalk.graph := by rwa [hgraph]
    by_cases hskip : (w.graph f).type ≠ .field ∨ (w.graph f).isOop = false
    · rwa [initField, if_pos hskip]
    obtain ⟨hty, hoop⟩ := not_or.1 hskip
    rw [not_not] at hty
    rw [Bool.not_eq_false] at hoop
    have hvalue : NeedsNull I g pta f → addFieldValue nullObj w.toWalk f = ⟨g, wl, k⟩ := by
      intro hneeds
      rw [addFieldValue_of_mem hwf hty, hw]
      rw [hgraph]
      exact h hescape (not_not.1 halloc) f hf hneeds
    rw [hgraph] at hty hoop
    cases hoff : (w.graph f).offset with
    | none =>
      by_cases hvisited : w.visitedBottomOffset = true
      · rw [initField, if_neg hskip]
        simp only [hoff, hvisited, if_true]
        exact hw
      · rw [initField_bottom (by rwa [hgraph]) (by rwa [hgraph]) hoff (by simpa using hvisited)]
        refine hvalue ⟨hty, hoop, fun offset ho => ?_⟩
        rw [← hgraph, hoff] at ho
        cases ho
    | some offset =>
      rw [initField, if_neg hskip]
      simp only [hoff]
      split
      · exact hw
      split
      · exact hw
      split
      · exact hw
      · next hraw _ hcaptured =>
        refine hvalue ⟨hty, hoop, fun o ho => ?_⟩
        rw [← hgraph, hoff] at ho
        obtain rfl := Option.some.inj ho
        exact ⟨by simpa using hraw, by simpa using hcaptured⟩

end StackAllocation
