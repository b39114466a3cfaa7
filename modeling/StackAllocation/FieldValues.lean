import StackAllocation.GraphClosure

/-!
# Values that no store explains

A field gets the phantom object when its value is unknown, and the null object when an
allocation leaves it to its default. The null object has no fields, so what it gets to
leaves the dependents of every other node as they are (`NullAdded.dep`): the other objects
stay closed, and a run for the null object closes it again (`Pending.closed`).
-/

namespace StackAllocation

/-! ## A new value of a field

A new edge from a field is a new value of everything that is loaded from the field. So the uses of
the field are put on the worklist, and the edge is counted; an edge that is there already changes
nothing. -/

/-- What `add_edge` to a field comes to. -/
theorem addFieldValue_cases {w : Walk} (hw : WellFormed w.graph) (val : ℕ) {field : ℕ}
    (hfield : (w.graph field).type = .field) :
    (val ∈ (w.graph field).edges ∧ addFieldValue val w field = w) ∨
    ∃ g, EdgeAdded field val w.graph g ∧ addFieldValue val w field =
      ⟨g, addFieldUsesToWorklist g field w.worklist, w.newEdges + 1⟩ := by
  have hnot : ¬ ((w.graph field).type = .javaObject ∧ (w.graph val).type = .field) := by
    rw [hfield]
    rintro ⟨h, -⟩
    exact absurd h (by decide)
  unfold addFieldValue
  obtain ⟨hmem, heq⟩ | ⟨-, g, heq, hadd⟩ := addEdge_cases hw hnot
  · rw [heq]
    exact .inl ⟨hmem, rfl⟩
  · rw [heq]
    exact .inr ⟨g, hadd, rfl⟩

/-- A new value of a field is a step of a run for the value. -/
theorem walked_fieldValue {w : Walk} (hw : Walkable w) {val field : ℕ} {g : Nodes}
    (hval : (w.graph val).type = .javaObject) (hfield : (w.graph field).type = .field)
    (hadd : EdgeAdded field val w.graph g) :
    Walked val w ⟨g, addFieldUsesToWorklist g field w.worklist, w.newEdges + 1⟩ := by
  have hstep : GraphStep val w.graph g := .edge (.inr hfield) hadd
  have hg : WellFormed g := hstep.wellFormed hw.wellFormed hval
  refine ⟨.single hstep, prefix_addFieldUsesToWorklist, Nat.le_succ _, ?_⟩
  refine hw.extends hg hstep.extends (fun u hu => ?_) _
  refine (mem_addFieldUsesToWorklist.1 hu).imp id fun hu => hg.entryOk_fieldDep ?_ hu
  rw [hadd.type, hfield]

theorem Walked.refl {jobj : ℕ} {w : Walk} (hw : Walkable w) : Walked jobj w w :=
  ⟨Relation.ReflTransGen.refl, List.prefix_rfl, Nat.le_refl _, hw⟩

/-- A value that is added to a field is a part of the walk for the value. -/
theorem walked_addFieldValue {w : Walk} (hw : Walkable w) {val field : ℕ}
    (hval : (w.graph val).type = .javaObject) (hfield : (w.graph field).type = .field) :
    Walked val w (addFieldValue val w field) := by
  obtain ⟨-, heq⟩ | ⟨g, hadd, heq⟩ := addFieldValue_cases hw.wellFormed val hfield
  · rw [heq]
    exact Walked.refl hw
  · rw [heq]
    exact walked_fieldValue hw hval hfield hadd

/-- The field has it then. -/
theorem mem_addFieldValue {w : Walk} (hw : WellFormed w.graph) {val field : ℕ}
    (hfield : (w.graph field).type = .field) :
    val ∈ ((addFieldValue val w field).graph field).edges := by
  obtain ⟨hmem, heq⟩ | ⟨g, hadd, heq⟩ := addFieldValue_cases hw val hfield
  · rw [heq]
    exact hmem
  · rw [heq]
    exact (hadd.mem_edges field val).2 (.inr ⟨rfl, rfl⟩)

/-- It is added once. -/
theorem addFieldValue_of_mem {w : Walk} (hw : WellFormed w.graph) {val field : ℕ}
    (hfield : (w.graph field).type = .field) (hmem : val ∈ (w.graph field).edges) :
    addFieldValue val w field = w := by
  have hnot : ¬ ((w.graph field).type = .javaObject ∧ (w.graph val).type = .field) := by
    rw [hfield]
    rintro ⟨h, -⟩
    exact absurd h (by decide)
  unfold addFieldValue
  obtain ⟨-, heq⟩ | ⟨hn, -⟩ := addEdge_cases hw hnot
  · rw [heq]
  · exact absurd hmem hn

/-! ## What the null object changes

The null object is a value like any other for the worklist, but it has no fields and is never the
base of one. So its walk changes nothing that another object depends on, and the objects that were
closed before stay closed. -/

/-- Only the null object has got to more nodes. -/
structure NullAdded (g g' : Nodes) : Prop where
  grown : Extends g g'
  arraycopySrc : ∀ n, (g' n).arraycopySrc = (g n).arraycopySrc
  arraycopyDst : ∀ n, (g' n).arraycopyDst = (g n).arraycopyDst
  escapeState : ∀ n, (g' n).escapeState = (g n).escapeState
  fieldsEscapeState : ∀ n, (g' n).fieldsEscapeState = (g n).fieldsEscapeState
  uses : ∀ n u, n ≠ nullObj → (u ∈ (g' n).uses ↔ u ∈ (g n).uses)
  edges : ∀ n e, e ≠ nullObj → (e ∈ (g' n).edges ↔ e ∈ (g n).edges)
  object_edges : ∀ n e, (g n).type = .javaObject → (e ∈ (g' n).edges ↔ e ∈ (g n).edges)
  bases : ∀ f b, b ≠ nullObj → (b ∈ (g' f).bases ↔ b ∈ (g f).bases)

theorem NullAdded.refl (g : Nodes) : NullAdded g g :=
  ⟨Extends.refl g, fun _ => rfl, fun _ => rfl, fun _ => rfl, fun _ => rfl, fun _ _ _ => Iff.rfl,
    fun _ _ _ => Iff.rfl, fun _ _ _ => Iff.rfl, fun _ _ _ => Iff.rfl⟩

/-- The null object is added at several places. -/
theorem NullAdded.trans {g₁ g₂ g₃ : Nodes} (h : NullAdded g₁ g₂) (h' : NullAdded g₂ g₃) :
    NullAdded g₁ g₃ where
  grown := h.grown.trans h'.grown
  arraycopySrc n := (h'.arraycopySrc n).trans (h.arraycopySrc n)
  arraycopyDst n := (h'.arraycopyDst n).trans (h.arraycopyDst n)
  escapeState n := (h'.escapeState n).trans (h.escapeState n)
  fieldsEscapeState n := (h'.fieldsEscapeState n).trans (h.fieldsEscapeState n)
  uses n u hn := (h'.uses n u hn).trans (h.uses n u hn)
  edges n e he := (h'.edges n e he).trans (h.edges n e he)
  object_edges n e hn := by
    rw [h'.object_edges n e (by rw [h.grown.type, hn]), h.object_edges n e hn]
  bases f b hb := (h'.bases f b hb).trans (h.bases f b hb)

/-- A step of a run for the null object. -/
theorem GraphStep.nullAdded {g g' : Nodes} (h : GraphStep nullObj g g') : NullAdded g g' := by
  cases h with
  | @edge use _ hty h =>
    refine ⟨h.extends, h.arraycopySrc, h.arraycopyDst, h.escapeState, h.fieldsEscapeState, ?_, ?_,
      ?_, ?_⟩
    · intro n u hn
      rw [h.mem_uses]
      exact or_iff_left fun hu => hn hu.1
    · intro n e he
      rw [h.mem_edges]
      exact or_iff_left fun hu => he hu.2
    · intro n e hn
      rw [h.mem_edges]
      refine or_iff_left ?_
      rintro ⟨rfl, -⟩
      rw [hn] at hty
      exact absurd hty (by decide)
    · intro f b _
      rw [h.bases]
  | base hf h =>
    refine ⟨h.extends, h.arraycopySrc, h.arraycopyDst, h.escapeState, h.fieldsEscapeState, ?_, ?_,
      ?_, ?_⟩
    · intro n u _
      rw [h.uses]
    · intro n e _
      rw [h.mem_edges]
      exact or_iff_left fun hu => hu.2.2 rfl
    · intro n e _
      rw [h.mem_edges]
      exact or_iff_left fun hu => hu.2.2 rfl
    · intro f b hb
      rw [h.mem_bases]
      exact or_iff_left fun hu => hb hu.2
  | source _ hnull _ => exact absurd rfl hnull
  | link _ hnull _ => exact absurd rfl hnull

/-- A run for the null object adds nothing else. -/
theorem GraphRun.nullAdded {g g' : Nodes} (h : GraphRun nullObj g g') : NullAdded g g' := by
  induction h with
  | refl => exact NullAdded.refl g
  | tail _ hstep ih => exact ih.trans hstep.nullAdded

section

variable {g g' : Nodes} {u : Use}

/-- What is reached stays so. -/
theorem Reached.extends {jobj : ℕ} (h : Reached g jobj u) (hext : Extends g g') :
    Reached g' jobj u := by
  cases u with
  | base f => exact hext.bases f h
  | edge n => exact h.imp (fun he => hext.edges n he) fun hn => ⟨(hext.type n).trans hn.1, hn.2⟩

/-- Whether two fields may be the same depends on what stays. -/
theorem Extends.mayBeSame (h : Extends g g') {field f : ℕ} :
    MayBeSame g' field f ↔ MayBeSame g field f := by
  constructor
  · rintro ⟨hne, hoop, hoff⟩
    rw [h.isOop] at hoop
    rw [h.offset, h.offset] at hoff
    exact ⟨hne, hoop, hoff⟩
  · rintro ⟨hne, hoop, hoff⟩
    rw [← h.isOop] at hoop
    rw [← h.offset, ← h.offset f] at hoff
    exact ⟨hne, hoop, hoff⟩

/-- The null object has no fields. -/
theorem WellFormed.not_related_null (hg : WellFormed g) {field : ℕ} :
    ¬ Related g field nullObj u := by
  rintro ⟨f, -, -, ⟨hlocal, -⟩ | ⟨-, -, hnull, -⟩⟩
  · exact absurd (hg.null_type.symm.trans hlocal) (by decide)
  · exact hnull rfl

/-- A user of an object is not the null object. -/
theorem WellFormed.user_ne_null (hg : WellFormed g) {use jobj : ℕ}
    (huse : .edge use ∈ (g jobj).uses) : use ≠ nullObj := by
  rintro rfl
  have hmem := ((hg.mem_uses nullObj jobj).1 huse).1
  rw [hg.null_edges] at hmem
  exact absurd hmem List.not_mem_nil

namespace NullAdded

variable (h : NullAdded g g') (hg : WellFormed g)
include h hg

/-- The null object has no fields, so it relates none. -/
theorem related {field base : ℕ}
    (hbase : (g base).type = .javaObject ∨ (g base).type = .localVar) :
    Related g' field base u ↔ Related g field base u := by
  unfold Related
  simp only [h.grown.mayBeSame, h.grown.type]
  refine exists_congr fun f => and_congr_right fun _ => and_congr_right fun _ => ?_
  refine or_congr (and_congr_right fun hlocal => h.uses base _ ?_)
    (and_congr_right fun hnot => and_congr_right fun _ => and_congr_right fun _ =>
      and_congr_left fun _ => h.object_edges base f (hbase.resolve_right hnot))
  rintro rfl
  exact absurd (hg.null_type.symm.trans hlocal) (by decide)

/-- It copies nothing either. -/
theorem copiedTo {base abase : ℕ} : CopiedTo g' base abase ↔ CopiedTo g base abase := by
  have hnull : ∀ n, (g n).type = .arraycopy → n ≠ nullObj := by
    rintro _ hty rfl
    exact absurd (hg.null_type.symm.trans hty) (by decide)
  constructor
  · rintro ⟨hsrc, ⟨ac, hac, hty, huse⟩, hdst, hne⟩
    rw [h.arraycopySrc] at hsrc
    rw [h.arraycopyDst] at hdst
    rw [h.grown.type] at hty
    have hbase : base ≠ nullObj := by
      rintro rfl
      exact absurd (hg.null_flags.1.symm.trans hsrc) (by decide)
    exact ⟨hsrc, ⟨ac, (h.uses base _ hbase).1 hac, hty, (h.uses ac _ (hnull ac hty)).1 huse⟩,
      hdst, hne⟩
  · rintro ⟨hsrc, ⟨ac, hac, hty, huse⟩, hdst, hne⟩
    have hbase : base ≠ nullObj := by
      rintro rfl
      exact absurd (hg.null_flags.1.symm.trans hsrc) (by decide)
    refine ⟨?_, ⟨ac, (h.uses base _ hbase).2 hac, ?_, (h.uses ac _ (hnull ac hty)).2 huse⟩, ?_, hne⟩
    · rw [h.arraycopySrc, hsrc]
    · rw [h.grown.type, hty]
    · rw [h.arraycopyDst, hdst]

/-- The fields that a field may be the same as, for one base. -/
theorem baseDep {field base : ℕ}
    (hbase : (g base).type = .javaObject ∨ (g base).type = .localVar) :
    (Related g' field base u ∨ ∃ abase, CopiedTo g' base abase ∧ Related g' field abase u) ↔
      (Related g field base u ∨ ∃ abase, CopiedTo g base abase ∧ Related g field abase u) := by
  refine or_congr (h.related hg hbase) (exists_congr fun abase => ?_)
  rw [h.copiedTo hg]
  refine and_congr_right fun hcopy => h.related hg ?_
  obtain ⟨ac, -, hty, huse⟩ := hcopy.arycp
  exact hg.arraycopy_dst_type abase ac hty ((hg.mem_uses abase ac).1 huse).1

/-- So what depends on a field is as before. -/
theorem fieldDep {field : ℕ} (hfield : field ≠ nullObj) :
    FieldDep g' field u ↔ FieldDep g field u := by
  have hsrc : ¬ ∃ abase, CopiedTo g nullObj abase ∧ Related g field abase u := by
    rintro ⟨abase, hcopy, -⟩
    exact absurd (hg.null_flags.1.symm.trans hcopy.src) (by decide)
  unfold FieldDep
  refine or_congr (h.uses field u hfield) ⟨?_, ?_⟩
  · rintro ⟨base, hbase, hdep⟩
    by_cases hnull : base = nullObj
    · subst hnull
      rw [h.baseDep hg (.inl hg.null_type)] at hdep
      exact absurd hdep (not_or.2 ⟨hg.not_related_null, hsrc⟩)
    · have hbase := (h.bases field base hnull).1 hbase
      exact ⟨base, hbase, (h.baseDep hg (hg.bases_field field base hbase).2).1 hdep⟩
  · rintro ⟨base, hbase, hdep⟩
    exact ⟨base, h.grown.bases field hbase,
      (h.baseDep hg (hg.bases_field field base hbase).2).2 hdep⟩

/-- The dependents of the other nodes stay. -/
theorem dep {use : ℕ} (huse : use ≠ nullObj) : Dep g' use u ↔ Dep g use u := by
  unfold Dep
  rw [h.grown.type, h.grown.isOop, h.uses use u huse, h.fieldDep hg huse]

/-- The other objects stay closed. -/
theorem closed {jobj : ℕ} (hj : jobj ≠ nullObj) (hclosed : Closed g jobj) : Closed g' jobj := by
  intro use u huse hdep
  rw [h.uses jobj _ hj] at huse
  rw [h.dep hg (hg.user_ne_null huse)] at hdep
  exact (hclosed use u huse hdep).extends h.grown

end NullAdded

/-! ## Closing the null object again

While null values are added to the fields of allocations, the null object is not closed. The pending
entries are on the worklist of its walk, which the invariant keeps track of; when the walk ends it
is closed again. -/

/-- The dependents of what refers to null are reached or on the worklist, and the entries before
`l` are reached. -/
structure Pending (w : Walk) (l : ℕ) : Prop where
  deps : ∀ use v, .edge use ∈ (w.graph nullObj).uses → Dep w.graph use v →
    Reached w.graph nullObj v ∨ v ∈ w.worklist
  walked : ∀ v ∈ w.worklist.take l, Reached w.graph nullObj v

/-- A step that puts the dependents of new users on the worklist. -/
theorem Pending.grow {w w' : Walk} {l : ℕ} (hw : WellFormed w.graph) (h : Pending w l)
    (hrun : Walked nullObj w w')
    (hnew : ∀ use, .edge use ∈ (w'.graph nullObj).uses →
      .edge use ∈ (w.graph nullObj).uses ∨ ∀ v, Dep w'.graph use v → v ∈ w'.worklist)
    (hl : l ≤ w.worklist.length) : Pending w' l := by
  have hnull := hrun.run.nullAdded
  constructor
  · intro use v huse hdep
    obtain hold | hpushed := hnew use huse
    · rw [hnull.dep hw (hw.user_ne_null hold)] at hdep
      exact (h.deps use v hold hdep).imp (fun hr => hr.extends hnull.grown)
        fun hv => hrun.worklist.subset hv
    · exact .inr (hpushed v hdep)
  · intro v hv
    obtain ⟨t, ht⟩ := hrun.worklist
    rw [← ht, List.take_append_of_le_length hl] at hv
    exact (h.walked v hv).extends hnull.grown

/-- The dependents of a field are all that it puts on the worklist. -/
theorem Dep.fieldDep {use : ℕ} (h : Dep g use u) : FieldDep g use u := by
  obtain ⟨-, hu | ⟨-, -, hdep⟩⟩ := h
  · exact .inl hu
  · exact hdep

/-- A field gets the null object. -/
theorem Pending.fieldValue {w : Walk} {field l : ℕ} {g : Nodes} (hw : Walkable w)
    (h : Pending w l) (hfield : (w.graph field).type = .field)
    (hadd : EdgeAdded field nullObj w.graph g) (hl : l ≤ w.worklist.length) :
    Pending ⟨g, addFieldUsesToWorklist g field w.worklist, w.newEdges + 1⟩ l := by
  refine h.grow hw.wellFormed (walked_fieldValue hw hw.wellFormed.null_type hfield hadd) ?_ hl
  intro use huse
  refine ((hadd.mem_uses nullObj _).1 huse).imp id ?_
  rintro ⟨-, hu⟩ v hdep
  obtain rfl := Use.edge.inj hu
  exact mem_addFieldUsesToWorklist.2 (.inr hdep.fieldDep)

/-- The null object links no arraycopy. -/
theorem linkArraycopy_null (w : Walk) (l : List ℕ) : l.foldl (linkArraycopy nullObj) w = w := by
  refine Loops.invariant (P := fun w' => w' = w) l rfl fun w' e _ h => ?_
  rw [linkArraycopy, if_pos rfl, ite_self, h]

/-- One entry. -/
theorem Pending.outcome {w w' : Walk} {l : ℕ} (hw : Walkable w) (h : Pending w l)
    (hout : WalkOutcome nullObj w u w') (hl : l ≤ w.worklist.length) :
    Pending w' l ∧ Reached w'.graph nullObj u := by
  have hrun := hout.walked hw hw.wellFormed.null_type
  cases hout with
  | skip hr => exact ⟨h, hr⟩
  | @base f g hf _ hadd =>
    refine ⟨h.grow hw.wellFormed hrun (fun use huse => .inl ?_) hl, ?_⟩
    · rw [hadd.uses] at huse
      exact huse
    · exact (hadd.mem_bases f nullObj).2 (.inr ⟨rfl, rfl⟩)
  | source _ hnull _ _ => exact absurd rfl hnull
  | @field use g hf _ hadd =>
    exact ⟨h.fieldValue hw hf hadd hl, .inl ((hadd.mem_edges use nullObj).2 (.inr ⟨rfl, rfl⟩))⟩
  | @localVar use g hty _ hadd =>
    rw [linkArraycopy_null, ite_self] at hrun ⊢
    refine ⟨h.grow hw.wellFormed hrun ?_ hl,
      .inl ((hadd.mem_edges use nullObj).2 (.inr ⟨rfl, rfl⟩))⟩
    intro user huse
    refine ((hadd.mem_uses nullObj _).1 huse).imp id ?_
    rintro ⟨-, hu⟩ v ⟨-, hdep | ⟨hfield, -⟩⟩
    · obtain rfl := Use.edge.inj hu
      exact mem_addUsesToWorklist.2 (.inr hdep)
    · obtain rfl := Use.edge.inj hu
      rw [hadd.type, hty] at hfield
      exact absurd hfield (by decide)

/-- A run for the null object closes it. -/
theorem Pending.closed {fuel l : ℕ} {w w' : Walk} (hw : Walkable w) (h : Pending w l)
    (hl : l ≤ w.worklist.length) (hrun : walkWorklist nullObj fuel l w = some w') :
    Closed w'.graph nullObj := by
  induction fuel generalizing l w with
  | zero => simp [walkWorklist] at hrun
  | succ fuel ih =>
    obtain ⟨hlen, rfl⟩ | ⟨u, hu, hrun⟩ := walkWorklist_succ hrun
    · intro use v huse hdep
      obtain hr | hv := h.deps use v huse hdep
      · exact hr
      · refine h.walked v ?_
        rwa [List.take_of_length_le hlen]
    · have hmem : u ∈ w.worklist := List.mem_of_getElem? hu
      obtain ⟨hlt, -⟩ := List.getElem?_eq_some_iff.1 hu
      have hout := walkUse_outcome hw.wellFormed hw.wellFormed.null_type (hw.entries u hmem)
      have hwalked := hout.walked hw hw.wellFormed.null_type
      obtain ⟨hpending, hr⟩ := h.outcome hw hout hl
      have hlen : l < (walkUse nullObj w u).worklist.length :=
        Nat.lt_of_lt_of_le hlt hwalked.worklist.length_le
      refine ih hwalked.walkable ⟨hpending.deps, fun v hv => ?_⟩ hlen hrun
      obtain ⟨t, ht⟩ := hwalked.worklist
      rw [List.take_add_one] at hv
      obtain hv | hv := List.mem_append.1 hv
      · exact hpending.walked v hv
      · rw [← ht, List.getElem?_append_left hlt, hu] at hv
        obtain rfl : v = u := by simpa using hv
        exact hr

end

end StackAllocation
