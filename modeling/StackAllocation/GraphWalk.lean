import StackAllocation.GraphSteps
import StackAllocation.Loops
import Mathlib.Logic.Relation

/-!
# The walk of an object over the connection graph

What `add_java_object_edges` does for one object. The entries that a node puts on the
worklist when it gets a new reference are its dependents (`Dep`); the object is closed in
a graph (`Closed`) when it has reached the dependents of everything that refers to it. A
call that adds nothing leaves the graph as it is and shows the object closed, and a call
for a closed object adds nothing.
-/

namespace StackAllocation

/-! ## What is put on the worklist

An entry is a use: an edge from a user, or a field with the object for a base. When a user has come
to refer to the object its own uses follow, and for a field also the fields that may be the same for
one of its bases or for what a base is copied to. -/

/-- An entry is put on the worklist once. -/
theorem mem_addToWorklist {wl : List Use} {u v : Use} :
    u ∈ addToWorklist wl v ↔ u ∈ wl ∨ u = v := by
  unfold addToWorklist
  split
  · next hv =>
    refine ⟨.inl, ?_⟩
    rintro (hu | rfl)
    · exact hu
    · exact hv
  · simp

section

variable (g : Nodes)

/-- The field may be the same as `f`, for a common base. -/
structure MayBeSame (field f : ℕ) : Prop where
  ne : f ≠ field
  isOop : (g f).isOop = true
  offset : sameOffset (g field).offset (g f).offset = true

/-- The entry is a field of the base that may be the same. -/
def Related (field base : ℕ) (u : Use) : Prop :=
  ∃ f, u = .edge f ∧ MayBeSame g field f ∧
    ((g base).type = .localVar ∧ .base f ∈ (g base).uses ∨
      (g base).type ≠ .localVar ∧ base ≠ phantomObj ∧ base ≠ nullObj ∧
        f ∈ (g base).edges ∧ (g f).type ≠ .arraycopy)

/-- An arraycopy leads from `base` to `abase`. -/
structure CopiedTo (base abase : ℕ) : Prop where
  src : (g base).arraycopySrc = true
  arycp : ∃ ac, .edge ac ∈ (g base).uses ∧ (g ac).type = .arraycopy ∧ .edge abase ∈ (g ac).uses
  dst : (g abase).arraycopyDst = true
  ne : abase ≠ base

/-- The dependents of a field. -/
def FieldDep (field : ℕ) (u : Use) : Prop :=
  u ∈ (g field).uses ∨ ∃ base ∈ (g field).bases,
    Related g field base u ∨ ∃ abase, CopiedTo g base abase ∧ Related g field abase u

/-- The dependents of a node that refers to an object. -/
def Dep (use : ℕ) (u : Use) : Prop :=
  (g use).type ≠ .arraycopy ∧
    (u ∈ (g use).uses ∨ (g use).type = .field ∧ (g use).isOop = true ∧ FieldDep g use u)

/-- The object has got to the entry. -/
def Reached (jobj : ℕ) : Use → Prop
  | .base f => jobj ∈ (g f).bases
  | .edge n => jobj ∈ (g n).edges ∨ (g n).type = .arraycopy ∧ jobj = nullObj

/-- The object has got to the dependents of everything that refers to it. -/
def Closed (jobj : ℕ) : Prop :=
  ∀ use u, .edge use ∈ (g jobj).uses → Dep g use u → Reached g jobj u

end

variable {g : Nodes} {wl : List Use} {u : Use}

/-- All uses of a node. -/
theorem mem_addUsesToWorklist {pt : ℕ} :
    u ∈ addUsesToWorklist g pt wl ↔ u ∈ wl ∨ u ∈ (g pt).uses := by
  unfold addUsesToWorklist
  rw [Loops.mem_foldl (P := fun v => u = v) fun wl v _ => mem_addToWorklist]
  simp

/-- A field is put on the worklist if it may be the same as the one that has changed. -/
theorem mem_addField {field f : ℕ} :
    u ∈ addField g field wl f ↔ u ∈ wl ∨ MayBeSame g field f ∧ u = .edge f := by
  unfold addField
  by_cases hf : f = field ∨ (g f).isOop = false
  · rw [if_pos hf]
    refine ⟨.inl, ?_⟩
    rintro (hu | ⟨hsame, -⟩)
    · exact hu
    · obtain rfl | hoop := hf
      · exact absurd rfl hsame.ne
      · exact absurd (hoop.symm.trans hsame.isOop) (by decide)
  · rw [if_neg hf]
    rw [not_or] at hf
    by_cases hoff : sameOffset (g field).offset (g f).offset = true
    · rw [if_pos hoff, mem_addToWorklist]
      have hsame : MayBeSame g field f := ⟨hf.1, by simpa using hf.2, hoff⟩
      simp [hsame]
    · rw [if_neg hoff]
      refine ⟨.inl, ?_⟩
      rintro (hu | ⟨hsame, -⟩)
      · exact hu
      · exact absurd hsame.offset hoff

/-- The fields of one base that may be the same. -/
theorem mem_addFieldsToWorklist {field base : ℕ} :
    u ∈ addFieldsToWorklist g field base wl ↔ u ∈ wl ∨ Related g field base u := by
  unfold addFieldsToWorklist Related
  by_cases hlocal : (g base).type = .localVar
  · rw [if_pos hlocal]
    rw [Loops.mem_foldl (P := fun v => ∃ f, v = .base f ∧ MayBeSame g field f ∧ u = .edge f)]
    · refine or_congr_right ?_
      constructor
      · rintro ⟨_, hv, f, rfl, hsame, rfl⟩
        exact ⟨f, rfl, hsame, .inl ⟨hlocal, hv⟩⟩
      · rintro ⟨f, rfl, hsame, ⟨-, hv⟩ | ⟨hnot, -⟩⟩
        · exact ⟨.base f, hv, f, rfl, hsame, rfl⟩
        · exact absurd hlocal hnot
    · intro wl v _
      cases v with
      | base f => simp [mem_addField]
      | edge n => simp
  · rw [if_neg hlocal]
    by_cases hbase : base ≠ phantomObj ∧ base ≠ nullObj
    · rw [if_pos hbase]
      rw [Loops.mem_foldl
        (P := fun f => (g f).type ≠ .arraycopy ∧ MayBeSame g field f ∧ u = .edge f)]
      · refine or_congr_right ?_
        constructor
        · rintro ⟨f, hf, hty, hsame, rfl⟩
          exact ⟨f, rfl, hsame, .inr ⟨hlocal, hbase.1, hbase.2, hf, hty⟩⟩
        · rintro ⟨f, rfl, hsame, ⟨hl, -⟩ | ⟨-, -, -, hf, hty⟩⟩
          · exact absurd hl hlocal
          · exact ⟨f, hf, hty, hsame, rfl⟩
      · intro wl f _
        by_cases hty : (g f).type = .arraycopy
        · simp [hty]
        · simp [hty, mem_addField]
    · rw [if_neg hbase]
      refine ⟨.inl, ?_⟩
      rintro (hu | ⟨f, -, -, ⟨hl, -⟩ | ⟨-, hp, hn, -⟩⟩)
      · exact hu
      · exact absurd hl hlocal
      · exact absurd ⟨hp, hn⟩ hbase

/-- Across one arraycopy: the fields of what is copied to. -/
theorem mem_addDestinationFields {field base arycp : ℕ} :
    u ∈ addDestinationFields g field base arycp wl ↔ u ∈ wl ∨
      ∃ abase, .edge abase ∈ (g arycp).uses ∧ (g abase).arraycopyDst = true ∧ abase ≠ base ∧
        Related g field abase u := by
  unfold addDestinationFields
  rw [Loops.mem_foldl (P := fun k => ∃ abase, k = .edge abase ∧ (g abase).arraycopyDst = true ∧
    abase ≠ base ∧ Related g field abase u)]
  · refine or_congr_right ?_
    constructor
    · rintro ⟨_, hk, abase, rfl, hrest⟩
      exact ⟨abase, hk, hrest⟩
    · rintro ⟨abase, hk, hrest⟩
      exact ⟨_, hk, abase, rfl, hrest⟩
  · intro wl k _
    cases k with
    | base f => simp
    | edge abase =>
      by_cases hdst : (g abase).arraycopyDst = true ∧ abase ≠ base
      · simp [hdst, mem_addFieldsToWorklist]
      · simp only [if_neg hdst]
        simp only [Use.edge.injEq, exists_eq_left', iff_self_or]
        rintro ⟨h₁, h₂, -⟩
        exact absurd ⟨h₁, h₂⟩ hdst

/-- The fields of a base and of all that it is copied to, if it is the source of an arraycopy. -/
theorem mem_addBaseFields {field base : ℕ} :
    u ∈ addBaseFields g field wl base ↔ u ∈ wl ∨
      (Related g field base u ∨ ∃ abase, CopiedTo g base abase ∧ Related g field abase u) := by
  unfold addBaseFields
  by_cases hsrc : (g base).arraycopySrc = true
  · rw [if_pos hsrc]
    rw [Loops.mem_foldl (P := fun j => ∃ ac, j = .edge ac ∧ (g ac).type = .arraycopy ∧
      ∃ abase, .edge abase ∈ (g ac).uses ∧ (g abase).arraycopyDst = true ∧ abase ≠ base ∧
        Related g field abase u), mem_addFieldsToWorklist, or_assoc]
    · refine or_congr_right (or_congr_right ?_)
      constructor
      · rintro ⟨_, hj, ac, rfl, hty, abase, huse, hdst, hne, hrel⟩
        exact ⟨abase, ⟨hsrc, ⟨ac, hj, hty, huse⟩, hdst, hne⟩, hrel⟩
      · rintro ⟨abase, ⟨-, ⟨ac, hj, hty, huse⟩, hdst, hne⟩, hrel⟩
        exact ⟨_, hj, ac, rfl, hty, abase, huse, hdst, hne, hrel⟩
    · intro wl j _
      cases j with
      | base f => simp
      | edge ac =>
        by_cases hty : (g ac).type = .arraycopy
        · simp [hty, mem_addDestinationFields]
        · simp [hty]
  · rw [if_neg hsrc, mem_addFieldsToWorklist]
    refine or_congr_right ⟨.inl, ?_⟩
    rintro (hrel | ⟨abase, hcopy, -⟩)
    · exact hrel
    · exact absurd hcopy.src hsrc

/-- The fields of all bases of a field that has changed, which is what depends on it. -/
theorem mem_addFieldUsesToWorklist {field : ℕ} :
    u ∈ addFieldUsesToWorklist g field wl ↔ u ∈ wl ∨ FieldDep g field u := by
  unfold addFieldUsesToWorklist FieldDep
  rw [Loops.mem_foldl (P := fun base => Related g field base u ∨
    ∃ abase, CopiedTo g base abase ∧ Related g field abase u) fun wl base _ => mem_addBaseFields,
    mem_addUsesToWorklist, or_assoc]

/-- One use of a node that has changed: a local variable is put on the worklist itself, a field with
what depends on it. -/
theorem mem_addUserToWorklist {v : Use} :
    u ∈ addUserToWorklist g wl v ↔ u ∈ wl ∨ ∃ use, v = .edge use ∧ Dep g use u := by
  unfold Dep
  cases v with
  | base f => simp [addUserToWorklist]
  | edge use =>
    by_cases hty : (g use).type = .arraycopy
    · simp [addUserToWorklist, hty]
    · by_cases hfield : (g use).type = .field ∧ (g use).isOop = true
      · simp [addUserToWorklist, hfield, mem_addFieldUsesToWorklist, mem_addUsesToWorklist,
          or_assoc]
      · simp only [addUserToWorklist, if_neg hty, if_neg hfield, mem_addUsesToWorklist,
          Use.edge.injEq, exists_eq_left']
        refine or_congr_right ⟨fun hu => ⟨hty, .inl hu⟩, ?_⟩
        rintro ⟨-, hu | ⟨hf, ho, -⟩⟩
        · exact hu
        · exact absurd ⟨hf, ho⟩ hfield

/-- What a call for `jobj` starts with. -/
theorem mem_populate {jobj : ℕ} :
    u ∈ (g jobj).uses.foldl (addUserToWorklist g) wl ↔
      u ∈ wl ∨ ∃ use, .edge use ∈ (g jobj).uses ∧ Dep g use u := by
  rw [Loops.mem_foldl (P := fun v => ∃ use, v = .edge use ∧ Dep g use u)
    fun wl v _ => mem_addUserToWorklist]
  refine or_congr_right ?_
  constructor
  · rintro ⟨_, hv, use, rfl, hdep⟩
    exact ⟨use, hv, hdep⟩
  · rintro ⟨use, hv, hdep⟩
    exact ⟨_, hv, use, rfl, hdep⟩

/-! The worklist only grows at its end. -/

/-- What is on the worklist stays where it is, so the walk can go on from its index. -/
theorem prefix_addToWorklist : wl <+: addToWorklist wl u := by
  unfold addToWorklist
  split
  · exact List.prefix_rfl
  · exact List.prefix_append _ _

/-- A loop whose steps put things at the end of a list. -/
theorem prefix_foldl {α : Type} {f : List Use → α → List Use} (hf : ∀ wl a, wl <+: f wl a)
    (l : List α) : wl <+: l.foldl f wl :=
  Loops.invariant (P := fun wl' => wl <+: wl') l List.prefix_rfl
    fun wl' a _ h => h.trans (hf wl' a)

theorem prefix_addUsesToWorklist {pt : ℕ} : wl <+: addUsesToWorklist g pt wl :=
  prefix_foldl (fun _ _ => prefix_addToWorklist) _

theorem prefix_addField {field f : ℕ} : wl <+: addField g field wl f := by
  unfold addField
  split
  · exact List.prefix_rfl
  · split
    · exact prefix_addToWorklist
    · exact List.prefix_rfl

/-- The fields of one base are put behind what is there. -/
theorem prefix_addFieldsToWorklist {field base : ℕ} :
    wl <+: addFieldsToWorklist g field base wl := by
  unfold addFieldsToWorklist
  split
  · refine prefix_foldl (fun wl v => ?_) _
    cases v with
    | base f => exact prefix_addField
    | edge n => exact List.prefix_rfl
  · split
    · refine prefix_foldl (fun wl f => ?_) _
      split
      · exact List.prefix_rfl
      · exact prefix_addField
    · exact List.prefix_rfl

/-- So are those of all bases that they are copied to. -/
theorem prefix_addBaseFields {field base : ℕ} : wl <+: addBaseFields g field wl base := by
  have hdst : ∀ arycp wl, wl <+: addDestinationFields g field base arycp wl := by
    intro arycp wl
    refine prefix_foldl (fun wl k => ?_) _
    cases k with
    | base f => exact List.prefix_rfl
    | edge abase =>
      simp only
      split
      · exact prefix_addFieldsToWorklist
      · exact List.prefix_rfl
  unfold addBaseFields
  split
  · refine prefix_addFieldsToWorklist.trans (prefix_foldl (fun wl j => ?_) _)
    cases j with
    | base f => exact List.prefix_rfl
    | edge arycp =>
      simp only
      split
      · exact hdst arycp wl
      · exact List.prefix_rfl
  · exact prefix_addFieldsToWorklist

/-- And the fields that depend on one that has changed. -/
theorem prefix_addFieldUsesToWorklist {field : ℕ} : wl <+: addFieldUsesToWorklist g field wl :=
  prefix_addUsesToWorklist.trans (prefix_foldl (fun _ _ => prefix_addBaseFields) _)

/-! ## One entry

Each entry has one of a few outcomes: nothing is new, a user comes to refer to the object, a field
gets the object for a base, or an arraycopy is linked. The outcome says what is new in the graph and
what has come to the list. -/

/-- An entry of the worklist: a user that is no object, or a field. -/
def EntryOk (g : Nodes) : Use → Prop
  | .edge n => (g n).type ≠ .javaObject
  | .base f => (g f).type = .field

/-- What uses a node other than an arraycopy is an entry that the walk can take. -/
theorem WellFormed.entryOk_uses (hg : WellFormed g) {use : ℕ} (huse : (g use).type ≠ .arraycopy)
    (hu : u ∈ (g use).uses) : EntryOk g u := by
  cases u with
  | base f => exact (hg.bases_field f use ((hg.mem_base_uses f use).1 hu).1).1
  | edge n =>
    intro hn
    obtain ⟨he, hpair⟩ := (hg.mem_uses n use).1 hu
    obtain hf | ha := hg.object_edges n use hn he
    · exact hpair ⟨hn, hf⟩
    · exact huse ha

/-- So is a field of a base that may be the same. -/
theorem WellFormed.entryOk_related (hg : WellFormed g) {field base : ℕ}
    (hbase : (g base).type = .javaObject ∨ (g base).type = .localVar)
    (hu : Related g field base u) : EntryOk g u := by
  obtain ⟨f, rfl, -, ⟨-, hf⟩ | ⟨hnot, -, -, hf, hty⟩⟩ := hu
  · have hfield := (hg.bases_field f base ((hg.mem_base_uses f base).1 hf).1).1
    exact fun hjava => absurd (hfield.symm.trans hjava) (by decide)
  · obtain hfield | hcopy := hg.object_edges base f (hbase.resolve_right hnot) hf
    · exact fun hjava => absurd (hfield.symm.trans hjava) (by decide)
    · exact absurd hcopy hty

/-- So is what depends on a field. -/
theorem WellFormed.entryOk_fieldDep (hg : WellFormed g) {field : ℕ}
    (hfield : (g field).type = .field) (hu : FieldDep g field u) : EntryOk g u := by
  obtain hu | ⟨base, hbase, hrel | ⟨abase, hcopy, hrel⟩⟩ := hu
  · refine hg.entryOk_uses ?_ hu
    rw [hfield]
    decide
  · exact hg.entryOk_related (hg.bases_field field base hbase).2 hrel
  · obtain ⟨ac, -, hty, huse⟩ := hcopy.arycp
    have hedge := ((hg.mem_uses abase ac).1 huse).1
    exact hg.entryOk_related (hg.arraycopy_dst_type abase ac hty hedge) hrel

/-- All that one step puts on the worklist can be taken from it, which keeps the walk going. -/
theorem Dep.entryOk (hg : WellFormed g) {use : ℕ} (h : Dep g use u) : EntryOk g u := by
  obtain ⟨hty, hu | ⟨hfield, -, hu⟩⟩ := h
  · exact hg.entryOk_uses hty hu
  · exact hg.entryOk_fieldDep hfield hu

/-- What the worklist needs. -/
structure Walkable (w : Walk) : Prop where
  wellFormed : WellFormed w.graph
  entries : ∀ u ∈ w.worklist, EntryOk w.graph u

variable {jobj : ℕ}

/-- What becomes of one entry. -/
inductive WalkOutcome (jobj : ℕ) (w : Walk) : Use → Walk → Prop
  | skip {u : Use} : Reached w.graph jobj u → WalkOutcome jobj w u w
  | base {f : ℕ} {g : Nodes} : (w.graph f).type = .field → jobj ∉ (w.graph f).bases →
      BaseAdded f jobj w.graph g →
      WalkOutcome jobj w (.base f) ⟨g, w.worklist, w.newEdges + 1⟩
  | source {ac : ℕ} {g : Nodes} : (w.graph ac).type = .arraycopy → jobj ≠ nullObj →
      jobj ∉ (w.graph ac).edges → EdgeAdded ac jobj w.graph g →
      WalkOutcome jobj w (.edge ac) ⟨setArraycopySrc g jobj, w.worklist, w.newEdges + 1⟩
  | localVar {use : ℕ} {g : Nodes} : (w.graph use).type = .localVar →
      jobj ∉ (w.graph use).edges → EdgeAdded use jobj w.graph g →
      WalkOutcome jobj w (.edge use)
        (if (g use).arraycopyDst then
          (g use).edges.foldl (linkArraycopy jobj)
            ⟨g, addUsesToWorklist g use w.worklist, w.newEdges + 1⟩
        else ⟨g, addUsesToWorklist g use w.worklist, w.newEdges + 1⟩)
  | field {use : ℕ} {g : Nodes} : (w.graph use).type = .field →
      jobj ∉ (w.graph use).edges → EdgeAdded use jobj w.graph g →
      WalkOutcome jobj w (.edge use)
        ⟨g, addFieldUsesToWorklist g use w.worklist, w.newEdges + 1⟩

/-- One entry of the worklist, of each kind: what is added to the graph, and what is put on the
worklist for it. -/
theorem walkUse_outcome {w : Walk} (hw : WellFormed w.graph)
    (hj : (w.graph jobj).type = .javaObject) (hu : EntryOk w.graph u) :
    WalkOutcome jobj w u (walkUse jobj w u) := by
  cases u with
  | base f =>
    rw [walkUse]
    obtain ⟨hmem, heq⟩ | ⟨hmem, g', heq, hadd⟩ := addBase_cases hw hu hj
    · rw [heq]
      exact .skip hmem
    · rw [heq]
      exact .base hu hmem hadd
  | edge use =>
    have hnot : ¬ ((w.graph use).type = .javaObject ∧ (w.graph jobj).type = .field) :=
      fun h => hu h.1
    rw [walkUse]
    by_cases hcopy : (w.graph use).type = .arraycopy
    · rw [if_pos hcopy]
      by_cases hnull : jobj = nullObj
      · rw [if_pos hnull]
        exact .skip (.inr ⟨hcopy, hnull⟩)
      · rw [if_neg hnull]
        obtain ⟨hmem, heq⟩ | ⟨hmem, g', heq, hadd⟩ := addEdge_cases hw hnot
        · rw [heq]
          exact .skip (.inl hmem)
        · rw [heq]
          exact .source hcopy hnull hmem hadd
    · rw [if_neg hcopy]
      obtain ⟨hmem, heq⟩ | ⟨hmem, g', heq, hadd⟩ := addEdge_cases hw hnot
      · rw [heq]
        exact .skip (.inl hmem)
      · rw [heq]
        by_cases hlocal : (w.graph use).type = .localVar
        · have hlocal' : (g' use).type = .localVar := by rw [hadd.type, hlocal]
          simp only [hlocal', if_true]
          exact .localVar hlocal hmem hadd
        · have hlocal' : ¬ (g' use).type = .localVar := by rwa [hadd.type]
          simp only [if_neg hlocal']
          refine .field ?_ hmem hadd
          cases hty : (w.graph use).type with
          | javaObject => exact absurd hty hu
          | localVar => exact absurd hty hlocal
          | field => rfl
          | arraycopy => exact absurd hty hcopy

/-- What the link of one arraycopy comes to. -/
theorem linkArraycopy_cases (jobj : ℕ) {w : Walk} (hw : WellFormed w.graph) (e : ℕ) :
    (linkArraycopy jobj w e = w ∧
      ((w.graph e).type = .arraycopy → jobj = nullObj ∨ e ∈ (w.graph jobj).edges)) ∨
    ((w.graph e).type = .arraycopy ∧ jobj ≠ nullObj ∧ ∃ g', EdgeAdded jobj e w.graph g' ∧
      linkArraycopy jobj w e = ⟨setArraycopyDst g' jobj, w.worklist, w.newEdges + 1⟩) := by
  unfold linkArraycopy
  by_cases hcopy : (w.graph e).type = .arraycopy
  · rw [if_pos hcopy]
    by_cases hnull : jobj = nullObj
    · rw [if_pos hnull]
      exact .inl ⟨rfl, fun _ => .inl hnull⟩
    · rw [if_neg hnull]
      have hnot : ¬ ((w.graph jobj).type = .javaObject ∧ (w.graph e).type = .field) := by
        rw [hcopy]
        rintro ⟨-, h⟩
        exact absurd h (by decide)
      obtain ⟨hmem, heq⟩ | ⟨-, g', heq, hadd⟩ := addEdge_cases hw hnot
      · rw [heq]
        exact .inl ⟨rfl, fun _ => .inr hmem⟩
      · rw [heq]
        exact .inr ⟨hcopy, hnull, g', hadd, rfl⟩
  · rw [if_neg hcopy]
    exact .inl ⟨rfl, fun h => absurd h hcopy⟩

end StackAllocation
