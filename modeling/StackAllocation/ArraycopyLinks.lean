import StackAllocation.NullValues
import StackAllocation.EscapePropagation

/-!
# Links of arraycopies

An object that a local variable comes to refer to is linked to the arraycopies that the variable is
the destination of. Every run keeps this (`Linked`) for the references that were not in the graph to
begin with.

An object becomes the source of an arraycopy because a source of the arraycopy refers to it. So the
sources that were not in the graph to begin with are objects that a first source refers to
(`Sourced`), the phantom object apart, whose calls start with entries that are left over.
-/

namespace StackAllocation

/-- An object that a local variable has come to refer to is the destination of the arraycopies
that the variable is the destination of. -/
def Linked (g₀ g : Nodes) : Prop :=
  ∀ d obj ac, (g d).type = .localVar → obj ∈ (g d).edges → obj ∉ (g₀ d).edges →
    (g obj).type = .javaObject → obj ≠ nullObj → (g ac).type = .arraycopy → ac ∈ (g d).edges →
      ac ∈ (g obj).edges

section

variable {g₀ g g' : Nodes} {jobj : ℕ}

/-- Links stay where local variables get no reference. -/
theorem Linked.extends (h : Linked g₀ g) (hext : Extends g g')
    (hlocal : ∀ d e, (g d).type = .localVar → e ∈ (g' d).edges →
      e ∈ (g d).edges ∨ e = nullObj ∧ (g nullObj).type = .javaObject) : Linked g₀ g' := by
  intro d obj ac hd hobj hnot hty hnull hac hmem
  rw [hext.type] at hd hty hac
  obtain hobj | ⟨rfl, -⟩ := hlocal d obj hd hobj
  · obtain hmem | ⟨rfl, hjava⟩ := hlocal d ac hd hmem
    · exact hext.edges obj (h d obj ac hd hobj hnot hty hnull hac hmem)
    · exact absurd (hjava.symm.trans hac) (by decide)
  · exact absurd rfl hnull

/-- An edge from a node that is no local variable links no arraycopy with a destination. -/
theorem GraphStep.linked_of_not_localVar (h : Linked g₀ g) {src : ℕ}
    (hadd : EdgeAdded src jobj g g')
    (hsrc : (g src).type ≠ .localVar) : Linked g₀ g' := by
  refine h.extends hadd.extends fun d e hd he => .inl ?_
  obtain he | ⟨rfl, -⟩ := (hadd.mem_edges d e).1 he
  · exact he
  · exact absurd hd hsrc

/-- The propagation adds no edges between local variables. -/
theorem EscapeStep.linked (h : Linked g₀ g) (hstep : EscapeStep g g') : Linked g₀ g' := by
  cases hstep with
  | value hf hadd =>
    refine GraphStep.linked_of_not_localVar h hadd ?_
    rw [hf]
    decide
  | states _ hr _ _ =>
    refine h.extends hr.extends fun d e _ he => .inl ?_
    rwa [hr.same d PointsToNode.edges fun _ => rfl] at he

/-- Nor does a run of it. -/
theorem EscapeRun.linked (h : Linked g₀ g) (hrun : EscapeRun g g') : Linked g₀ g' := by
  induction hrun with
  | refl => exact h
  | tail _ hstep ih => exact hstep.linked ih

/-- To add the null object links nothing. -/
theorem NullAdded.linked (h : Linked g₀ g) (hg : WellFormed g) (hadd : NullAdded g g') :
    Linked g₀ g' := by
  refine h.extends hadd.grown fun d e _ he => ?_
  by_cases hnull : e = nullObj
  · exact .inr ⟨hnull, hg.null_type⟩
  · exact .inl ((hadd.edges d e hnull).1 he)

/-- The links of one new reference. -/
theorem linkArraycopy_links {w : Walk} (hw : Walkable w) (hj : (w.graph jobj).type = .javaObject)
    (l : List ℕ) :
    (∀ d e, (w.graph d).type = .localVar → e ∈ ((l.foldl (linkArraycopy jobj) w).graph d).edges →
      e ∈ (w.graph d).edges) ∧
    ∀ ac ∈ l, (w.graph ac).type = .arraycopy → jobj ≠ nullObj →
      ac ∈ ((l.foldl (linkArraycopy jobj) w).graph jobj).edges := by
  have hstep : ∀ w', ∀ e ∈ l, Walked jobj w w' → Walked jobj w (linkArraycopy jobj w' e) ∧
      (∀ d e', (w'.graph d).type = .localVar →
        e' ∈ ((linkArraycopy jobj w' e).graph d).edges → e' ∈ (w'.graph d).edges) ∧
      ((w'.graph e).type = .arraycopy → jobj ≠ nullObj →
        e ∈ ((linkArraycopy jobj w' e).graph jobj).edges) ∧
      Extends w'.graph (linkArraycopy jobj w' e).graph := by
    intro w' e _ h
    have hj' : (w'.graph jobj).type = .javaObject := by rw [h.run.extends.type, hj]
    have hwalked := walked_linkArraycopy h.walkable hj' [e]
    refine ⟨h.trans hwalked, ?_, ?_, hwalked.run.extends⟩
    · intro d e' hd he'
      obtain ⟨heq, -⟩ | ⟨hty, hnull, g', hadd, heq⟩ :=
        linkArraycopy_cases jobj h.walkable.wellFormed e
      · rwa [heq] at he'
      · simp only [heq, setArraycopyDst_apply] at he'
        obtain he' | ⟨rfl, -⟩ := (hadd.mem_edges d e').1 he'
        · exact he'
        · exact absurd (hj'.symm.trans hd) (by decide)
    · intro hty hnull
      obtain ⟨heq, hlinked⟩ | ⟨-, -, g', hadd, heq⟩ :=
        linkArraycopy_cases jobj h.walkable.wellFormed e
      · rw [heq]
        exact (hlinked hty).resolve_left hnull
      · simp only [heq, setArraycopyDst_apply]
        exact (hadd.mem_edges jobj e).2 (.inr ⟨rfl, rfl⟩)
  have hstart : Walked jobj w w := Walked.refl hw
  constructor
  · intro d e hd
    refine (Loops.invariant (P := fun w' : Walk => Walked jobj w w' ∧
      (e ∈ (w'.graph d).edges → e ∈ (w.graph d).edges)) l ⟨hstart, id⟩ ?_).2
    rintro w' a ha ⟨h, hkeep⟩
    refine ⟨(hstep w' a ha h).1, fun he => hkeep ((hstep w' a ha h).2.1 d e ?_ he)⟩
    rw [h.run.extends.type, hd]
  · intro ac hac hty hnull
    refine Loops.reached (P := fun w' : Walk => ac ∈ (w'.graph jobj).edges) hac hstart
      (fun w' a ha h => (hstep w' a ha h).1)
      (fun w' a ha h hmem => (hstep w' a ha h).2.2.2.edges jobj hmem)
      fun w' h => (hstep w' ac hac h).2.2.1 ?_ hnull
    rw [h.run.extends.type, hty]

/-- One entry of the worklist: a destination is linked where an arraycopy is marked. -/
theorem WalkOutcome.linked {w w' : Walk} {u : Use} (hw : Walkable w)
    (hj : (w.graph jobj).type = .javaObject) (h : Linked g₀ w.graph)
    (hout : WalkOutcome jobj w u w') : Linked g₀ w'.graph := by
  cases hout with
  | skip _ => exact h
  | @base f g hf _ hadd =>
    refine h.extends hadd.extends fun d e hd he => .inl ?_
    obtain he | ⟨rfl, -⟩ := (hadd.mem_edges d e).1 he
    · exact he
    · exact absurd (hj.symm.trans hd) (by decide)
  | @source ac g hty hnull _ hadd =>
    have hlinked := GraphStep.linked_of_not_localVar h hadd (by rw [hty]; decide)
    refine hlinked.extends (setArraycopySrc_flagsSet g hnull).extends fun d e _ he => .inl ?_
    simpa only [setArraycopySrc_apply] using he
  | @field use g hf _ hadd =>
    exact GraphStep.linked_of_not_localVar h hadd (by rw [hf]; decide)
  | @localVar use g hty _ hadd =>
    -- only the new reference needs links
    have hwalked := walked_localVar hw hj hty hadd
    have hj' : (g jobj).type = .javaObject := by rw [hadd.type, hj]
    obtain ⟨hkeep, hlinks⟩ := linkArraycopy_links hwalked.walkable hj' (g use).edges
    have hrun := walked_linkArraycopy hwalked.walkable hj' (g use).edges
    have hold : ∀ d obj ac, (g d).type = .localVar → obj ∈ (g d).edges → obj ∉ (g₀ d).edges →
        (g obj).type = .javaObject → obj ≠ nullObj → (g ac).type = .arraycopy → ac ∈ (g d).edges →
        ac ∈ (g obj).edges ∨ d = use ∧ obj = jobj := by
      intro d obj ac hd hobj hnot hobjty hnull hac hmem
      rw [hadd.type] at hd hobjty hac
      obtain hmem | ⟨-, rfl⟩ := (hadd.mem_edges d ac).1 hmem
      · refine ((hadd.mem_edges d obj).1 hobj).imp (fun hobj => ?_) id
        exact hadd.extends.edges obj (h d obj ac hd hobj hnot hobjty hnull hac hmem)
      · exact absurd (hj.symm.trans hac) (by decide)
    split
    · intro d obj ac hd hobj hnot hobjty hnull hac hmem
      have hext := hrun.run.extends
      rw [hext.type] at hd hobjty hac
      have hmem' := hkeep d ac hd hmem
      obtain hdone | ⟨rfl, rfl⟩ :=
        hold d obj ac hd (hkeep d obj hd hobj) hnot hobjty hnull hac hmem'
      · exact hext.edges obj hdone
      · exact hlinks ac hmem' hac hnull
    · next hdst =>
      intro d obj ac hd hobj hnot hobjty hnull hac hmem
      obtain hdone | ⟨rfl, rfl⟩ := hold d obj ac hd hobj hnot hobjty hnull hac hmem
      · exact hdone
      · exact absurd (hwalked.walkable.wellFormed.arraycopyDst d ac hac hmem) hdst

/-- So the destinations stay linked over the whole walk. -/
theorem walkWorklist_linked {fuel l : ℕ} {w w' : Walk} (hw : Walkable w)
    (hj : (w.graph jobj).type = .javaObject) (hlinked : Linked g₀ w.graph)
    (h : walkWorklist jobj fuel l w = some w') : Linked g₀ w'.graph := by
  induction fuel generalizing l w with
  | zero => cases h
  | succ fuel ih =>
    obtain ⟨-, rfl⟩ | ⟨u, hu, hrun⟩ := walkWorklist_succ h
    · exact hlinked
    · have hout := walkUse_outcome hw.wellFormed hj (hw.entries u (List.mem_of_getElem? hu))
      have hstep := hout.walked hw hj
      refine ih hstep.walkable ?_ (hout.linked hw hj hlinked) hrun
      rw [hstep.run.extends.type, hj]

end

/-! ## Sources of arraycopies

That an object is a source is recorded by the walk for the object itself: when the walk comes to an
arraycopy, the arraycopy gets an edge to the object. Such an entry was put on the worklist by a
local variable or field that refers to the object, so that node is a source too, and it was one
before. The induction over the walk keeps this for every entry that is still to be taken. -/

/-- An object that has become a source of an arraycopy is one that a source of it refers to. -/
def Sourced (g₀ g : Nodes) : Prop :=
  ∀ ac obj, (g ac).type = .arraycopy → obj ∈ (g ac).edges → obj ∈ (g₀ ac).edges ∨
    (g obj).type = .javaObject ∧ (obj = phantomObj ∨ ∃ v ∈ (g ac).edges,
      ((g v).type = .localVar ∨ (g v).type = .field) ∧ obj ∈ (g v).edges)

/-- An entry for an arraycopy has been put on the worklist by a source that refers to the object. -/
def PushedBy (g : Nodes) (jobj : ℕ) (u : Use) : Prop :=
  ∀ ac, u = .edge ac → (g ac).type = .arraycopy → ∃ v ∈ (g ac).edges,
    ((g v).type = .localVar ∨ (g v).type = .field) ∧ jobj ∈ (g v).edges

section

variable {g₀ g g' : Nodes} {jobj : ℕ} {u : Use}

/-- What the object was put on the worklist for stays so. -/
theorem PushedBy.extends (h : PushedBy g jobj u) (hext : Extends g g') : PushedBy g' jobj u := by
  intro ac hu hac
  rw [hext.type] at hac
  obtain ⟨v, hv, hty, hmem⟩ := h ac hu hac
  refine ⟨v, hext.edges ac hv, ?_, hext.edges v hmem⟩
  rwa [hext.type]

/-- The users of a node that refers to the object. -/
theorem pushedBy_uses (hg : WellFormed g) {use : ℕ}
    (hty : (g use).type = .localVar ∨ (g use).type = .field) (hmem : jobj ∈ (g use).edges)
    (hu : u ∈ (g use).uses) : PushedBy g jobj u := by
  rintro ac rfl -
  exact ⟨use, ((hg.mem_uses ac use).1 hu).1, hty, hmem⟩

/-- The dependents of a field that refers to the object. The fields it may be the same as are no
arraycopies. -/
theorem pushedBy_fieldDep (hg : WellFormed g) {field : ℕ} (hfield : (g field).type = .field)
    (hmem : jobj ∈ (g field).edges) (hu : FieldDep g field u) : PushedBy g jobj u := by
  have hrelated : ∀ {base}, ((g base).type = .javaObject ∨ (g base).type = .localVar) →
      Related g field base u → PushedBy g jobj u := by
    rintro base hbase ⟨f, rfl, -, ⟨-, hb⟩ | ⟨hlocal, -, -, hf, hcopy⟩⟩ ac hac hty
    · obtain rfl := Use.edge.inj hac
      have hf := (hg.bases_field f base ((hg.mem_base_uses f base).1 hb).1).1
      exact absurd (hty.symm.trans hf) (by decide)
    · obtain rfl := Use.edge.inj hac
      exact absurd hty hcopy
  obtain hu | ⟨base, hbase, hrel | ⟨abase, hcopy, hrel⟩⟩ := hu
  · exact pushedBy_uses hg (.inr hfield) hmem hu
  · exact hrelated (hg.bases_field field base hbase).2 hrel
  · obtain ⟨ac, -, hty, huse⟩ := hcopy.arycp
    exact hrelated (hg.arraycopy_dst_type abase ac hty ((hg.mem_uses abase ac).1 huse).1) hrel

/-- What a call for `jobj` starts with. -/
theorem pushedBy_populate (hg : WellFormed g) (hj : (g jobj).type = .javaObject)
    (hu : u ∈ (g jobj).uses.foldl (addUserToWorklist g) []) : PushedBy g jobj u := by
  obtain hu | ⟨use, huse, hcopy, hdep⟩ := mem_populate.1 hu
  · exact absurd hu List.not_mem_nil
  obtain ⟨hmem, -⟩ := (hg.mem_uses use jobj).1 huse
  have hty : (g use).type = .localVar ∨ (g use).type = .field := by
    cases hty : (g use).type with
    | javaObject =>
      obtain hfield | hac := hg.object_edges use jobj hty hmem
      · exact absurd (hj.symm.trans hfield) (by decide)
      · exact absurd (hj.symm.trans hac) (by decide)
    | localVar => exact .inl rfl
    | field => exact .inr rfl
    | arraycopy => exact absurd hty hcopy
  obtain hu | ⟨hfield, -, hdep⟩ := hdep
  · exact pushedBy_uses hg hty hmem hu
  · exact pushedBy_fieldDep hg hfield hmem hdep

/-- Sources stay where arraycopies get none. -/
theorem Sourced.extends (h : Sourced g₀ g) (hext : Extends g g')
    (hsame : ∀ ac e, (g ac).type = .arraycopy → e ∈ (g' ac).edges → e ∈ (g ac).edges ∨
      (g e).type = .javaObject ∧ (e = phantomObj ∨ PushedBy g e (.edge ac))) :
    Sourced g₀ g' := by
  intro ac obj hac hobj
  rw [hext.type] at hac ⊢
  obtain hobj | ⟨hty, hnew⟩ := hsame ac obj hac hobj
  · refine (h ac obj hac hobj).imp id (And.imp id (Or.imp id ?_))
    rintro ⟨v, hv, hvty, hmem⟩
    refine ⟨v, hext.edges ac hv, ?_, hext.edges v hmem⟩
    rwa [hext.type]
  · refine .inr ⟨hty, hnew.imp id fun hpushed => ?_⟩
    obtain ⟨v, hv, hvty, hmem⟩ := hpushed ac rfl hac
    refine ⟨v, hext.edges ac hv, ?_, hext.edges v hmem⟩
    rwa [hext.type]

/-- An arraycopy gets no edge but those of a run for a source. -/
theorem GraphStep.copy_edges (hj : (g jobj).type = .javaObject) (h : GraphStep jobj g g') {ac e : ℕ}
    (hac : (g ac).type = .arraycopy) (he : e ∈ (g' ac).edges) :
    e ∈ (g ac).edges ∨ e = jobj ∧ jobj ≠ nullObj := by
  cases h with
  | @edge use _ hty hadd =>
    refine ((hadd.mem_edges ac e).1 he).imp id ?_
    rintro ⟨rfl, -⟩
    rw [hac] at hty
    exact absurd hty (by decide)
  | base hf hadd =>
    refine ((hadd.mem_edges ac e).1 he).imp id ?_
    rintro ⟨rfl, -⟩
    exact absurd (hj.symm.trans hac) (by decide)
  | source _ hnull hadd =>
    rw [(setArraycopySrc_flagsSet _ hnull).same ac PointsToNode.edges fun _ => rfl] at he
    exact ((hadd.mem_edges ac e).1 he).imp id fun h => ⟨h.2, hnull⟩
  | link _ hnull hadd =>
    rw [(setArraycopyDst_flagsSet _ hnull).same ac PointsToNode.edges fun _ => rfl] at he
    refine ((hadd.mem_edges ac e).1 he).imp id ?_
    rintro ⟨rfl, -⟩
    exact absurd (hj.symm.trans hac) (by decide)

/-- A run for one object gives an arraycopy no other edge than that to the object. -/
theorem GraphRun.copy_edges (hj : (g jobj).type = .javaObject) (h : GraphRun jobj g g') {ac e : ℕ}
    (hac : (g ac).type = .arraycopy) (he : e ∈ (g' ac).edges) :
    e ∈ (g ac).edges ∨ e = jobj ∧ jobj ≠ nullObj := by
  induction h with
  | refl => exact .inl he
  | tail hrun hstep ih =>
    have hext := GraphRun.extends hrun
    obtain he | hnew := hstep.copy_edges (by rw [hext.type, hj]) (by rw [hext.type, hac]) he
    · exact ih he
    · exact .inr hnew

/-- Runs for the two predefined objects. -/
theorem Sourced.graphRun (h : Sourced g₀ g) (hj : (g jobj).type = .javaObject)
    (hpredefined : jobj = phantomObj ∨ jobj = nullObj) (hrun : GraphRun jobj g g') :
    Sourced g₀ g' := by
  refine h.extends hrun.extends fun ac e hac he => ?_
  obtain he | ⟨rfl, hnull⟩ := hrun.copy_edges hj hac he
  · exact .inl he
  · exact .inr ⟨hj, .inl (hpredefined.resolve_right hnull)⟩

/-- The propagation gives arraycopies no edges. -/
theorem EscapeRun.sourced (h : Sourced g₀ g) (hrun : EscapeRun g g') : Sourced g₀ g' := by
  induction hrun with
  | refl => exact h
  | tail _ hstep ih =>
    refine ih.extends hstep.extends fun ac e hac he => .inl ?_
    cases hstep with
    | value hf hadd =>
      refine ((hadd.mem_edges ac e).1 he).resolve_right ?_
      rintro ⟨rfl, -⟩
      exact absurd (hac.symm.trans hf) (by decide)
    | states _ hr _ _ => rwa [hr.same ac PointsToNode.edges fun _ => rfl] at he

/-- Links leave the sources of arraycopies and the worklist. -/
theorem linkArraycopy_copies {w : Walk} (hw : Walkable w) (hj : (w.graph jobj).type = .javaObject)
    (l : List ℕ) :
    (l.foldl (linkArraycopy jobj) w).worklist = w.worklist ∧
      ∀ ac e, (w.graph ac).type = .arraycopy →
        e ∈ ((l.foldl (linkArraycopy jobj) w).graph ac).edges → e ∈ (w.graph ac).edges := by
  have hend := Loops.invariant (P := fun w' : Walk => Walked jobj w w' ∧ w'.worklist = w.worklist ∧
    ∀ ac e, (w.graph ac).type = .arraycopy → e ∈ (w'.graph ac).edges → e ∈ (w.graph ac).edges)
    (f := linkArraycopy jobj) l ⟨Walked.refl hw, rfl, fun _ _ _ he => he⟩ ?_
  · exact hend.2
  rintro w' e - ⟨hwalked, hlist, hkeep⟩
  have hj' : (w'.graph jobj).type = .javaObject := by rw [hwalked.run.extends.type, hj]
  refine ⟨hwalked.trans (walked_linkArraycopy hwalked.walkable hj' [e]), ?_⟩
  obtain ⟨heq, -⟩ | ⟨-, -, g', hadd, heq⟩ :=
    linkArraycopy_cases jobj hwalked.walkable.wellFormed e
  · rw [heq]
    exact ⟨hlist, hkeep⟩
  · rw [heq]
    refine ⟨hlist, fun ac e' hac he' => hkeep ac e' hac ?_⟩
    simp only [setArraycopyDst_apply] at he'
    refine ((hadd.mem_edges ac e').1 he').resolve_right ?_
    rintro ⟨rfl, -⟩
    exact absurd (hj.symm.trans hac) (by decide)

/-- An entry for an arraycopy makes the object its source, and the entries that a new reference puts
on the worklist are put there by it. -/
theorem WalkOutcome.sourced {w w' : Walk} (hw : Walkable w) (hj : (w.graph jobj).type = .javaObject)
    (h : Sourced g₀ w.graph) (hpushed : ∀ v ∈ w.worklist, PushedBy w.graph jobj v)
    (hu : u ∈ w.worklist) (hout : WalkOutcome jobj w u w') :
    Sourced g₀ w'.graph ∧ ∀ v ∈ w'.worklist, PushedBy w'.graph jobj v := by
  have hwalked := hout.walked hw hj
  have hext := hwalked.run.extends
  have hg := hwalked.walkable.wellFormed
  have hold : ∀ v ∈ w.worklist, PushedBy w'.graph jobj v := fun v hv => (hpushed v hv).extends hext
  cases hout with
  | skip _ => exact ⟨h, hpushed⟩
  | @base f g hf _ hadd =>
    refine ⟨h.extends hext fun ac e hac he => .inl ?_, hold⟩
    refine ((hadd.mem_edges ac e).1 he).resolve_right ?_
    rintro ⟨rfl, -⟩
    exact absurd (hj.symm.trans hac) (by decide)
  | @source ac' g hty hnull _ hadd =>
    refine ⟨h.extends hext fun ac e hac he => ?_, hold⟩
    rw [(setArraycopySrc_flagsSet _ hnull).same ac PointsToNode.edges fun _ => rfl] at he
    obtain he | ⟨rfl, rfl⟩ := (hadd.mem_edges ac e).1 he
    · exact .inl he
    · exact .inr ⟨hj, .inr (hpushed _ hu)⟩
  | @field use g hf _ hadd =>
    have hf' : (g use).type = .field := (hadd.type use).trans hf
    refine ⟨h.extends hext fun ac e hac he => .inl ?_, fun v hv => ?_⟩
    · refine ((hadd.mem_edges ac e).1 he).resolve_right ?_
      rintro ⟨rfl, -⟩
      exact absurd (hac.symm.trans hf) (by decide)
    · obtain hv | hv := mem_addFieldUsesToWorklist.1 hv
      · exact hold v hv
      · exact pushedBy_fieldDep hg hf' ((hadd.mem_edges use jobj).2 (.inr ⟨rfl, rfl⟩)) hv
  | @localVar use g hty _ hadd =>
    have hvar := walked_localVar hw hj hty hadd
    have hvarObj : (g jobj).type = .javaObject := (hadd.type jobj).trans hj
    have hkeep : ∀ ac e, (w.graph ac).type = .arraycopy → e ∈ (g ac).edges →
        e ∈ (w.graph ac).edges := by
      intro ac e hac he
      refine ((hadd.mem_edges ac e).1 he).resolve_right ?_
      rintro ⟨rfl, -⟩
      exact absurd (hac.symm.trans hty) (by decide)
    have hnew : ∀ v ∈ addUsesToWorklist g use w.worklist, PushedBy g jobj v := by
      intro v hv
      obtain hv | hv := mem_addUsesToWorklist.1 hv
      · exact (hpushed v hv).extends hadd.extends
      · refine pushedBy_uses hvar.walkable.wellFormed (.inl ?_)
          ((hadd.mem_edges use jobj).2 (.inr ⟨rfl, rfl⟩)) hv
        rw [hadd.type, hty]
    have hsourced : Sourced g₀ g :=
      h.extends hadd.extends fun ac e hac he => .inl (hkeep ac e hac he)
    split
    · obtain ⟨hlist, hcopies⟩ := linkArraycopy_copies hvar.walkable hvarObj (g use).edges
      have hlinks := walked_linkArraycopy hvar.walkable hvarObj (g use).edges
      refine ⟨hsourced.extends hlinks.run.extends fun ac e hac he => .inl (hcopies ac e hac he),
        fun v hv => ?_⟩
      rw [hlist] at hv
      exact (hnew v hv).extends hlinks.run.extends
    · exact ⟨hsourced, hnew⟩

/-- The sources of arraycopies stay marked over the whole walk. Each entry of the worklist was put
there by the object. -/
theorem walkWorklist_sourced {fuel l : ℕ} {w w' : Walk} (hw : Walkable w)
    (hj : (w.graph jobj).type = .javaObject) (hsourced : Sourced g₀ w.graph)
    (hpushed : ∀ v ∈ w.worklist, PushedBy w.graph jobj v)
    (h : walkWorklist jobj fuel l w = some w') : Sourced g₀ w'.graph := by
  induction fuel generalizing l w with
  | zero => cases h
  | succ fuel ih =>
    obtain ⟨-, rfl⟩ | ⟨u, hu, hrun⟩ := walkWorklist_succ h
    · exact hsourced
    · have hmem := List.mem_of_getElem? hu
      have hout := walkUse_outcome hw.wellFormed hj (hw.entries u hmem)
      obtain ⟨hsourced', hpushed'⟩ := hout.sourced hw hj hsourced hpushed hmem
      have hstep := hout.walked hw hj
      refine ih hstep.walkable ?_ hsourced' hpushed' hrun
      rw [hstep.run.extends.type, hj]

end

end StackAllocation
