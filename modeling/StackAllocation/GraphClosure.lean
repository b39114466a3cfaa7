import StackAllocation.GraphWalk

/-!
# Closed objects

Runs of the walk: what they leave as it was, that a run that adds nothing has found the
object closed, that a run for a closed object adds nothing, and that a run for the null
object closes it again after some fields have been given a null value.
-/

namespace StackAllocation

/-! ## Steps of a run

A run of `add_java_object_edges` adds edges, bases and flags. Nothing is taken back, so what a step
needs to be true of the graph when it is put on the worklist is still true when its turn comes. -/

/-- What a run for `jobj` does to the graph at once. -/
inductive GraphStep (jobj : ℕ) (g : Nodes) : Nodes → Prop
  | edge {use : ℕ} {g' : Nodes} : (g use).type = .localVar ∨ (g use).type = .field →
      EdgeAdded use jobj g g' → GraphStep jobj g g'
  | base {f : ℕ} {g' : Nodes} : (g f).type = .field → BaseAdded f jobj g g' → GraphStep jobj g g'
  | source {ac : ℕ} {g' : Nodes} : (g ac).type = .arraycopy → jobj ≠ nullObj →
      EdgeAdded ac jobj g g' → GraphStep jobj g (setArraycopySrc g' jobj)
  | link {ac : ℕ} {g' : Nodes} : (g ac).type = .arraycopy → jobj ≠ nullObj →
      EdgeAdded jobj ac g g' → GraphStep jobj g (setArraycopyDst g' jobj)

/-- The graph has grown: what is in it stays. -/
structure Extends (g g' : Nodes) : Prop where
  type : ∀ n, (g' n).type = (g n).type
  ideal : ∀ n, (g' n).ideal = (g n).ideal
  isOop : ∀ n, (g' n).isOop = (g n).isOop
  offset : ∀ n, (g' n).offset = (g n).offset
  escapeState : ∀ n, (g n).escapeState.toNat ≤ (g' n).escapeState.toNat
  edges : ∀ n, (g n).edges ⊆ (g' n).edges
  bases : ∀ n, (g n).bases ⊆ (g' n).bases

theorem Extends.refl (g : Nodes) : Extends g g :=
  ⟨fun _ => rfl, fun _ => rfl, fun _ => rfl, fun _ => rfl, fun _ => Nat.le_refl _,
    fun _ => List.Subset.refl _, fun _ => List.Subset.refl _⟩

/-- A graph that adds to a graph that adds to another. -/
theorem Extends.trans {g₁ g₂ g₃ : Nodes} (h : Extends g₁ g₂) (h' : Extends g₂ g₃) :
    Extends g₁ g₃ where
  type n := (h'.type n).trans (h.type n)
  ideal n := (h'.ideal n).trans (h.ideal n)
  isOop n := (h'.isOop n).trans (h.isOop n)
  offset n := (h'.offset n).trans (h.offset n)
  escapeState n := Nat.le_trans (h.escapeState n) (h'.escapeState n)
  edges n := List.Subset.trans (h.edges n) (h'.edges n)
  bases n := List.Subset.trans (h.bases n) (h'.bases n)

/-- A new edge adds to the graph. -/
theorem EdgeAdded.extends {g g' : Nodes} {src dst : ℕ} (h : EdgeAdded src dst g g') :
    Extends g g' where
  type := h.type
  ideal := h.ideal
  isOop := h.isOop
  offset := h.offset
  escapeState n := Nat.le_of_eq (congrArg EscapeState.toNat (h.escapeState n).symm)
  edges n _ he := (h.mem_edges n _).2 (.inl he)
  bases n _ hb := by rw [h.bases]; exact hb

/-- So does a new base. -/
theorem BaseAdded.extends {g g' : Nodes} {field base : ℕ} (h : BaseAdded field base g g') :
    Extends g g' where
  type := h.type
  ideal := h.ideal
  isOop := h.isOop
  offset := h.offset
  escapeState n := Nat.le_of_eq (congrArg EscapeState.toNat (h.escapeState n).symm)
  edges n _ he := (h.mem_edges n _).2 (.inl he)
  bases n _ hb := (h.mem_bases n _).2 (.inl hb)

/-- And a flag. -/
theorem FlagsSet.extends {g g' : Nodes} (h : FlagsSet g g') : Extends g g' where
  type n := h.same n _ fun _ => rfl
  ideal n := h.same n _ fun _ => rfl
  isOop n := h.same n _ fun _ => rfl
  offset n := h.same n _ fun _ => rfl
  escapeState n := Nat.le_of_eq (congrArg EscapeState.toNat
    (h.same n PointsToNode.escapeState fun _ => rfl)).symm
  edges n e he := by
    rw [h.same n PointsToNode.edges fun _ => rfl]
    exact he
  bases n b hb := by
    rw [h.same n PointsToNode.bases fun _ => rfl]
    exact hb

/-- A raised state takes nothing away. -/
theorem StatesRaised.extends {g g' : Nodes} (h : StatesRaised g g') : Extends g g' where
  type n := h.same n _ fun _ => rfl
  ideal n := h.same n _ fun _ => rfl
  isOop n := h.same n _ fun _ => rfl
  offset n := h.same n _ fun _ => rfl
  escapeState := h.escapeState
  edges n e he := by
    rw [h.same n PointsToNode.edges fun _ => rfl]
    exact he
  bases n b hb := by
    rw [h.same n PointsToNode.bases fun _ => rfl]
    exact hb

section

variable {jobj : ℕ} {g g' : Nodes}

/-- Each kind of step adds to the graph. -/
theorem GraphStep.extends (h : GraphStep jobj g g') : Extends g g' := by
  cases h with
  | edge _ h => exact h.extends
  | base _ h => exact h.extends
  | source _ hnull h => exact h.extends.trans (setArraycopySrc_flagsSet _ hnull).extends
  | link _ hnull h => exact h.extends.trans (setArraycopyDst_flagsSet _ hnull).extends

/-- Each kind of step keeps the graph well formed. -/
theorem GraphStep.wellFormed (hg : WellFormed g) (hj : (g jobj).type = .javaObject)
    (h : GraphStep jobj g g') : WellFormed g' := by
  cases h with
  | @edge use _ hty h =>
    refine hg.edgeAdded h ?_ ?_ ?_ ?_
    · rintro rfl
      rw [hg.null_type] at hty
      exact absurd hty (by decide)
    · intro hjava
      rw [hjava] at hty
      exact absurd hty (by decide)
    · intro hcopy
      rw [hcopy] at hty
      exact absurd hty (by decide)
    · intro hcopy
      exact absurd (hj.symm.trans hcopy) (by decide)
  | base hf h => exact hg.baseAdded h hf hj
  | @source ac _ hty hnull h =>
    have hflags := setArraycopySrc_flagsSet g hnull
    have htype : ∀ n, (setArraycopySrc g jobj n).type = (g n).type :=
      fun n => hflags.same n _ fun _ => rfl
    refine (hg.flagsSet hflags).edgeAdded (h.setArraycopySrc jobj) ?_ ?_ ?_ ?_
    · rintro rfl
      exact absurd (hg.null_type.symm.trans hty) (by decide)
    · rw [htype, hty]
      intro h
      exact absurd h (by decide)
    · intro _
      simp [setArraycopySrc_apply]
    · rw [htype, hj]
      intro h
      exact absurd h (by decide)
  | @link ac _ hty hnull h =>
    have hflags := setArraycopyDst_flagsSet g hnull
    have htype : ∀ n, (setArraycopyDst g jobj n).type = (g n).type :=
      fun n => hflags.same n _ fun _ => rfl
    refine (hg.flagsSet hflags).edgeAdded (h.setArraycopyDst jobj) hnull ?_ ?_ ?_
    · intro _
      rw [htype, hty]
    · rw [htype, hj]
      intro h
      exact absurd h (by decide)
    · intro _
      refine ⟨by simp [setArraycopyDst_apply], ?_⟩
      rw [htype, hj]

/-- What a run does to the graph. -/
abbrev GraphRun (jobj : ℕ) : Nodes → Nodes → Prop := Relation.ReflTransGen (GraphStep jobj)

/-- A run adds to the graph, by induction on its steps. -/
theorem GraphRun.extends (h : GraphRun jobj g g') : Extends g g' := by
  induction h with
  | refl => exact Extends.refl g
  | tail _ hstep ih => exact ih.trans hstep.extends

/-- A run keeps the graph well formed. -/
theorem GraphRun.wellFormed (hg : WellFormed g) (hj : (g jobj).type = .javaObject)
    (h : GraphRun jobj g g') : WellFormed g' := by
  induction h with
  | refl => exact hg
  | tail hrun hstep ih =>
    refine hstep.wellFormed ih ?_
    rw [(GraphRun.extends hrun).type, hj]

/-- An entry that could be taken from the worklist can be taken later. -/
theorem EntryOk.extends {u : Use} (h : EntryOk g u) (hext : Extends g g') : EntryOk g' u := by
  cases u with
  | edge n =>
    intro hn
    rw [hext.type] at hn
    exact h hn
  | base f => exact (hext.type f).trans h

end

/-! ## Runs

The invariant of the walk says that all entries up to the index have been reached by the object, and
that whatever a reached entry leads to is on the worklist. At the end of the worklist the object is
closed. -/

section

variable {jobj : ℕ}

/-- What a part of a run does. -/
structure Walked (jobj : ℕ) (w w' : Walk) : Prop where
  run : GraphRun jobj w.graph w'.graph
  worklist : w.worklist <+: w'.worklist
  newEdges : w.newEdges ≤ w'.newEdges
  walkable : Walkable w'

/-- The walk is continued. -/
theorem Walked.trans {w₁ w₂ w₃ : Walk} (h : Walked jobj w₁ w₂) (h' : Walked jobj w₂ w₃) :
    Walked jobj w₁ w₃ :=
  ⟨Relation.ReflTransGen.trans h.run h'.run, h.worklist.trans h'.worklist,
    Nat.le_trans h.newEdges h'.newEdges, h'.walkable⟩

/-- A walk can be continued on a graph to which something was added, with entries that can be
taken. -/
theorem Walkable.extends {g : Nodes} {w : Walk} (hw : Walkable w) (hg : WellFormed g)
    (hext : Extends w.graph g) {wl : List Use} (hwl : ∀ u ∈ wl, u ∈ w.worklist ∨ EntryOk g u)
    (k : ℕ) : Walkable ⟨g, wl, k⟩ := by
  refine ⟨hg, fun u hu => ?_⟩
  obtain hu | hu := hwl u hu
  · exact (hw.entries u hu).extends hext
  · exact hu

/-- The links of arraycopies. -/
theorem walked_linkArraycopy {w : Walk} (hw : Walkable w)
    (hj : (w.graph jobj).type = .javaObject) (l : List ℕ) :
    Walked jobj w (l.foldl (linkArraycopy jobj) w) := by
  refine Loops.invariant (P := Walked jobj w) l
    ⟨Relation.ReflTransGen.refl, List.prefix_rfl, Nat.le_refl _, hw⟩ fun w' e _ h => ?_
  have hj' : (w'.graph jobj).type = .javaObject := by rw [h.run.extends.type, hj]
  obtain ⟨heq, -⟩ | ⟨hty, hnull, g', hadd, heq⟩ :=
    linkArraycopy_cases jobj h.walkable.wellFormed e
  · rw [heq]
    exact h
  · rw [heq]
    have hstep : GraphStep jobj w'.graph (setArraycopyDst g' jobj) := .link hty hnull hadd
    refine h.trans ⟨.single hstep, List.prefix_rfl, Nat.le_succ _, ?_⟩
    exact h.walkable.extends (hstep.wellFormed h.walkable.wellFormed hj') hstep.extends
      (fun u hu => .inl hu) _

/-- The new edge of a local variable, before arraycopies are linked. -/
theorem walked_localVar {w : Walk} {use : ℕ} {g : Nodes} (hw : Walkable w)
    (hj : (w.graph jobj).type = .javaObject) (hty : (w.graph use).type = .localVar)
    (hadd : EdgeAdded use jobj w.graph g) :
    Walked jobj w ⟨g, addUsesToWorklist g use w.worklist, w.newEdges + 1⟩ := by
  have hstep : GraphStep jobj w.graph g := .edge (.inl hty) hadd
  have hg : WellFormed g := hstep.wellFormed hw.wellFormed hj
  refine ⟨.single hstep, prefix_addUsesToWorklist, Nat.le_succ _, ?_⟩
  refine hw.extends hg hstep.extends (fun u hu => ?_) _
  refine (mem_addUsesToWorklist.1 hu).imp id fun hu => hg.entryOk_uses ?_ hu
  rw [hadd.type, hty]
  decide

/-- One entry is a part of the walk. -/
theorem WalkOutcome.walked {w w' : Walk} {u : Use} (hw : Walkable w)
    (hj : (w.graph jobj).type = .javaObject) (h : WalkOutcome jobj w u w') :
    Walked jobj w w' := by
  cases h with
  | skip _ => exact ⟨Relation.ReflTransGen.refl, List.prefix_rfl, Nat.le_refl _, hw⟩
  | base hf _ hadd =>
    have hstep : GraphStep jobj w.graph _ := .base hf hadd
    exact ⟨.single hstep, List.prefix_rfl, Nat.le_succ _,
      hw.extends (hstep.wellFormed hw.wellFormed hj) hstep.extends (fun u hu => .inl hu) _⟩
  | source hty hnull _ hadd =>
    have hstep : GraphStep jobj w.graph _ := .source hty hnull hadd
    exact ⟨.single hstep, List.prefix_rfl, Nat.le_succ _,
      hw.extends (hstep.wellFormed hw.wellFormed hj) hstep.extends (fun u hu => .inl hu) _⟩
  | @localVar use g hty _ hadd =>
    have hwalked := walked_localVar hw hj hty hadd
    split
    · refine hwalked.trans (walked_linkArraycopy hwalked.walkable ?_ _)
      rw [hwalked.run.extends.type, hj]
    · exact hwalked
  | @field use g hty _ hadd =>
    have hstep : GraphStep jobj w.graph g := .edge (.inr hty) hadd
    have hg : WellFormed g := hstep.wellFormed hw.wellFormed hj
    refine ⟨.single hstep, prefix_addFieldUsesToWorklist, Nat.le_succ _, ?_⟩
    refine hw.extends hg hstep.extends (fun u hu => ?_) _
    refine (mem_addFieldUsesToWorklist.1 hu).imp id fun hu => hg.entryOk_fieldDep ?_ hu
    rw [hadd.type, hty]

/-- An outcome with no new edge. -/
theorem WalkOutcome.eq_of_newEdges {w w' : Walk} {u : Use} (hw : Walkable w)
    (hj : (w.graph jobj).type = .javaObject) (h : WalkOutcome jobj w u w')
    (hnew : w'.newEdges ≤ w.newEdges) : w' = w ∧ Reached w.graph jobj u := by
  cases h with
  | skip hr => exact ⟨rfl, hr⟩
  | base => exact absurd hnew (Nat.not_succ_le_self _)
  | source => exact absurd hnew (Nat.not_succ_le_self _)
  | @localVar use g hty _ hadd =>
    exfalso
    have hwalked := walked_localVar hw hj hty hadd
    split at hnew
    · have hj' : (g jobj).type = .javaObject := by rw [hadd.type, hj]
      have := (walked_linkArraycopy hwalked.walkable hj' (g use).edges).newEdges
      exact absurd (Nat.le_trans this hnew) (Nat.not_succ_le_self _)
    · exact absurd hnew (Nat.not_succ_le_self _)
  | field => exact absurd hnew (Nat.not_succ_le_self _)

/-- An entry that the object has got to. -/
theorem WalkOutcome.eq_of_reached {w w' : Walk} {u : Use} (h : WalkOutcome jobj w u w')
    (hr : Reached w.graph jobj u) : w' = w := by
  cases h with
  | skip _ => rfl
  | base _ hnot _ => exact absurd hr hnot
  | source _ hnull hnot _ =>
    obtain hr | ⟨-, hn⟩ := hr
    · exact absurd hr hnot
    · exact absurd hn hnull
  | localVar hty hnot _ =>
    obtain hr | ⟨hc, -⟩ := hr
    · exact absurd hr hnot
    · exact absurd (hty.symm.trans hc) (by decide)
  | field hty hnot _ =>
    obtain hr | ⟨hc, -⟩ := hr
    · exact absurd hr hnot
    · exact absurd (hty.symm.trans hc) (by decide)

/-- One turn of the loop: the worklist is at its end, or its next entry is taken. -/
theorem walkWorklist_succ {fuel l : ℕ} {w w' : Walk}
    (h : walkWorklist jobj (fuel + 1) l w = some w') :
    (w.worklist.length ≤ l ∧ w' = w) ∨
    ∃ u, w.worklist[l]? = some u ∧ walkWorklist jobj fuel (l + 1) (walkUse jobj w u) = some w' := by
  rw [walkWorklist] at h
  split at h
  · next hnone => exact .inl ⟨List.getElem?_eq_none_iff.1 hnone, (Option.some.inj h).symm⟩
  · next u hu => exact .inr ⟨u, hu, h⟩

/-- A run keeps what its steps keep. -/
theorem walkWorklist_walked {fuel l : ℕ} {w w' : Walk} (hw : Walkable w)
    (hj : (w.graph jobj).type = .javaObject) (h : walkWorklist jobj fuel l w = some w') :
    Walked jobj w w' := by
  induction fuel generalizing l w with
  | zero => simp [walkWorklist] at h
  | succ fuel ih =>
    obtain ⟨-, rfl⟩ | ⟨u, hu, hrun⟩ := walkWorklist_succ h
    · exact ⟨Relation.ReflTransGen.refl, List.prefix_rfl, Nat.le_refl _, hw⟩
    · have hmem : u ∈ w.worklist := List.mem_of_getElem? hu
      have hstep := (walkUse_outcome hw.wellFormed hj (hw.entries u hmem)).walked hw hj
      refine hstep.trans (ih hstep.walkable ?_ hrun)
      rw [hstep.run.extends.type, hj]

/-- A run that adds nothing leaves everything as it was; the object had got to all entries. -/
theorem walkWorklist_eq_of_newEdges {fuel l : ℕ} {w w' : Walk} (hw : Walkable w)
    (hj : (w.graph jobj).type = .javaObject) (h : walkWorklist jobj fuel l w = some w')
    (hnew : w'.newEdges ≤ w.newEdges) :
    w' = w ∧ ∀ u ∈ w.worklist.drop l, Reached w.graph jobj u := by
  induction fuel generalizing l w with
  | zero => simp [walkWorklist] at h
  | succ fuel ih =>
    obtain ⟨hlen, rfl⟩ | ⟨u, hu, hrun⟩ := walkWorklist_succ h
    · refine ⟨rfl, ?_⟩
      rw [List.drop_eq_nil_of_le hlen]
      simp
    · have hmem : u ∈ w.worklist := List.mem_of_getElem? hu
      have hout := walkUse_outcome hw.wellFormed hj (hw.entries u hmem)
      have hstep := hout.walked hw hj
      have hj' : ((walkUse jobj w u).graph jobj).type = .javaObject := by
        rw [hstep.run.extends.type, hj]
      have hrest := (walkWorklist_walked hstep.walkable hj' hrun).newEdges
      obtain ⟨heq, hr⟩ := hout.eq_of_newEdges hw hj (Nat.le_trans hrest hnew)
      rw [heq] at hrun
      obtain ⟨rfl, hall⟩ := ih hw hj hrun hnew
      refine ⟨rfl, fun v hv => ?_⟩
      rw [List.drop_eq_getElem?_toList_append, hu] at hv
      obtain hv | hv := List.mem_append.1 hv
      · obtain rfl : v = u := by simpa using hv
        exact hr
      · exact hall v hv

/-- A run on entries that the object has got to adds nothing, and ends. -/
theorem walkWorklist_of_reached {fuel l : ℕ} {w : Walk} (hw : Walkable w)
    (hj : (w.graph jobj).type = .javaObject)
    (hall : ∀ u ∈ w.worklist, Reached w.graph jobj u) (hfuel : w.worklist.length - l < fuel) :
    walkWorklist jobj fuel l w = some w := by
  induction fuel generalizing l with
  | zero => exact absurd hfuel (Nat.not_lt_zero _)
  | succ fuel ih =>
    rw [walkWorklist]
    split
    · rfl
    · next u hu =>
      obtain ⟨hl, -⟩ := List.getElem?_eq_some_iff.1 hu
      have hmem : u ∈ w.worklist := List.mem_of_getElem? hu
      have hout := walkUse_outcome hw.wellFormed hj (hw.entries u hmem)
      rw [hout.eq_of_reached (hall u hmem)]
      exact ih (by omega)

/-! ## Calls

A call returns the number of new edges. If it is zero, nothing has changed and the object was closed
before, which is how the loops of the completion know that they are done. -/

/-- `add_java_object_edges` starts a walk. -/
theorem addJavaObjectEdges_eq_some {fuel : ℕ} {g g' : Nodes} {wl : List Use} {populate : Bool}
    {k : ℕ} (h : addJavaObjectEdges fuel g wl jobj populate = some (g', k)) :
    ∃ w, walkWorklist jobj fuel 0
        ⟨g, if populate then (g jobj).uses.foldl (addUserToWorklist g) wl else wl, 0⟩ = some w ∧
      w.graph = g' ∧ w.newEdges = k := by
  obtain ⟨w, hw, heq⟩ := Option.map_eq_some_iff.1 h
  obtain ⟨rfl, rfl⟩ := Prod.mk.inj heq
  exact ⟨w, hw, rfl, rfl⟩

/-- The walk can start, with the uses of the object or without them. -/
theorem walkable_populate (jobj : ℕ) {g : Nodes} (hg : WellFormed g) {wl : List Use}
    (hwl : ∀ u ∈ wl, EntryOk g u) (populate : Bool) :
    Walkable ⟨g, if populate then (g jobj).uses.foldl (addUserToWorklist g) wl else wl, 0⟩ := by
  refine ⟨hg, fun u hu => ?_⟩
  cases populate with
  | false => exact hwl u hu
  | true =>
    obtain hu | ⟨use, -, hdep⟩ := mem_populate.1 hu
    · exact hwl u hu
    · exact hdep.entryOk hg

/-- A call that adds nothing: the object is closed, and has got to what was on the worklist. -/
theorem addJavaObjectEdges_zero {fuel : ℕ} {g g' : Nodes} {wl : List Use} {populate : Bool}
    (hg : WellFormed g) (hwl : ∀ u ∈ wl, EntryOk g u) (hj : (g jobj).type = .javaObject)
    (h : addJavaObjectEdges fuel g wl jobj populate = some (g', 0)) :
    g' = g ∧ (∀ u ∈ wl, Reached g jobj u) ∧ (populate = true → Closed g jobj) := by
  obtain ⟨w, hw, rfl, hzero⟩ := addJavaObjectEdges_eq_some h
  obtain ⟨rfl, hall⟩ := walkWorklist_eq_of_newEdges (walkable_populate jobj hg hwl populate) hj hw
    (Nat.le_of_eq hzero)
  rw [List.drop_zero] at hall
  refine ⟨rfl, fun u hu => hall u ?_, ?_⟩
  · cases populate with
    | false => exact hu
    | true => exact mem_populate.2 (.inl hu)
  · rintro rfl use u huse hdep
    exact hall u (mem_populate.2 (.inr ⟨use, huse, hdep⟩))

/-- A call for a closed object ends and adds nothing. -/
theorem Closed.addJavaObjectEdges_eq {g : Nodes} (hg : WellFormed g)
    (hj : (g jobj).type = .javaObject) (hclosed : Closed g jobj) :
    ∃ n, ∀ fuel, n < fuel → addJavaObjectEdges fuel g [] jobj true = some (g, 0) := by
  refine ⟨((g jobj).uses.foldl (addUserToWorklist g) []).length, fun fuel hfuel => ?_⟩
  have hrun := walkWorklist_of_reached (l := 0)
    (walkable_populate jobj hg (by simp) true) hj ?_ hfuel
  · exact congrArg (Option.map fun w : Walk => (w.graph, w.newEdges)) hrun
  · intro u hu
    obtain hu | ⟨use, huse, hdep⟩ := mem_populate.1 hu
    · exact absurd hu List.not_mem_nil
    · exact hclosed use u huse hdep

end

end StackAllocation
