import StackAllocation.ArraycopyLinks
import StackAllocation.EscapeSettling

/-!
# The loops of the completion

What `complete_connection_graph` keeps from call to call (`Completing`), and what the last pass has
shown when it returns true: the objects are closed, escape states are settled, and fields without
references belong to allocations.

The worklists list the nodes of the graph, arraycopies apart: `compute_escape` fills
`ptnodes_worklist` before `add_final_edges` makes the nodes of arraycopies. So the loop of
`find_non_escaped_objects` never starts from an arraycopy, and relies on the sources that an
arraycopy had at first to escape as far as it does (`CopiesSettled`). The sources that it gets later
are objects which a first source refers to (`Sourced`).
-/

namespace StackAllocation

/-- The worklists list the nodes of the graph, arraycopies apart. -/
structure Enlisted (W : Worklists) (g : Nodes) : Prop where
  targets : ∀ n e, e ∈ (g n).edges → (g e).type ≠ .arraycopy → e ∈ W.ptnodes
  escaping : ∀ n, (g n).type ≠ .arraycopy → Escaping g n → n ∈ W.ptnodes
  nodes : ∀ n, (g n).type ≠ .localVar → (g n).type ≠ .arraycopy → n ∈ W.ptnodes
  javaObjects : ∀ n, n ∈ W.javaObjects ↔ (g n).type = .javaObject
  oopFields : ∀ n, n ∈ W.oopFields ↔ (g n).type = .field ∧ (g n).isOop = true

/-- Escape states of fields have risen. -/
def FieldsRaised (g g' : Nodes) : Prop :=
  ∀ n, (g n).fieldsEscapeState.toNat ≤ (g' n).fieldsEscapeState.toNat

/-- No escape state has changed. -/
def SameStates (g g' : Nodes) : Prop :=
  ∀ n, (g' n).escapeState = (g n).escapeState ∧ (g' n).fieldsEscapeState = (g n).fieldsEscapeState

/-! ## Steps

The escape states change in one loop only and the edges in another. So the lists of nodes, which are
filled once, stay complete: a node that comes to escape, or gets an edge, was on a list or is an
arraycopy. -/

section

variable {W : Worklists} {g₀ g g' g'' : Nodes} {jobj : ℕ}

theorem FieldsRaised.refl (g : Nodes) : FieldsRaised g g := fun _ => Nat.le_refl _

/-- The states of fields that are raised in several steps. -/
theorem FieldsRaised.trans (h : FieldsRaised g g') (h' : FieldsRaised g' g'') :
    FieldsRaised g g'' :=
  fun n => Nat.le_trans (h n) (h' n)

theorem SameStates.fieldsRaised (h : SameStates g g') : FieldsRaised g g' :=
  fun n => Nat.le_of_eq (congrArg EscapeState.toNat (h n).2.symm)

/-- States that stay in each of several steps stay. -/
theorem SameStates.trans (h : SameStates g g') (h' : SameStates g' g'') : SameStates g g'' :=
  fun n => ⟨(h' n).1.trans (h n).1, (h' n).2.trans (h n).2⟩

/-- To set a flag leaves the states. -/
theorem FlagsSet.sameStates (h : FlagsSet g g') : SameStates g g' := fun n =>
  ⟨h.same n PointsToNode.escapeState fun _ => rfl,
    h.same n PointsToNode.fieldsEscapeState fun _ => rfl⟩

/-- So does a new edge. -/
theorem EdgeAdded.sameStates {src dst : ℕ} (h : EdgeAdded src dst g g') : SameStates g g' :=
  fun n => ⟨h.escapeState n, h.fieldsEscapeState n⟩

/-- And each kind of step of the walk. -/
theorem GraphStep.sameStates (h : GraphStep jobj g g') : SameStates g g' := by
  cases h with
  | edge _ hadd => exact hadd.sameStates
  | base _ hadd => exact fun n => ⟨hadd.escapeState n, hadd.fieldsEscapeState n⟩
  | source _ hnull hadd =>
    exact hadd.sameStates.trans (setArraycopySrc_flagsSet _ hnull).sameStates
  | link _ hnull hadd =>
    exact hadd.sameStates.trans (setArraycopyDst_flagsSet _ hnull).sameStates

/-- So the walk leaves the states, by induction on its steps. -/
theorem GraphRun.sameStates (h : GraphRun jobj g g') : SameStates g g' := by
  induction h with
  | refl => exact fun _ => ⟨rfl, rfl⟩
  | tail _ hstep ih => exact ih.trans hstep.sameStates

/-- The propagation raises states, and those of the fields with them. -/
theorem EscapeRun.fieldsRaised (h : EscapeRun g g') : FieldsRaised g g' := by
  induction h with
  | refl => exact FieldsRaised.refl g
  | tail _ hstep ih =>
    refine ih.trans ?_
    cases hstep with
    | value _ hadd => exact hadd.sameStates.fieldsRaised
    | states _ hr _ _ => exact hr.fieldsEscapeState

/-- The nodes stay listed. -/
theorem Enlisted.extends (h : Enlisted W g) (hext : Extends g g')
    (htargets : ∀ n e, e ∈ (g' n).edges → (g e).type ≠ .arraycopy →
      e ∈ (g n).edges ∨ e ∈ W.ptnodes)
    (hescaping : ∀ n, (g n).type ≠ .arraycopy → Escaping g' n → Escaping g n ∨ n ∈ W.ptnodes) :
    Enlisted W g' where
  targets n e he hty := by
    rw [hext.type] at hty
    exact (htargets n e he hty).elim (fun he => h.targets n e he hty) id
  escaping n hty hn := by
    rw [hext.type] at hty
    exact (hescaping n hty hn).elim (h.escaping n hty) id
  nodes n := by
    rw [hext.type]
    exact h.nodes n
  javaObjects n := by rw [hext.type, h.javaObjects]
  oopFields n := by rw [hext.type, hext.isOop, h.oopFields]

/-- The worklists stay complete, as long as no new edge goes to a local variable that is not
listed. -/
theorem Enlisted.sameStates (h : Enlisted W g) (hext : Extends g g') (hsame : SameStates g g')
    (htargets : ∀ n e, e ∈ (g' n).edges → e ∈ (g n).edges ∨ (g e).type ≠ .localVar) :
    Enlisted W g' := by
  refine h.extends hext (fun n e he hty => ?_) fun n _ hn => .inl ?_
  · exact (htargets n e he).imp id fun hlocal => h.nodes e hlocal hty
  · rwa [Escaping, (hsame n).2] at hn

/-- A step of the walk adds edges to objects only. -/
theorem GraphStep.enlisted (h : Enlisted W g) (hj : (g jobj).type = .javaObject)
    (hstep : GraphStep jobj g g') : Enlisted W g' := by
  have hjlocal : (g jobj).type ≠ .localVar := by
    rw [hj]
    decide
  refine h.sameStates hstep.extends hstep.sameStates fun n e he => ?_
  cases hstep with
  | edge _ hadd =>
    refine ((hadd.mem_edges n e).1 he).imp id ?_
    rintro ⟨-, rfl⟩
    exact hjlocal
  | @base f _ hf hadd =>
    refine ((hadd.mem_edges n e).1 he).imp id ?_
    rintro ⟨-, rfl, -⟩
    rw [hf]
    decide
  | source _ hnull hadd =>
    rw [(setArraycopySrc_flagsSet _ hnull).same n PointsToNode.edges fun _ => rfl] at he
    refine ((hadd.mem_edges n e).1 he).imp id ?_
    rintro ⟨-, rfl⟩
    exact hjlocal
  | link hty hnull hadd =>
    rw [(setArraycopyDst_flagsSet _ hnull).same n PointsToNode.edges fun _ => rfl] at he
    refine ((hadd.mem_edges n e).1 he).imp id ?_
    rintro ⟨-, rfl⟩
    rw [hty]
    decide

/-- A step of the propagation makes a node escape that a listed node has an edge to. -/
theorem EscapeStep.enlisted (hg : WellFormed g) (h : Enlisted W g) (hstep : EscapeStep g g') :
    Enlisted W g' := by
  cases hstep with
  | value _ hadd =>
    refine h.sameStates hadd.extends hadd.sameStates fun n e he => ?_
    refine ((hadd.mem_edges n e).1 he).imp id ?_
    rintro ⟨-, rfl⟩
    rw [hg.phantom_type]
    decide
  | @states _ m e he hr _ hothers =>
    refine h.extends hr.extends (fun n e' he' _ => .inl ?_) fun n hty hn => ?_
    · rwa [hr.same n PointsToNode.edges fun _ => rfl] at he'
    · by_cases hne : n = e
      · subst hne
        exact .inr (h.targets m n he hty)
      · rw [Escaping, hothers n hne] at hn
        exact .inl hn

/-! ## Calls

The invariant `Completing` compares the graph with the constructed one: it is well formed, has
grown, and the links of arraycopies that were there from the start are followed. Every call keeps
it; a call that adds nothing shows in addition that its object is closed. -/

/-- What all calls keep, from the graph `g₀` on. -/
structure Completing (W : Worklists) (g₀ g : Nodes) : Prop where
  wellFormed : WellFormed g
  grown : Extends g₀ g
  raised : FieldsRaised g₀ g
  linked : Linked g₀ g
  enlisted : Enlisted W g
  copies : CopiesSettled g₀ g
  sourced : Sourced g₀ g

/-- The invariant of the completion over a run of the walk. -/
theorem Completing.graphRun (h : Completing W g₀ g) (hj : (g jobj).type = .javaObject)
    (hrun : GraphRun jobj g g') (hlinked : Linked g₀ g') (hsourced : Sourced g₀ g') :
    Completing W g₀ g' where
  wellFormed := hrun.wellFormed h.wellFormed hj
  grown := h.grown.trans hrun.extends
  raised := h.raised.trans hrun.sameStates.fieldsRaised
  linked := hlinked
  sourced := hsourced
  enlisted := by
    have henlisted := h.enlisted
    clear hlinked hsourced h
    induction hrun with
    | refl => exact henlisted
    | tail hrun hstep ih =>
      refine hstep.enlisted ih ?_
      rw [GraphRun.extends hrun |>.type, hj]
  copies := h.copies.congr hrun.extends hrun.sameStates

/-- And over a run of the propagation. -/
theorem Completing.escapeRun (h : Completing W g₀ g) (hrun : EscapeRun g g')
    (hcopies : CopiesSettled g₀ g') : Completing W g₀ g' where
  wellFormed := hrun.wellFormed h.wellFormed
  grown := h.grown.trans hrun.extends
  raised := h.raised.trans hrun.fieldsRaised
  linked := hrun.linked h.linked
  sourced := hrun.sourced h.sourced
  enlisted := by
    have hg := h.wellFormed
    have henlisted := h.enlisted
    clear hcopies h
    induction hrun with
    | refl => exact henlisted
    | tail hrun hstep ih => exact hstep.enlisted (EscapeRun.wellFormed hg hrun) ih
  copies := hcopies

/-- The call of a pass for the phantom object, which starts with the entries that are left over. -/
theorem Completing.addPhantomEdges {fuel k : ℕ} {wl : List Use} {populate : Bool}
    (h : Completing W g₀ g) (hwl : ∀ u ∈ wl, EntryOk g u)
    (hcall : addJavaObjectEdges fuel g wl phantomObj populate = some (g', k)) :
    Completing W g₀ g' ∧ Extends g g' := by
  have hj := h.wellFormed.phantom_type
  obtain ⟨w, hw, rfl, -⟩ := addJavaObjectEdges_eq_some hcall
  have hstart := walkable_populate phantomObj h.wellFormed hwl populate
  have hrun := (walkWorklist_walked hstart hj hw).run
  refine ⟨h.graphRun hj hrun (walkWorklist_linked hstart hj h.linked hw) ?_, hrun.extends⟩
  exact h.sourced.graphRun hj (.inl rfl) hrun

/-- The call of a pass for an object of the list. -/
theorem Completing.addJavaObjectEdges {fuel k : ℕ} (h : Completing W g₀ g)
    (hj : (g jobj).type = .javaObject)
    (hcall : addJavaObjectEdges fuel g [] jobj true = some (g', k)) :
    Completing W g₀ g' ∧ Extends g g' := by
  obtain ⟨w, hw, rfl, -⟩ := addJavaObjectEdges_eq_some hcall
  have hstart := walkable_populate jobj h.wellFormed (fun u hu => absurd hu List.not_mem_nil) true
  have hrun := (walkWorklist_walked hstart hj hw).run
  refine ⟨h.graphRun hj hrun (walkWorklist_linked hstart hj h.linked hw) ?_, hrun.extends⟩
  exact walkWorklist_sourced hstart hj h.sourced (fun v hv => pushedBy_populate h.wellFormed hj hv)
    hw

/-- The loop over the objects. -/
theorem Completing.passObjects {fuel : ℕ} {clock : Clock} {iteration next n k : ℕ} {l : List ℕ}
    (h : Completing W g₀ g) (hl : ∀ j ∈ l, (g j).type = .javaObject)
    (hpass : passObjects fuel clock iteration l next g n = some (.finished (g', k))) :
    Completing W g₀ g' ∧ Extends g g' ∧ n ≤ k ∧ (k = n → g' = g ∧ ∀ j ∈ l, Closed g j) := by
  induction l generalizing g next n with
  | nil =>
    obtain ⟨rfl, rfl⟩ : g = g' ∧ n = k := by simpa [StackAllocation.passObjects] using hpass
    exact ⟨h, Extends.refl g, Nat.le_refl _, fun _ => ⟨rfl, by simp⟩⟩
  | cons j l ih =>
    rw [StackAllocation.passObjects] at hpass
    split at hpass
    · cases hpass
    next g₁ m hcall =>
    split at hpass
    · cases hpass
    have hj := hl j List.mem_cons_self
    obtain ⟨hnext, hext⟩ := h.addJavaObjectEdges hj hcall
    have hl₁ : ∀ j' ∈ l, (g₁ j').type = .javaObject := fun j' hj' => by
      rw [hext.type]
      exact hl j' (List.mem_cons_of_mem _ hj')
    obtain ⟨hend, hext', hle, hzero⟩ := ih hnext hl₁ hpass
    refine ⟨hend, hext.trans hext', by omega, fun heq => ?_⟩
    obtain rfl : m = 0 := by omega
    obtain ⟨rfl, -, hclosed⟩ := addJavaObjectEdges_zero h.wellFormed (by simp) hj hcall
    obtain ⟨rfl, hall⟩ := hzero (by omega)
    exact ⟨rfl, List.forall_mem_cons.2 ⟨hclosed rfl, hall⟩⟩

/-- All objects are closed. -/
def AllClosed (g : Nodes) : Prop := ∀ j, (g j).type = .javaObject → Closed g j

/-- A pass, and what one that adds nothing shows. -/
theorem Completing.pass {fuel : ℕ} {clock : Clock} {iteration k : ℕ} {wl : List Use}
    (h : Completing W g₀ g) (hwl : ∀ u ∈ wl, EntryOk g u)
    (hpass : pass fuel clock W iteration g wl = some (.finished (g', k))) :
    Completing W g₀ g' ∧ Extends g g' ∧ (k = 0 → g' = g ∧ AllClosed g) := by
  unfold StackAllocation.pass at hpass
  split at hpass
  · cases hpass
  next g₁ m hcall =>
  obtain ⟨hnext, hext⟩ := h.addPhantomEdges hwl hcall
  obtain ⟨hend, hext', hle, hzero⟩ :=
    hnext.passObjects (fun j hj => (hnext.enlisted.javaObjects j).1 hj) hpass
  refine ⟨hend, hext.trans hext', fun heq => ?_⟩
  obtain rfl : m = 0 := by omega
  obtain ⟨rfl, -, -⟩ := addJavaObjectEdges_zero h.wellFormed hwl h.wellFormed.phantom_type hcall
  obtain ⟨rfl, hall⟩ := hzero heq
  exact ⟨rfl, fun j hj => hall j ((hnext.enlisted.javaObjects j).2 hj)⟩

/-! ## Loops

The inner loop repeats the passes over all objects until none adds an edge. The outer one adds
unknown values and goes round again if there were any. When both are done, all objects are closed
and all states are settled at the same time. -/

/-- An object whose allocation the analysis looks at. -/
def EscapeCandidate (g : Nodes) (n : ℕ) : Prop :=
  (g n).type = .javaObject ∧ ((g n).ideal = .allocate ∨ (g n).ideal = .callStaticJava)

/-- The list has the candidates that do not escape globally. -/
structure ListsNonEscaped (g : Nodes) (nonEscaped : List ℕ) : Prop where
  candidate : ∀ n ∈ nonEscaped, EscapeCandidate g n
  nonEscaped : ∀ n, EscapeCandidate g n → (g n).escapeState ≠ .globalEscape → n ∈ nonEscaped

/-- What is a candidate depends on the type and the ideal node, which stay. -/
theorem Extends.escapeCandidate (h : Extends g g') {n : ℕ} :
    EscapeCandidate g' n ↔ EscapeCandidate g n := by
  unfold EscapeCandidate
  rw [h.type, h.ideal]

/-- The list of the objects that may not escape stays complete. -/
theorem ListsNonEscaped.extends {l : List ℕ} (h : ListsNonEscaped g l) (hext : Extends g g') :
    ListsNonEscaped g' l where
  candidate n hn := hext.escapeCandidate.2 (h.candidate n hn)
  nonEscaped n hn hescape := by
    refine h.nonEscaped n (hext.escapeCandidate.1 hn) fun hglobal => hescape ?_
    have hle := hext.escapeState n
    rw [hglobal] at hle
    exact EscapeState.toNat_inj (Nat.le_antisymm (EscapeState.toNat_le _) hle)

/-- The state between passes. -/
structure Completes (W : Worklists) (g₀ : Nodes) (g : Nodes) (wl : List Use)
    (nonEscaped : List ℕ) : Prop extends Completing W g₀ g where
  entries : ∀ u ∈ wl, EntryOk g u
  lists : ListsNonEscaped g nonEscaped
  settled : EscapeSettled g
  phantomInit : ∀ n, EscapeCandidate g n → PhantomInit g n

/-- After `find_non_escaped_objects`. -/
theorem Completing.findNonEscapedObjects {fuel : ℕ} {wl' : List Use}
    {nonEscaped nonEscaped' : List ℕ} (h : Completing W g₀ g)
    (hlists : ListsNonEscaped g nonEscaped)
    (hfind : findNonEscapedObjects fuel g [] W.ptnodes nonEscaped = some (g', wl', nonEscaped')) :
    Completes W g₀ g' wl' nonEscaped' := by
  obtain ⟨hrun, hwalk, hsettled, hcopies, hinit, hmem⟩ := findNonEscapedObjects_settled
    ⟨h.wellFormed, by simp⟩ h.grown h.copies h.enlisted.escaping
    (fun n hn => (hlists.candidate n hn).1) hfind
  have hlists' := hlists.extends hrun.extends
  refine ⟨h.escapeRun hrun hcopies, hwalk.entries, ⟨fun n hn => ?_, fun n hn hescape => ?_⟩,
    hsettled, fun n hn hescape => ?_⟩
  · exact hlists'.candidate n ((hmem n).1 hn).1
  · exact (hmem n).2 ⟨hlists'.nonEscaped n hn hescape, hescape⟩
  · refine hinit n (hlists'.nonEscaped n hn ?_) hescape
    rw [hescape]
    decide

/-- The inner loop. -/
theorem Completes.passes {fuel k : ℕ} {clock : Clock} {c c' : Completion}
    (h : Completes W g₀ c.graph c.worklist c.nonEscaped)
    (hzero : c.newEdges = 0 → AllClosed c.graph)
    (hrun : passes fuel clock W k c = some (.finished c')) :
    Completes W g₀ c'.graph c'.worklist c'.nonEscaped ∧
      (c'.iterations < cgBuildIterLimit → c'.newEdges = 0 ∧ AllClosed c'.graph) := by
  induction k generalizing c with
  | zero => cases hrun
  | succ k ih =>
    rw [StackAllocation.passes] at hrun
    split at hrun
    swap
    · next hnew =>
      obtain rfl := Ended.finished.inj (Option.some.inj hrun)
      exact ⟨h, fun _ => ⟨by omega, hzero (by omega)⟩⟩
    split at hrun
    swap
    · next hlimit =>
      obtain rfl := Ended.finished.inj (Option.some.inj hrun)
      exact ⟨h, fun hlt => absurd (Nat.lt_of_succ_lt hlt) hlimit⟩
    split at hrun
    · cases hrun
    · cases hrun
    next g₁ n hpass =>
    obtain ⟨hnext, hext, hclosed⟩ := h.toCompleting.pass h.entries hpass
    split at hrun
    · next hpos =>
      split at hrun
      · cases hrun
      next g₂ wl ne hfind =>
      split at hrun
      · cases hrun
      split at hrun
      · cases hrun
      have hfound := hnext.findNonEscapedObjects (h.lists.extends hext) hfind
      exact ih hfound (fun hn => absurd hn (Nat.ne_of_gt hpos)) hrun
    · split at hrun
      · cases hrun
      obtain ⟨rfl, hall⟩ := hclosed (by omega)
      exact ih (c := ⟨c.graph, [], c.nonEscaped, n, c.iterations + 1⟩)
        ⟨h.toCompleting, fun _ hu => absurd hu List.not_mem_nil, h.lists, h.settled, h.phantomInit⟩
        (fun _ => hall) hrun

/-- After the search for unknown values. -/
theorem Completes.unknownAdded {wl wl' : List Use} {nonEscaped : List ℕ} {P : ℕ → Prop}
    (h : Completes W g₀ g wl nonEscaped) (hadd : PhantomAdded g g') (hunknown : UnknownAdded P g g')
    (hwl : ∀ u ∈ wl', EntryOk g' u) : Completes W g₀ g' wl' nonEscaped where
  toCompleting := h.toCompleting.escapeRun hadd.run
    (h.copies.congr hadd.run.extends hunknown.states)
  entries := hwl
  lists := h.lists.extends hadd.run.extends
  settled := hunknown.escapeSettled (hadd.run.wellFormed h.wellFormed) hadd.run.extends h.settled
  phantomInit n hn := by
    have hn := hadd.run.extends.escapeCandidate.1 hn
    exact (h.phantomInit n hn).phantomAdded hadd hn.1

/-- Fields without references belong to allocations. -/
def NoFieldUnknown (W : Worklists) (g : Nodes) : Prop :=
  ∀ f ∈ W.oopFields, (g f).edges = [] → hasAllocateBase g f = true

/-- The search for unknown values. -/
theorem findFieldValues_spec {w : Walk} (hw : Walkable w)
    (hfields : ∀ f ∈ W.oopFields, (w.graph f).type = .field) :
    PhantomAdded w.graph (findFieldValues W w).graph ∧ Walkable (findFieldValues W w) ∧
      ((findFieldValues W w).newEdges = w.newEdges →
        findFieldValues W w = w ∧ NoFieldUnknown W w.graph) ∧
      ∃ P, UnknownAdded P w.graph (findFieldValues W w).graph := by
  obtain ⟨hadd, hwalk, -, hsame⟩ := findFieldValues_phantom hw hfields rfl
  exact ⟨hadd, hwalk, hsame, findFieldValues_added hw hfields⟩

/-- The outer loop. -/
theorem Completes.completionLoop {fuel k : ℕ} {clock : Clock} {c c' : Completion}
    (h : Completes W g₀ c.graph c.worklist c.nonEscaped)
    (hzero : c.newEdges = 0 → AllClosed c.graph)
    (hrun : completionLoop fuel clock W k c = some (.finished c')) :
    Completes W g₀ c'.graph c'.worklist c'.nonEscaped ∧ AllClosed c'.graph ∧
      NoFieldUnknown W c'.graph := by
  induction k generalizing c with
  | zero => cases hrun
  | succ k ih =>
    rw [StackAllocation.completionLoop] at hrun
    split at hrun
    · cases hrun
    · cases hrun
    next c₁ hpasses =>
    obtain ⟨hprogress, hend⟩ := h.passes hzero hpasses
    split at hrun
    swap
    · cases hrun
    next hlt =>
    obtain ⟨hnew, hclosed⟩ := hend hlt
    have hfields : ∀ f ∈ W.oopFields, (c₁.graph f).type = .field := fun f hf =>
      ((hprogress.enlisted.oopFields f).1 hf).1
    have hw : Walkable ⟨c₁.graph, c₁.worklist, c₁.newEdges⟩ :=
      ⟨hprogress.wellFormed, hprogress.entries⟩
    simp only at hrun
    obtain ⟨hadd, hwalk, hsame, P, hunknown⟩ := findFieldValues_spec hw hfields
    generalize findFieldValues W ⟨c₁.graph, c₁.worklist, c₁.newEdges⟩ = w at *
    split at hrun
    · cases hrun
    split at hrun
    · next hpos =>
      exact ih (c := { c₁ with graph := w.graph, worklist := w.worklist, newEdges := w.newEdges })
        (hprogress.unknownAdded hadd hunknown hwalk.entries)
        (fun hn => absurd hn (Nat.ne_of_gt hpos)) hrun
    · next hpos =>
      obtain rfl := Ended.finished.inj (Option.some.inj hrun)
      obtain ⟨rfl, hbase⟩ := hsame ((Nat.eq_zero_of_not_pos hpos).trans hnew.symm)
      exact ⟨hprogress, hclosed, hbase⟩

end

end StackAllocation
