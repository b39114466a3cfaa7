import StackAllocation.EscapePropagation

/-!
# Arraycopies and the propagation of escape states

`find_non_escaped_objects` as a whole. The loop does not start from the nodes of arraycopies. It is
enough that what their sources were at first has been told how far the fields escape
(`CopiesSettled`): a copy that is raised is pushed, and what is found out later about a source is
told by the source.

After the loop the fields of the objects that are left get the values that no store explains
(`UnknownAdded`).
-/

namespace StackAllocation

/-- Sources of arraycopies, as they were in `g₀`, have been told about escaping fields. -/
def CopiesSettled (g₀ g : Nodes) : Prop :=
  ∀ ac, (g ac).type = .arraycopy → Escaping g ac → ∀ s ∈ (g₀ ac).edges, s ≠ nullObj →
    EdgeSettled g (g ac).escapeState (g ac).fieldsEscapeState False s

/-! ## Unknown values of the objects that are left

After the loop over the stack the source goes through the objects that may not escape and gives
their fields an unknown value where an object comes from elsewhere. Which edges are added does not
depend on the order: the set of places is described by the graph before. -/

/-- An oop field. -/
def OopField (g : Nodes) (f : ℕ) : Prop := (g f).type = .field ∧ (g f).isOop = true

/-- The nodes `P` have got an edge to the phantom object. -/
structure UnknownAdded (P : ℕ → Prop) (g g' : Nodes) : Prop where
  rest : ∀ n, (g' n).withoutEdges = (g n).withoutEdges
  edges : ∀ n e, e ∈ (g' n).edges ↔ e ∈ (g n).edges ∨ e = phantomObj ∧ P n

/-- A field of an object that `find_init_values` gives an unknown value. -/
structure InitsUnknown (g : Nodes) (pta n : ℕ) : Prop where
  escapeState : (g pta).escapeState = .noEscape
  notKnown : ¬ ((g pta).ideal = .allocate ∧ (g pta).arraycopyDst = false)
  edge : n ∈ (g pta).edges
  oopField : OopField g n

section

variable {P Q : ℕ → Prop} {g g' g'' : Nodes}

/-- What does not depend on the edges is as before. -/
theorem UnknownAdded.same {α : Type} (h : UnknownAdded P g g') (n : ℕ) (f : PointsToNode → α)
    (hf : ∀ m, f m.withoutEdges = f m) : f (g' n) = f (g n) := by
  rw [← hf, h.rest n, hf]

/-- Unknown values that are added in several steps, at the places of all of them. -/
theorem UnknownAdded.trans (h : UnknownAdded P g g') (h' : UnknownAdded Q g' g'') :
    UnknownAdded (fun n => P n ∨ Q n) g g'' := by
  refine ⟨fun n => (h'.rest n).trans (h.rest n), fun n e => ?_⟩
  rw [h'.edges, h.edges, or_assoc, ← and_or_left]

/-- The places, described in another way. -/
theorem UnknownAdded.congr (h : UnknownAdded P g g') (hPQ : ∀ n, P n ↔ Q n) :
    UnknownAdded Q g g' :=
  ⟨h.rest, fun n e => by rw [h.edges, hPQ]⟩

theorem UnknownAdded.refl (g : Nodes) (hP : ∀ n, ¬ P n) : UnknownAdded P g g :=
  ⟨fun _ => rfl, fun n e => by simp [hP n]⟩

/-- A field is one of an oop before and after. -/
theorem UnknownAdded.oopField (h : UnknownAdded P g g') (n : ℕ) :
    OopField g' n ↔ OopField g n := by
  rw [OopField, OopField, h.same n PointsToNode.type fun _ => rfl,
    h.same n PointsToNode.isOop fun _ => rfl]

/-- To add the unknown values of one object leaves those that another will be given. -/
theorem UnknownAdded.initsUnknown (h : UnknownAdded P g g') {pta : ℕ} (hpta : ¬ P pta) (n : ℕ) :
    InitsUnknown g' pta n ↔ InitsUnknown g pta n := by
  have hedges : ∀ e, e ∈ (g' pta).edges ↔ e ∈ (g pta).edges := fun e => by simp [h.edges, hpta]
  have hes := h.same pta PointsToNode.escapeState fun _ => rfl
  have hideal := h.same pta PointsToNode.ideal fun _ => rfl
  have hdst := h.same pta PointsToNode.arraycopyDst fun _ => rfl
  constructor
  · rintro ⟨h₁, h₂, h₃, h₄⟩
    exact ⟨by rwa [← hes], by rwa [← hideal, ← hdst], (hedges n).1 h₃, (h.oopField n).1 h₄⟩
  · rintro ⟨h₁, h₂, h₃, h₄⟩
    exact ⟨by rwa [hes], by rwa [hideal, hdst], (hedges n).2 h₃, (h.oopField n).2 h₄⟩

end

/-- One field. -/
theorem initUnknown_added {w : Walk} (hw : Walkable w) (f : ℕ) :
    UnknownAdded (fun n => n = f ∧ OopField w.graph n) w.graph (initUnknown w f).graph := by
  unfold initUnknown
  split
  case isTrue hfield =>
    obtain ⟨hmem, heq⟩ | ⟨g, hadd, heq⟩ := addFieldValue_cases hw.wellFormed phantomObj hfield.1
    · rw [heq]
      refine ⟨fun _ => rfl, fun n e => (or_iff_left_of_imp ?_).symm⟩
      rintro ⟨rfl, rfl, -⟩
      exact hmem
    · rw [heq]
      refine ⟨hadd.rest, fun n e => (hadd.mem_edges n e).trans (or_congr_right ?_)⟩
      constructor
      · rintro ⟨rfl, rfl⟩
        exact ⟨rfl, rfl, hfield⟩
      · rintro ⟨rfl, rfl, -⟩
        exact ⟨rfl, rfl⟩
  case isFalse hno =>
    refine UnknownAdded.refl _ fun n => ?_
    rintro ⟨rfl, hfield⟩
    exact hno hfield

/-- A list of fields. -/
theorem foldl_initUnknown_added (fs : List ℕ) {w : Walk} (hw : Walkable w) :
    UnknownAdded (fun n => n ∈ fs ∧ OopField w.graph n) w.graph (fs.foldl initUnknown w).graph ∧
      Walkable (fs.foldl initUnknown w) := by
  induction fs generalizing w with
  | nil => exact ⟨UnknownAdded.refl _ fun n h => absurd h.1 List.not_mem_nil, hw⟩
  | cons f fs ih =>
    have hadd := initUnknown_added hw f
    obtain ⟨hrest, hwalk⟩ := ih (initUnknown_phantom hw f).2.1
    refine ⟨(hadd.trans hrest).congr fun n => ?_, hwalk⟩
    rw [hadd.oopField, List.mem_cons, or_and_right]

/-- One object: all its fields of oops that have no value. -/
theorem initUnknownObject_added {w : Walk} (hw : Walkable w) (pta : ℕ) :
    UnknownAdded (InitsUnknown w.graph pta) w.graph (initUnknownObject w pta).graph ∧
      Walkable (initUnknownObject w pta) := by
  unfold initUnknownObject
  split
  case isFalse hno => exact ⟨UnknownAdded.refl _ fun n h => hno h.escapeState, hw⟩
  case isTrue hes =>
    unfold findInitValuesPhantom
    split
    case isTrue hknown => exact ⟨UnknownAdded.refl _ fun n h => h.notKnown hknown, hw⟩
    case isFalse hknown =>
      obtain ⟨hadd, hwalk⟩ := foldl_initUnknown_added (w.graph pta).edges hw
      exact ⟨hadd.congr fun n => ⟨fun h => ⟨hes, hknown, h.1, h.2⟩, fun h => ⟨h.edge, h.oopField⟩⟩,
        hwalk⟩

/-- An object's edges are not changed by the unknown values of fields. -/
theorem not_initsUnknown_of_javaObject {g : Nodes} {pta n : ℕ} (hn : (g n).type = .javaObject) :
    ¬ InitsUnknown g pta n := by
  intro h
  have hfield := h.oopField.1
  rw [hn] at hfield
  cases hfield

/-- All objects that are left, in any order. -/
theorem foldl_initUnknownObject_added (ptas : List ℕ) {w : Walk} (hw : Walkable w)
    (hobjects : ∀ pta ∈ ptas, (w.graph pta).type = .javaObject) :
    UnknownAdded (fun n => ∃ pta ∈ ptas, InitsUnknown w.graph pta n) w.graph
      (ptas.foldl initUnknownObject w).graph := by
  induction ptas generalizing w with
  | nil => exact UnknownAdded.refl _ fun n => by simp
  | cons pta ptas ih =>
    obtain ⟨hadd, hwalk⟩ := initUnknownObject_added hw pta
    have hrest := ih hwalk fun pta' hpta' => by
      rw [hadd.same pta' PointsToNode.type fun _ => rfl]
      exact hobjects pta' (List.mem_cons_of_mem _ hpta')
    refine (hadd.trans hrest).congr fun n => ?_
    rw [List.exists_mem_cons_iff]
    refine or_congr_right (exists_congr fun pta' => and_congr_right fun hpta' => ?_)
    exact hadd.initsUnknown (not_initsUnknown_of_javaObject
      (hobjects pta' (List.mem_cons_of_mem _ hpta'))) n

/-! ## The whole

An arraycopy is on no worklist, so the loop never starts at one. It is settled all the same: the
sources that it had at construction were told then, and an object that becomes a source later is
referred to by one of these, from which it has its state. -/

/-- The nodes other than arraycopies are settled. -/
def EscapeSettled (g : Nodes) : Prop :=
  ∀ n, (g n).type ≠ .arraycopy → Escaping g n → Settled g n

/-- The phantom object escapes as far as anything. -/
theorem WellFormed.edgeSettled_phantom {g : Nodes} (hg : WellFormed g) (es fieldEs : EscapeState)
    (object : Prop) : EdgeSettled g es fieldEs object phantomObj := by
  obtain ⟨hes, hfields⟩ := hg.phantom_escapes
  constructor
  · rw [hes]
    exact fun _ => EscapeState.toNat_le _
  · rw [hfields]
    exact EscapeState.toNat_le _
  · rw [hes]
    exact fun _ _ _ => EscapeState.toNat_le _

section

variable {g₀ g g' : Nodes}

/-- The edges along which the loop that starts at `g` settles the nodes. -/
def settledEdges (g₀ g : Nodes) (n : ℕ) : List ℕ :=
  if (g n).type = .arraycopy then (g₀ n).edges else (g n).edges

/-- The edges that are settled at the start are edges of the graph. -/
theorem settledEdges_subset (hext : Extends g₀ g) (n : ℕ) : settledEdges g₀ g n ⊆ (g n).edges := by
  unfold settledEdges
  split
  · exact hext.edges n
  · exact List.Subset.refl _

/-- Arraycopies are settled on their first edges. -/
theorem CopiesSettled.settledOn (h : CopiesSettled g₀ g) {ac : ℕ} (hac : (g ac).type = .arraycopy)
    (hescape : Escaping g ac) : SettledOn (settledEdges g₀ g) g ac where
  phantom hty := absurd (hac.symm.trans hty) (by decide)
  edges e he hnull := by
    rw [settledEdges, if_pos hac] at he
    obtain ⟨hes, hfields, -⟩ := h ac hac hescape e he hnull
    exact ⟨hes, hfields, fun _ _ hjava => absurd (hac.symm.trans hjava) (by decide)⟩

/-- After the loop, all nodes but arraycopies are settled, and these on their first edges. -/
theorem escapeSettled_of_settledOn (hg' : WellFormed g') (hrun : EscapeRun g g')
    (h : ∀ n, Escaping g' n → SettledOn (settledEdges g₀ g) g' n) :
    EscapeSettled g' ∧ CopiesSettled g₀ g' := by
  constructor
  · intro n hty hescape
    obtain ⟨hphantom, hedges⟩ := h n hescape
    refine ⟨hphantom, fun e he hnull => ?_⟩
    obtain hold | rfl := hrun.mem_edges he
    · refine hedges e ?_ hnull
      rwa [settledEdges, if_neg (by rwa [hrun.extends.type] at hty)]
    · exact hg'.edgeSettled_phantom _ _ _
  · intro ac hac hescape s hs hnull
    obtain ⟨hes, hfields, -⟩ := (h ac hescape).edges s (by
      rwa [settledEdges, if_pos (by rwa [hrun.extends.type] at hac)]) hnull
    exact ⟨hes, hfields, fun _ _ h => h.elim⟩

/-- Arraycopies stay settled when no state changes. -/
theorem CopiesSettled.congr (h : CopiesSettled g₀ g) (hext : Extends g g')
    (hstates : ∀ n, (g' n).escapeState = (g n).escapeState ∧
      (g' n).fieldsEscapeState = (g n).fieldsEscapeState) : CopiesSettled g₀ g' := by
  intro ac hac hescape s hs hnull
  rw [hext.type] at hac
  rw [Escaping, (hstates ac).2] at hescape
  rw [(hstates ac).1, (hstates ac).2]
  exact (h ac hac hescape s hs hnull).congr hext (hstates s).1 (hstates s).2

/-- Unknown values do not change the states. -/
theorem UnknownAdded.states {P : ℕ → Prop} (h : UnknownAdded P g g') (n : ℕ) :
    (g' n).escapeState = (g n).escapeState ∧ (g' n).fieldsEscapeState = (g n).fieldsEscapeState :=
  ⟨h.same n PointsToNode.escapeState fun _ => rfl,
    h.same n PointsToNode.fieldsEscapeState fun _ => rfl⟩

/-- Unknown values leave what is settled. -/
theorem UnknownAdded.escapeSettled {P : ℕ → Prop} (h : UnknownAdded P g g') (hg' : WellFormed g')
    (hext : Extends g g') (hsettled : EscapeSettled g) : EscapeSettled g' := by
  intro n hty hescape
  rw [hext.type] at hty
  rw [Escaping, (h.states n).2] at hescape
  obtain ⟨hphantom, hedges⟩ := hsettled n hty hescape
  constructor
  · rw [hext.type, hext.isOop, (h.states n).1]
    exact fun hty hoop hes => hext.edges n (hphantom hty hoop hes)
  · rw [hext.type, (h.states n).1, (h.states n).2]
    intro e he hnull
    obtain he | ⟨rfl, -⟩ := (h.edges n e).1 he
    · exact (hedges e he hnull).congr hext (h.states e).1 (h.states e).2
    · exact hg'.edgeSettled_phantom _ _ _

end

/-- The unknown values of a list of objects. -/
theorem foldl_initUnknownObject_phantomInit {l : List ℕ} {w : Walk} (hw : Walkable w)
    (hl : ∀ n ∈ l, (w.graph n).type = .javaObject) :
    PhantomAdded w.graph (l.foldl initUnknownObject w).graph ∧
      Walkable (l.foldl initUnknownObject w) ∧
      ∀ n ∈ l, PhantomInit (l.foldl initUnknownObject w).graph n := by
  have hstart : PhantomAdded w.graph w.graph ∧ Walkable w := ⟨PhantomAdded.refl _, hw⟩
  have htype : ∀ w' : Walk, PhantomAdded w.graph w'.graph → ∀ n ∈ l,
      (w'.graph n).type = .javaObject := by
    intro w' hadd n hn
    rw [hadd.run.extends.type]
    exact hl n hn
  have hinv : ∀ w' : Walk, ∀ n ∈ l, PhantomAdded w.graph w'.graph ∧ Walkable w' →
      PhantomAdded w.graph (initUnknownObject w' n).graph ∧ Walkable (initUnknownObject w' n) := by
    rintro w' n hn ⟨hadd, hw'⟩
    obtain ⟨hadd', hw'', -⟩ := initUnknownObject_phantomInit hw' (htype w' hadd n hn)
    exact ⟨hadd.trans hadd', hw''⟩
  obtain ⟨hadd, hwalk⟩ := Loops.invariant (P := fun w' : Walk => PhantomAdded w.graph w'.graph ∧
    Walkable w') _ hstart hinv
  refine ⟨hadd, hwalk, fun n hn => ?_⟩
  refine Loops.reached (P := fun w' : Walk => PhantomInit w'.graph n) hn hstart hinv ?_ ?_
  · rintro w' n' hn' ⟨hadd', hw'⟩ hdone
    refine hdone.phantomAdded (initUnknownObject_phantomInit hw' (htype w' hadd' n' hn')).1 ?_
    exact htype w' hadd' n hn
  · rintro w' ⟨hadd', hw'⟩
    exact (initUnknownObject_phantomInit hw' (htype w' hadd' n hn)).2.2

/-- `find_non_escaped_objects`, with all nodes that escape listed but arraycopies. -/
theorem findNonEscapedObjects_settled {fuel : ℕ} {g₀ g g' : Nodes} {wl wl' : List Use}
    {ptnodes nonEscaped nonEscaped' : List ℕ} (hw : Walkable ⟨g, wl, 0⟩) (hext : Extends g₀ g)
    (hcopies : CopiesSettled g₀ g)
    (hescaping : ∀ n, (g n).type ≠ .arraycopy → Escaping g n → n ∈ ptnodes)
    (hobjects : ∀ n ∈ nonEscaped, (g n).type = .javaObject)
    (h : findNonEscapedObjects fuel g wl ptnodes nonEscaped = some (g', wl', nonEscaped')) :
    EscapeRun g g' ∧ Walkable ⟨g', wl', 0⟩ ∧ EscapeSettled g' ∧ CopiesSettled g₀ g' ∧
      (∀ n ∈ nonEscaped, PhantomInit g' n) ∧
      ∀ n, n ∈ nonEscaped' ↔ n ∈ nonEscaped ∧ (g' n).escapeState ≠ .globalEscape := by
  obtain ⟨w, hstack, heq⟩ := Option.map_eq_some_iff.1 h
  obtain ⟨hg, heq⟩ := Prod.mk.inj heq
  obtain ⟨hwl, hne⟩ := Prod.mk.inj heq
  have hwait : WaitingOn (settledEdges g₀ g) g (ptnodes.filter fun ptn =>
      decide (EscapeState.argEscape.toNat ≤ (g ptn).escapeState.toNat) ||
        decide (EscapeState.argEscape.toNat ≤ (g ptn).fieldsEscapeState.toNat)).reverse := by
    intro n hescape
    by_cases hac : (g n).type = .arraycopy
    · exact .inr (hcopies.settledOn hac hescape)
    · refine .inl ?_
      simp only [List.mem_reverse, List.mem_filter, Bool.or_eq_true, decide_eq_true_eq]
      exact ⟨hescaping n hac hescape, .inr hescape⟩
  obtain ⟨hrun, hwalk, hon⟩ := propagateStack_settledOn hw (settledEdges_subset hext) hwait hstack
  obtain ⟨hsettled, hcopies'⟩ := escapeSettled_of_settledOn hwalk.wellFormed hrun hon
  have htype : ∀ n ∈ nonEscaped.reverse, (w.graph n).type = .javaObject := fun n hn => by
    rw [hrun.extends.type]
    exact hobjects n (List.mem_reverse.1 hn)
  obtain ⟨hadd, hwalk', hinit⟩ := foldl_initUnknownObject_phantomInit hwalk htype
  have hunknown := foldl_initUnknownObject_added _ hwalk htype
  subst hg hwl hne
  refine ⟨Relation.ReflTransGen.trans hrun hadd.run, ⟨hwalk'.wellFormed, hwalk'.entries⟩,
    hunknown.escapeSettled hwalk'.wellFormed hadd.run.extends hsettled,
    hcopies'.congr hadd.run.extends hunknown.states,
    fun n hn => hinit n (List.mem_reverse.2 hn), fun n => ?_⟩
  rw [hadd.escapeState]
  simp [List.mem_filter]

/-- The search for unknown values, over a list of fields. -/
theorem findFieldValues_added {l : List ℕ} {w : Walk} (hw : Walkable w)
    (hl : ∀ f ∈ l, (w.graph f).type = .field) :
    ∃ P, UnknownAdded P w.graph (l.foldl (fun w field =>
      if (w.graph field).edges.length = 0 then findFieldValue w field else w) w).graph := by
  induction l generalizing w with
  | nil => exact ⟨fun _ => False, UnknownAdded.refl _ fun _ => id⟩
  | cons f l ih =>
    have hf := hl f List.mem_cons_self
    have hone : ∃ P, UnknownAdded P w.graph (if (w.graph f).edges.length = 0 then
        findFieldValue w f else w).graph := by
      have hsame : ∃ P, UnknownAdded P w.graph w.graph :=
        ⟨fun _ => False, UnknownAdded.refl _ fun _ => id⟩
      split
      · unfold findFieldValue
        split
        · exact hsame
        · obtain ⟨-, heq⟩ | ⟨g, hadd, heq⟩ := addFieldValue_cases hw.wellFormed phantomObj hf
          · rwa [heq]
          · rw [heq]
            refine ⟨fun n => n = f, hadd.rest, fun n e => (hadd.mem_edges n e).trans ?_⟩
            rw [and_comm]
      · exact hsame
    have hnext : Walkable (if (w.graph f).edges.length = 0 then findFieldValue w f else w) := by
      split
      · exact (findFieldValue_phantom hw hf).2.1
      · exact hw
    obtain ⟨P, hP⟩ := hone
    obtain ⟨Q, hQ⟩ := ih hnext fun f' hf' => by
      rw [hP.same f' PointsToNode.type fun _ => rfl]
      exact hl f' (List.mem_cons_of_mem _ hf')
    exact ⟨fun n => P n ∨ Q n, hP.trans hQ⟩

end StackAllocation
