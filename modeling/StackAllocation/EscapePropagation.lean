import StackAllocation.FieldValues

/-!
# Propagation of escape states

The loop of `find_non_escaped_objects`. A node is settled when what it refers to escapes at least
as far as the node does (`Settled`). A node that escapes is settled or still on the stack
(`WaitingOn`), so that at the end of the loop all nodes are settled. The null object alone keeps
its state.

The nodes of arraycopies are made after `ptnodes_worklist` has been filled, so the loop does not
start from them. For this reason a node is settled on some of its edges (`SettledOn`), and the
lemmas about the loop leave open which edges these are: for arraycopies they will be the ones that
have been told before, for other nodes all they have when the loop starts.
-/

namespace StackAllocation

/-- An edge along which the escape states have been propagated. -/
structure EdgeSettled (g : Nodes) (es fieldEs : EscapeState) (object : Prop) (e : ℕ) : Prop where
  escapeState : (g e).type ≠ .arraycopy → es.toNat ≤ (g e).escapeState.toNat
  fieldsEscapeState : fieldEs.toNat ≤ (g e).fieldsEscapeState.toNat
  oopField : (g e).type = .field → (g e).isOop = true → object →
    fieldEs.toNat ≤ (g e).escapeState.toNat

/-- A node whose states have been propagated. -/
structure Settled (g : Nodes) (n : ℕ) : Prop where
  phantom : (g n).type = .field → (g n).isOop = true →
    EscapeState.argEscape.toNat ≤ (g n).escapeState.toNat → phantomObj ∈ (g n).edges
  edges : ∀ e ∈ (g n).edges, e ≠ nullObj →
    EdgeSettled g (g n).escapeState (g n).fieldsEscapeState ((g n).type = .javaObject) e

/-- The node escapes, or its fields do. -/
def Escaping (g : Nodes) (n : ℕ) : Prop :=
  EscapeState.argEscape.toNat ≤ (g n).fieldsEscapeState.toNat

/-- Nothing remains to be propagated. -/
def EscapeClosed (g : Nodes) : Prop :=
  ∀ n, Escaping g n → Settled g n

/-- A node whose states have been propagated along the edges `E`. -/
structure SettledOn (E : ℕ → List ℕ) (g : Nodes) (n : ℕ) : Prop where
  phantom : (g n).type = .field → (g n).isOop = true →
    EscapeState.argEscape.toNat ≤ (g n).escapeState.toNat → phantomObj ∈ (g n).edges
  edges : ∀ e ∈ E n, e ≠ nullObj →
    EdgeSettled g (g n).escapeState (g n).fieldsEscapeState ((g n).type = .javaObject) e

/-- What has to be propagated along the edges is on the stack. -/
def WaitingOn (E : ℕ → List ℕ) (g : Nodes) (stack : List ℕ) : Prop :=
  ∀ n, Escaping g n → n ∈ stack ∨ SettledOn E g n

/-! ## One edge

The source treats a target in one of three ways. For an arraycopy only the state of the fields is
raised; if the fields have escaped no further than the node, only the state of the target; else
both, where an oop field of an object gets the state of the object's fields. Every branch pushes the
target if it has raised something, and keeps each state below that of the fields. -/

/-- What comes of one edge to `e`. -/
structure Propagated (es fieldEs : EscapeState) (object : Prop) (e : ℕ) (g g' : Nodes)
    (pushed : Bool) : Prop where
  raised : StatesRaised g g'
  state_le : ∀ n, (g' n).escapeState.toNat ≤ (g' n).fieldsEscapeState.toNat
  others : ∀ n, n ≠ e → g' n = g n
  same : pushed = false → g' = g
  settled : e ≠ nullObj → EdgeSettled g' es fieldEs object e

section

variable {g : Nodes} {e : ℕ} {esc : EscapeState}

/-- The fields of an object have escaped at least as far as the object itself, and do so still when
it is given a state: `set_escape_state` raises that of the fields with it. -/
theorem setEscapeState_state_le
    (hle : ∀ n, (g n).escapeState.toNat ≤ (g n).fieldsEscapeState.toNat) (n : ℕ) :
    (setEscapeState g e esc n).escapeState.toNat ≤
      (setEscapeState g e esc n).fieldsEscapeState.toNat := by
  have := hle n
  rw [setEscapeState_apply]
  split
  · simp only [EscapeState.toNat_max]
    omega
  · exact this

/-- Nor does it change this to raise the state of the fields alone. -/
theorem setFieldsEscapeState_state_le
    (hle : ∀ n, (g n).escapeState.toNat ≤ (g n).fieldsEscapeState.toNat) (n : ℕ) :
    (setFieldsEscapeState g e esc n).escapeState.toNat ≤
      (setFieldsEscapeState g e esc n).fieldsEscapeState.toNat := by
  have := hle n
  rw [setFieldsEscapeState_apply]
  split
  · simp only [EscapeState.toNat_max]
    omega
  · exact this

/-- Other nodes keep their states. -/
theorem setEscapeState_of_ne {n : ℕ} (hn : n ≠ e) : setEscapeState g e esc n = g n := by
  rw [setEscapeState_apply, if_neg fun h => hn h.1]

theorem setFieldsEscapeState_of_ne {n : ℕ} (hn : n ≠ e) : setFieldsEscapeState g e esc n = g n := by
  rw [setFieldsEscapeState_apply, if_neg fun h => hn h.1]

/-- The node that is given a state. -/
theorem setEscapeState_self (he : e ≠ nullObj) :
    setEscapeState g e esc e =
      { g e with
        escapeState := (g e).escapeState.max esc
        fieldsEscapeState := (g e).fieldsEscapeState.max esc } := by
  rw [setEscapeState_apply, if_pos ⟨rfl, he⟩]

theorem setFieldsEscapeState_self (he : e ≠ nullObj) :
    setFieldsEscapeState g e esc e =
      { g e with fieldsEscapeState := (g e).fieldsEscapeState.max esc } := by
  rw [setFieldsEscapeState_apply, if_pos ⟨rfl, he⟩]

end

/-- The fields' state is raised first. -/
theorem raiseFields_eq {g g' : Nodes} {e : ℕ} {fieldEs : EscapeState} {changed : Bool}
    (hle : ∀ n, (g n).escapeState.toNat ≤ (g n).fieldsEscapeState.toNat)
    (h : (if (g e).fieldsEscapeState.toNat < fieldEs.toNat then
        (setFieldsEscapeState g e fieldEs, true) else (g, false)) = (g', changed)) :
    StatesRaised g g' ∧ (∀ n, (g' n).escapeState.toNat ≤ (g' n).fieldsEscapeState.toNat) ∧
      (∀ n, n ≠ e → g' n = g n) ∧ (changed = false → g' = g) ∧
      (e ≠ nullObj → fieldEs.toNat ≤ (g' e).fieldsEscapeState.toNat) := by
  split at h
  · obtain ⟨rfl, rfl⟩ := Prod.mk.inj h
    refine ⟨setFieldsEscapeState_raised g e fieldEs, setFieldsEscapeState_state_le hle,
      fun n hn => setFieldsEscapeState_of_ne hn, fun h => absurd h Bool.noConfusion, fun he => ?_⟩
    simp only [setFieldsEscapeState_self he, EscapeState.toNat_max]
    omega
  · obtain ⟨rfl, rfl⟩ := Prod.mk.inj h
    exact ⟨StatesRaised.refl g, hle, fun _ _ => rfl, fun _ => rfl, fun _ => by omega⟩

/-- To raise both states of the target settles the edge, if the state is enough for the fields where
it has to be. -/
theorem setEscapeState_propagated {g g₁ : Nodes} {ptn e : ℕ} {es fieldEs esc : EscapeState}
    (hraised : StatesRaised g g₁)
    (hle : ∀ n, (g₁ n).escapeState.toNat ≤ (g₁ n).fieldsEscapeState.toNat)
    (hothers : ∀ n, n ≠ e → g₁ n = g n) (hesc : es.toNat ≤ esc.toNat)
    (hfields : e ≠ nullObj →
      fieldEs.toNat ≤ Max.max (g₁ e).fieldsEscapeState.toNat esc.toNat)
    (hoop : (g₁ e).type = .field ∧ (g₁ ptn).type = .javaObject ∧ (g₁ e).isOop = true →
      fieldEs.toNat ≤ Max.max (g₁ e).escapeState.toNat esc.toNat) :
    Propagated es fieldEs ((g ptn).type = .javaObject) e g (setEscapeState g₁ e esc) true := by
  refine ⟨hraised.trans (setEscapeState_raised g₁ e esc), setEscapeState_state_le hle,
    fun n hn => (setEscapeState_of_ne hn).trans (hothers n hn),
    fun h => absurd h Bool.noConfusion, fun he => ?_⟩
  have := hfields he
  constructor <;> simp only [setEscapeState_self he, EscapeState.toNat_max]
  · exact fun _ => by omega
  · exact this
  · refine fun hty hoop' hobj => hoop ⟨hty, ?_, hoop'⟩
    rw [hraised.same ptn PointsToNode.type fun _ => rfl, hobj]

/-- What the loop does to one edge: the states of the target are raised to those of the node, and
the target is put on the stack if they were lower. -/
theorem propagateEscape_propagated {g : Nodes} (ptn e : ℕ) (es fieldEs : EscapeState)
    (hle : ∀ n, (g n).escapeState.toNat ≤ (g n).fieldsEscapeState.toNat) :
    Propagated es fieldEs ((g ptn).type = .javaObject) e g
      (propagateEscape g ptn es fieldEs e).1 (propagateEscape g ptn es fieldEs e).2 := by
  have hle_e := hle e
  have stay : ∀ es fieldEs : EscapeState, (e ≠ nullObj → EdgeSettled g es fieldEs
      ((g ptn).type = .javaObject) e) → Propagated es fieldEs ((g ptn).type = .javaObject) e g g
        false := fun _ _ h => ⟨StatesRaised.refl g, hle, fun _ _ => rfl, fun _ => rfl, h⟩
  unfold propagateEscape
  by_cases hcopy : (g e).type = .arraycopy
  · -- Propagate only fields escape state through arraycopy edge.
    rw [if_pos hcopy]
    have hfield : (g e).type ≠ .field := by
      rw [hcopy]
      decide
    split
    · next hlt =>
      refine ⟨setFieldsEscapeState_raised g e fieldEs, setFieldsEscapeState_state_le hle,
        fun n hn => setFieldsEscapeState_of_ne hn, fun h => absurd h Bool.noConfusion, fun he => ?_⟩
      constructor <;> simp only [setFieldsEscapeState_self he, EscapeState.toNat_max]
      · exact fun h => absurd hcopy h
      · omega
      · exact fun h => absurd h hfield
    · next hge =>
      refine stay es fieldEs fun _ => ⟨fun h => absurd hcopy h, by omega, fun h => absurd h hfield⟩
  rw [if_neg hcopy]
  split
  · next hfieldEs =>
    -- the fields escape no further than the node
    split
    · next hlt =>
      exact setEscapeState_propagated (.refl g) hle (fun _ _ => rfl) (Nat.le_refl _)
        (fun _ => by omega) fun _ => by omega
    · next hge =>
      refine stay es fieldEs fun _ => ⟨fun _ => by omega, by omega, fun _ _ _ => by omega⟩
  · next hfieldEs =>
    -- Propagate field escape state.
    split
    next g₁ changed heq =>
    obtain ⟨hraised, hle₁, hothers, hsame, hfields⟩ := raiseFields_eq hle heq
    have hset : ∀ esc : EscapeState, es.toNat ≤ esc.toNat →
        ((g₁ e).type = .field ∧ (g₁ ptn).type = .javaObject ∧ (g₁ e).isOop = true →
          fieldEs.toNat ≤ Max.max (g₁ e).escapeState.toNat esc.toNat) →
        Propagated es fieldEs ((g ptn).type = .javaObject) e g (setEscapeState g₁ e esc) true :=
      fun esc hesc hoop => setEscapeState_propagated hraised hle₁ hothers hesc
        (fun he => Nat.le_trans (hfields he) (Nat.le_max_left _ _)) hoop
    split
    · next hA => exact hset fieldEs (by omega) fun _ => Nat.le_max_right _ _
    · next hA =>
      split
      · next hB =>
        refine hset es (Nat.le_refl _) fun hoop => ?_
        have : ¬ (g₁ e).escapeState.toNat < fieldEs.toNat := fun h => hA ⟨h, hoop⟩
        omega
      · next hB =>
        have hes : es.toNat ≤ (g₁ e).escapeState.toNat := Nat.le_of_not_lt hB
        refine ⟨hraised, hle₁, hothers, hsame, fun he => ⟨fun _ => hes, hfields he, ?_⟩⟩
        intro hty hoop hobj
        rw [← hraised.same ptn PointsToNode.type fun _ => rfl] at hobj
        exact Nat.le_of_not_lt fun h => hA ⟨h, hty, hobj, hoop⟩

/-! ## The loops

The loops raise states and add edges to the phantom object, and nothing else. So they keep the graph
well formed, and an edge that is settled stays so while the states of its source do not change. -/

/-- What a step of the loops does to the graph. -/
inductive EscapeStep (g : Nodes) : Nodes → Prop
  | value {field : ℕ} {g' : Nodes} : (g field).type = .field → EdgeAdded field phantomObj g g' →
      EscapeStep g g'
  | states {g' : Nodes} {n e : ℕ} : e ∈ (g n).edges → StatesRaised g g' →
      (∀ m, (g' m).escapeState.toNat ≤ (g' m).fieldsEscapeState.toNat) →
      (∀ m, m ≠ e → g' m = g m) → EscapeStep g g'

/-- What the loops do to the graph. -/
abbrev EscapeRun : Nodes → Nodes → Prop := Relation.ReflTransGen EscapeStep

section

variable {E : ℕ → List ℕ} {g g' : Nodes}

/-- A step of the propagation adds to the graph. -/
theorem EscapeStep.extends (h : EscapeStep g g') : Extends g g' := by
  cases h with
  | value _ h => exact h.extends
  | states _ h _ _ => exact h.extends

/-- It keeps the graph well formed. -/
theorem EscapeStep.wellFormed (hg : WellFormed g) (h : EscapeStep g g') : WellFormed g' := by
  cases h with
  | value hf h => exact (GraphStep.edge (.inr hf) h).wellFormed hg hg.phantom_type
  | states _ h hle _ => exact hg.statesRaised h hle

/-- So does a run. -/
theorem EscapeRun.extends (h : EscapeRun g g') : Extends g g' := by
  induction h with
  | refl => exact Extends.refl g
  | tail _ hstep ih => exact ih.trans hstep.extends

/-- A run keeps the graph well formed. -/
theorem EscapeRun.wellFormed (hg : WellFormed g) (h : EscapeRun g g') : WellFormed g' := by
  induction h with
  | refl => exact hg
  | tail _ hstep ih => exact hstep.wellFormed ih

/-- An edge whose target has reached the states of the node stays settled when other states are
raised. -/
theorem EdgeSettled.raised {es fieldEs : EscapeState} {object : Prop} {e : ℕ}
    (h : EdgeSettled g es fieldEs object e) (hr : StatesRaised g g') :
    EdgeSettled g' es fieldEs object e := by
  obtain ⟨hes, hfields, hoopField⟩ := h
  have hraise := hr.escapeState e
  refine ⟨fun hty => ?_, Nat.le_trans hfields (hr.fieldsEscapeState e), fun hty ho hobj => ?_⟩
  · rw [hr.same e PointsToNode.type fun _ => rfl] at hty
    exact Nat.le_trans (hes hty) hraise
  · rw [hr.same e PointsToNode.type fun _ => rfl] at hty
    rw [hr.same e PointsToNode.isOop fun _ => rfl] at ho
    exact Nat.le_trans (hoopField hty ho hobj) hraise

/-- A settled node whose states stay is settled when others escape further. -/
theorem SettledOn.raised {n : ℕ} (h : SettledOn E g n) (hr : StatesRaised g g')
    (hn : g' n = g n) : SettledOn E g' n where
  phantom := by
    rw [hn]
    exact h.phantom
  edges := by
    rw [hn]
    exact fun e he hnull => (h.edges e he hnull).raised hr

/-- An edge stays settled when no state changes. -/
theorem EdgeSettled.congr {es fieldEs : EscapeState} {object : Prop} {e : ℕ}
    (h : EdgeSettled g es fieldEs object e) (hext : Extends g g')
    (hes : (g' e).escapeState = (g e).escapeState)
    (hfields : (g' e).fieldsEscapeState = (g e).fieldsEscapeState) :
    EdgeSettled g' es fieldEs object e := by
  constructor
  · rw [hext.type, hes]
    exact h.escapeState
  · rw [hfields]
    exact h.fieldsEscapeState
  · rw [hext.type, hext.isOop, hes]
    exact h.oopField

/-- Which edges are settled depends on the states and on the types only. -/
theorem SettledOn.congr {n : ℕ} (h : SettledOn E g n) (hext : Extends g g')
    (hstates : ∀ m, (g' m).escapeState = (g m).escapeState ∧
      (g' m).fieldsEscapeState = (g m).fieldsEscapeState) : SettledOn E g' n where
  phantom := by
    rw [hext.type, hext.isOop, (hstates n).1]
    exact fun hty hoop hes => hext.edges n (h.phantom hty hoop hes)
  edges := by
    rw [hext.type, (hstates n).1, (hstates n).2]
    exact fun e he hnull => (h.edges e he hnull).congr hext (hstates e).1 (hstates e).2

/-- Only the phantom object is added to what a node refers to. -/
theorem EscapeRun.mem_edges (h : EscapeRun g g') {n e : ℕ} (he : e ∈ (g' n).edges) :
    e ∈ (g n).edges ∨ e = phantomObj := by
  induction h with
  | refl => exact .inl he
  | tail _ hstep ih =>
    cases hstep with
    | value _ hadd =>
      obtain he | ⟨-, rfl⟩ := (hadd.mem_edges n e).1 he
      · exact ih he
      · exact .inr rfl
    | states _ hr _ _ =>
      rw [hr.same n PointsToNode.edges fun _ => rfl] at he
      exact ih he

/-- After a run of the propagation the worklist can be walked as before. -/
theorem Walkable.escapeRun {w : Walk} (hw : Walkable w) (h : EscapeRun w.graph g) (k : ℕ) :
    Walkable ⟨g, w.worklist, k⟩ :=
  hw.extends (h.wellFormed hw.wellFormed) h.extends (fun _ hu => .inl hu) k

end

section

variable {E : ℕ → List ℕ} {ptn : ℕ} {es fieldEs : EscapeState}

theorem propagateEdge_eq (w : EscapeWalk) (e : ℕ) :
    propagateEdge ptn es fieldEs w e =
      ⟨⟨(propagateEscape w.graph ptn es fieldEs e).1, w.worklist, w.newEdges⟩,
        if (propagateEscape w.graph ptn es fieldEs e).2 then e :: w.stack else w.stack⟩ := by
  unfold propagateEdge
  obtain ⟨g, _ | _⟩ := propagateEscape w.graph ptn es fieldEs e <;> rfl

/-- The unknown value of an escaping field. -/
theorem addUnknownValue_run (ptn : ℕ) {w : EscapeWalk} (hw : Walkable w.toWalk) :
    EscapeRun w.graph (addUnknownValue w ptn).graph ∧ Walkable (addUnknownValue w ptn).toWalk ∧
      (addUnknownValue w ptn).stack = w.stack ∧
      (∀ n, ((addUnknownValue w ptn).graph n).escapeState = (w.graph n).escapeState ∧
        ((addUnknownValue w ptn).graph n).fieldsEscapeState = (w.graph n).fieldsEscapeState) ∧
      ((w.graph ptn).type = .field → (w.graph ptn).isOop = true →
        EscapeState.argEscape.toNat ≤ (w.graph ptn).escapeState.toNat →
          phantomObj ∈ ((addUnknownValue w ptn).graph ptn).edges) := by
  unfold addUnknownValue
  split
  · next hfield =>
    obtain ⟨hmem, heq⟩ | ⟨g, hadd, heq⟩ := addFieldValue_cases hw.wellFormed phantomObj hfield.1
    · rw [heq]
      exact ⟨Relation.ReflTransGen.refl, hw, rfl, fun _ => ⟨rfl, rfl⟩, fun _ _ _ => hmem⟩
    · rw [heq]
      have hwalked := walked_fieldValue hw hw.wellFormed.phantom_type hfield.1 hadd
      exact ⟨.single (.value hfield.1 hadd), hwalked.walkable, rfl,
        fun n => ⟨hadd.escapeState n, hadd.fieldsEscapeState n⟩,
        fun _ _ _ => (hadd.mem_edges ptn _).2 (.inr ⟨rfl, rfl⟩)⟩
  · next hnot =>
    exact ⟨Relation.ReflTransGen.refl, hw, rfl, fun _ => ⟨rfl, rfl⟩,
      fun hty hoop hes => absurd ⟨hty, hoop, hes⟩ hnot⟩

/-! ## The loop over the stack

The invariant says of every node that its edges are settled or that it is on the stack. A node that
is taken from the stack has its edges settled one by one; a target whose state is raised by this is
pushed, so nothing that was settled is lost without being waited for. -/

/-- What the loop over the edges of `ptn` keeps, from `w₁` on. -/
structure EdgesOn (E : ℕ → List ℕ) (ptn : ℕ) (w₁ w : EscapeWalk) : Prop where
  run : EscapeRun w₁.graph w.graph
  raised : StatesRaised w₁.graph w.graph
  walkable : Walkable w.toWalk
  waiting : ∀ n, n ≠ ptn → Escaping w.graph n → n ∈ w.stack ∨ SettledOn E w.graph n
  node : ptn ∈ w.stack ∨ w.graph ptn = w₁.graph ptn

/-- One edge of the node that was taken from the stack: it is settled, and what is not settled
elsewhere is on the stack. -/
theorem EdgesOn.propagateEdge {w₁ w : EscapeWalk} (h : EdgesOn E ptn w₁ w)
    (es fieldEs : EscapeState) {e : ℕ} (he : e ∈ (w₁.graph ptn).edges) :
    EdgesOn E ptn w₁ (propagateEdge ptn es fieldEs w e) ∧
      (e ≠ nullObj → EdgeSettled (propagateEdge ptn es fieldEs w e).graph es fieldEs
        ((w₁.graph ptn).type = .javaObject) e) ∧
      StatesRaised w.graph (propagateEdge ptn es fieldEs w e).graph := by
  rw [propagateEdge_eq]
  have hp := propagateEscape_propagated ptn e es fieldEs h.walkable.wellFormed.state_le
  have hstep : EscapeStep w.graph (propagateEscape w.graph ptn es fieldEs e).1 :=
    .states (h.run.extends.edges ptn he) hp.raised hp.state_le hp.others
  rw [h.run.extends.type ptn] at hp
  -- a node is on the stack or as it was
  have hpushed : ∀ n, n ∈ (if (propagateEscape w.graph ptn es fieldEs e).2 = true then e :: w.stack
      else w.stack) ∨ n ∉ w.stack ∧ (propagateEscape w.graph ptn es fieldEs e).1 n = w.graph n := by
    intro n
    cases hpush : (propagateEscape w.graph ptn es fieldEs e).2 with
    | false =>
      rw [if_neg Bool.false_ne_true, hp.same hpush]
      exact or_iff_not_imp_left.2 fun h => ⟨h, rfl⟩
    | true =>
      rw [if_pos rfl]
      by_cases hn : n ∈ e :: w.stack
      · exact .inl hn
      · rw [List.mem_cons, not_or] at hn
        exact .inr ⟨hn.2, hp.others n hn.1⟩
  refine ⟨⟨h.run.tail hstep, h.raised.trans hp.raised, h.walkable.escapeRun (.single hstep) _,
    fun n hn hescape => ?_, ?_⟩, hp.settled, hp.raised⟩
  · refine (hpushed n).imp id ?_
    rintro ⟨hnot, hsame⟩
    have hescape' : Escaping w.graph n := by
      rw [Escaping, ← hsame]
      exact hescape
    exact ((h.waiting n hn hescape').resolve_left hnot).raised hp.raised hsame
  · refine (hpushed ptn).imp id ?_
    rintro ⟨hnot, hsame⟩
    exact hsame.trans (h.node.resolve_left hnot)

/-- One node of the stack. -/
theorem propagateNode_waitingOn {w : EscapeWalk} {rest : List ℕ} (hw : Walkable w.toWalk)
    (hE : E ptn ⊆ (w.graph ptn).edges) (hwait : WaitingOn E w.graph (ptn :: rest))
    (hrest : w.stack = rest) :
    EscapeRun w.graph (propagateNode w ptn).graph ∧ Walkable (propagateNode w ptn).toWalk ∧
      WaitingOn E (propagateNode w ptn).graph (propagateNode w ptn).stack := by
  obtain ⟨hrun, hwalk₁, hstack, hstates, hphantom⟩ := addUnknownValue_run ptn hw
  unfold propagateNode
  simp only
  generalize addUnknownValue w ptn = w₁ at *
  have hstart : EdgesOn E ptn w₁ w₁ := by
    refine ⟨Relation.ReflTransGen.refl, StatesRaised.refl _, hwalk₁, fun n hn hescape => ?_,
      .inr rfl⟩
    rw [Escaping, (hstates n).2] at hescape
    rw [hstack, hrest]
    obtain hmem | hset := hwait n hescape
    · exact .inl ((List.mem_cons.1 hmem).resolve_left hn)
    · exact .inr (hset.congr hrun.extends hstates)
  have hstep := fun w e (he : e ∈ (w₁.graph ptn).edges) (h : EdgesOn E ptn w₁ w) =>
    h.propagateEdge (w₁.graph ptn).escapeState (w₁.graph ptn).fieldsEscapeState he
  rw [← (hstates ptn).1, ← (hstates ptn).2]
  have hend := Loops.invariant (P := EdgesOn E ptn w₁) (w₁.graph ptn).edges hstart
    fun w e he h => (hstep w e he h).1
  have hedges := fun e (he : e ∈ (w₁.graph ptn).edges) =>
    Loops.reached (P := fun w : EscapeWalk => e ≠ nullObj → EdgeSettled w.graph
        (w₁.graph ptn).escapeState (w₁.graph ptn).fieldsEscapeState
          ((w₁.graph ptn).type = .javaObject) e) he hstart
      (fun w e he h => (hstep w e he h).1)
      (fun w e' he' h hset hnull => (hset hnull).raised (hstep w e' he' h).2.2)
      fun w h => (hstep w e he h).2.1
  refine ⟨Relation.ReflTransGen.trans hrun hend.run, hend.walkable, fun n hescape => ?_⟩
  by_cases hn : n = ptn
  · subst hn
    refine hend.node.imp id fun hsame => ⟨?_, ?_⟩
    · rw [hsame, hrun.extends.type, hrun.extends.isOop, (hstates n).1]
      exact hphantom
    · rw [hsame]
      exact fun e he => hedges e (hrun.extends.edges n (hE he))
  · exact hend.waiting n hn hescape

/-- The loop over the stack. -/
theorem propagateStack_settledOn {fuel : ℕ} {w w' : EscapeWalk} (hw : Walkable w.toWalk)
    (hE : ∀ n, E n ⊆ (w.graph n).edges) (hwait : WaitingOn E w.graph w.stack)
    (h : propagateStack fuel w = some w') :
    EscapeRun w.graph w'.graph ∧ Walkable w'.toWalk ∧
      ∀ n, Escaping w'.graph n → SettledOn E w'.graph n := by
  induction fuel generalizing w with
  | zero => cases h
  | succ fuel ih =>
    rw [propagateStack] at h
    split at h
    · next hstack =>
      obtain rfl := Option.some.inj h
      refine ⟨Relation.ReflTransGen.refl, hw, fun n hescape => ?_⟩
      rw [hstack] at hwait
      exact (hwait n hescape).resolve_left List.not_mem_nil
    · next ptn rest hstack =>
      rw [hstack] at hwait
      obtain ⟨hrun, hwalk, hwait'⟩ :=
        propagateNode_waitingOn (w := { w with stack := rest }) hw (hE ptn) hwait rfl
      have hE' := fun n => List.Subset.trans (hE n) (hrun.extends.edges n)
      obtain ⟨hrun', hwalk', hsettled⟩ := ih hwalk hE' hwait' h
      exact ⟨Relation.ReflTransGen.trans hrun hrun', hwalk', hsettled⟩

end

/-! ## Unknown values of objects

Objects that come from elsewhere have fields whose values nobody knows; a new object has none of
these unless it is the target of an arraycopy. The fields get the phantom object, which has escaped
globally from the start, so no state changes. -/

/-- Only the phantom object has got to more fields. -/
structure PhantomAdded (g g' : Nodes) : Prop where
  run : EscapeRun g g'
  escapeState : ∀ n, (g' n).escapeState = (g n).escapeState
  arraycopyDst : ∀ n, (g' n).arraycopyDst = (g n).arraycopyDst
  object_edges : ∀ n e, (g n).type = .javaObject → (e ∈ (g' n).edges ↔ e ∈ (g n).edges)

theorem PhantomAdded.refl (g : Nodes) : PhantomAdded g g :=
  ⟨Relation.ReflTransGen.refl, fun _ => rfl, fun _ => rfl, fun _ _ _ => Iff.rfl⟩

/-- Unknown values that are added at several places. -/
theorem PhantomAdded.trans {g₁ g₂ g₃ : Nodes} (h : PhantomAdded g₁ g₂)
    (h' : PhantomAdded g₂ g₃) : PhantomAdded g₁ g₃ where
  run := Relation.ReflTransGen.trans h.run h'.run
  escapeState n := (h'.escapeState n).trans (h.escapeState n)
  arraycopyDst n := (h'.arraycopyDst n).trans (h.arraycopyDst n)
  object_edges n e hn := by
    rw [h'.object_edges n e (by rw [h.run.extends.type, hn]), h.object_edges n e hn]

/-- The unknown value of a field. -/
theorem addFieldValue_phantom {w : Walk} {field : ℕ} (hw : Walkable w)
    (hfield : (w.graph field).type = .field) :
    PhantomAdded w.graph (addFieldValue phantomObj w field).graph ∧
      Walkable (addFieldValue phantomObj w field) := by
  have hwalked := walked_addFieldValue hw hw.wellFormed.phantom_type hfield
  obtain ⟨-, heq⟩ | ⟨g, hadd, heq⟩ := addFieldValue_cases hw.wellFormed phantomObj hfield
  · rw [heq]
    exact ⟨PhantomAdded.refl _, hw⟩
  · rw [heq] at hwalked ⊢
    refine ⟨⟨.single (.value hfield hadd), hadd.escapeState, hadd.arraycopyDst, fun n e hn => ?_⟩,
      hwalked.walkable⟩
    rw [hadd.mem_edges]
    refine or_iff_left ?_
    rintro ⟨rfl, -⟩
    exact absurd (hn.symm.trans hfield) (by decide)

/-- The fields of the object have an unknown value, where the source looks for one. -/
def PhantomInit (g : Nodes) (pta : ℕ) : Prop :=
  (g pta).escapeState = .noEscape →
    ¬ ((g pta).ideal = .allocate ∧ (g pta).arraycopyDst = false) →
      ∀ f ∈ (g pta).edges, (g f).type = .field → (g f).isOop = true → phantomObj ∈ (g f).edges

/-- Fields that have the unknown value keep it. -/
theorem PhantomInit.phantomAdded {g g' : Nodes} {pta : ℕ} (h : PhantomInit g pta)
    (hadd : PhantomAdded g g') (hpta : (g pta).type = .javaObject) : PhantomInit g' pta := by
  intro hescape hskip f hf hty hoop
  have hext := hadd.run.extends
  rw [hadd.escapeState] at hescape
  rw [hext.ideal, hadd.arraycopyDst] at hskip
  rw [hadd.object_edges pta f hpta] at hf
  rw [hext.type] at hty
  rw [hext.isOop] at hoop
  exact hext.edges f (h hescape hskip f hf hty hoop)

/-- A field of an oop gets the unknown value. -/
theorem initUnknown_phantom {w : Walk} (hw : Walkable w) (f : ℕ) :
    PhantomAdded w.graph (initUnknown w f).graph ∧ Walkable (initUnknown w f) ∧
      ((w.graph f).type = .field → (w.graph f).isOop = true →
        phantomObj ∈ ((initUnknown w f).graph f).edges) := by
  unfold initUnknown
  split
  · next hfield =>
    obtain ⟨hadd, hw'⟩ := addFieldValue_phantom hw hfield.1
    exact ⟨hadd, hw', fun _ _ => mem_addFieldValue hw.wellFormed hfield.1⟩
  · next hnot =>
    exact ⟨PhantomAdded.refl _, hw, fun hty hoop => absurd ⟨hty, hoop⟩ hnot⟩

/-- The fields of one object. -/
theorem findInitValuesPhantom_phantomInit {w : Walk} {pta : ℕ} (hw : Walkable w)
    (hpta : (w.graph pta).type = .javaObject) :
    PhantomAdded w.graph (findInitValuesPhantom w pta).graph ∧
      Walkable (findInitValuesPhantom w pta) ∧
      PhantomInit (findInitValuesPhantom w pta).graph pta := by
  unfold findInitValuesPhantom
  by_cases hskip : (w.graph pta).ideal = .allocate ∧ (w.graph pta).arraycopyDst = false
  · rw [if_pos hskip]
    exact ⟨PhantomAdded.refl _, hw, fun _ h => absurd hskip h⟩
  rw [if_neg hskip]
  have hstart : PhantomAdded w.graph w.graph ∧ Walkable w := ⟨PhantomAdded.refl _, hw⟩
  have hinv : ∀ w' : Walk, ∀ f ∈ (w.graph pta).edges, PhantomAdded w.graph w'.graph ∧ Walkable w' →
      PhantomAdded w.graph (initUnknown w' f).graph ∧ Walkable (initUnknown w' f) := by
    rintro w' f - ⟨hadd, hw'⟩
    obtain ⟨hadd', hw'', -⟩ := initUnknown_phantom hw' f
    exact ⟨hadd.trans hadd', hw''⟩
  obtain ⟨hadd, hwalk⟩ := Loops.invariant (P := fun w' : Walk => PhantomAdded w.graph w'.graph ∧
    Walkable w') _ hstart hinv
  refine ⟨hadd, hwalk, fun _ _ f hf hty hoop => ?_⟩
  rw [hadd.object_edges pta f hpta] at hf
  rw [hadd.run.extends.type] at hty
  rw [hadd.run.extends.isOop] at hoop
  refine Loops.reached (P := fun w' : Walk => phantomObj ∈ (w'.graph f).edges) hf hstart hinv ?_ ?_
  · rintro w' f' - ⟨-, hw'⟩ hmem
    exact (initUnknown_phantom hw' f').1.run.extends.edges f hmem
  · rintro w' ⟨hadd', hw'⟩
    refine (initUnknown_phantom hw' f).2.2 ?_ ?_
    · rw [hadd'.run.extends.type, hty]
    · rw [hadd'.run.extends.isOop, hoop]

/-- All such fields of an object that comes from elsewhere get it. -/
theorem initUnknownObject_phantomInit {w : Walk} {pta : ℕ} (hw : Walkable w)
    (hpta : (w.graph pta).type = .javaObject) :
    PhantomAdded w.graph (initUnknownObject w pta).graph ∧ Walkable (initUnknownObject w pta) ∧
      PhantomInit (initUnknownObject w pta).graph pta := by
  unfold initUnknownObject
  split
  · exact findInitValuesPhantom_phantomInit hw hpta
  · next hescape => exact ⟨PhantomAdded.refl _, hw, fun h => absurd h hescape⟩

/-! ## Fields with an unknown value

A field of which no store was found may still hold something, unless all its bases are new objects.
The search adds the phantom object to it and counts the new edge, so the caller can tell whether it
has to go round again. -/

/-- A field gets the unknown value if no value was found for it and none of its bases is an
allocation. -/
theorem findFieldValue_phantom {w : Walk} {field : ℕ} (hw : Walkable w)
    (hfield : (w.graph field).type = .field) :
    PhantomAdded w.graph (findFieldValue w field).graph ∧ Walkable (findFieldValue w field) ∧
      ((findFieldValue w field = w ∧
          (hasAllocateBase w.graph field = true ∨ phantomObj ∈ (w.graph field).edges)) ∨
        (findFieldValue w field).newEdges = w.newEdges + 1) := by
  unfold findFieldValue
  split
  · next hbase => exact ⟨PhantomAdded.refl _, hw, .inl ⟨rfl, .inl hbase⟩⟩
  · obtain ⟨hadd, hw'⟩ := addFieldValue_phantom hw hfield
    refine ⟨hadd, hw', ?_⟩
    obtain ⟨hmem, heq⟩ | ⟨g, -, heq⟩ := addFieldValue_cases hw.wellFormed phantomObj hfield
    · exact .inl ⟨heq, .inr hmem⟩
    · rw [heq]
      exact .inr rfl

/-- The search for unknown values, over a list of fields. -/
theorem findFieldValues_phantom {l : List ℕ} {w w' : Walk} (hw : Walkable w)
    (hl : ∀ f ∈ l, (w.graph f).type = .field)
    (h : l.foldl (fun w field =>
      if (w.graph field).edges.length = 0 then findFieldValue w field else w) w = w') :
    PhantomAdded w.graph w'.graph ∧ Walkable w' ∧ w.newEdges ≤ w'.newEdges ∧
      (w'.newEdges = w.newEdges → w' = w ∧
        ∀ f ∈ l, (w.graph f).edges = [] → hasAllocateBase w.graph f = true) := by
  induction l generalizing w with
  | nil =>
    subst h
    exact ⟨PhantomAdded.refl _, hw, Nat.le_refl _, fun _ => ⟨rfl, by simp⟩⟩
  | cons f l ih =>
    rw [List.foldl_cons] at h
    split at h
    · next hempty =>
      obtain ⟨hadd, hw₁, hcases⟩ := findFieldValue_phantom hw (hl f List.mem_cons_self)
      have hl₁ : ∀ f' ∈ l, ((findFieldValue w f).graph f').type = .field := fun f' hf' => by
        rw [hadd.run.extends.type]
        exact hl f' (List.mem_cons_of_mem _ hf')
      obtain ⟨hadd', hw', hle, hzero⟩ := ih hw₁ hl₁ h
      obtain ⟨hsame, hbase⟩ | hnew := hcases
      · rw [hsame] at hadd' hle hzero
        refine ⟨hadd', hw', hle, fun heq => ⟨(hzero heq).1, fun f' hf' hnil => ?_⟩⟩
        obtain rfl | hf' := List.mem_cons.1 hf'
        · rw [hnil] at hbase
          exact hbase.resolve_right List.not_mem_nil
        · exact (hzero heq).2 f' hf' hnil
      · exact ⟨hadd.trans hadd', hw', by omega, fun heq => by omega⟩
    · next hsome =>
      obtain ⟨hadd', hw', hle, hzero⟩ := ih hw (fun f' hf' => hl f' (List.mem_cons_of_mem _ hf')) h
      refine ⟨hadd', hw', hle, fun heq => ⟨(hzero heq).1, fun f' hf' hnil => ?_⟩⟩
      obtain rfl | hf' := List.mem_cons.1 hf'
      · exact absurd (List.length_eq_zero_iff.2 hnil) hsome
      · exact (hzero heq).2 f' hf' hnil

end StackAllocation
