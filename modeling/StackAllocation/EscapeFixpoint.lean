import StackAllocation.ClosedGraph
import Mathlib.Algebra.Order.BigOperators.Group.Finset
import Mathlib.Order.WellFounded

/-!
# The least escape marking

`find_non_escaped_objects` as a fixpoint computation. The escape states of all nodes are
a marking; it is closed (`ClosedMarking`) when every edge has passed on what it passes on.
The loop takes the nodes off `escape_worklist` in some order (`Pops`); each push but those
of the null object raises a state, so every order ends, and none raises a state beyond
what a closed marking above the initial one has. So all orders end with the least such
marking, with the same fields that refer to the phantom object and the same objects left
in the list.

The nodes of arraycopies need not be on `ptnodes_worklist`, for they are made after it has been
filled (`EscapeReady`). The loop comes to them from the nodes that have an edge to them.
-/

namespace StackAllocation

/-! ## Markings

The states of all nodes are one marking, and markings are ordered node by node. A marking is closed
if every edge has passed on what it should; the closed markings above the initial one have a least
element, which is what the loop is to compute. -/

/-- The escape states of the nodes. -/
structure EscapeMarking : Type where
  escapeState : ℕ → EscapeState
  fieldsEscapeState : ℕ → EscapeState

/-- The marking of a graph. -/
def escapeMarking (g : Nodes) : EscapeMarking :=
  ⟨fun n => (g n).escapeState, fun n => (g n).fieldsEscapeState⟩

/-- No state of the first marking is above the one of the second. -/
structure EscapeMarking.Le (M M' : EscapeMarking) : Prop where
  escapeState : ∀ n, (M.escapeState n).toNat ≤ (M'.escapeState n).toNat
  fieldsEscapeState : ∀ n, (M.fieldsEscapeState n).toNat ≤ (M'.fieldsEscapeState n).toNat

/-- What a node with states `es` and `fieldEs` passes on along an edge to `e`. -/
structure PassedOn (g : Nodes) (M : EscapeMarking) (es fieldEs : EscapeState) (object : Prop)
    (e : ℕ) : Prop where
  escapeState : (g e).type ≠ .arraycopy → es.toNat ≤ (M.escapeState e).toNat
  fieldsEscapeState : fieldEs.toNat ≤ (M.fieldsEscapeState e).toNat
  oopField : (g e).type = .field → (g e).isOop = true → object →
    fieldEs.toNat ≤ (M.escapeState e).toNat

/-- Every edge has passed on its states, those to the null object apart. -/
structure ClosedMarking (g : Nodes) (M : EscapeMarking) : Prop where
  state_le : ∀ n, (M.escapeState n).toNat ≤ (M.fieldsEscapeState n).toNat
  edges : ∀ n, ∀ e ∈ (g n).edges, e ≠ nullObj →
    PassedOn g M (M.escapeState n) (M.fieldsEscapeState n) ((g n).type = .javaObject) e

theorem EscapeMarking.Le.refl (M : EscapeMarking) : M.Le M :=
  ⟨fun _ => Nat.le_refl _, fun _ => Nat.le_refl _⟩

/-- Markings are compared state by state. -/
theorem EscapeMarking.Le.trans {M₁ M₂ M₃ : EscapeMarking} (h : M₁.Le M₂) (h' : M₂.Le M₃) :
    M₁.Le M₃ :=
  ⟨fun n => Nat.le_trans (h.escapeState n) (h'.escapeState n),
    fun n => Nat.le_trans (h.fieldsEscapeState n) (h'.fieldsEscapeState n)⟩

/-- States that are raised make a larger marking. -/
theorem StatesRaised.marking_le {g g' : Nodes} (h : StatesRaised g g') :
    (escapeMarking g).Le (escapeMarking g') :=
  ⟨h.escapeState, h.fieldsEscapeState⟩

/-! ## The loop in any order

The source takes the last node of the worklist. Here any node may be taken, so that a run of the
source is one of the runs, and what is shown of all runs does not depend on how the worklist is
kept. -/

/-- A turn of the loop, which may take any node off the worklist. -/
inductive Pops : EscapeWalk → EscapeWalk → Prop
  | pop (w : EscapeWalk) (before after : List ℕ) (ptn : ℕ) :
      w.stack = before ++ ptn :: after →
      Pops w (propagateNode { w with stack := before ++ after } ptn)

/-- The worklist the loop starts with, but for its order. -/
def IsEscapeStart (g : Nodes) (ptnodes stack : List ℕ) : Prop :=
  stack.Perm (ptnodes.filter fun ptn =>
    decide (EscapeState.argEscape.toNat ≤ (g ptn).escapeState.toNat) ||
      decide (EscapeState.argEscape.toNat ≤ (g ptn).fieldsEscapeState.toNat))

/-- What `find_non_escaped_objects` does after the loop. -/
def finishNonEscaped (nonEscaped : List ℕ) (w : EscapeWalk) : Nodes × List Use × List ℕ :=
  let w' := nonEscaped.reverse.foldl initUnknownObject w.toWalk
  (w'.graph, w'.worklist,
    nonEscaped.filter fun ptn => decide ((w.graph ptn).escapeState ≠ .globalEscape))

/-- An outcome of `find_non_escaped_objects` with some order of the worklist. -/
def NonEscapedOutcome (g : Nodes) (ptnodes nonEscaped : List ℕ)
    (outcome : Nodes × List Use × List ℕ) : Prop :=
  ∃ stack w, IsEscapeStart g ptnodes stack ∧
    Relation.ReflTransGen Pops ⟨⟨g, [], 0⟩, stack⟩ w ∧ w.stack = [] ∧
      outcome = finishNonEscaped nonEscaped w

/-! ## One edge

To pass on along an edge never raises a state beyond a closed marking that is above the states so
far. This is the half of the argument that gives the least marking. -/

/-- `set_fields_escape_state` raises nothing beyond a marking that has the state. -/
theorem setFieldsEscapeState_le {g : Nodes} {e : ℕ} {esc : EscapeState} {M : EscapeMarking}
    (hM : (escapeMarking g).Le M)
    (hesc : e ≠ nullObj → esc.toNat ≤ (M.fieldsEscapeState e).toNat) :
    (escapeMarking (setFieldsEscapeState g e esc)).Le M := by
  refine ⟨fun n => ?_, fun n => ?_⟩
  · simp only [escapeMarking, setFieldsEscapeState_apply]
    split
    · exact hM.escapeState n
    · exact hM.escapeState n
  · simp only [escapeMarking, setFieldsEscapeState_apply]
    split
    case isTrue h =>
      obtain ⟨rfl, hnull⟩ := h
      rw [EscapeState.toNat_max]
      exact Nat.max_le.2 ⟨hM.fieldsEscapeState n, hesc hnull⟩
    case isFalse => exact hM.fieldsEscapeState n

/-- Nor does `set_escape_state`, which raises both states of the node. -/
theorem setEscapeState_le {g : Nodes} {e : ℕ} {esc : EscapeState} {M : EscapeMarking}
    (hstate : ∀ n, (M.escapeState n).toNat ≤ (M.fieldsEscapeState n).toNat)
    (hM : (escapeMarking g).Le M) (hesc : e ≠ nullObj → esc.toNat ≤ (M.escapeState e).toNat) :
    (escapeMarking (setEscapeState g e esc)).Le M := by
  refine ⟨fun n => ?_, fun n => ?_⟩
  · simp only [escapeMarking, setEscapeState_apply]
    split
    case isTrue h =>
      obtain ⟨rfl, hnull⟩ := h
      rw [EscapeState.toNat_max]
      exact Nat.max_le.2 ⟨hM.escapeState n, hesc hnull⟩
    case isFalse => exact hM.escapeState n
  · simp only [escapeMarking, setEscapeState_apply]
    split
    case isTrue h =>
      obtain ⟨rfl, hnull⟩ := h
      rw [EscapeState.toNat_max]
      exact Nat.max_le.2 ⟨hM.fieldsEscapeState n, (hesc hnull).trans (hstate n)⟩
    case isFalse => exact hM.fieldsEscapeState n

/-- An edge raises no state beyond a marking that has what it passes on. -/
theorem propagateEscape_le {g : Nodes} {ptn e : ℕ} {es fieldEs : EscapeState} {M : EscapeMarking}
    (hstate : ∀ n, (M.escapeState n).toNat ≤ (M.fieldsEscapeState n).toNat)
    (hM : (escapeMarking g).Le M)
    (hpassed : e ≠ nullObj → PassedOn g M es fieldEs ((g ptn).type = .javaObject) e) :
    (escapeMarking (propagateEscape g ptn es fieldEs e).1).Le M := by
  have hfields : (escapeMarking (setFieldsEscapeState g e fieldEs)).Le M :=
    setFieldsEscapeState_le hM fun hnull => (hpassed hnull).fieldsEscapeState
  unfold propagateEscape
  by_cases hcopy : (g e).type = .arraycopy
  · rw [if_pos hcopy]
    split
    · exact hfields
    · exact hM
  rw [if_neg hcopy]
  split
  · split
    · exact setEscapeState_le hstate hM fun hnull => (hpassed hnull).escapeState hcopy
    · exact hM
  · split
    next g₁ changed heq =>
    have hg₁ : (escapeMarking g₁).Le M ∧ StatesRaised g g₁ := by
      split at heq
      · obtain ⟨rfl, -⟩ := Prod.mk.inj heq
        exact ⟨hfields, setFieldsEscapeState_raised g e fieldEs⟩
      · obtain ⟨rfl, -⟩ := Prod.mk.inj heq
        exact ⟨hM, StatesRaised.refl g⟩
    obtain ⟨hM₁, hraised⟩ := hg₁
    have htype : ∀ n, (g₁ n).type = (g n).type := fun n => hraised.same n _ fun _ => rfl
    have hoop : ∀ n, (g₁ n).isOop = (g n).isOop := fun n => hraised.same n _ fun _ => rfl
    split
    case isTrue h =>
      obtain ⟨-, hfield, hobject, hoop'⟩ := h
      rw [htype] at hfield hobject
      rw [hoop] at hoop'
      exact setEscapeState_le hstate hM₁ fun hnull => (hpassed hnull).oopField hfield hoop' hobject
    case isFalse =>
      split
      · exact setEscapeState_le hstate hM₁ fun hnull => (hpassed hnull).escapeState hcopy
      · exact hM₁

/-- A target that is pushed has got a higher state, unless it is the null object. -/
theorem propagateEscape_pushed {g : Nodes} {ptn e : ℕ} {es fieldEs : EscapeState}
    (hnull : e ≠ nullObj) (h : (propagateEscape g ptn es fieldEs e).2 = true) :
    (g e).escapeState.toNat + (g e).fieldsEscapeState.toNat <
      ((propagateEscape g ptn es fieldEs e).1 e).escapeState.toNat +
        ((propagateEscape g ptn es fieldEs e).1 e).fieldsEscapeState.toNat := by
  unfold propagateEscape at h ⊢
  by_cases hcopy : (g e).type = .arraycopy
  · rw [if_pos hcopy] at h ⊢
    split at h
    case isTrue hlt =>
      rw [if_pos hlt]
      simp only [setFieldsEscapeState_self hnull, EscapeState.toNat_max]
      omega
    case isFalse => cases h
  rw [if_neg hcopy] at h ⊢
  split at h
  case isTrue hle =>
    rw [if_pos hle]
    split at h
    case isTrue hlt =>
      rw [if_pos hlt]
      simp only [setEscapeState_self hnull, EscapeState.toNat_max]
      omega
    case isFalse => cases h
  case isFalse hle =>
    rw [if_neg hle]
    by_cases hlt : (g e).fieldsEscapeState.toNat < fieldEs.toNat
    · simp only [if_pos hlt] at h ⊢
      have hself := @setFieldsEscapeState_self g e fieldEs hnull
      split
      · simp only [setEscapeState_self hnull, hself, EscapeState.toNat_max]
        omega
      · split
        · simp only [setEscapeState_self hnull, hself, EscapeState.toNat_max]
          omega
        · simp only [hself, EscapeState.toNat_max]
          omega
    · simp only [if_neg hlt] at h ⊢
      split at h
      case isTrue hoop =>
        rw [if_pos hoop]
        simp only [setEscapeState_self hnull, EscapeState.toNat_max]
        omega
      case isFalse hoop =>
        rw [if_neg hoop]
        split at h
        case isTrue hes =>
          rw [if_pos hes]
          simp only [setEscapeState_self hnull, EscapeState.toNat_max]
          omega
        case isFalse => cases h

/-! ## One node

The edges of a node are gone through while the node itself may get a higher state, if it has an edge
to itself or gets an unknown value. The loop uses the states that it has read at the beginning; it
is pushed again if they were raised, and the measure accounts for that. -/

/-- Only escaping oop fields have got an edge, to the phantom object. -/
structure PhantomEdges (g g' : Nodes) : Prop where
  grown : Extends g g'
  fieldsEscapeState : ∀ n, (g n).fieldsEscapeState.toNat ≤ (g' n).fieldsEscapeState.toNat
  rest : ∀ n, (g' n).withoutEdges.withoutStates = (g n).withoutEdges.withoutStates
  edges : ∀ n, ∀ e ∈ (g' n).edges, e ∈ (g n).edges ∨ e = phantomObj ∧ (g n).type = .field ∧
    (g n).isOop = true ∧ EscapeState.argEscape.toNat ≤ (g' n).escapeState.toNat

theorem PhantomEdges.refl (g : Nodes) : PhantomEdges g g :=
  ⟨Extends.refl g, fun _ => Nat.le_refl _, fun _ => rfl, fun _ _ he => .inl he⟩

/-- Edges to the unknown object that are added in several steps. -/
theorem PhantomEdges.trans {g₁ g₂ g₃ : Nodes} (h : PhantomEdges g₁ g₂) (h' : PhantomEdges g₂ g₃) :
    PhantomEdges g₁ g₃ where
  grown := h.grown.trans h'.grown
  fieldsEscapeState n := (h.fieldsEscapeState n).trans (h'.fieldsEscapeState n)
  rest n := (h'.rest n).trans (h.rest n)
  edges n e he := by
    rcases h'.edges n e he with he | ⟨rfl, htype, hoop, hescape⟩
    · rcases h.edges n e he with he | ⟨rfl, htype, hoop, hescape⟩
      · exact .inl he
      · exact .inr ⟨rfl, htype, hoop, hescape.trans (h'.grown.escapeState n)⟩
    · rw [h.grown.type] at htype
      rw [h.grown.isOop] at hoop
      exact .inr ⟨rfl, htype, hoop, hescape⟩

/-- The unknown object has escaped from the start, so such an edge raises nothing. -/
theorem PhantomEdges.marking_le {g g' : Nodes} (h : PhantomEdges g g') :
    (escapeMarking g).Le (escapeMarking g') :=
  ⟨h.grown.escapeState, h.fieldsEscapeState⟩

/-- A run without new edges is a case of this. -/
theorem StatesRaised.phantomEdges {g g' : Nodes} (h : StatesRaised g g') : PhantomEdges g g' where
  grown := h.extends
  fieldsEscapeState := h.fieldsEscapeState
  rest n := congrArg PointsToNode.withoutEdges (h.rest n)
  edges n e he := by
    rw [h.same n PointsToNode.edges fun _ => rfl] at he
    exact .inl he

/-- To add the unknown values of an object that comes from elsewhere adds such edges only. -/
theorem addUnknownValue_phantomEdges {w : EscapeWalk} (hw : WellFormed w.graph) (ptn : ℕ) :
    PhantomEdges w.graph (addUnknownValue w ptn).graph := by
  unfold addUnknownValue
  split
  case isFalse => exact PhantomEdges.refl _
  case isTrue hfield =>
    obtain ⟨-, heq⟩ | ⟨g, hadd, heq⟩ := addFieldValue_cases hw phantomObj hfield.1
    · rw [heq]
      exact PhantomEdges.refl _
    · rw [heq]
      refine ⟨hadd.extends, fun n => (congrArg _ (hadd.fieldsEscapeState n)).ge,
        fun n => congrArg PointsToNode.withoutStates (hadd.rest n), fun n e he => ?_⟩
      rcases (hadd.mem_edges n e).1 he with he | ⟨rfl, rfl⟩
      · exact .inl he
      · refine .inr ⟨rfl, hfield.1, hfield.2.1, ?_⟩
        rw [hadd.escapeState]
        exact hfield.2.2

/-- It leaves all states. -/
theorem addUnknownValue_escapeMarking {w : EscapeWalk} (hw : Walkable w.toWalk) (ptn : ℕ) :
    escapeMarking (addUnknownValue w ptn).graph = escapeMarking w.graph := by
  obtain ⟨-, -, -, hstates, -⟩ := addUnknownValue_run ptn hw
  rw [escapeMarking, escapeMarking]
  congr 1
  · exact funext fun n => (hstates n).1
  · exact funext fun n => (hstates n).2

/-- What the states of the listed nodes can still rise by. -/
def potential (ptnodes : List ℕ) (g : Nodes) : ℕ :=
  ∑ n ∈ ptnodes.toFinset, (6 - ((g n).escapeState.toNat + (g n).fieldsEscapeState.toNat))

/-- How far the states can still be raised, which only gets less. -/
theorem potential_le (ptnodes : List ℕ) {g g' : Nodes}
    (h : (escapeMarking g).Le (escapeMarking g')) : potential ptnodes g' ≤ potential ptnodes g := by
  refine Finset.sum_le_sum fun n _ => ?_
  have hes := h.escapeState n
  have hfes := h.fieldsEscapeState n
  simp only [escapeMarking] at hes hfes
  omega

/-- It gets less with each state that is raised. -/
theorem potential_lt {ptnodes : List ℕ} {g g' : Nodes} (h : (escapeMarking g).Le (escapeMarking g'))
    {e : ℕ} (he : e ∈ ptnodes) (hlt : (g e).escapeState.toNat + (g e).fieldsEscapeState.toNat <
      (g' e).escapeState.toNat + (g' e).fieldsEscapeState.toNat) :
    potential ptnodes g' < potential ptnodes g := by
  refine Finset.sum_lt_sum (fun n _ => ?_) ⟨e, List.mem_toFinset.2 he, ?_⟩
  · have hes := h.escapeState n
    have hfes := h.fieldsEscapeState n
    simp only [escapeMarking] at hes hfes
    omega
  · have hes := (g' e).escapeState.toNat_le
    have hfes := (g' e).fieldsEscapeState.toNat_le
    omega

/-- The list has the nodes that the loop can come to. -/
structure Visits (visited : List ℕ) (g : Nodes) : Prop where
  phantom : phantomObj ∈ visited
  edges : ∀ n ∈ visited, ∀ e ∈ (g n).edges, e ∈ visited

/-- Where the loop over the edges of a node has got to, from `w₁` on. -/
structure NodeInv (visited : List ℕ) (M : EscapeMarking) (w₁ w : EscapeWalk) : Prop where
  wellFormed : WellFormed w.graph
  raised : StatesRaised w₁.graph w.graph
  marking_le : (escapeMarking w₁.graph).Le M → (escapeMarking w.graph).Le M
  stack : ∃ pushed, w.stack = pushed ++ w₁.stack ∧ (∀ e ∈ pushed, e ∈ visited) ∧
    (potential visited w.graph < potential visited w₁.graph ∨ ∀ e ∈ pushed, e = nullObj)

/-- The invariant of the loop over the edges of one node. The first part compares the states with a
marking that is closed, the second counts. -/
theorem NodeInv.propagateEdge {visited : List ℕ} {M : EscapeMarking} {w₁ w : EscapeWalk}
    (h : NodeInv visited M w₁ w) {ptn e : ℕ} {es fieldEs : EscapeState}
    (he : e ∈ visited)
    (hstate : ∀ n, (M.escapeState n).toNat ≤ (M.fieldsEscapeState n).toNat)
    (hpassed : (escapeMarking w₁.graph).Le M → e ≠ nullObj →
      PassedOn w₁.graph M es fieldEs ((w₁.graph ptn).type = .javaObject) e) :
    NodeInv visited M w₁ (propagateEdge ptn es fieldEs w e) := by
  rw [propagateEdge_eq]
  have hp := propagateEscape_propagated ptn e es fieldEs h.wellFormed.state_le
  have htype : ∀ n, (w.graph n).type = (w₁.graph n).type := fun n => h.raised.same n _ fun _ => rfl
  have hoop : ∀ n, (w.graph n).isOop = (w₁.graph n).isOop := fun n => h.raised.same n _ fun _ => rfl
  obtain ⟨pushed, hstack, hvisited, hpushed⟩ := h.stack
  refine ⟨h.wellFormed.statesRaised hp.raised hp.state_le, h.raised.trans hp.raised, fun hM => ?_,
    ?_⟩
  · refine propagateEscape_le hstate (h.marking_le hM) fun hnull => ?_
    obtain ⟨h₁, h₂, h₃⟩ := hpassed hM hnull
    refine ⟨?_, h₂, ?_⟩
    · rwa [htype]
    · rwa [htype, hoop, htype]
  · cases hpush : (propagateEscape w.graph ptn es fieldEs e).2 with
    | false =>
      refine ⟨pushed, hstack, hvisited, ?_⟩
      rw [hp.same hpush]
      exact hpushed
    | true =>
      refine ⟨e :: pushed, by simp [hstack], List.forall_mem_cons.2 ⟨he, hvisited⟩, ?_⟩
      have hle := potential_le visited hp.raised.marking_le
      by_cases hnull : e = nullObj
      · refine hpushed.imp (fun hlt => hle.trans_lt hlt) fun hall => ?_
        exact List.forall_mem_cons.2 ⟨hnull, hall⟩
      · have hlt := propagateEscape_pushed hnull hpush
        have hle₁ := potential_le visited h.raised.marking_le
        exact .inl ((potential_lt hp.raised.marking_le he hlt).trans_le hle₁)

/-- A closed marking above the graph's has what the edges of a node pass on. -/
theorem passedOn_of_closed {g g₁ : Nodes} {M : EscapeMarking} (hgrown : PhantomEdges g g₁)
    (hg₁ : WellFormed g₁) (hclosed : ClosedMarking g M) (hM : (escapeMarking g₁).Le M) {ptn e : ℕ}
    (he : e ∈ (g₁ ptn).edges) (hnull : e ≠ nullObj) :
    PassedOn g₁ M (g₁ ptn).escapeState (g₁ ptn).fieldsEscapeState
      ((g₁ ptn).type = .javaObject) e := by
  rcases hgrown.edges ptn e he with he | ⟨rfl, -⟩
  · obtain ⟨h₁, h₂, h₃⟩ := hclosed.edges ptn e he hnull
    rw [← hgrown.grown.type e] at h₁ h₃
    rw [← hgrown.grown.type ptn, ← hgrown.grown.isOop e] at h₃
    exact ⟨fun hty => (hM.escapeState ptn).trans (h₁ hty), (hM.fieldsEscapeState ptn).trans h₂,
      fun hty hoop hobject => (hM.fieldsEscapeState ptn).trans (h₃ hty hoop hobject)⟩
  · obtain ⟨hes, hfes⟩ := hg₁.phantom_escapes
    have hM₁ := hM.escapeState phantomObj
    have hM₂ := hM.fieldsEscapeState phantomObj
    simp only [escapeMarking, hes, hfes] at hM₁ hM₂
    have hle (es : EscapeState) : es.toNat ≤ EscapeState.globalEscape.toNat := es.toNat_le
    exact ⟨fun _ => (hle _).trans hM₁, (hle _).trans hM₂, fun _ _ _ => (hle _).trans hM₁⟩

/-- A turn of the loop for the node `ptn`. -/
theorem propagateNode_inv {visited : List ℕ} {g : Nodes} (w : EscapeWalk) (ptn : ℕ)
    (hw : Walkable w.toWalk) (hgrown : PhantomEdges g w.graph)
    (hvisits : Visits visited g) (hptn : ptn ∈ visited) :
    PhantomEdges w.graph (propagateNode w ptn).graph ∧
      (∀ M, ClosedMarking g M → (escapeMarking w.graph).Le M →
        (escapeMarking (propagateNode w ptn).graph).Le M) ∧
      ∃ pushed, (propagateNode w ptn).stack = pushed ++ w.stack ∧ (∀ e ∈ pushed, e ∈ visited) ∧
        (potential visited (propagateNode w ptn).graph < potential visited w.graph ∨
          ∀ e ∈ pushed, e = nullObj) ∧ (ptn = nullObj → pushed = []) := by
  obtain ⟨-, hwalk₁, hstack, -, -⟩ := addUnknownValue_run ptn hw
  have hphantom := addUnknownValue_phantomEdges hw.wellFormed ptn
  have hmarking := addUnknownValue_escapeMarking hw ptn
  have hes : (w.graph ptn).escapeState = ((addUnknownValue w ptn).graph ptn).escapeState :=
    congrFun (congrArg EscapeMarking.escapeState hmarking.symm) ptn
  have hfes : (w.graph ptn).fieldsEscapeState =
      ((addUnknownValue w ptn).graph ptn).fieldsEscapeState :=
    congrFun (congrArg EscapeMarking.fieldsEscapeState hmarking.symm) ptn
  have hpotential : potential visited (addUnknownValue w ptn).graph = potential visited w.graph :=
    Nat.le_antisymm (potential_le visited (hmarking ▸ EscapeMarking.Le.refl _))
      (potential_le visited (hmarking ▸ EscapeMarking.Le.refl _))
  unfold propagateNode
  simp only
  rw [hes, hfes, ← hmarking, ← hpotential, ← hstack]
  generalize addUnknownValue w ptn = w₁ at *
  have hgrown₁ := hgrown.trans hphantom
  have hinv (M : EscapeMarking) (hclosed : (∀ n, (M.escapeState n).toNat ≤
      (M.fieldsEscapeState n).toNat) ∧ ((escapeMarking w₁.graph).Le M → ClosedMarking g M)) :
      NodeInv visited M w₁ ((w₁.graph ptn).edges.foldl
        (propagateEdge ptn (w₁.graph ptn).escapeState (w₁.graph ptn).fieldsEscapeState) w₁) := by
    refine Loops.invariant (P := NodeInv visited M w₁) _
      ⟨hwalk₁.wellFormed, StatesRaised.refl _, id, [], rfl, fun e he => absurd he List.not_mem_nil,
        .inr fun e he => absurd he List.not_mem_nil⟩ fun w' e he hw' =>
          hw'.propagateEdge ?_ hclosed.1 fun hM hnull =>
            passedOn_of_closed hgrown₁ hwalk₁.wellFormed (hclosed.2 hM) hM he hnull
    obtain hold | ⟨rfl, -⟩ := hgrown₁.edges ptn e he
    · exact hvisits.edges ptn hptn e hold
    · exact hvisits.phantom
  -- the marking of all nodes as escaping globally
  have htop := hinv ⟨fun _ => .globalEscape, fun _ => .globalEscape⟩ ⟨fun _ => Nat.le_refl _,
    fun _ => ⟨fun _ => Nat.le_refl _, fun n e _ _ => ⟨fun _ => EscapeState.toNat_le _,
      EscapeState.toNat_le _, fun _ _ _ => EscapeState.toNat_le _⟩⟩⟩
  refine ⟨hphantom.trans htop.raised.phantomEdges, fun M hclosed hM =>
    (hinv M ⟨hclosed.state_le, fun _ => hclosed⟩).marking_le hM, ?_⟩
  obtain ⟨pushed, heq, hvisited, hpushed⟩ := htop.stack
  refine ⟨pushed, heq, hvisited, hpushed, ?_⟩
  rintro rfl
  rw [hwalk₁.wellFormed.null_edges] at heq
  exact List.append_cancel_right (show pushed ++ w₁.stack = [] ++ w₁.stack from heq.symm)

/-! ## Runs

Each turn raises a state or shortens the worklist, and there are finitely many states for finitely
many nodes. So every order comes to an end, and at the end all that was waited for is settled. -/

/-- What the loop keeps, from the graph `g` on, which it settles along the edges `E`. -/
structure LoopInv (E : ℕ → List ℕ) (visited : List ℕ) (g : Nodes) (w : EscapeWalk) : Prop where
  walkable : Walkable w.toWalk
  grown : PhantomEdges g w.graph
  marking_le : ∀ M, ClosedMarking g M → (escapeMarking g).Le M → (escapeMarking w.graph).Le M
  run : EscapeRun g w.graph
  visited : ∀ n ∈ w.stack, n ∈ visited
  waiting : WaitingOn E w.graph w.stack

/-- A measure of what is left to do: no node but the null object is pushed for nothing, and
the null object pushes no node. -/
def popMeasure (visited : List ℕ) (w : EscapeWalk) : ℕ × ℕ × ℕ :=
  (potential visited w.graph, (w.stack.filter fun n => decide (n ≠ nullObj)).length,
    w.stack.length)

section

variable {E : ℕ → List ℕ} {visited : List ℕ} {g : Nodes} {w w' : EscapeWalk}

/-- A node that is taken off the worklist can be come to. -/
theorem LoopInv.mem_visited (h : LoopInv E visited g w) {before after : List ℕ} {ptn : ℕ}
    (hstack : w.stack = before ++ ptn :: after) : ptn ∈ visited := by
  refine h.visited ptn ?_
  rw [hstack]
  exact List.mem_append_right before List.mem_cons_self

/-- The invariant of the loop over the stack, for one node that is taken from it. -/
theorem LoopInv.pops (h : LoopInv E visited g w) (hE : ∀ n, E n ⊆ (g n).edges)
    (hvisits : Visits visited g) (hpops : Pops w w') : LoopInv E visited g w' := by
  obtain @⟨before, after, ptn, hstack⟩ := hpops
  have hwait : WaitingOn E w.graph (ptn :: (before ++ after)) := by
    intro n hescape
    refine (h.waiting n hescape).imp_left fun hmem => ?_
    rw [hstack] at hmem
    simp only [List.mem_append, List.mem_cons] at hmem ⊢
    tauto
  have hEptn : E ptn ⊆ (w.graph ptn).edges := List.Subset.trans (hE ptn) (h.run.extends.edges ptn)
  obtain ⟨hrun, hwalk, hwait'⟩ :=
    propagateNode_waitingOn (w := { w with stack := before ++ after }) h.walkable hEptn hwait rfl
  obtain ⟨hgrown, hle, pushed, hpush, hvisited, -⟩ := propagateNode_inv
    { w with stack := before ++ after } ptn h.walkable h.grown hvisits (h.mem_visited hstack)
  refine ⟨hwalk, h.grown.trans hgrown,
    fun M hclosed hM => hle M hclosed (h.marking_le M hclosed hM),
    Relation.ReflTransGen.trans h.run hrun, fun n hn => ?_, hwait'⟩
  rw [hpush] at hn
  rcases List.mem_append.1 hn with hn | hn
  · exact hvisited n hn
  · refine h.visited n ?_
    rw [hstack]
    rcases List.mem_append.1 hn with hn | hn
    · exact List.mem_append_left _ hn
    · exact List.mem_append_right _ (List.mem_cons_of_mem _ hn)

/-- Either a state is raised or the stack gets shorter, so the loop ends in every order. -/
theorem LoopInv.popMeasure_lt (h : LoopInv E visited g w) (hvisits : Visits visited g)
    (hpops : Pops w w') :
    Prod.Lex (· < ·) (Prod.Lex (· < ·) (· < ·)) (popMeasure visited w') (popMeasure visited w) := by
  obtain @⟨before, after, ptn, hstack⟩ := hpops
  obtain ⟨hgrown, -, pushed, hpush, -, hpushed, hnull⟩ := propagateNode_inv
    { w with stack := before ++ after } ptn h.walkable h.grown hvisits (h.mem_visited hstack)
  have hcount : (w.stack.filter fun n => decide (n ≠ nullObj)).length =
      ((before ++ after).filter fun n => decide (n ≠ nullObj)).length +
        if ptn = nullObj then 0 else 1 := by
    rw [hstack]
    by_cases hptn : ptn = nullObj
    · simp [hptn]
    · simp [hptn]
      omega
  have hpotential := potential_le visited hgrown.marking_le
  rw [popMeasure, popMeasure, hpush]
  rcases hpushed with hlt | hall
  · exact .left _ _ hlt
  rcases hpotential.lt_or_eq with hlt | heq
  · exact .left _ _ hlt
  have hnulls : (pushed.filter fun n => decide (n ≠ nullObj)) = [] := by
    rw [List.filter_eq_nil_iff]
    intro e he
    simp [hall e he]
  rw [heq, hcount, List.filter_append, hnulls, List.nil_append]
  refine .right _ ?_
  by_cases hptn : ptn = nullObj
  · rw [hnull hptn, if_pos hptn, hstack]
    refine .right _ ?_
    simp
  · rw [if_neg hptn]
    exact .left _ _ (Nat.lt_succ_self _)

/-- The invariant after any number of turns. -/
theorem LoopInv.reflTransGen (h : LoopInv E visited g w) (hE : ∀ n, E n ⊆ (g n).edges)
    (hvisits : Visits visited g) (hrun : Relation.ReflTransGen Pops w w') :
    LoopInv E visited g w' := by
  induction hrun with
  | refl => exact h
  | tail _ hpops ih => exact ih.pops hE hvisits hpops

/-- Every order of the worklist comes to an end. -/
theorem LoopInv.acc (h : LoopInv E visited g w) (hE : ∀ n, E n ⊆ (g n).edges)
    (hvisits : Visits visited g) :
    Acc (fun w' w => Pops w w') w := by
  have hwf : WellFounded (Prod.Lex (· < ·) (Prod.Lex (· < ·) (· < ·)) : ℕ × ℕ × ℕ → _ → Prop) :=
    WellFounded.prod_lex Nat.lt_wfRel.wf (WellFounded.prod_lex Nat.lt_wfRel.wf Nat.lt_wfRel.wf)
  induction hm : popMeasure visited w using hwf.induction generalizing w with
  | _ m ih =>
    subst hm
    exact .intro w fun w' hpops =>
      ih _ (h.popMeasure_lt hvisits hpops) (h.pops hE hvisits hpops) rfl

/-- The order of the source, which takes the last node. -/
theorem propagateStack_pops {fuel : ℕ} (h : propagateStack fuel w = some w') :
    Relation.ReflTransGen Pops w w' ∧ w'.stack = [] := by
  induction fuel generalizing w with
  | zero => cases h
  | succ fuel ih =>
    rw [propagateStack] at h
    split at h
    case h_1 hstack =>
      obtain rfl := Option.some.inj h
      exact ⟨.refl, hstack⟩
    case h_2 ptn rest hstack =>
      obtain ⟨hrun, hdone⟩ := ih h
      exact ⟨.head (.pop w [] rest ptn hstack) hrun, hdone⟩

/-- Where no run goes on for ever, enough fuel gives the result. -/
theorem propagateStack_returns (h : Acc (fun w' w => Pops w w') w) :
    ∃ n, ∀ fuel, n < fuel → ∃ w', propagateStack fuel w = some w' := by
  induction h with
  | intro w _ ih =>
    cases hstack : w.stack with
    | nil =>
      refine ⟨0, fun fuel hfuel => ⟨w, ?_⟩⟩
      obtain ⟨fuel, rfl⟩ := Nat.exists_eq_add_of_lt hfuel
      rw [propagateStack, hstack]
    | cons ptn rest =>
      obtain ⟨n, hn⟩ := ih _ (.pop w [] rest ptn hstack)
      refine ⟨n + 1, fun fuel hfuel => ?_⟩
      obtain ⟨fuel, rfl⟩ : ∃ k, fuel = k + 1 := ⟨fuel - 1, by omega⟩
      obtain ⟨w', hw'⟩ := hn fuel (by omega)
      exact ⟨w', by rw [propagateStack, hstack]; exact hw'⟩

end

/-! ## The end of the loop

With an empty worklist the marking is closed, and it is below every closed marking above the first
one. Two orders give two least markings, which are equal. -/

/-- The states of a graph are the least closed marking above those of the initial graph. -/
structure LeastEscape (g g' : Nodes) : Prop where
  above : (escapeMarking g).Le (escapeMarking g')
  closed : ClosedMarking g' (escapeMarking g')
  least : ∀ M, ClosedMarking g M → (escapeMarking g).Le M → (escapeMarking g').Le M
  /-- an escaping oop field has an unknown value -/
  unknown : ∀ f, (g' f).type = .field → (g' f).isOop = true →
    EscapeState.argEscape.toNat ≤ (g' f).escapeState.toNat → phantomObj ∈ (g' f).edges

/-- Two graphs with the same escape states and edges. -/
structure SameEscape (g g' : Nodes) : Prop where
  escapeState : ∀ n, (g n).escapeState = (g' n).escapeState
  fieldsEscapeState : ∀ n, (g n).fieldsEscapeState = (g' n).fieldsEscapeState
  edges : ∀ n e, e ∈ (g n).edges ↔ e ∈ (g' n).edges

/-- Markings that are each below the other are the same. -/
theorem EscapeMarking.Le.antisymm {g g' : Nodes} (h : (escapeMarking g).Le (escapeMarking g'))
    (h' : (escapeMarking g').Le (escapeMarking g)) (n : ℕ) :
    (g n).escapeState = (g' n).escapeState ∧ (g n).fieldsEscapeState = (g' n).fieldsEscapeState :=
  ⟨EscapeState.toNat_inj (Nat.le_antisymm (h.escapeState n) (h'.escapeState n)),
    EscapeState.toNat_inj (Nat.le_antisymm (h.fieldsEscapeState n) (h'.fieldsEscapeState n))⟩

section

variable {E : ℕ → List ℕ} {visited : List ℕ} {g₀ g : Nodes} {w : EscapeWalk}

/-- Fewer edges are settled if more are. -/
theorem SettledOn.mono {F : ℕ → List ℕ} {n : ℕ} (h : SettledOn F g n) (hEF : E n ⊆ F n) :
    SettledOn E g n :=
  ⟨h.phantom, fun e he => h.edges e (hEF he)⟩

/-- An empty worklist leaves the graph closed, if the loop has settled the first sources of
arraycopies and all edges of other nodes. -/
theorem LoopInv.escapeClosed (h : LoopInv E visited g w) (hsourced : Sourced g₀ g)
    (hE : ∀ n, settledEdges g₀ g n ⊆ E n) (hdone : w.stack = []) : EscapeClosed w.graph := by
  have hg := h.walkable.wellFormed
  obtain ⟨hsettled, hcopies⟩ := escapeSettled_of_settledOn hg h.run fun n hescape => by
    have hwait := h.waiting n hescape
    rw [hdone] at hwait
    exact (hwait.resolve_left List.not_mem_nil).mono (hE n)
  exact hsettled.escapeClosed hg hcopies (h.run.sourced hsourced)

/-- A graph that is closed has a closed marking. -/
theorem LoopInv.leastEscape (h : LoopInv E visited g w) (hknown : ∀ n, (g n).escapeState ≠ .unknown)
    (hsettled : EscapeClosed w.graph) : LeastEscape g w.graph := by
  have hstate := h.walkable.wellFormed.state_le
  have hno (e : ℕ) : EscapeState.noEscape.toNat ≤ (w.graph e).escapeState.toNat := by
    refine le_trans ?_ (h.grown.grown.escapeState e)
    have := hknown e
    generalize (g e).escapeState = es at this ⊢
    cases es with
    | unknown => exact absurd rfl this
    | noEscape => decide
    | argEscape => decide
    | globalEscape => decide
  refine ⟨h.grown.marking_le, ⟨hstate, fun n e he hnull => ?_⟩, h.marking_le, ?_⟩
  · by_cases hescape : Escaping w.graph n
    · obtain ⟨h₁, h₂, h₃⟩ := (hsettled n hescape).edges e he hnull
      exact ⟨h₁, h₂, h₃⟩
    · -- nothing escapes from `n`
      rw [Escaping, not_le] at hescape
      have hle : (w.graph n).fieldsEscapeState.toNat ≤ EscapeState.noEscape.toNat :=
        Nat.le_of_lt_succ hescape
      exact ⟨fun _ => ((hstate n).trans hle).trans (hno e), (hle.trans (hno e)).trans (hstate e),
        fun _ _ _ => hle.trans (hno e)⟩
  · intro f htype hoop hescape
    exact (hsettled f (hescape.trans (hstate f))).phantom htype hoop hescape

/-- A marking that is closed under more edges is closed under fewer. -/
theorem PhantomEdges.closedMarking {g' : Nodes} {M : EscapeMarking} (h : PhantomEdges g g')
    (hclosed : ClosedMarking g' M) : ClosedMarking g M := by
  refine ⟨hclosed.state_le, fun n e he hnull => ?_⟩
  obtain ⟨h₁, h₂, h₃⟩ := hclosed.edges n e (h.grown.edges n he) hnull
  rw [h.grown.type] at h₁ h₃
  rw [h.grown.type, h.grown.isOop] at h₃
  exact ⟨h₁, h₂, h₃⟩

/-- The edges at the end of the loop. -/
theorem LoopInv.mem_edges (h : LoopInv E visited g w) (hleast : LeastEscape g w.graph) (n e : ℕ) :
    e ∈ (w.graph n).edges ↔ e ∈ (g n).edges ∨ e = phantomObj ∧ (g n).type = .field ∧
      (g n).isOop = true ∧ EscapeState.argEscape.toNat ≤ (w.graph n).escapeState.toNat := by
  refine ⟨h.grown.edges n e, ?_⟩
  rintro (he | ⟨rfl, htype, hoop, hescape⟩)
  · exact h.grown.grown.edges n he
  · rw [← h.grown.grown.type] at htype
    rw [← h.grown.grown.isOop] at hoop
    exact hleast.unknown n htype hoop hescape

/-- Two orders end alike. -/
theorem LoopInv.same {w' : EscapeWalk} (h : LoopInv E visited g w) (h' : LoopInv E visited g w')
    (hleast : LeastEscape g w.graph) (hleast' : LeastEscape g w'.graph) :
    SameEscape w.graph w'.graph := by
  have hstates := (hleast.least _ (h'.grown.closedMarking hleast'.closed) hleast'.above).antisymm
    (hleast'.least _ (h.grown.closedMarking hleast.closed) hleast.above)
  refine ⟨fun n => (hstates n).1, fun n => (hstates n).2, fun n e => ?_⟩
  rw [h.mem_edges hleast, h'.mem_edges hleast', (hstates n).1]

end

/-! ## The whole

The claims of the sections before, for `find_non_escaped_objects` with its own order: the list
starts with the nodes that have escaped, and the last one is taken first. -/

/-- A graph for which `find_non_escaped_objects` is called, which has grown from `g₀`. Arraycopies
need not be listed if what they copy from has been told at first. -/
structure EscapeReady (g₀ g : Nodes) (ptnodes nonEscaped : List ℕ) : Prop where
  wellFormed : WellFormed g
  known : ∀ n, (g n).escapeState ≠ .unknown
  listed : ∀ n e, e ∈ (g n).edges → e ∈ ptnodes ∨ (g e).type = .arraycopy
  escaping : ∀ n, Escaping g n → n ∈ ptnodes ∨ (g n).type = .arraycopy
  objects : ∀ n ∈ nonEscaped, (g n).type = .javaObject
  grown : Extends g₀ g
  copies : ∀ ac, ac ∉ ptnodes → (g ac).type = .arraycopy → Escaping g ac →
    ∀ s ∈ (g₀ ac).edges, s ≠ nullObj →
      EdgeSettled g (g ac).escapeState (g ac).fieldsEscapeState False s
  sourced : Sourced g₀ g

/-- Every graph that the completion calls `find_non_escaped_objects` for. -/
theorem Completing.escapeReady {W : Worklists} {g₀ g : Nodes} {nonEscaped : List ℕ}
    (h : Completing W g₀ g) (hlists : ListsNonEscaped g nonEscaped)
    (hknown : ∀ n, (g₀ n).escapeState ≠ .unknown) : EscapeReady g₀ g W.ptnodes nonEscaped where
  wellFormed := h.wellFormed
  known n hunknown := by
    have hle := h.grown.escapeState n
    rw [hunknown] at hle
    exact hknown n (EscapeState.toNat_inj (Nat.le_antisymm hle (Nat.zero_le _)))
  listed n e he := or_iff_not_imp_right.2 (h.enlisted.targets n e he)
  escaping n hescape := or_iff_not_imp_right.2 fun hty => h.enlisted.escaping n hty hescape
  objects n hn := (hlists.candidate n hn).1
  grown := h.grown
  copies ac _ := h.copies ac
  sourced := h.sourced

section

variable {g₀ g : Nodes} {ptnodes nonEscaped : List ℕ}

/-- The edges that are settled for the nodes of the list, and for others. -/
def readyEdges (g₀ g : Nodes) (ptnodes : List ℕ) (n : ℕ) : List ℕ :=
  if n ∈ ptnodes then (g n).edges else settledEdges g₀ g n

/-- The nodes of the list, and the arraycopies that they have edges to. -/
def visitedNodes (g : Nodes) (ptnodes : List ℕ) : List ℕ :=
  ptnodes ++ ptnodes.flatMap fun n => (g n).edges

/-- The edges that are looked at are edges of the graph. -/
theorem EscapeReady.readyEdges_subset (h : EscapeReady g₀ g ptnodes nonEscaped) (n : ℕ) :
    readyEdges g₀ g ptnodes n ⊆ (g n).edges := by
  unfold readyEdges
  split
  · exact List.Subset.refl _
  · exact settledEdges_subset h.grown n

/-- Those that have to be settled are looked at. -/
theorem EscapeReady.settledEdges_subset (h : EscapeReady g₀ g ptnodes nonEscaped) (n : ℕ) :
    settledEdges g₀ g n ⊆ readyEdges g₀ g ptnodes n := by
  unfold readyEdges
  split
  · exact StackAllocation.settledEdges_subset h.grown n
  · exact List.Subset.refl _

/-- Only nodes of the list have edges to arraycopies, so the loop comes to no others. -/
theorem EscapeReady.visits (h : EscapeReady g₀ g ptnodes nonEscaped) :
    Visits (visitedNodes g ptnodes) g where
  phantom := by
    refine List.mem_append_left _ ((h.escaping phantomObj ?_).resolve_right fun hty => ?_)
    · rw [Escaping, h.wellFormed.phantom_escapes.2]
      decide
    · exact absurd (h.wellFormed.phantom_type.symm.trans hty) (by decide)
  edges n hn e he := by
    rcases h.listed n e he with hmem | hcopy
    · exact List.mem_append_left _ hmem
    · have hnode : (g n).type ≠ .arraycopy := by
        intro hty
        rcases h.wellFormed.arraycopy_dst_type n e hcopy he with h | h <;>
          exact absurd (hty.symm.trans h) (by decide)
      have hlist : n ∈ ptnodes := by
        rcases List.mem_append.1 hn with hn | hn
        · exact hn
        · obtain ⟨m, -, hmem⟩ := List.mem_flatMap.1 hn
          exact (h.listed m n hmem).resolve_right hnode
      exact List.mem_append_right _ (List.mem_flatMap.2 ⟨n, hlist, he⟩)

/-- The invariant holds before the first turn: what has escaped is on the stack. -/
theorem EscapeReady.loopInv_start (h : EscapeReady g₀ g ptnodes nonEscaped) {stack : List ℕ}
    (hstart : IsEscapeStart g ptnodes stack) :
    LoopInv (readyEdges g₀ g ptnodes) (visitedNodes g ptnodes) g ⟨⟨g, [], 0⟩, stack⟩ where
  walkable := ⟨h.wellFormed, fun u hu => absurd hu List.not_mem_nil⟩
  grown := PhantomEdges.refl g
  marking_le := fun _ _ hM => hM
  run := Relation.ReflTransGen.refl
  visited := fun n hn => List.mem_append_left _ (List.mem_filter.1 (hstart.mem_iff.1 hn)).1
  waiting := fun n hescape => by
    by_cases hmem : n ∈ ptnodes
    · refine .inl (hstart.mem_iff.2 ?_)
      simp only [List.mem_filter, Bool.or_eq_true, decide_eq_true_eq]
      exact ⟨hmem, .inr hescape⟩
    · -- an arraycopy that is not listed has told its first sources
      have hcopy := (h.escaping n hescape).resolve_left hmem
      refine .inr ⟨fun hty => absurd (hcopy.symm.trans hty) (by decide), fun e he hnull => ?_⟩
      rw [readyEdges, if_neg hmem, settledEdges, if_pos hcopy] at he
      obtain ⟨hes, hfields, -⟩ := h.copies n hmem hcopy hescape e he hnull
      exact ⟨hes, hfields, fun _ _ hjava => absurd (hcopy.symm.trans hjava) (by decide)⟩

/-- Unknown values that are added afterwards leave the least marking the least. -/
theorem UnknownAdded.leastEscape {P : ℕ → Prop} {g' g'' : Nodes} (hg' : WellFormed g')
    (hleast : LeastEscape g g') (hadd : UnknownAdded P g' g'') : LeastEscape g g'' := by
  have hmarking : escapeMarking g'' = escapeMarking g' := by
    rw [escapeMarking, escapeMarking]
    congr 1
    · exact funext fun n => hadd.same n PointsToNode.escapeState fun _ => rfl
    · exact funext fun n => hadd.same n PointsToNode.fieldsEscapeState fun _ => rfl
  refine ⟨hmarking ▸ hleast.above, ⟨?_, ?_⟩, hmarking ▸ hleast.least, ?_⟩
  · rw [hmarking]
    exact hleast.closed.state_le
  · intro n e he hnull
    rw [hmarking, hadd.same n PointsToNode.type fun _ => rfl]
    rcases (hadd.edges n e).1 he with he | ⟨rfl, -⟩
    · obtain ⟨h₁, h₂, h₃⟩ := hleast.closed.edges n e he hnull
      rw [← hadd.same e PointsToNode.type fun _ => rfl] at h₁ h₃
      rw [← hadd.same e PointsToNode.isOop fun _ => rfl] at h₃
      exact ⟨h₁, h₂, h₃⟩
    · obtain ⟨hes, hfes⟩ := hg'.phantom_escapes
      have hle (es : EscapeState) : es.toNat ≤ EscapeState.globalEscape.toNat := es.toNat_le
      refine ⟨fun _ => ?_, ?_, fun _ _ _ => ?_⟩
      · exact (hle _).trans (congrArg _ hes).ge
      · exact (hle _).trans (congrArg _ hfes).ge
      · exact (hle _).trans (congrArg _ hes).ge
  · intro f htype hoop hescape
    rw [hadd.same f PointsToNode.type fun _ => rfl] at htype
    rw [hadd.same f PointsToNode.isOop fun _ => rfl] at hoop
    rw [hadd.same f PointsToNode.escapeState fun _ => rfl] at hescape
    exact (hadd.edges f phantomObj).2 (.inl (hleast.unknown f htype hoop hescape))

/-- What every order of the worklist leads to. -/
theorem NonEscapedOutcome.exists_walk (hready : EscapeReady g₀ g ptnodes nonEscaped)
    {outcome : Nodes × List Use × List ℕ} (h : NonEscapedOutcome g ptnodes nonEscaped outcome) :
    ∃ w, LoopInv (readyEdges g₀ g ptnodes) (visitedNodes g ptnodes) g w ∧ LeastEscape g w.graph ∧
      UnknownAdded (fun n => ∃ pta ∈ nonEscaped, InitsUnknown w.graph pta n) w.graph outcome.1 ∧
      outcome.2.2 = nonEscaped.filter fun n =>
        decide ((w.graph n).escapeState ≠ .globalEscape) := by
  obtain ⟨stack, w, hstart, hrun, hdone, rfl⟩ := h
  have hinv := (hready.loopInv_start hstart).reflTransGen hready.readyEdges_subset hready.visits
    hrun
  have hclosed := hinv.escapeClosed hready.sourced hready.settledEdges_subset hdone
  have hadd := foldl_initUnknownObject_added nonEscaped.reverse hinv.walkable fun pta hpta => by
    rw [hinv.grown.grown.type]
    exact hready.objects pta (List.mem_reverse.1 hpta)
  exact ⟨w, hinv, hinv.leastEscape hready.known hclosed,
    hadd.congr fun n => exists_congr fun pta => and_congr_left' List.mem_reverse, rfl⟩

/-- Two orders of the worklist have the same outcome. -/
theorem NonEscapedOutcome.same (hready : EscapeReady g₀ g ptnodes nonEscaped)
    {outcome outcome' : Nodes × List Use × List ℕ}
    (h : NonEscapedOutcome g ptnodes nonEscaped outcome)
    (h' : NonEscapedOutcome g ptnodes nonEscaped outcome') :
    SameEscape outcome.1 outcome'.1 ∧ outcome.2.2 = outcome'.2.2 := by
  obtain ⟨w, hinv, hleast, hadd, hlist⟩ := h.exists_walk hready
  obtain ⟨w', hinv', hleast', hadd', hlist'⟩ := h'.exists_walk hready
  have hsame := hinv.same hinv' hleast hleast'
  have hinits (pta n : ℕ) : InitsUnknown w.graph pta n ↔ InitsUnknown w'.graph pta n := by
    have hes := hsame.escapeState pta
    have hedge := hsame.edges pta n
    have hideal : (w.graph pta).ideal = (w'.graph pta).ideal :=
      (hinv.grown.grown.ideal pta).trans (hinv'.grown.grown.ideal pta).symm
    have hdst : (w.graph pta).arraycopyDst = (w'.graph pta).arraycopyDst := by
      have hrest := (hinv.grown.rest pta).trans (hinv'.grown.rest pta).symm
      have hrest' := congrArg PointsToNode.arraycopyDst hrest
      exact hrest'
    have hoop : OopField w.graph n ↔ OopField w'.graph n := by
      rw [OopField, OopField, hinv.grown.grown.type, hinv.grown.grown.isOop,
        hinv'.grown.grown.type, hinv'.grown.grown.isOop]
    constructor
    · rintro ⟨h₁, h₂, h₃, h₄⟩
      exact ⟨hes ▸ h₁, hideal ▸ hdst ▸ h₂, hedge.1 h₃, hoop.1 h₄⟩
    · rintro ⟨h₁, h₂, h₃, h₄⟩
      exact ⟨hes ▸ h₁, hideal ▸ hdst ▸ h₂, hedge.2 h₃, hoop.2 h₄⟩
  refine ⟨⟨fun n => ?_, fun n => ?_, fun n e => ?_⟩, ?_⟩
  · rw [hadd.same n PointsToNode.escapeState fun _ => rfl,
      hadd'.same n PointsToNode.escapeState fun _ => rfl, hsame.escapeState]
  · rw [hadd.same n PointsToNode.fieldsEscapeState fun _ => rfl,
      hadd'.same n PointsToNode.fieldsEscapeState fun _ => rfl, hsame.fieldsEscapeState]
  · rw [hadd.edges, hadd'.edges, hsame.edges]
    simp only [hinits]
  · rw [hlist, hlist']
    simp only [hsame.escapeState]

/-- `find_non_escaped_objects` is a computation of the least escape marking, whatever the order
of its worklist. -/
structure EscapeFixpoint (g : Nodes) (ptnodes nonEscaped : List ℕ) : Prop where
  /-- the loop ends with every order -/
  terminates : ∀ stack, IsEscapeStart g ptnodes stack →
    Acc (fun w' w => Pops w w') ⟨⟨g, [], 0⟩, stack⟩
  /-- the order of the source is one of them -/
  returns : ∃ n, ∀ fuel, n < fuel → ∃ outcome,
    findNonEscapedObjects fuel g [] ptnodes nonEscaped = some outcome ∧
      NonEscapedOutcome g ptnodes nonEscaped outcome
  /-- no turn lowers a state -/
  raises : ∀ stack w w', IsEscapeStart g ptnodes stack →
    Relation.ReflTransGen Pops ⟨⟨g, [], 0⟩, stack⟩ w → Pops w w' →
      (escapeMarking w.graph).Le (escapeMarking w'.graph)
  least : ∀ outcome, NonEscapedOutcome g ptnodes nonEscaped outcome → LeastEscape g outcome.1
  /-- the objects that do not escape globally are left in the list -/
  listed : ∀ outcome, NonEscapedOutcome g ptnodes nonEscaped outcome →
    ∀ n, n ∈ outcome.2.2 ↔ n ∈ nonEscaped ∧ (outcome.1 n).escapeState ≠ .globalEscape
  confluent : ∀ outcome outcome', NonEscapedOutcome g ptnodes nonEscaped outcome →
    NonEscapedOutcome g ptnodes nonEscaped outcome' →
      SameEscape outcome.1 outcome'.1 ∧ outcome.2.2 = outcome'.2.2

/-- `find_non_escaped_objects` computes the least escape fixpoint. -/
theorem findNonEscapedObjects_escapeFixpoint (hready : EscapeReady g₀ g ptnodes nonEscaped) :
    EscapeFixpoint g ptnodes nonEscaped where
  terminates := fun stack hstart =>
    (hready.loopInv_start hstart).acc hready.readyEdges_subset hready.visits
  returns := by
    have hstart : IsEscapeStart g ptnodes (ptnodes.filter fun ptn =>
        decide (EscapeState.argEscape.toNat ≤ (g ptn).escapeState.toNat) ||
          decide (EscapeState.argEscape.toNat ≤ (g ptn).fieldsEscapeState.toNat)).reverse :=
      List.reverse_perm _
    obtain ⟨n, hn⟩ := propagateStack_returns
      ((hready.loopInv_start hstart).acc hready.readyEdges_subset hready.visits)
    refine ⟨n, fun fuel hfuel => ?_⟩
    obtain ⟨w, hw⟩ := hn fuel hfuel
    obtain ⟨hrun, hdone⟩ := propagateStack_pops hw
    refine ⟨finishNonEscaped nonEscaped w, ?_, _, w, hstart, hrun, hdone, rfl⟩
    rw [findNonEscapedObjects, hw]
    rfl
  raises := fun stack w w' hstart hrun hpops => by
    have hinv := (hready.loopInv_start hstart).reflTransGen hready.readyEdges_subset hready.visits
      hrun
    obtain @⟨before, after, ptn, hstack⟩ := hpops
    exact (propagateNode_inv { w with stack := before ++ after } ptn hinv.walkable hinv.grown
      hready.visits (hinv.mem_visited hstack)).1.marking_le
  least := fun outcome h => by
    obtain ⟨w, hinv, hleast, hadd, -⟩ := h.exists_walk hready
    exact hadd.leastEscape hinv.walkable.wellFormed hleast
  listed := fun outcome h n => by
    obtain ⟨w, -, -, hadd, hlist⟩ := h.exists_walk hready
    rw [hlist, List.mem_filter, decide_eq_true_eq,
      hadd.same n PointsToNode.escapeState fun _ => rfl]
  confluent := fun outcome outcome' h h' => h.same hready h'

/-- The graph of the example has an arraycopy that is not listed. -/
theorem escapeFixpoint_exceptionGraph :
    EscapeFixpoint exceptionGraph exceptionWorklists.ptnodes exceptionNonEscaped := by
  have hlt : ∀ n < 20, (exceptionGraph n).escapeState ≠ .unknown := by decide
  have hready := exceptionGraph_constructed.completing.escapeReady exceptionGraph_constructed.lists
    fun n => by
      by_cases hn : n < 20
      · exact hlt n hn
      · rw [exceptionGraph_of_le (Nat.le_of_not_lt hn)]
        decide
  exact findNonEscapedObjects_escapeFixpoint hready

end

end StackAllocation
