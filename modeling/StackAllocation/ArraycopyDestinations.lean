import StackAllocation.ChainClosure
import StackAllocation.ClosedGraph
import StackAllocation.Eligibility

/-!
# Destinations of arraycopies

An arraycopy call adds an `Arraycopy` node that has an edge to the source; the edge for the
destination goes the other way, from the destination to the node. The users of an
allocation hence tell what it is the source of, and `all_uses_eligible_for_stack_allocation`,
which looks for the arraycopies among the users, rejects an object array only if it is a
source as well (`arraycopy_destinations_iff`).
-/

namespace StackAllocation

/-! ## Arraycopy calls

Both arguments are processed in turn, the source first. If references are copied, the call gets an
`Arraycopy` node with an edge to the source, and the destination an edge to the node. How far the
arguments escape depends on whether the copy is validated. -/

/-- An `ArrayCopy` node or a call of an arraycopy stub. -/
structure ArraycopyCall : Type where
  /-- the node of the call -/
  call : ℕ
  /-- the nodes of its two pointer arguments -/
  src : ℕ
  dst : ℕ
  srcHasOops : Bool
  dstHasOops : Bool
  /-- an `ArrayCopy` node that is a basic clone or validated -/
  isValidated : Bool
  deriving DecidableEq, Repr

/-- `arg_is_arraycopy_dest` for the destination: references are copied. -/
def ArraycopyCall.copiesReferences (c : ArraycopyCall) : Bool := c.srcHasOops && c.dstHasOops

/-- The escape state of the arguments. -/
def ArraycopyCall.escapeState (c : ArraycopyCall) : EscapeState :=
  if c.isValidated then .noEscape else .argEscape

/-- `add_arraycopy`. -/
def addArraycopy (g : Nodes) (c : ArraycopyCall) : Nodes :=
  if (g c.call).type = .arraycopy then g
  else
    let g := Function.update g c.call (blankNode .arraycopy .other c.escapeState)
    -- Add edge from arraycopy node to source object.
    let g := setArraycopySrc (addEdge g c.call c.src).2 c.src
    -- Add edge from destination object to arraycopy node.
    setArraycopyDst (addEdge g c.dst c.call).2 c.dst

/-- The source argument, in `process_call_arguments`. -/
def processSource (g : Nodes) (c : ArraycopyCall) : Nodes :=
  if EscapeState.argEscape.toNat ≤ (g c.src).escapeState.toNat then g
  else setEscapeState g c.src c.escapeState

/-- The destination argument. -/
def processDestination (g : Nodes) (c : ArraycopyCall) : Nodes :=
  if EscapeState.argEscape.toNat ≤ (g c.dst).escapeState.toNat && !c.copiesReferences then g
  else
    let g := setEscapeState g c.dst c.escapeState
    if c.copiesReferences && decide (c.dst ≠ c.src) then addArraycopy g c else g

/-- `process_call_arguments` for an arraycopy. -/
def processArraycopy (g : Nodes) (c : ArraycopyCall) : Nodes :=
  processDestination (processSource g c) c

/-! ## Who is rejected

The code looks for arraycopies among the uses of the allocation, and a destination is not among
them. So an object array that is copied into is let through unless it is copied from as well. The
condition says the same of the edges, without the walk. -/

section

variable (E : EligibilityInfo) (G : CompletedGraph)

/-- The allocation is an array of references that an arraycopy may copy references into. -/
def MayBeDestination (calls : List ArraycopyCall) (a : ℕ) : Prop :=
  E.isObjArray a = true ∧
    ∃ c ∈ calls, c.copiesReferences = true ∧ RefersTo G.nodes c.dst a

/-- No such array is placed in the frame. -/
def DestinationsRejected (calls : List ArraycopyCall) : Prop :=
  ∀ o hasLocks fuel m, stackAllocationAnalysis G.nodes (eligibleForStackAllocation E G.nodes) o
    hasLocks G.nonEscaped fuel = some m → ∀ a, m.isStackAllocateable a = true →
      ¬ MayBeDestination E G calls a

/-- The array is flagged as a destination and is the source of an arraycopy. -/
def RejectedAsSource (g : Nodes) (a : ℕ) : Prop :=
  E.isObjArray a = true ∧ (g a).arraycopyDst = true ∧
    ∃ ac, .edge ac ∈ (g a).uses ∧ (g ac).type = .arraycopy

/-- What else is rejected: what is no non-escaping allocation of a constant size, an object that
may be compressed, or one that a field or an overlapping variable refers to. -/
def RejectedOtherwise (a : ℕ) : Prop :=
  ¬ (a ∈ G.nonEscaped ∧ (G.nodes a).escapeState = .noEscape ∧ (G.nodes a).ideal = .allocate) ∨
    E.shapeEligible a = false ∨ (E.useCompressedOops = true ∧ E.oopMayBeCompressed a = true) ∨
    ∃ u, .edge u ∈ (G.nodes a).uses ∧
      ((G.nodes u).type = .localVar ∧ E.lifetimeOverlap u = true ∨
        (G.nodes u).type = .field ∧ E.useCompressedOops = true)

/-- An object that has to be in the frame if `a` is: it has `a` in one of its fields, and is
neither null nor scalar replaceable. -/
def NeededHolder (g : Nodes) (a o : ℕ) : Prop :=
  HoldsInField g o a ∧ ¬ ((g o).ideal = .nullConP ∨
    (g o).ideal = .allocate ∧ (g o).scalarReplaceable = true)

variable {E G}

theorem allUsesEligible_iff {g : Nodes} {a : ℕ} :
    allUsesEligible E g a = true ↔ ¬ RejectedAsSource E g a ∧
      ∀ u, .edge u ∈ (g a).uses → ¬ ((g u).type = .localVar ∧ E.lifetimeOverlap u = true ∨
        (g u).type = .field ∧ E.useCompressedOops = true) := by
  rw [allUsesEligible, List.all_eq_true]
  constructor
  · intro h
    refine ⟨?_, fun u hu => ?_⟩
    · rintro ⟨harray, hdst, ac, huse, hty⟩
      have := h _ huse
      simp [useEligible, hty, harray, hdst] at this
    · have := h _ hu
      rintro (⟨hty, hoverlap⟩ | ⟨hty, hcoops⟩)
      · simp [useEligible, hty, hoverlap] at this
      · simp [useEligible, hty, hcoops] at this
  · rintro ⟨hsource, hothers⟩ u hu
    cases u with
    | base f => rfl
    | edge u =>
      have hother := hothers u hu
      cases hty : (g u).type with
      | javaObject => simp [useEligible, hty]
      | localVar => simpa [useEligible, hty] using hother
      | field => simpa [useEligible, hty] using hother
      | arraycopy =>
        have hnot : ¬ (E.isObjArray a = true ∧ (g a).arraycopyDst = true) :=
          fun h => hsource ⟨h.1, h.2, u, hu, hty⟩
        simp only [useEligible, hty, Bool.not_eq_true', Bool.and_eq_false_iff]
        by_cases hdst : (g a).arraycopyDst = true
        · exact .inr (by simpa using fun h => hnot ⟨h, hdst⟩)
        · exact .inl (by simpa using hdst)

/-- The candidates of step 4. -/
theorem eligible_iff {a : ℕ} :
    Eligible G.nodes (eligibleForStackAllocation E G.nodes) G.nonEscaped a ↔
      ¬ RejectedOtherwise E G a ∧ ¬ RejectedAsSource E G.nodes a := by
  unfold Eligible RejectedOtherwise
  rw [eligibleForStackAllocation_iff, allUsesEligible_iff, not_or, not_or, not_or]
  rw [not_not, Bool.not_eq_false, not_exists]
  simp only [not_and, Bool.and_eq_false_imp]
  constructor
  · rintro ⟨hmem, hesc, halloc, hshape, hcoops, hsource, hothers⟩
    refine ⟨⟨⟨hmem, hesc, halloc⟩, hshape, fun hc => ?_, hothers⟩, hsource⟩
    simpa using hcoops hc
  · rintro ⟨⟨⟨hmem, hesc, halloc⟩, hshape, hcoops, hothers⟩, hsource⟩
    refine ⟨hmem, hesc, halloc, hshape, fun hc => ?_, hsource, hothers⟩
    simpa using hcoops hc

/-- Who step 4 leaves marked. -/
theorem stackAllocateable_iff {eligible : ℕ → Bool} {a : ℕ} :
    StackAllocateable G.nodes eligible G.nonEscaped a ↔
      ∀ o, Relation.ReflTransGen (NeededHolder G.nodes) a o →
        Eligible G.nodes eligible G.nonEscaped o := by
  refine Pruning.survives_iff_holders (fun X hX b hb => ?_) a
  constructor
  · intro h o hholds
    obtain ⟨hmem, hjava⟩ := holdsInField_iff.1 hholds
    by_cases hne : o = b
    · exact .inr (hne ▸ hb)
    · obtain hnull | ⟨halloc, hX | hsr⟩ := h o hmem hjava hne
      · exact .inl (.inl hnull)
      · exact .inr hX
      · exact .inl (.inr ⟨halloc, hsr⟩)
  · intro h o hmem hjava _
    obtain (hnull | hsr) | hXo := h o (holdsInField_iff.2 ⟨hmem, hjava⟩)
    · exact .inl hnull
    · exact .inr ⟨hsr.1, .inr hsr.2⟩
    · exact .inr ⟨(hX o hXo).2.2.1, .inl hXo⟩

end

/-- The destinations are rejected exactly when each of them is rejected for another reason, is the
source of an arraycopy as well, or is stored, along a chain of holders, in such an object. -/
theorem arraycopy_destinations_iff (E : EligibilityInfo) (G : CompletedGraph)
    (calls : List ArraycopyCall) :
    DestinationsRejected E G calls ↔ ∀ a, MayBeDestination E G calls a →
      ∃ o, Relation.ReflTransGen (NeededHolder G.nodes) a o ∧
        (RejectedOtherwise E G o ∨ RejectedAsSource E G.nodes o) := by
  constructor
  · intro h a hdest
    obtain ⟨m, hm⟩ := stackAllocationAnalysis_terminates G (eligibleForStackAllocation E G.nodes)
      ⟨true, true, 3, true, true⟩ false
    by_contra hnone
    refine h _ _ _ _ hm a (((stackAllocationAnalysis_marks hm).marks a).2 ⟨rfl, ?_⟩) hdest
    refine stackAllocateable_iff.2 fun o hchain => eligible_iff.2 ?_
    rw [← not_or]
    exact fun hbad => hnone ⟨o, hchain, hbad⟩
  · intro h o hasLocks fuel m hm a ha hdest
    obtain ⟨b, hchain, hbad⟩ := h a hdest
    have hstack := (((stackAllocationAnalysis_marks hm).marks a).1 ha).2
    have helig := eligible_iff.1 (stackAllocateable_iff.1 hstack b hchain)
    rw [← not_or] at helig
    exact helig hbad

/-! ### A failing input

The references of a constant array (node 2) are copied into the new array of node 3, which is
not copied anywhere. -/

/-- The nodes before the call. -/
def destinationNodes : List PointsToNode :=
  [blankNode .javaObject .other .globalEscape,
   blankNode .javaObject .nullConP .noEscape,
   blankNode .javaObject .other .globalEscape,
   { blankNode .javaObject .allocate .noEscape with uses := [.edge 4] },
   { blankNode .localVar .other .noEscape with edges := [3], uses := [.edge 5] },
   { blankNode .localVar .other .noEscape with edges := [4] }]

/-- `System.arraycopy` from the one to the other. -/
def destinationCall : ArraycopyCall where
  call := 6
  src := 2
  dst := 5
  srcHasOops := true
  dstHasOops := true
  isValidated := true

/-- The worklists of the method. -/
def destinationWorklists : Worklists where
  ptnodes := [0, 1, 2, 3, 4, 5, 6]
  javaObjects := [0, 1, 2, 3]
  oopFields := []

/-- The array has two elements, and its result cast is an ordinary one. -/
def destinationInfo : EligibilityInfo where
  useCompressedOops := false
  eliminateAllocationArraySizeLimit := 64
  resultCast := fun _ => some true
  sizeOfObject := fun _ => some 32
  arrayLength := fun _ => some 2
  isObjArrayKlass := fun _ => true
  oopMayBeCompressed := fun _ => false
  lifetimeOverlap := fun _ => false

/-- The nodes once the graph is complete. -/
def destinationCompleted : List PointsToNode :=
  [blankNode .javaObject .other .globalEscape,
   blankNode .javaObject .nullConP .noEscape,
   { blankNode .javaObject .other .globalEscape with uses := [.edge 6], arraycopySrc := true },
   { blankNode .javaObject .allocate .noEscape with
     edges := [6], uses := [.edge 4, .edge 5], arraycopyDst := true },
   { blankNode .localVar .other .noEscape with edges := [3], uses := [.edge 5] },
   { blankNode .localVar .other .noEscape with edges := [4, 6, 3], arraycopyDst := true },
   { blankNode .arraycopy .other .noEscape with edges := [2], uses := [.edge 5, .edge 3] }]

/-- The complete graph. -/
def destinationGraph : CompletedGraph where
  nodes := nodesOf destinationCompleted
  nonEscaped := [3]
  mem_edges := nodesOf_mem_edges destinationCompleted (by decide) (by decide)
  nonEscaped_javaObject := by decide
  nonEscaped_state := by decide

/-- The call makes this graph, and the array, which is copied to, is placed in the frame. -/
theorem destination_not_rejected :
    Finishes (completeConnectionGraph 40 Clock.unlimited destinationWorklists
      ⟨fun _ => false, fun _ _ => false⟩
        (processArraycopy (fun n => destinationNodes.getD n outside)
        destinationCall) [3]) (fun g => ∀ n < 7, g n = destinationGraph.nodes n) ∧
    MayBeDestination destinationInfo destinationGraph [destinationCall] 3 ∧
    ¬ DestinationsRejected destinationInfo destinationGraph [destinationCall] := by
  have hdest : MayBeDestination destinationInfo destinationGraph [destinationCall] 3 :=
    ⟨rfl, destinationCall, List.mem_singleton_self _, rfl, .inr ⟨rfl, by decide⟩⟩
  refine ⟨finishes_of_match (by decide +kernel), hdest, fun h => ?_⟩
  exact h ⟨true, true, 3, true, true⟩ false 3 _ rfl 3 (by decide) hdest

end StackAllocation
