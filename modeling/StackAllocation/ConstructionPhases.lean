import StackAllocation.ConstructionInvariant
import StackAllocation.Loops
import Mathlib.Data.List.Nodup

/-!
# The two iterations of the construction

The first iteration gives every ideal node its node (`Noted`), and either its edges (`Recorded`)
or a place on `delayed_worklist`; the final one gives the delayed nodes their edges. What is
recorded is not lost.
-/

namespace StackAllocation

/-! ## What is recorded

For every operation a statement says what must be in the graph when the node has been processed: the
edges, the base of a field, the states of arguments, the links of an arraycopy. It speaks of the
connection graph only, so it can be carried through all later changes. -/

section

variable (G : IdealNodes) (c : Construction)

/-- The ideal node has its node. -/
structure Noted (n : ℕ) : Prop where
  node : ∀ m, (G.kind n).made = some m → (G.kind n).isStub = false → c.node n = some n
  unknown : (G.kind n).isUnknown = true → c.node n = some phantomObj

/-- The node `s` has an edge to the node of the ideal node `i`. -/
def EdgeTo (s i : ℕ) : Prop := ∃ p, c.node i = some p ∧ p ∈ (c.graph s).edges

/-- The value of the ideal node escapes. -/
def EscapedTo (es : EscapeState) (i : ℕ) : Prop :=
  ∃ p, c.node i = some p ∧ (p = nullObj ∨ es.toNat ≤ (c.graph p).escapeState.toNat)

/-- The fields of the value escape. -/
def FieldsEscapedTo (es : EscapeState) (i : ℕ) : Prop :=
  ∃ p, c.node i = some p ∧ (p = nullObj ∨ es.toNat ≤ (c.graph p).fieldsEscapeState.toNat)

/-- A stored value. -/
def AccessRecorded : Access → ℕ → ℕ → Prop
  | .oop, address, value => EdgeTo c address value
  | .raw, address, value => EscapedTo c .globalEscape value ∧
      ((G.kind address).isAddP = true → EdgeTo c address value)
  | .skipped, _, _ => True

/-- The argument is the destination of an arraycopy. -/
def StubArgument.isDestination (call : Stub) (arg : StubArgument) : Prop :=
  call.isArraycopy = true ∧ arg.hasOops = true ∧ arg.isFirst = false ∧
    ∃ src ∈ call.args, src.isFirst = true ∧ src.hasOops = true

/-- The arraycopy of the node `n`, from `s` to `d`. -/
def CopyLinks (n s d : ℕ) : Prop :=
  (c.node n = some n ∧ s ∈ (c.graph n).edges) ∧ n ∈ (c.graph d).edges

/-- What is recorded of a destination. -/
def DestinationLinked (n : ℕ) (call : Stub) (arg : StubArgument) : Prop :=
  ∃ s d, c.node call.src = some s ∧ c.node arg.node = some d ∧ (d = s ∨ CopyLinks c n s d)

/-- An argument of a stub. -/
def StubArgumentRecorded (n : ℕ) (call : Stub) (arg : StubArgument) : Prop :=
  (call.validated = false → EscapedTo c .argEscape arg.node) ∧
    (arg.isDestination call → DestinationLinked c n call arg)

/-- An argument of a call with a bytecode escape analysis. -/
structure JavaArgumentRecorded (n : ℕ) (result : Option CallResult) (arg : JavaArgument) :
    Prop where
  returned : (arg.isPtr && arg.returned) = true → result = some .arguments →
    EdgeTo c n arg.node
  escapes : arg.isOop = true → EscapedTo c .argEscape arg.node
  globally : arg.isOop = true → arg.stack = false → EscapedTo c .globalEscape arg.node
  fields : arg.isOop = true → arg.isLocal = false → FieldsEscapedTo c .globalEscape arg.node

/-- The edges and escape states that the ideal node stands for are there. -/
def Recorded (n : ℕ) : Prop :=
  match G.kind n with
  | .addP base _ _ _ => ∃ p, c.node base = some p ∧ p ∈ (c.graph n).bases
  | .cast input | .load input | .proj input | .ret input => EdgeTo c n input
  | .merge inputs => ∀ input ∈ inputs,
      input.uncast = phantomObj ∨ input.uncast = n ∨ EdgeTo c n input.node
  | .store access address value => AccessRecorded G c access address value
  | .loadStore access address value => EdgeTo c n address ∧ AccessRecorded G c access address value
  | .stringIntrinsic args => ∀ arg ∈ args, EdgeTo c n arg
  | .stub call => ∀ arg ∈ call.args, StubArgumentRecorded c n call arg
  | .call _ .boxing => True
  | .call result (.analyzed args returnLocal) =>
      (∀ arg ∈ args, JavaArgumentRecorded c n result arg) ∧
        (result = some .arguments → returnLocal = false → phantomObj ∈ (c.graph n).edges)
  | .call _ (.others args) => ∀ arg ∈ args, EscapedTo c .globalEscape arg
  | .unknown | .con | .threadLocal | .allocate _ _ | .other => True

end

/-! ## What is kept

Edges, bases, flags and states are never taken back. So each statement of the first section that
holds of a construction holds of every construction that it grows into. -/

section

variable {G : IdealNodes} {c c' : Construction} {n i s : ℕ} (h : Grows c c')
include h

/-- A node that is noted for the final iteration, or has all that its operation asks for, stays
so. -/
theorem Grows.noted (hn : Noted G c n) : Noted G c' n :=
  ⟨fun m hm hstub => h.node (hn.node m hm hstub), fun hk => h.node (hn.unknown hk)⟩

/-- An edge that was added stays. -/
theorem Grows.edgeTo (hedge : EdgeTo c s i) : EdgeTo c' s i := by
  obtain ⟨p, hp, hmem⟩ := hedge
  exact ⟨p, h.node hp, h.edges s hmem⟩

/-- A node that has escaped that far stays escaped. -/
theorem Grows.escapedTo {es : EscapeState} (hescaped : EscapedTo c es i) : EscapedTo c' es i := by
  obtain ⟨p, hp, hes⟩ := hescaped
  exact ⟨p, h.node hp, hes.imp id fun hes => Nat.le_trans hes (h.escapeState p)⟩

/-- So do its fields. -/
theorem Grows.fieldsEscapedTo {es : EscapeState} (hescaped : FieldsEscapedTo c es i) :
    FieldsEscapedTo c' es i := by
  obtain ⟨p, hp, hes⟩ := hescaped
  exact ⟨p, h.node hp, hes.imp id fun hes => Nat.le_trans hes (h.fieldsEscapeState p)⟩

/-- An access that is recorded stays recorded. -/
theorem Grows.accessRecorded {access : Access} {address value : ℕ}
    (haccess : AccessRecorded G c access address value) :
    AccessRecorded G c' access address value := by
  cases access with
  | oop => exact h.edgeTo haccess
  | raw => exact ⟨h.escapedTo haccess.1, fun hadd => h.edgeTo (haccess.2 hadd)⟩
  | skipped => exact haccess

/-- An arraycopy stays linked with its source and destination. -/
theorem Grows.copyLinks {s d : ℕ} (hlinks : CopyLinks c n s d) : CopyLinks c' n s d :=
  ⟨⟨h.node hlinks.1.1, h.edges n hlinks.1.2⟩, h.edges d hlinks.2⟩

/-- The same for the destination of a stub. -/
theorem Grows.destinationLinked {call : Stub} {arg : StubArgument}
    (hlinked : DestinationLinked c n call arg) : DestinationLinked c' n call arg := by
  obtain ⟨s, d, hs, hd, hlinks⟩ := hlinked
  exact ⟨s, d, h.node hs, h.node hd, hlinks.imp id h.copyLinks⟩

/-- The argument of a stub stays recorded. -/
theorem Grows.stubArgumentRecorded {call : Stub} {arg : StubArgument}
    (harg : StubArgumentRecorded c n call arg) : StubArgumentRecorded c' n call arg :=
  ⟨fun hvalid => h.escapedTo (harg.1 hvalid), fun hdest => h.destinationLinked (harg.2 hdest)⟩

/-- And that of a Java call. -/
theorem Grows.javaArgumentRecorded {result : Option CallResult} {arg : JavaArgument}
    (harg : JavaArgumentRecorded c n result arg) : JavaArgumentRecorded c' n result arg where
  returned hret hresult := h.edgeTo (harg.returned hret hresult)
  escapes hoop := h.escapedTo (harg.escapes hoop)
  globally hoop hstack := h.escapedTo (harg.globally hoop hstack)
  fields hoop hlocal := h.fieldsEscapedTo (harg.fields hoop hlocal)

/-- What is recorded stays. -/
theorem Grows.recorded (hr : Recorded G c n) : Recorded G c' n := by
  unfold Recorded at hr ⊢
  cases hop : G.kind n with simp only [hop] at hr ⊢
  | addP base =>
    obtain ⟨p, hp, hmem⟩ := hr
    exact ⟨p, h.node hp, h.bases n hmem⟩
  | cast => exact h.edgeTo hr
  | load => exact h.edgeTo hr
  | proj => exact h.edgeTo hr
  | ret => exact h.edgeTo hr
  | merge => exact fun input hi => (hr input hi).imp id fun hr => hr.imp id h.edgeTo
  | store => exact h.accessRecorded hr
  | loadStore => exact ⟨h.edgeTo hr.1, h.accessRecorded hr.2⟩
  | stringIntrinsic => exact fun arg ha => h.edgeTo (hr arg ha)
  | stub => exact fun arg ha => h.stubArgumentRecorded (hr arg ha)
  | call result args =>
    cases args with
    | boxing => trivial
    | analyzed =>
      exact ⟨fun arg ha => h.javaArgumentRecorded (hr.1 arg ha),
        fun hresult hlocal => h.edges n (hr.2 hresult hlocal)⟩
    | others => exact fun arg ha => h.escapedTo (hr arg ha)

end

/-! ## What a run changes

The nodes of the graph that a run of changes does not name are the same afterwards. This is needed
for the final iteration, in which arraycopies are made while others are already linked. -/

/-- What is done for the ideal node `n` leaves alone. -/
structure NodesKept (n : ℕ) (final : Bool) (c c' : Construction) : Prop where
  node : ∀ {m}, m ≠ n ∨ c.node n ≠ none → c'.node m = c.node m
  same : ∀ {m}, m ≠ n ∨ c.node n ≠ none → (c'.graph m).type = (c.graph m).type ∧
    (c'.graph m).ideal = (c.graph m).ideal ∧ (c'.graph m).isOop = (c.graph m).isOop
  escapeState : final = false → ∀ {m}, m ≠ n ∨ c.node n ≠ none →
    (c'.graph m).escapeState = (c.graph m).escapeState
  copy : final = true → c.node n = none → c'.node n ≠ none → (c'.graph n).type = .arraycopy
  delayed : ∀ {m}, m ∈ c'.delayed → m ∈ c.delayed ∨ final = false ∧ m = n
  delays : c.delayed ⊆ c'.delayed
  nodup : c.delayed.Nodup → c'.delayed.Nodup

section

variable {G : IdealNodes} {c c' c'' : Construction} {n : ℕ} {final : Bool}

theorem NodesKept.refl (n : ℕ) (final : Bool) (c : Construction) : NodesKept n final c c :=
  ⟨fun _ => rfl, fun _ => ⟨rfl, rfl, rfl⟩, fun _ _ _ => rfl, fun _ hn hn' => absurd hn hn', .inl,
    List.Subset.refl _, id⟩

/-- Nodes that are kept by each of two parts of a run are kept by the run. -/
theorem NodesKept.trans (h : NodesKept n final c c') (h' : NodesKept n final c' c'') :
    NodesKept n final c c'' := by
  have hnext : ∀ {m}, m ≠ n ∨ c.node n ≠ none → m ≠ n ∨ c'.node n ≠ none := by
    intro m hm
    refine hm.imp id fun hn => ?_
    rwa [h.node (.inr hn)]
  refine ⟨fun hm => (h'.node (hnext hm)).trans (h.node hm), fun hm => ?_,
    fun hfinal _ hm => (h'.escapeState hfinal (hnext hm)).trans (h.escapeState hfinal hm),
    fun hfinal hn hn'' => ?_, fun hm => ?_, List.Subset.trans h.delays h'.delays,
    fun hnodup => h'.nodup (h.nodup hnodup)⟩
  · obtain ⟨htype, hideal, hoop⟩ := h.same hm
    obtain ⟨htype', hideal', hoop'⟩ := h'.same (hnext hm)
    exact ⟨htype'.trans htype, hideal'.trans hideal, hoop'.trans hoop⟩
  · by_cases hn' : c'.node n = none
    · exact h'.copy hfinal hn' hn''
    · rw [(h'.same (.inr hn')).1]
      exact h.copy hfinal hn hn'
  · obtain hm | hm := h'.delayed hm
    · exact h.delayed hm
    · exact .inr hm

/-- A changed graph keeps the rest. -/
theorem Regraphed.kept {g : Nodes} (hg : Regraphed G c g)
    (hstates : final = false → ∀ m, (g m).escapeState = (c.graph m).escapeState) :
    NodesKept n final c { c with graph := g } where
  node _ := rfl
  same {m} _ := ⟨hg.grown.type m, hg.grown.ideal m, hg.grown.isOop m⟩
  escapeState hfinal m _ := hstates hfinal m
  copy _ hn hn' := absurd hn hn'
  delayed := .inl
  delays := List.Subset.refl _
  nodup := id

/-- To put a node on the delayed worklist changes no node of the graph. -/
theorem Construction.push_kept (c : Construction) (n : ℕ) : NodesKept n false c (c.push n) := by
  unfold Construction.push
  split
  · exact NodesKept.refl n false c
  next hnot =>
    refine ⟨fun _ => rfl, fun _ => ⟨rfl, rfl, rfl⟩, fun _ _ _ => rfl, fun _ hn hn' => absurd hn hn',
      fun hm => ?_, List.subset_append_left _ _, fun hnodup => ?_⟩
    · exact (List.mem_append.1 hm).imp id fun hm => ⟨rfl, List.mem_singleton.1 hm⟩
    · refine List.nodup_append.2 ⟨hnodup, List.nodup_singleton n, fun a ha b hb => ?_⟩
      rw [List.mem_singleton.1 hb]
      rintro rfl
      exact hnot ha

/-- A new node is all that is new. -/
theorem Construction.addNode_kept {m : PointsToNode} (hn : c.node n = none)
    (hm : final = true → m.type = .arraycopy) : NodesKept n final c (c.addNode n m) := by
  have hne : ∀ {k}, k ≠ n ∨ c.node n ≠ none → k ≠ n := fun hk => hk.resolve_right fun h => h hn
  rw [Construction.addNode_of_none hn]
  refine ⟨fun hk => Function.update_of_ne (hne hk) _ _, fun hk => ?_, fun _ _ hk => ?_,
    fun hfinal _ _ => ?_, .inl, List.Subset.refl _, id⟩
  · simp only [Function.update_of_ne (hne hk), and_self]
  · simp only [Function.update_of_ne (hne hk)]
  · simp only [Function.update_self]
    exact hm hfinal

/-- What a change leaves alone. -/
theorem Built.change_kept (h : Built G c) (hchange : Change G n final c c') :
    NodesKept n final c c' := by
  have habsurd : ∀ {P : Prop}, final = true → final = false → P := fun htrue hfalse =>
    absurd (htrue.symm.trans hfalse) Bool.noConfusion
  cases hchange with
  | push hfinal =>
    subst hfinal
    exact c.push_kept n
  | add hfinal hn _ _ => exact Construction.addNode_kept hn fun htrue => habsurd htrue hfinal
  | unknown hfinal hn _ =>
    have hne : ∀ {k}, k ≠ n ∨ c.node n ≠ none → k ≠ n := fun hk => hk.resolve_right fun h => h hn
    exact ⟨fun hk => Function.update_of_ne (hne hk) _ _, fun _ => ⟨rfl, rfl, rfl⟩, fun _ _ _ => rfl,
      fun htrue _ _ => habsurd htrue hfinal, .inl, List.Subset.refl _, id⟩
  | edge hs hp hcopy hty =>
    obtain ⟨hg, hstates⟩ := h.edge_regraphed hs hp hcopy hty
    exact hg.kept fun _ m => (hstates m).1
  | base hf hp hobj =>
    obtain ⟨hg, hstates⟩ := h.base_regraphed hf hp hobj
    exact hg.kept fun _ m => (hstates m).1
  | escape es hfinal hp hcopy =>
    exact (h.escape_regraphed es hp hcopy).kept fun hfalse => habsurd hfinal hfalse
  | fields es hfinal hp hcopy =>
    exact (h.fields_regraphed es hp hcopy).kept fun hfalse => habsurd hfinal hfalse
  | copy _ hn _ _ => exact Construction.addNode_kept hn fun _ => rfl
  | source hfinal hn hp hobj hnull hle =>
    exact (h.source_regraphed hn hp hobj hnull hle).kept fun hfalse => habsurd hfinal hfalse
  | destination hfinal hn hp hobj hnull =>
    exact (h.destination_regraphed hn hp hobj hnull).kept fun hfalse => habsurd hfinal hfalse

/-- A run of changes for one node of the ideal graph leaves the others, by induction on the
changes. -/
theorem Built.changes_kept (h : Built G c) (hrun : Changes G n final c c') :
    NodesKept n final c c' := by
  induction hrun with
  | refl => exact NodesKept.refl n final c
  | tail hrun hstep ih => exact ih.trans ((h.changes hrun).1.change_kept hstep)

/-! ## Nodes of operands

An operand was processed in the first iteration, so its node is there when the edges are added, and
it is of a kind that may carry the edge: only a stub is an arraycopy and only an `AddP` is a
field. -/

/-- Only a stub makes an arraycopy. -/
theorem IdealOp.made_of_not_stub {op : IdealOp} {m : PointsToNode} (h : op.made = some m)
    (hop : op.isStub = false) : m.type ≠ .arraycopy := by
  unfold IdealOp.made at h
  split at h <;> cases h <;> simp_all [javaObjectNode, blankNode, IdealOp.isStub]

/-- Only an `AddP` makes a field. -/
theorem IdealOp.made_of_not_addP {op : IdealOp} {m : PointsToNode} (h : op.made = some m)
    (hop : op.isAddP = false) : m.type ≠ .field := by
  unfold IdealOp.made at h
  split at h <;> cases h <;> simp_all [javaObjectNode, blankNode, IdealOp.isAddP]

namespace Built

variable (h : Built G c) {i p : ℕ}
include h

/-- The node of an ideal node is the one made for it, or an object. -/
theorem node_cases (hi : c.node i = some p) : (c.graph p).type = .javaObject ∨
    p = i ∧ ∃ m, (G.kind i).made = some m ∧ IsMade m (c.graph i) := by
  obtain rfl | ⟨rfl, -⟩ | ⟨rfl, -⟩ := h.mapped hi
  · by_cases hphantom : p = phantomObj
    · exact .inl (hphantom ▸ h.wellFormed.phantom_type)
    by_cases hnull : p = nullObj
    · exact .inl (hnull ▸ h.wellFormed.null_type)
    · exact .inr ⟨rfl, h.made hi hphantom hnull⟩
  · exact .inl h.wellFormed.null_type
  · exact .inl h.wellFormed.phantom_type

/-- The node of an operand is no arraycopy unless the operand is a stub. -/
theorem not_arraycopy (hi : c.node i = some p) (hstub : (G.kind i).isStub = false) :
    (c.graph p).type ≠ .arraycopy := by
  obtain hjava | ⟨rfl, m, hm, hmade⟩ := h.node_cases hi
  · rw [hjava]
    decide
  · rw [hmade.type]
    exact IdealOp.made_of_not_stub hm hstub

/-- The node of an operand that is neither is one whose objects may be looked at. -/
theorem holdsObjects (hi : c.node i = some p) (hstub : (G.kind i).isStub = false)
    (hadd : (G.kind i).isAddP = false) : HoldsObjects c.graph p := by
  obtain hjava | ⟨rfl, m, hm, hmade⟩ := h.node_cases hi
  · exact .inl hjava
  · have hcopy := IdealOp.made_of_not_stub hm hstub
    have hfield := IdealOp.made_of_not_addP hm hadd
    unfold HoldsObjects
    rw [hmade.type]
    revert hcopy hfield
    cases m.type <;> simp

/-- The type of a node that has been made. -/
theorem type_of_made {m : PointsToNode} (hn : c.node n = some n) (hm : (G.kind n).made = some m)
    (hT : G.Typed) : (c.graph n).type = m.type := by
  have hother : ¬ G.Reserved n := fun hres => by
    rw [hT.reserved hres] at hm
    cases hm
  obtain ⟨m', hm', hmade⟩ := h.made hn (fun heq => hother (.inl heq))
    fun heq => hother (.inr (.inl heq))
  obtain rfl := Option.some.inj (hm.symm.trans hm')
  exact hmade.type

/-- An edge that is added is there. -/
theorem mem_edge {s : ℕ} (hpair : ¬ ((c.graph s).type = .javaObject ∧ (c.graph p).type = .field)) :
    p ∈ ((c.edge s p).graph s).edges := by
  unfold Construction.edge
  obtain ⟨hmem, heq⟩ | ⟨-, g, heq, hadd⟩ := addEdge_cases h.wellFormed hpair
  · rw [heq]
    exact hmem
  · rw [heq]
    exact (hadd.mem_edges s p).2 (.inr ⟨rfl, rfl⟩)

/-- A field is given its base, and keeps it. -/
theorem mem_base {f : ℕ} (hf : (c.graph f).type = .field) (hobj : HoldsObjects c.graph p) :
    p ∈ ((c.base f p).graph f).bases := by
  unfold Construction.base
  obtain hobj | hlocal := hobj
  · obtain ⟨hmem, heq⟩ | ⟨-, g, heq, hadd⟩ := addBase_cases h.wellFormed hf hobj
    · rw [heq]
      exact hmem
    · rw [heq]
      exact (hadd.mem_bases f p).2 (.inr ⟨rfl, rfl⟩)
  · obtain ⟨hmem, heq⟩ | ⟨-, hadd⟩ := addBase_localVar h.wellFormed hf hlocal
    · rw [heq]
      exact hmem
    · exact (hadd.mem_bases f p).2 (.inr ⟨rfl, rfl⟩)

end Built

/-! ## The first iteration

Every ideal node gets its node of the connection graph here. Loads, stores, addresses and calls are
put on the delayed worklist as well, since the nodes of their operands need not be there yet. -/

/-- To put a node on the delayed worklist makes no node. -/
@[simp] theorem Construction.push_node (c : Construction) (n : ℕ) : (c.push n).node = c.node := by
  unfold Construction.push
  split <;> rfl

/-- It is on the worklist then. -/
theorem Construction.mem_push (c : Construction) (n : ℕ) : n ∈ (c.push n).delayed := by
  unfold Construction.push
  split
  · assumption
  · exact List.mem_append_right _ (List.mem_singleton_self n)

/-- A node that is made has its own number. -/
theorem Construction.addNode_self {m : PointsToNode} (hn : c.node n = none) :
    (c.addNode n m).node n = some n := by
  simp [Construction.addNode_of_none hn]

/-- A node that is made in the first iteration. -/
theorem Built.made_change (h : Built G c) (hn : c.node n = none) {m : PointsToNode}
    (hm : (G.kind n).made = some m) (hstub : (G.kind n).isStub = false) :
    Changes G n false c (c.addNode n m) ∧ Built G (c.addNode n m) ∧ Grows c (c.addNode n m) ∧
      (c.addNode n m).node n = some n := by
  have hchange : Change G n false c (c.addNode n m) := .add rfl hn hm hstub
  exact ⟨.single hchange, (h.change hchange).1, (h.change hchange).2,
    Construction.addNode_self hn⟩

/-- `add_local_var_and_edge`, in the first iteration. -/
theorem Built.addLocalVarAndEdge (h : Built G c) (hT : G.Typed) (hn : c.node n = none)
    {es : EscapeState} (hm : (G.kind n).made = some (blankNode .localVar .other es))
    (hstub : (G.kind n).isStub = false) {input : ℕ} (hi : input ∈ (G.kind n).inputs)
    (hop : input ∈ (G.kind n).operands) :
    Changes G n false c (c.addLocalVarAndEdge n es input) ∧
      (c.addLocalVarAndEdge n es input).node n = some n ∧
      (EdgeTo (c.addLocalVarAndEdge n es input) n input ∨
        n ∈ (c.addLocalVarAndEdge n es input).delayed) := by
  obtain ⟨hrun, hbuilt, hgrows, hself⟩ := h.made_change hn hm hstub
  unfold Construction.addLocalVarAndEdge Construction.addLocalVar
  split
  · exact ⟨hrun.tail (.push rfl), by simpa using hself, .inr (Construction.mem_push _ n)⟩
  next ptn hptn =>
    simp only [hself]
    have hptn := hgrows.node hptn
    have hlocal : ((c.addNode n (blankNode .localVar .other es)).graph n).type = .localVar :=
      hbuilt.type_of_made hself hm hT
    have hchange : Change G n false (c.addNode n (blankNode .localVar .other es))
        ((c.addNode n (blankNode .localVar .other es)).edge n ptn) :=
      .edge hself hptn (hbuilt.not_arraycopy hptn (hT.operands hop)) (.inl ⟨hlocal, hi⟩)
    have hgrows' := (hbuilt.change hchange).2
    refine ⟨hrun.tail hchange, hgrows'.node hself, .inl ⟨ptn, hgrows'.node hptn, ?_⟩⟩
    refine hbuilt.mem_edge fun hpair => ?_
    exact absurd (hlocal.symm.trans hpair.1) (by decide)

section

variable {op : IdealOp} (hop : G.kind n = op)
include hop

/-- An operation that made a node has been noted in the first iteration. -/
theorem noted_of_node (hn : c.node n = some n) (hk : op.isUnknown = false) : Noted G c n := by
  subst hop
  exact ⟨fun _ _ _ => hn, fun hunknown => by rw [hk] at hunknown; cases hunknown⟩

/-- So has one that makes none. -/
theorem noted_of_none (hm : op.made = none ∨ op.isStub = true) (hk : op.isUnknown = false) :
    Noted G c n := by
  subst hop
  refine ⟨fun m hmade hstub => ?_, fun hunknown => by rw [hk] at hunknown; cases hunknown⟩
  obtain hm | hm := hm
  · rw [hm] at hmade
    cases hmade
  · rw [hm] at hstub
    cases hstub

/-- What the first iteration is to do for an ideal node. -/
def FirstDone (G : IdealNodes) (n : ℕ) (c c' : Construction) : Prop :=
  Changes G n false c c' ∧ Noted G c' n ∧ (Recorded G c' n ∨ n ∈ c'.delayed)

/-- A node without edges. -/
theorem Built.firstDone_made (h : Built G c) (hn : c.node n = none) {m : PointsToNode}
    (hm : op.made = some m) (hstub : op.isStub = false) (hk : op.isUnknown = false)
    (hr : Recorded G (c.addNode n m) n) : FirstDone G n c (c.addNode n m) := by
  subst hop
  obtain ⟨hrun, -, -, hself⟩ := h.made_change hn hm hstub
  exact ⟨hrun, noted_of_node rfl hself hk, .inl hr⟩

/-- A node whose edges are delayed. -/
theorem Built.firstDone_delayed (h : Built G c) (hn : c.node n = none) {m : PointsToNode}
    (hm : op.made = some m) (hstub : op.isStub = false) (hk : op.isUnknown = false) :
    FirstDone G n c ((c.addNode n m).push n) := by
  subst hop
  obtain ⟨hrun, -, -, hself⟩ := h.made_change hn hm hstub
  exact ⟨hrun.tail (.push rfl), noted_of_node rfl (by simpa using hself) hk,
    .inr (Construction.mem_push _ n)⟩

/-- A local variable with an edge. -/
theorem Built.firstDone_edge (h : Built G c) (hT : G.Typed) (hn : c.node n = none)
    {es : EscapeState} (hm : op.made = some (blankNode .localVar .other es))
    (hstub : op.isStub = false) (hk : op.isUnknown = false) {input : ℕ}
    (hi : input ∈ op.inputs) (ho : input ∈ op.operands)
    (hr : ∀ c' : Construction, EdgeTo c' n input → Recorded G c' n) :
    FirstDone G n c (c.addLocalVarAndEdge n es input) := by
  subst hop
  obtain ⟨hrun, hself, hedge⟩ := h.addLocalVarAndEdge hT hn hm hstub hi ho
  exact ⟨hrun, noted_of_node rfl hself hk, hedge.imp (hr _) id⟩

end

/-- An address, with the base that it has if that has a node already. -/
theorem Built.firstDone_addP (h : Built G c) (hT : G.Typed) (hn : c.node n = none) {b : ℕ}
    {offset : Option ℤ} {isOop isUnsafe : Bool} (hop : G.kind n = .addP b offset isOop isUnsafe) :
    FirstDone G n c (c.addIdealNode n G) := by
  have hm : (G.kind n).made = some { blankNode .field .other (escapesGlobally isUnsafe) with
      offset := offset, isOop := isOop } := by rw [hop]; rfl
  simp only [Construction.addIdealNode, hn, hop]
  split
  · exact h.firstDone_delayed hop hn rfl rfl rfl
  next ptn hptn =>
    obtain ⟨hrun, hbuilt, hgrows, hself⟩ := h.made_change hn hm (by rw [hop]; rfl)
    have hptn := hgrows.node hptn
    have hfield := hbuilt.type_of_made hself hm hT
    have hobj := hbuilt.holdsObjects hptn
      (hT.operands (n := n) (by rw [hop]; simp [IdealOp.operands]))
      (hT.base hop)
    have hchange : Change G n false _ _ := .base hfield (hbuilt.registered hptn) hobj
    have hgrows' := (hbuilt.change hchange).2
    refine ⟨hrun.tail hchange, noted_of_node hop (hgrows'.node hself) rfl, .inl ?_⟩
    simp only [Recorded, hop]
    exact ⟨ptn, hgrows'.node hptn, hbuilt.mem_base hfield hobj⟩

/-- A node that loads and stores: the load is done, the store is delayed. -/
theorem Built.firstDone_loadStore (h : Built G c) (hT : G.Typed) (hn : c.node n = none)
    {access : Access} {address value : ℕ} (hop : G.kind n = .loadStore access address value) :
    FirstDone G n c (c.addIdealNode n G) := by
  have hm : (G.kind n).made = some (blankNode .localVar .other .noEscape) := by rw [hop]; rfl
  have haddress : address ∈ (G.kind n).inputs := by simp [hop, IdealOp.inputs]
  obtain ⟨hrun, hself, hedge⟩ := h.addLocalVarAndEdge hT hn hm (by rw [hop]; rfl) haddress
    (by simp [hop, IdealOp.operands])
  have hdelayed : FirstDone G n c ((c.addLocalVarAndEdge n .noEscape address).push n) :=
    ⟨hrun.tail (.push rfl), noted_of_node hop (by simpa using hself) rfl,
      .inr (Construction.mem_push _ n)⟩
  simp only [Construction.addIdealNode, hn, hop]
  cases access with
  | oop => exact hdelayed
  | raw => exact hdelayed
  | skipped =>
    refine ⟨hrun, noted_of_node hop hself rfl, hedge.imp (fun hedge => ?_) id⟩
    simp only [Recorded, hop]
    exact ⟨hedge, trivial⟩

/-- A call: what it returns has a node, and its arguments are delayed. -/
theorem Built.firstDone_call (h : Built G c) (hn : c.node n = none) {result : Option CallResult}
    {args : CallArguments} (hop : G.kind n = .call result args) :
    FirstDone G n c (c.addIdealNode n G) := by
  have hpush : Change G n false c (c.push n) := .push rfl
  have hbuilt := (h.change hpush).1
  have hn' : (c.push n).node n = none := by simpa using hn
  simp only [Construction.addIdealNode, hn, hop]
  cases result with
  | none =>
    exact ⟨.single hpush, noted_of_none hop (.inl rfl) rfl,
      .inr (Construction.mem_push _ n)⟩
  | some result =>
    cases result with
    | unknown =>
      have hk : (G.kind n).isUnknown = true := by rw [hop]; rfl
      refine ⟨.tail (.single hpush) (.unknown rfl hn' hk), ⟨fun m hm => ?_, fun _ => ?_⟩,
        .inr (Construction.mem_push _ n)⟩
      · rw [hop] at hm
        cases hm
      · exact Function.update_self _ _ _
    | object =>
      obtain ⟨hrun, -, -, hself⟩ := hbuilt.made_change hn' (m := _) (by rw [hop]; rfl)
        (by rw [hop]; rfl)
      refine ⟨.head hpush hrun, noted_of_node hop hself rfl, .inr ?_⟩
      exact (hbuilt.changes_kept hrun).delays (Construction.mem_push _ n)
    | arguments =>
      obtain ⟨hrun, -, -, hself⟩ := hbuilt.made_change hn' (m := _) (by rw [hop]; rfl)
        (by rw [hop]; rfl)
      refine ⟨.head hpush hrun, noted_of_node hop hself rfl, .inr ?_⟩
      exact (hbuilt.changes_kept hrun).delays (Construction.mem_push _ n)

/-- `add_node_to_connection_graph`. -/
theorem Built.addIdealNode (h : Built G c) (hT : G.Typed) (hn : c.node n = none) :
    FirstDone G n c (c.addIdealNode n G) := by
  cases hop : G.kind n with
  | addP b offset isOop isUnsafe => exact h.firstDone_addP hT hn hop
  | unknown =>
    have hk : (G.kind n).isUnknown = true := by rw [hop]; rfl
    simp only [Construction.addIdealNode, hn, hop]
    refine ⟨.single (.unknown rfl hn hk), ⟨fun m hm => ?_, fun _ => ?_⟩, .inl ?_⟩
    · rw [hop] at hm
      cases hm
    · exact Function.update_self _ _ _
    · simp only [Recorded, hop]
  | cast input | load input | proj input | ret input =>
    simp only [Construction.addIdealNode, hn, hop]
    exact h.firstDone_edge hop hT hn rfl rfl rfl (List.mem_singleton_self input)
      (List.mem_singleton_self input) fun c' hedge => by simpa only [Recorded, hop] using hedge
  | merge | stringIntrinsic =>
    simp only [Construction.addIdealNode, hn, hop]
    exact h.firstDone_delayed hop hn rfl rfl rfl
  | con | threadLocal | allocate =>
    simp only [Construction.addIdealNode, hn, hop]
    exact h.firstDone_made hop hn rfl rfl rfl (by simp only [Recorded, hop])
  | store access address value =>
    have hnoted : ∀ c' : Construction, Noted G c' n := fun c' =>
      noted_of_none hop (.inl rfl) rfl
    have hdelayed : FirstDone G n c (c.push n) :=
      ⟨.single (.push rfl), hnoted _, .inr (Construction.mem_push _ n)⟩
    simp only [Construction.addIdealNode, hn, hop]
    cases access with
    | oop => exact hdelayed
    | raw => exact hdelayed
    | skipped =>
      refine ⟨.refl, hnoted _, .inl ?_⟩
      simp only [Recorded, hop]
      trivial
  | loadStore access address value => exact h.firstDone_loadStore hT hn hop
  | stub =>
    simp only [Construction.addIdealNode, hn, hop]
    exact ⟨.single (.push rfl), noted_of_none hop (.inr rfl) rfl,
      .inr (Construction.mem_push _ n)⟩
  | call result args => exact h.firstDone_call hn hop
  | other =>
    simp only [Construction.addIdealNode, hn, hop]
    refine ⟨.refl, noted_of_none hop (.inl rfl) rfl, .inl ?_⟩
    simp only [Recorded, hop]

/-! ## The final iteration

The delayed nodes get their edges, when all nodes exist. The order of the worklist does not matter:
what is recorded for one node is not touched by another. -/

namespace Built

variable (h : Built G c)
include h

/-- Loops of the final iteration. -/
theorem foldlM_changes {α : Type} {l : List α} {f : Construction → α → Option Construction}
    {P : Construction → α → Prop}
    (hstep : ∀ {c₁ c₂}, ∀ a ∈ l, Built G c₁ → Grows c c₁ → f c₁ a = some c₂ →
      Changes G n true c₁ c₂ ∧ P c₂ a)
    (hkeep : ∀ {c₁ c₂ a}, Grows c₁ c₂ → P c₁ a → P c₂ a) (heq : l.foldlM f c = some c') :
    Changes G n true c c' ∧ ∀ a ∈ l, P c' a := by
  have hone : ∀ {c₁ c₂ : Construction}, ∀ a ∈ l, Built G c₁ ∧ Grows c c₁ → f c₁ a = some c₂ →
      Changes G n true c₁ c₂ ∧ (Built G c₂ ∧ Grows c c₂) ∧ P c₂ a := by
    intro c₁ c₂ a ha hI hc
    obtain ⟨hrun, hP⟩ := hstep a ha hI.1 hI.2 hc
    obtain ⟨hbuilt, hgrows⟩ := hI.1.changes hrun
    exact ⟨hrun, ⟨hbuilt, hI.2.trans hgrows⟩, hP⟩
  obtain ⟨hrun, -, hall⟩ := Loops.foldlM_run (R := Changes G n true) (fun _ => .refl)
    (fun hrun hrun' => hrun.trans hrun') hone
    (fun hI hrun hP => hkeep (hI.1.changes hrun).2 hP) ⟨h, Grows.refl c⟩ heq
  exact ⟨hrun, hall⟩

/-- An edge between the nodes of two ideal nodes. -/
theorem edgeTo {s i : ℕ} (hs : c.node s = some s)
    (hty : (c.graph s).type = .localVar ∧ i ∈ (G.kind s).inputs ∨ (c.graph s).type = .field)
    (hstub : (G.kind i).isStub = false) (heq : c.edgeTo s i = some c') :
    Changes G n true c c' ∧ EdgeTo c' s i := by
  unfold Construction.edgeTo at heq
  rw [hs] at heq
  split at heq
  · next src dst hsrc hdst =>
    obtain rfl := Option.some.inj hsrc
    obtain rfl := Option.some.inj heq
    have hchange : Change G n true c (c.edge s dst) :=
      .edge hs hdst (h.not_arraycopy hdst hstub) hty
    refine ⟨.single hchange, dst, (h.change hchange).2.node hdst, h.mem_edge fun hpair => ?_⟩
    obtain ⟨hty, -⟩ | hty := hty
    · exact absurd (hty.symm.trans hpair.1) (by decide)
    · exact absurd (hty.symm.trans hpair.1) (by decide)
  · cases heq

/-- `set_escape_state`. -/
theorem escape {es : EscapeState} {i : ℕ} (hstub : (G.kind i).isStub = false)
    (heq : c.escape es i = some c') : Changes G n true c c' ∧ EscapedTo c' es i := by
  obtain ⟨p, hp, rfl⟩ := Option.map_eq_some_iff.1 heq
  refine ⟨.single (.escape es rfl (h.registered hp) (h.not_arraycopy hp hstub)), p, hp, ?_⟩
  refine or_iff_not_imp_left.2 fun hnull => ?_
  simp only [setEscapeState_apply, ne_eq, hnull, not_false_eq_true, and_self, if_true,
    EscapeState.toNat_max]
  exact Nat.le_max_right _ _

/-- `set_fields_escape_state`. -/
theorem escapeFields {es : EscapeState} {i : ℕ} (hstub : (G.kind i).isStub = false)
    (heq : c.escapeFields es i = some c') :
    Changes G n true c c' ∧ FieldsEscapedTo c' es i := by
  obtain ⟨p, hp, rfl⟩ := Option.map_eq_some_iff.1 heq
  refine ⟨.single (.fields es rfl (h.registered hp) (h.not_arraycopy hp hstub)), p, hp, ?_⟩
  refine or_iff_not_imp_left.2 fun hnull => ?_
  simp only [setFieldsEscapeState_apply, ne_eq, hnull, not_false_eq_true, and_self, if_true,
    EscapeState.toNat_max]
  exact Nat.le_max_right _ _

/-- An address that is registered is a field. -/
theorem address_field (hT : G.Typed) {a p : ℕ} (hadd : (G.kind a).isAddP = true)
    (hp : c.node a = some p) : p = a ∧ (c.graph a).type = .field := by
  cases hop : G.kind a with
  | addP =>
    obtain rfl | ⟨-, hnarrow⟩ | ⟨-, hunknown⟩ := h.mapped hp
    · exact ⟨rfl, (h.type_of_made hp (by rw [hop]; rfl) hT).trans rfl⟩
    · rw [hT.reserved (.inr (.inr hnarrow))] at hop
      cases hop
    · rw [hop] at hunknown
      cases hunknown
  | _ =>
    rw [hop] at hadd
    cases hadd

/-- `add_final_edges_unsafe_access`. -/
theorem finalUnsafeAccess (hT : G.Typed) {access : Access} {address value : ℕ}
    (haddress : access = .oop → (G.kind address).isAddP = true)
    (hstub : (G.kind value).isStub = false)
    (heq : c.finalUnsafeAccess access address value = some c') :
    Changes G n true c c' ∧ AccessRecorded G c' access address value := by
  have hedge : ∀ {c₁ c₂ : Construction}, Built G c₁ → (G.kind address).isAddP = true →
      c₁.edgeTo address value = some c₂ → Changes G n true c₁ c₂ ∧ EdgeTo c₂ address value := by
    intro c₁ c₂ hc₁ hadd heq
    have hreg : ∃ p, c₁.node address = some p := by
      unfold Construction.edgeTo at heq
      split at heq
      · next p _ hp _ => exact ⟨p, hp⟩
      · cases heq
    obtain ⟨p, hp⟩ := hreg
    obtain ⟨rfl, hfield⟩ := hc₁.address_field hT hadd hp
    exact hc₁.edgeTo hp (.inr hfield) hstub heq
  cases access with
  | oop => exact hedge h (haddress rfl) heq
  | raw =>
    simp only [Construction.finalUnsafeAccess] at heq
    split at heq
    swap
    · cases heq
    next c₁ adr hescape hadr =>
    obtain ⟨hrun, hescaped⟩ := h.escape (n := n) hstub hescape
    obtain ⟨hbuilt, hgrows⟩ := h.changes hrun
    split at heq
    · next hfield =>
      have hadd : (G.kind address).isAddP = true := by
        by_contra hnot
        rw [Bool.not_eq_true] at hnot
        have hadr := hgrows.node hadr
        obtain hjava | ⟨rfl, m, hm, hmade⟩ := hbuilt.node_cases hadr
        · exact absurd (hjava.symm.trans hfield) (by decide)
        · rw [hmade.type] at hfield
          exact IdealOp.made_of_not_addP hm hnot hfield
      obtain ⟨hrun', hedge⟩ := hedge hbuilt hadd heq
      exact ⟨hrun.trans hrun', (hbuilt.changes hrun').2.escapedTo hescaped, fun _ => hedge⟩
    · next hfield =>
      obtain rfl := Option.some.inj heq
      refine ⟨hrun, hescaped, fun hadd => ?_⟩
      obtain ⟨rfl, hty⟩ := hbuilt.address_field hT hadd (hgrows.node hadr)
      exact absurd hty hfield
  | skipped => cases heq

end Built

end

end StackAllocation
