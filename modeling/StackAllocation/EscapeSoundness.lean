import StackAllocation.ClosedGraph
import StackAllocation.HeapAbstraction
import StackAllocation.PointerCompare

/-!
# The connection graph and the runs of the method

The connection graph that construction hands to `complete_connection_graph` describes what the
method does with references (`graphMethod`): its edges are the assignments, loads, stores and
allocations, and its escape states say which values are given to other code. The completed graph
is a closed abstraction of it, so it is right about every run: what other code gets hold of has
an escape state that says so.

Copies of arrays and clones are followed from an object that is not itself a copy, to the same
offset, and to a destination that does not refer to an object directly; the graph does not
follow others.

So what `optimize_ptr_compare` says of references that differ holds in every run.
-/

namespace StackAllocation

open HeapAbstraction

/-! ## What a graph describes

The nodes of the constructed graph are read as a method: a local variable is a variable, its edges
say what may be assigned to it, a field that it may be stored to or loaded from, an object an
allocation or something unknown. What the completed graph says about it is the abstraction that is
to be sound: which objects a variable may refer to, what the fields may hold, and what escapes. -/

section

variable (g : Nodes)

/-- The operand that a node stands for. -/
def operandOf (n : ℕ) : Option (Operand ℕ ℕ) :=
  match (g n).type with
  | .localVar => some (.var n)
  | .javaObject =>
    if n = nullObj then some .null
    else if n = phantomObj then some .unknown
    else if (g n).ideal = .other then some (.constant n)
    else none
  | .field => none
  | .arraycopy => none

/-- Other code gets what escapes as an argument or globally. -/
def EscapesAt (n : ℕ) : Prop := EscapeState.argEscape.toNat ≤ (g n).escapeState.toNat

instance (n : ℕ) : Decidable (EscapesAt g n) := inferInstanceAs (Decidable (_ ≤ _))

/-- The destination of an arraycopy does not refer to an object directly. -/
def IndirectDestination (n : ℕ) : Prop :=
  (g n).type = .localVar → ∀ e ∈ (g n).edges, (g e).type ≠ .javaObject

/-- What the method does with references. -/
def graphMethod : Method ℕ ℕ ℕ ℤ where
  unknown := phantomObj
  global s := (g s).type = .javaObject ∧ (g s).ideal = .other
  initialized s := (g s).ideal = .callStaticJava
  move y x := (g y).type = .localVar ∧ ∃ n ∈ (g y).edges, operandOf g n = some x
  allocate y p := (g y).type = .localVar ∧ p ∈ (g y).edges ∧ EscapeCandidate g p
  load y f := (g y).type = .localVar ∧ f ∈ (g y).edges ∧ OopField g f
  store f x := OopField g f ∧ ∃ n ∈ (g f).edges, operandOf g n = some x
  base f b := OopField g f ∧ ∃ n ∈ (g f).bases, operandOf g n = some b
  covers f d := (g f).offset = none ∨ (g f).offset = some d
  pass x := ∃ n, operandOf g n = some x ∧ EscapesAt g n
  expose x := ∃ n, operandOf g n = some x ∧ Escaping g n
  clone x y := ∃ ac n m, (g ac).type = .arraycopy ∧ n ∈ (g ac).edges ∧ operandOf g n = some x ∧
    ac ∈ (g m).edges ∧ operandOf g m = some y ∧ IndirectDestination g m

/-- An object that is neither an allocation nor null escapes. -/
def ObjectsKnown : Prop :=
  ∀ n, (g n).type = .javaObject → n ≠ nullObj →
    EscapesAt g n ∨ EscapeCandidate g n ∧ (g n).escapeState = .noEscape

/-- An object in the edges of a node. -/
def NodeRefersTo (x s : ℕ) : Prop := s ∈ (g x).edges ∧ (g s).type = .javaObject ∧ s ≠ nullObj

end

/-- The unknown object is not null. -/
theorem phantomObj_ne_nullObj : phantomObj ≠ nullObj := by decide

/-- What the completed graph `g` says about the method of `g₀`. -/
def graphAbstraction (g₀ g : Nodes) : Abstraction (graphMethod g₀) where
  pointsTo x s := NodeRefersTo g x s
  content f s := NodeRefersTo g f s
  object f s := OopField g f ∧ HasBase g f s ∧ s ≠ nullObj
  escapes s := EscapesAt g s
  fieldsEscape s := Escaping g s

/-- Two fields that cover one place may have the same offset. -/
theorem sameOffset_of_covers {g₀ g : Nodes} (hext : Extends g₀ g) {f f' : ℕ} {d : ℤ}
    (h : (graphMethod g₀).covers f d) (h' : (graphMethod g₀).covers f' d) :
    sameOffset (g f).offset (g f').offset = true := by
  rw [hext.offset, hext.offset]
  obtain h | h := h
  · simp [sameOffset, h]
  obtain h' | h' := h'
  · simp [sameOffset, h']
  · simp [sameOffset, h, h']

/-- What is known of the completed graph. -/
structure GraphClosed (W : Worklists) (g₀ g : Nodes) : Prop extends Finished W g₀ g where
  known : ObjectsKnown g₀

namespace GraphClosed

variable {W : Worklists} {g₀ g : Nodes} (h : GraphClosed W g₀ g)
include h

/-- The nodes have their types from the constructed graph. -/
theorem type_eq (n : ℕ) : (g n).type = (g₀ n).type := h.grown.type n

/-- A field of an oop is still one. -/
theorem oopField {f : ℕ} (hf : OopField g₀ f) : OopField g f := by
  rwa [OopField, h.type_eq, h.grown.isOop]

/-- A node that has escaped in the graph is said to escape. -/
theorem escaping {n : ℕ} (hn : EscapesAt g n) : Escaping g n :=
  Nat.le_trans hn (h.wellFormed.state_le n)

/-- What has escaped before completion has escaped after it. -/
theorem escapesAt {n : ℕ} (hn : EscapesAt g₀ n) : EscapesAt g n :=
  Nat.le_trans hn (h.grown.escapeState n)

/-- What an operand may refer to, by the node it stands for. -/
theorem operand_cases {n s : ℕ} {x : Operand ℕ ℕ} (hn : operandOf g₀ n = some x)
    (hs : (graphAbstraction g₀ g).operand x s) :
    (g n).type = .localVar ∧ NodeRefersTo g n s ∨
      s = n ∧ (g s).type = .javaObject ∧ s ≠ nullObj := by
  unfold operandOf at hn
  split at hn
  · next hty =>
    obtain rfl := Option.some.inj hn
    exact .inl ⟨(h.type_eq n).trans hty, hs⟩
  · next hty =>
    split at hn
    · obtain rfl := Option.some.inj hn
      exact hs.elim
    next hnull =>
    split at hn
    · next hphantom =>
      obtain rfl := Option.some.inj hn
      obtain rfl : s = phantomObj := hs
      exact .inr ⟨hphantom.symm, h.wellFormed.phantom_type, hphantom ▸ hnull⟩
    split at hn
    · obtain rfl := Option.some.inj hn
      obtain rfl : s = n := hs
      exact .inr ⟨rfl, (h.type_eq s).trans hty, hnull⟩
    · cases hn
  · cases hn
  · cases hn

/-- An object follows an edge of the method. -/
theorem refersTo {y n s : ℕ} {x : Operand ℕ ℕ} (hy : (g y).type = .localVar ∨ (g y).type = .field)
    (hmem : n ∈ (g₀ y).edges) (hn : operandOf g₀ n = some x)
    (hs : (graphAbstraction g₀ g).operand x s) : NodeRefersTo g y s := by
  have hmem := h.grown.edges y hmem
  obtain ⟨hlocal, hobj, hjava, hnull⟩ | ⟨rfl, hjava, hnull⟩ := h.operand_cases hn hs
  · exact ⟨h.closed.flow h.wellFormed h.linked hjava hobj (.edge hmem (.inl hlocal) hy), hjava,
      hnull⟩
  · exact ⟨hmem, hjava, hnull⟩

/-- A field of the object, among its edges. -/
theorem mem_edges {f s : ℕ} (hobj : (graphAbstraction g₀ g).object f s) : f ∈ (g s).edges :=
  (h.wellFormed.mem_object_edges f s hobj.2.1.1 hobj.1.1).2
    ⟨hobj.2.1.mem_bases h.wellFormed h.closed, hobj.2.2⟩

/-- The fields of an object escape with it. -/
theorem field_escapes {f s : ℕ} (hs : Escaping g s) (hobj : (graphAbstraction g₀ g).object f s) :
    EscapesAt g f := by
  have hnull : f ≠ nullObj := by
    rintro rfl
    exact absurd (h.wellFormed.null_type.symm.trans hobj.1.1) (by decide)
  have hty : (g s).type ≠ .arraycopy := by
    rw [hobj.2.1.1]
    decide
  have hedge := (h.settled s hty hs).edges f (h.mem_edges hobj) hnull
  exact Nat.le_trans hs (hedge.oopField hobj.1.1 hobj.1.2 hobj.2.1.1)

/-- What a node refers to escapes with it. -/
theorem refersTo_escapes {n s : ℕ} (hty : (g n).type ≠ .arraycopy) (hn : EscapesAt g n)
    (hs : NodeRefersTo g n s) : EscapesAt g s := by
  have hsty : (g s).type ≠ .arraycopy := by
    rw [hs.2.1]
    decide
  exact Nat.le_trans hn
    (((h.settled n hty (h.escaping hn)).edges s hs.1 hs.2.2).escapeState hsty)

/-- What an escaping node refers to escapes. -/
theorem refersTo_escaping {n s : ℕ} (hty : (g n).type ≠ .arraycopy) (hn : Escaping g n)
    (hs : NodeRefersTo g n s) : Escaping g s :=
  Nat.le_trans hn ((h.settled n hty hn).edges s hs.1 hs.2.2).fieldsEscapeState

/-- A field that escapes may refer to anything. -/
theorem field_unknown {f : ℕ} (hf : OopField g f) (hesc : EscapesAt g f) :
    NodeRefersTo g f phantomObj := by
  have hty : (g f).type ≠ .arraycopy := by
    rw [hf.1]
    decide
  exact ⟨(h.settled f hty (h.escaping hesc)).phantom hf.1 hf.2 hesc, h.wellFormed.phantom_type,
    phantomObj_ne_nullObj⟩

/-- Unless it is known what is in the fields of an object, they may refer to anything. -/
theorem content_unknown {f s : ℕ} (hobj : (graphAbstraction g₀ g).object f s)
    (hinit : ¬ ((g s).ideal = .allocate ∧ (g s).arraycopyDst = false)) :
    NodeRefersTo g f phantomObj := by
  by_cases hs : EscapesAt g s
  · exact h.field_unknown hobj.1 (h.field_escapes (h.escaping hs) hobj)
  · obtain hesc | ⟨hcand, hno⟩ := h.known s (by rw [← h.type_eq]; exact hobj.2.1.1) hobj.2.2
    · exact absurd (h.escapesAt hesc) hs
    have hstate : (g s).escapeState = .noEscape := by
      have hle := h.grown.escapeState s
      rw [hno] at hle
      unfold EscapesAt at hs
      revert hs hle
      cases (g s).escapeState <;> decide
    exact ⟨h.phantomInit s (h.grown.escapeCandidate.2 hcand) hstate hinit f (h.mem_edges hobj)
      hobj.1.1 hobj.1.2, h.wellFormed.phantom_type, phantomObj_ne_nullObj⟩

/-- An object that an arraycopy reads. -/
theorem copiesFrom {ac n s : ℕ} {x : Operand ℕ ℕ} (hac : n ∈ (g₀ ac).edges)
    (hn : operandOf g₀ n = some x) (hs : (graphAbstraction g₀ g).operand x s) :
    CopiesFrom g ac s ∧ (g s).type = .javaObject ∧ s ≠ nullObj := by
  have hmem := h.grown.edges ac hac
  obtain ⟨hlocal, hobj, hjava, hnull⟩ | ⟨rfl, hjava, hnull⟩ := h.operand_cases hn hs
  · exact ⟨⟨hjava, n, hmem, .inr ⟨hlocal, hobj⟩⟩, hjava, hnull⟩
  · exact ⟨⟨hjava, s, hmem, .inl rfl⟩, hjava, hnull⟩

/-- An object that an arraycopy writes. -/
theorem copiesTo {ac m t : ℕ} {y : Operand ℕ ℕ} (hac : ac ∈ (g₀ m).edges)
    (hm : operandOf g₀ m = some y) (hindirect : IndirectDestination g₀ m)
    (ht : (graphAbstraction g₀ g).operand y t) :
    CopiesTo g₀ g ac t ∧ (g t).type = .javaObject ∧ t ≠ nullObj := by
  have hmem := h.grown.edges m hac
  obtain ⟨hlocal, hobj, hjava, hnull⟩ | ⟨rfl, hjava, hnull⟩ := h.operand_cases hm ht
  · refine ⟨.inr ⟨hjava, m, hlocal, hmem, hobj, fun hold => ?_⟩, hjava, hnull⟩
    rw [h.type_eq] at hlocal hjava
    exact hindirect hlocal t hold hjava
  · exact ⟨.inl hmem, hjava, hnull⟩

/-- Only the object for null is made by a null constant. -/
theorem ne_null {s : ℕ} (hs : (g₀ s).ideal ≠ .nullConP) : s ≠ nullObj := by
  rintro rfl
  exact hs ((h.grown.ideal nullObj).symm.trans h.wellFormed.null_ideal)

/-- A local variable is not the null object. -/
theorem localVar_ne_null {n : ℕ} (hn : (g n).type = .localVar) : n ≠ nullObj := by
  rintro rfl
  exact absurd (h.wellFormed.null_type.symm.trans hn) (by decide)

/-- What an operand refers to escapes with the node that it stands for. -/
theorem operand_escapes {n s : ℕ} {x : Operand ℕ ℕ} (hn : operandOf g₀ n = some x)
    (hs : (graphAbstraction g₀ g).operand x s) (hesc : EscapesAt g n) : EscapesAt g s := by
  obtain ⟨hlocal, hobj⟩ | ⟨rfl, -⟩ := h.operand_cases hn hs
  · exact h.refersTo_escapes (by rw [hlocal]; decide) hesc hobj
  · exact hesc

/-- So do the fields of what it refers to. -/
theorem operand_escaping {n s : ℕ} {x : Operand ℕ ℕ} (hn : operandOf g₀ n = some x)
    (hs : (graphAbstraction g₀ g).operand x s) (hesc : n ≠ nullObj → Escaping g n) :
    Escaping g s := by
  obtain ⟨hlocal, hobj⟩ | ⟨rfl, -, hnull⟩ := h.operand_cases hn hs
  · exact h.refersTo_escaping (by rw [hlocal]; decide) (hesc (h.localVar_ne_null hlocal)) hobj
  · exact hesc hnull

/-- The fields of a copy escape only with what they are copied from. -/
theorem source_escaping {ac n t : ℕ} (hac : (g ac).type = .arraycopy) (hsrc : n ∈ (g₀ ac).edges)
    (hto : CopiesTo g₀ g ac t) (ht : (g t).type = .javaObject) (htn : t ≠ nullObj)
    (hesc : Escaping g t) (hn : n ≠ nullObj) : Escaping g n := by
  have hacn : ac ≠ nullObj := by
    rintro rfl
    exact absurd (h.wellFormed.null_type.symm.trans hac) (by decide)
  have hty : (g t).type ≠ .arraycopy := by
    rw [ht]
    decide
  have hlink := (h.settled t hty hesc).edges ac (hto.mem_edges h.linked hac htn) hacn
  have hcopy : Escaping g ac := Nat.le_trans hesc hlink.fieldsEscapeState
  exact Nat.le_trans hcopy (h.copies ac hac hcopy n hsrc hn).fieldsEscapeState

/-- The completed graph follows what the method does. -/
theorem abstraction_closed : (graphAbstraction g₀ g).Closed where
  move := by
    rintro y x s ⟨hy, n, hmem, hn⟩ hs
    exact h.refersTo (.inl ((h.type_eq y).trans hy)) hmem hn hs
  allocate := by
    rintro y s ⟨-, hmem, hcand⟩
    refine ⟨h.grown.edges y hmem, (h.type_eq s).trans hcand.1, h.ne_null ?_⟩
    obtain hc | hc := hcand.2 <;> rw [hc] <;> decide
  load := by
    rintro y f s ⟨hy, hmem, hf⟩ ⟨hobj, hjava, hnull⟩
    refine ⟨h.closed.flow h.wellFormed h.linked hjava hobj ?_, hjava, hnull⟩
    exact .edge (h.grown.edges y hmem) (.inr (h.oopField hf).1) (.inl ((h.type_eq y).trans hy))
  store := by
    rintro f x s ⟨hf, n, hmem, hn⟩ hs
    exact h.refersTo (.inr (h.oopField hf).1) hmem hn hs
  base := by
    rintro f b s ⟨hf, n, hmem, hn⟩ hs
    have hmem := h.grown.bases f hmem
    refine ⟨h.oopField hf, ?_⟩
    obtain ⟨-, hobj, hjava, hnull⟩ | ⟨rfl, hjava, hnull⟩ := h.operand_cases hn hs
    · exact ⟨⟨hjava, n, hmem, .inr hobj⟩, hnull⟩
    · exact ⟨⟨hjava, s, hmem, .inl rfl⟩, hnull⟩
  same := by
    rintro f f' s d p hs ⟨hf, hbase, hnull⟩ ⟨hf', hbase', -⟩ hcov hcov' ⟨hmem, hjava, hp⟩
    refine ⟨h.closed.flow h.wellFormed h.linked hjava hmem ?_, hjava, hp⟩
    exact .sameObject hf hf' (sameOffset_of_covers h.grown hcov hcov') hs hnull hbase hbase'
  clone := by
    rintro x y s t f f' d p ⟨ac, n, m, hac, hsrc, hn, hdst, hm, hindirect⟩ hs ht htu
      ⟨hf, hbase, hnull⟩ ⟨hf', hbase', -⟩ hcov hcov' ⟨hmem, hjava, hp⟩
    obtain ⟨hfrom, -⟩ := h.copiesFrom hsrc hn hs
    obtain ⟨hto, -, htn⟩ := h.copiesTo hdst hm hindirect ht
    refine ⟨h.closed.flow h.wellFormed h.linked hjava hmem ?_, hjava, hp⟩
    exact .copied hf hf' (sameOffset_of_covers h.grown hcov hcov') ((h.type_eq ac).trans hac) hnull
      hbase hfrom htu htn (.inl hbase') hto
  clone_unknown := by
    rintro x y t f ⟨ac, n, m, hac, -, -, hdst, hm, hindirect⟩ ht hobj
    obtain ⟨hto, -, htn⟩ := h.copiesTo hdst hm hindirect ht
    have hac := (h.type_eq ac).trans hac
    refine h.content_unknown hobj fun hinit => ?_
    have hflag := h.wellFormed.arraycopyDst t ac hac (hto.mem_edges h.linked hac htn)
    rw [hinit.2] at hflag
    cases hflag
  clone_fields := by
    rintro x y s t ⟨ac, n, m, hac, hsrc, hn, hdst, hm, hindirect⟩ hs ht hesc
    obtain ⟨hto, htjava, htn⟩ := h.copiesTo hdst hm hindirect ht
    have hac := (h.type_eq ac).trans hac
    exact h.operand_escaping hn hs (h.source_escaping hac hsrc hto htjava htn hesc)
  initialized := by
    rintro f s hinit hobj
    refine h.content_unknown hobj fun hnot => ?_
    have hideal := (h.grown.ideal s).trans hinit
    exact absurd (hideal.symm.trans hnot.1) (by decide)
  pass := by
    rintro x s ⟨n, hn, hesc⟩ hs
    exact h.operand_escapes hn hs (h.escapesAt hesc)
  expose := by
    rintro x s ⟨n, hn, hesc⟩ hs
    exact h.operand_escaping hn hs fun _ => Nat.le_trans hesc (h.raised n)
  unknown := by
    have hphantom := h.wellFormed.phantom_escapes.1
    change EscapeState.argEscape.toNat ≤ (g phantomObj).escapeState.toNat
    rw [hphantom]
    decide
  global := by
    rintro s ⟨hjava, hideal⟩
    obtain hesc | ⟨hcand, -⟩ := h.known s hjava (h.ne_null (by rw [hideal]; decide))
    · exact h.escapesAt hesc
    · obtain hc | hc := hcand.2 <;> exact absurd (hideal.symm.trans hc) (by decide)
  fields := h.escaping
  fields_content := by
    rintro f s p hesc hobj hp
    refine h.refersTo_escapes ?_ (h.field_escapes hesc hobj) hp
    rw [hobj.1.1]
    decide
  fields_unknown hesc hobj := h.field_unknown hobj.1 (h.field_escapes hesc hobj)

end GraphClosed

/-! ## Runs of the method

The abstraction is closed under all that the method does (`GraphClosed.abstraction_closed`), and the
library turns this into a statement about every state of every run. -/

/-- The completed graph is right about every state of every run: what other code refers to
escapes, and variables and fields refer to what the graph says, or to what escapes where the
graph has the phantom object. -/
theorem completeConnectionGraph_sound {fuel : ℕ} {clock : Clock} {W : Worklists} {I : InitInfo}
    {g g' : Nodes} {nonEscaped nonEscaped' : List ℕ} (hconstructed : Constructed W g nonEscaped)
    (hknown : ObjectsKnown g)
    (h : completeConnectionGraph fuel clock W I g nonEscaped = some (.finished (g', nonEscaped')))
    {s s' : State ℕ ℕ ℤ} (hs : (graphMethod g).Start s)
    (hrun : Relation.ReflTransGen (Step (graphMethod g)) s s') :
    (∀ o ∈ s'.outside, EscapesAt g' o.site) ∧ (∀ o ∈ s'.exposed, Escaping g' o.site) ∧
    (∀ x o, s'.var x = some o →
      NodeRefersTo g' x o.site ∨ EscapesAt g' o.site ∧ NodeRefersTo g' x phantomObj) ∧
    ∀ o d p f, s'.heap o d = some p → OopField g' f → HasBase g' f o.site → o.site ≠ nullObj →
      (g' f).offset = none ∨ (g' f).offset = some d →
      NodeRefersTo g' f p.site ∨ EscapesAt g' p.site ∧ NodeRefersTo g' f phantomObj := by
  have hgraph : GraphClosed W g g' := ⟨(completeConnectionGraph_finished hconstructed h).1, hknown⟩
  have hsound := hgraph.abstraction_closed.sound hs hrun
  refine ⟨fun o => hsound.outside, fun o => hsound.exposed, fun x o => hsound.var, ?_⟩
  intro o d p f hp hf hbase hnull hoff
  rw [hgraph.grown.offset] at hoff
  exact hsound.content hp ⟨hf, hbase, hnull⟩ hoff

/-! ## Comparisons

What the points-to sets say of two variables is used by `optimize_ptr_compare`. It answers that they
differ only if one of them can refer to nothing but allocations that do not escape, and the other to
none of these; then the objects are different in every state, whenever each of the variables was
assigned. -/

section

variable {g : Nodes} {n m : ℕ} {o : Obj ℕ}

/-- What a variable refers to, by the completed graph. -/
def MayHold (g : Nodes) (n : ℕ) (o : Obj ℕ) : Prop :=
  NodeRefersTo g n o.site ∨ EscapesAt g o.site ∧ NodeRefersTo g n phantomObj

/-- What a local variable may refer to is in its points-to set. -/
theorem NodeRefersTo.inPointsToSet {s : ℕ} (h : NodeRefersTo g n s) (hn : (g n).type = .localVar) :
    InPointsToSet g n s := by
  refine ⟨h.2.1, ?_⟩
  unfold pointsTo
  rw [hn, if_neg (by decide), decide_eq_true_eq]
  exact h.1

/-- An allocation that is compared as not escaping has not escaped. -/
theorem not_escapesAt_of_isNonEscapingAllocation {j : ℕ} (h : isNonEscapingAllocation g j = true) :
    ¬ EscapesAt g j := by
  rw [isNonEscapingAllocation, Bool.and_eq_true, decide_eq_true_eq] at h
  rw [EscapesAt, h.1]
  decide

/-- The unknown object has escaped from the start. -/
theorem WellFormed.phantom_escapesAt (hg : WellFormed g) : EscapesAt g phantomObj := by
  rw [EscapesAt, hg.phantom_escapes.1]
  decide

/-- Only a reference to a non-escaping allocation holds its objects. -/
theorem MayHold.refersTo {j : ℕ} (h : MayHold g n o) (hj : isNonEscapingAllocation g j = true)
    (ho : o.site = j) : NodeRefersTo g n j := by
  obtain h | ⟨hesc, -⟩ := h
  · exact ho ▸ h
  · exact absurd (ho ▸ hesc) (not_escapesAt_of_isNonEscapingAllocation hj)

/-- The object of a reference to a unique Java object. -/
theorem MayHold.site_eq {j : ℕ} (h : MayHold g n o) (hn : (g n).type = .localVar)
    (hunique : uniqueJavaObject g n = some j) (hj : j ≠ phantomObj) : o.site = j := by
  have hset := inPointsToSet_iff_of_unique hunique
  obtain h | ⟨-, h⟩ := h
  · exact (hset _).1 (h.inPointsToSet hn)
  · exact absurd ((hset _).1 (h.inPointsToSet hn)).symm hj

/-- If one side is a single allocation that does not escape and the other cannot refer to it, the
values differ. -/
theorem compareNonEscaping_ne (hg : WellFormed g) (hn : (g n).type = .localVar)
    (hm : (g m).type = .localVar)
    (h : compareNonEscaping g (uniqueJavaObject g n) m = true) (hno : MayHold g n o) :
    ¬ MayHold g m o := by
  cases hunique : uniqueJavaObject g n with
  | none =>
    rw [hunique] at h
    cases h
  | some j =>
    rw [hunique, compareNonEscaping, Bool.and_eq_true, Bool.not_eq_true'] at h
    have hphantom : j ≠ phantomObj := by
      rintro rfl
      exact not_escapesAt_of_isNonEscapingAllocation h.1 hg.phantom_escapesAt
    intro hmo
    have hset := (hmo.refersTo h.1 (hno.site_eq hn hunique hphantom)).inPointsToSet hm
    rw [InPointsToSet, h.2] at hset
    exact Bool.false_ne_true hset.2

/-- If one side has only such allocations and the sets do not meet, the values differ. -/
theorem nonEscapingAllocation_ne (hg : WellFormed g) (hn : (g n).type = .localVar)
    (hm : (g m).type = .localVar) (hmeet : ¬ meet g n m = true)
    (hall : nonEscapingAllocation g n = true) (hno : MayHold g n o) : ¬ MayHold g m o := by
  intro hmo
  obtain hno | ⟨-, hphantom⟩ := hno
  · have hset := hno.inPointsToSet hn
    have halloc := isNonEscapingAllocation_of_mem hall hset
    exact disjoint_of_not_meet hmeet hset ((hmo.refersTo halloc rfl).inPointsToSet hm)
  · have halloc := isNonEscapingAllocation_of_mem hall (hphantom.inPointsToSet hn)
    exact not_escapesAt_of_isNonEscapingAllocation halloc hg.phantom_escapesAt

/-- Two variables meet in an edge. -/
theorem meet_iff (hn : (g n).type = .localVar) (hm : (g m).type = .localVar) :
    meet g n m = true ↔ n = m ∨ ∃ e ∈ (g n).edges, e ∈ (g m).edges := by
  simp [meet, hn, hm]

/-- It does not matter which set is looked at first. -/
theorem meet_comm (hn : (g n).type = .localVar) (hm : (g m).type = .localVar)
    (h : ¬ meet g n m = true) : ¬ meet g m n = true := by
  rw [meet_iff hm hn]
  rw [meet_iff hn hm] at h
  rintro (rfl | ⟨e, he, hmem⟩)
  · exact h (.inl rfl)
  · exact h (.inr ⟨e, hmem, he⟩)

/-- References that the analysis finds to be different do not hold the same object. -/
theorem optimizePtrCompare_ne {Ty : Type} [DecidableEq Ty] (C : PointerConstants g Ty)
    (hg : WellFormed g) (hn : (g n).type = .localVar) (hm : (g m).type = .localVar)
    (h : optimizePtrCompare C n m = some .pcmpNeq) (hno : MayHold g n o) : ¬ MayHold g m o := by
  simp only [optimizePtrCompare] at h
  split at h
  · cases h
  split at h
  · next hleft => exact compareNonEscaping_ne hg hn hm hleft hno
  split at h
  · next hright => exact fun hmo => compareNonEscaping_ne hg hm hn hright hmo hno
  split at h
  · next answer hanswer =>
    obtain rfl := Option.some.inj h
    unfold compareConstants at hanswer
    split at hanswer
    case h_2 => cases hanswer
    case h_1 j₁ j₂ hunique₁ hunique₂ =>
    split at hanswer
    case isFalse => cases hanswer
    case isTrue hcon =>
    intro hmo
    have h₁ := hno.site_eq hn hunique₁ hcon.1
    have h₂ := hmo.site_eq hm hunique₂ hcon.2.1
    rw [← h₁, h₂, if_pos rfl] at hanswer
    cases hanswer
  · unfold compareSets at h
    split at h
    · cases h
    next hmeet =>
    simp only [Bool.and_eq_true] at h
    split at h
    · cases h
    split at h
    · next hall => exact nonEscapingAllocation_ne hg hn hm hmeet hall.2 hno
    split at h
    · next hall =>
      exact fun hmo => nonEscapingAllocation_ne hg hm hn (meet_comm hn hm hmeet) hall.2 hmo hno
    · cases h

end

/-- Two variables that `optimize_ptr_compare` finds to be different do not refer to the same object
in any state of any run. -/
theorem optimizePtrCompare_never_same {fuel : ℕ} {clock : Clock} {W : Worklists} {I : InitInfo}
    {g g' : Nodes} {nonEscaped nonEscaped' : List ℕ} (hconstructed : Constructed W g nonEscaped)
    (hknown : ObjectsKnown g)
    (h : completeConnectionGraph fuel clock W I g nonEscaped = some (.finished (g', nonEscaped')))
    {Ty : Type} [DecidableEq Ty] (C : PointerConstants g' Ty) {n m : ℕ}
    (hn : (g' n).type = .localVar) (hm : (g' m).type = .localVar)
    (hcompare : optimizePtrCompare C n m = some .pcmpNeq) {s s' : State ℕ ℕ ℤ}
    (hs : (graphMethod g).Start s) (hrun : Relation.ReflTransGen (Step (graphMethod g)) s s')
    (o : Obj ℕ) : ¬ (s'.var n = some o ∧ s'.var m = some o) := by
  have hgraph : GraphClosed W g g' := ⟨(completeConnectionGraph_finished hconstructed h).1, hknown⟩
  have hsound := hgraph.abstraction_closed.sound hs hrun
  rintro ⟨hno, hmo⟩
  exact optimizePtrCompare_ne C hgraph.wellFormed hn hm hcompare (hsound.var hno) (hsound.var hmo)

/-! ### An example

Object 2 is returned (8), with a reference to object 4 in its field (6). Object 7 refers to object
4 as well (10), but stays where it is. -/

/-- The nodes of the example. -/
def leakedNodes : List PointsToNode :=
  [blankNode .javaObject .other .globalEscape,
   blankNode .javaObject .nullConP .noEscape,
   { blankNode .javaObject .allocate .noEscape with uses := [.edge 3] },
   { blankNode .localVar .other .noEscape with edges := [2], uses := [.base 6, .edge 8] },
   { blankNode .javaObject .allocate .noEscape with uses := [.edge 5] },
   { blankNode .localVar .other .noEscape with edges := [4], uses := [.edge 6, .edge 10] },
   { blankNode .field .other .noEscape with
     edges := [5], bases := [3], offset := some 16, isOop := true },
   { blankNode .javaObject .allocate .noEscape with uses := [.edge 9] },
   { blankNode .localVar .other .globalEscape with edges := [3] },
   { blankNode .localVar .other .noEscape with edges := [7], uses := [.base 10] },
   { blankNode .field .other .noEscape with
     edges := [5], bases := [9], offset := some 16, isOop := true }]

/-- The graph of the example. -/
def leakedGraph : Nodes := fun n => leakedNodes.getD n outside

/-- Its worklists. -/
def leakedWorklists : Worklists where
  ptnodes := List.range 11
  javaObjects := [0, 1, 2, 4, 7]
  oopFields := [6, 10]

/-- The graph has eleven nodes. -/
theorem leakedGraph_of_le {n : ℕ} (hn : 11 ≤ n) : leakedGraph n = outside := by
  have hlen : leakedNodes.length = 11 := rfl
  unfold leakedGraph
  rw [List.getD_eq_getElem?_getD, List.getElem?_eq_none (by omega)]
  rfl

/-- A statement about the nodes of the example. -/
theorem forall_leakedGraph {P : ℕ → PointsToNode → Prop} (hlt : ∀ n < 11, P n (leakedGraph n))
    (hout : ∀ n, 11 ≤ n → P n outside) (n : ℕ) : P n (leakedGraph n) := by
  by_cases hn : n < 11
  · exact hlt n hn
  · rw [leakedGraph_of_le (Nat.le_of_not_lt hn)]
    exact hout n (Nat.le_of_not_lt hn)

/-- It is a graph that construction may leave. -/
theorem leakedGraph_constructed : Constructed leakedWorklists leakedGraph [2, 4, 7] := by
  refine constructed_of_lt (k := 11) ?_ (fun n => leakedGraph_of_le) (by decide) (by decide)
  exact wellFormed_of_lt (k := 11) (fun n => leakedGraph_of_le) (by decide) (by decide) (by decide)
    (by decide)

/-- All its objects are known. -/
theorem leakedGraph_known : ObjectsKnown leakedGraph := by
  intro n
  exact forall_leakedGraph (P := fun n m => m.type = .javaObject → n ≠ nullObj →
    EscapeState.argEscape.toNat ≤ m.escapeState.toNat ∨
      (m.type = .javaObject ∧ (m.ideal = .allocate ∨ m.ideal = .callStaticJava)) ∧
        m.escapeState = .noEscape) (by decide) (by simp [outside, blankNode]) n

/-- Nothing is there at first. -/
def emptyState : State ℕ ℕ ℤ := ⟨fun _ => none, fun _ _ => none, ∅, ∅, ∅, ∅⟩

/-- A method may start with nothing. -/
theorem emptyState_start (M : Method ℕ ℕ ℕ ℤ) : M.Start emptyState where
  var _ := rfl
  outside _ ho := absurd ho (Set.notMem_empty _)
  heap _ _ _ h := by cases h
  allocated _ ho := absurd ho (Set.notMem_empty _)
  exposed := rfl
  copies := rfl

/-- The objects are allocated and stored, object 2 is returned, and other code loads object 4. -/
theorem leakedGraph_run : ∃ s, Relation.ReflTransGen (Step (graphMethod leakedGraph))
    emptyState s ∧ (⟨4, 0⟩ : Obj ℕ) ∈ s.outside ∧
      s.var 3 = some ⟨2, 0⟩ ∧ s.var 9 = some ⟨7, 0⟩ := by
  have hnone : ∀ s : State ℕ ℕ ℤ, ∀ d : ℤ, Known s ((fun _ => none : ℤ → Option (Obj ℕ)) d) :=
    fun s d p hp => by cases hp
  refine ⟨_, Relation.ReflTransGen.refl
    |>.tail (.allocate (y := 3) (o := ⟨2, 0⟩) (c := fun _ => none)
      ⟨rfl, by decide, rfl, .inl rfl⟩ (Set.notMem_empty _) (hnone _) fun _ _ => rfl)
    |>.tail (.allocate (y := 5) (o := ⟨4, 0⟩) (c := fun _ => none)
      ⟨rfl, by decide, rfl, .inl rfl⟩ (by simp [emptyState]) (hnone _) fun _ _ => rfl)
    |>.tail (.allocate (y := 9) (o := ⟨7, 0⟩) (c := fun _ => none)
      ⟨rfl, by decide, rfl, .inl rfl⟩ (by simp [emptyState]) (hnone _) fun _ _ => rfl)
    |>.tail (.store (f := 6) (x := .var 5) (o := ⟨2, 0⟩) (d := 16)
      ⟨⟨rfl, rfl⟩, 5, by decide, rfl⟩ (.var 5) ⟨.inr rfl, .var 3, ⟨⟨rfl, rfl⟩, 3, by decide, rfl⟩,
        .var 3⟩)
    |>.tail (.store (f := 10) (x := .var 5) (o := ⟨7, 0⟩) (d := 16)
      ⟨⟨rfl, rfl⟩, 5, by decide, rfl⟩ (.var 5) ⟨.inr rfl, .var 9, ⟨⟨rfl, rfl⟩, 9, by decide, rfl⟩,
        .var 9⟩)
    |>.tail (.move (y := 8) (x := .var 3) ⟨rfl, 3, by decide, rfl⟩ (.var 3))
    |>.tail (.pass (x := .var 8) (o := ⟨2, 0⟩) ⟨8, rfl, by decide⟩ (.var 8))
    |>.tail (.otherLoad (o := ⟨2, 0⟩) (p := ⟨4, 0⟩) (d := 16) (.inl (Set.mem_insert _ _)) rfl),
    Set.mem_insert _ _, rfl, rfl⟩

/-- Null is no new object. -/
theorem RefValue.null_ne_created (j i : ℕ) : RefValue.null ≠ .created j i := by
  intro h
  cases h

/-- No constants. -/
def noConstants (g : Nodes) : PointerConstants g Unit where
  isCon _ := false
  ptrType _ := ()
  valueOf _ := .null
  not_isCon _ _ := rfl
  valueOf_ne_created _ := RefValue.null_ne_created
  valueOf_inj _ _ h := absurd h Bool.false_ne_true

/-- What other code gets hold of in the example escapes, object 4 among it. -/
theorem completeConnectionGraph_sound_leakedGraph :
    Finishes (completeConnectionGraph 40 Clock.unlimited leakedWorklists exceptionInit
      leakedGraph [2, 4, 7]) fun g =>
        (EscapesAt g 4 ∧ ¬ EscapesAt g 7) ∧ ∃ s, Relation.ReflTransGen
          (Step (graphMethod leakedGraph)) emptyState s ∧ (⟨4, 0⟩ : Obj ℕ) ∈ s.outside ∧
            ∀ o ∈ s.outside, EscapesAt g o.site := by
  obtain ⟨g, nonEscaped, h, hstay⟩ : Finishes (completeConnectionGraph 40 Clock.unlimited
    leakedWorklists exceptionInit leakedGraph [2, 4, 7]) fun g => ¬ EscapesAt g 7 :=
        finishes_of_match (by decide +kernel)
  obtain ⟨s, hrun, hout, -⟩ := leakedGraph_run
  obtain ⟨hescapes, -⟩ := completeConnectionGraph_sound leakedGraph_constructed leakedGraph_known h
    (emptyState_start _) hrun
  exact ⟨g, nonEscaped, h, ⟨hescapes _ hout, hstay⟩, s, hrun, hout, hescapes⟩

/-- Variables 3 and 9 of the example differ, and so do their objects. -/
theorem optimizePtrCompare_never_same_leakedGraph :
    ∃ s, Relation.ReflTransGen (Step (graphMethod leakedGraph)) emptyState s ∧
      s.var 3 = some ⟨2, 0⟩ ∧ s.var 9 = some ⟨7, 0⟩ ∧
      ¬ (s.var 3 = some ⟨7, 0⟩ ∧ s.var 9 = some ⟨7, 0⟩) := by
  obtain ⟨g, nonEscaped, h, hcompare, hn, hm⟩ : Finishes (completeConnectionGraph 40 Clock.unlimited
    leakedWorklists exceptionInit leakedGraph [2, 4, 7]) fun g =>
      optimizePtrCompare (noConstants g) 3 9 = some .pcmpNeq ∧ (g 3).type = .localVar ∧
        (g 9).type = .localVar := finishes_of_match (by decide +kernel)
  obtain ⟨s, hrun, -, h₃, h₉⟩ := leakedGraph_run
  exact ⟨s, hrun, h₃, h₉, optimizePtrCompare_never_same leakedGraph_constructed leakedGraph_known h
    (noConstants g) hn hm hcompare (emptyState_start _) hrun _⟩

end StackAllocation
