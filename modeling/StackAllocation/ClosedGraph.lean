import StackAllocation.GraphCompletion

/-!
# The completed connection graph

When `complete_connection_graph` returns true the graph is complete (`Completed`): no
further call adds an edge, escape states are closed, the references have followed every
flow of values through stores, loads and arraycopies (`Flow`), and the fields of
allocations that keep their default refer to null.

It starts with the graph that construction leaves (`Constructed`). There the arraycopies are on no
worklist. Still they pass on their states: their first sources have been told at construction, and
what they copy from later is referred to by a first source, from which it has its states.
-/

namespace StackAllocation

/-! ## Flows of values

A value flows from a stored value to the fields that may be stored to, from a field to the fields
that it may be the same as and to what is loaded from it, and through an arraycopy from the fields
of the source to those of the destination. These are the flows that `add_java_object_edges` follows
by its worklist; here they are described by the edges of the graph alone. -/

/-- The object is a base of the field, or its base variable refers to the object. -/
def HasBase (g : Nodes) (f obj : ℕ) : Prop :=
  (g obj).type = .javaObject ∧ ∃ b ∈ (g f).bases, b = obj ∨ obj ∈ (g b).edges

/-- The arraycopy copies from the object `source`. -/
def CopiesFrom (g : Nodes) (ac source : ℕ) : Prop :=
  (g source).type = .javaObject ∧
    ∃ s ∈ (g ac).edges, s = source ∨ (g s).type = .localVar ∧ source ∈ (g s).edges

/-- The arraycopy copies to `dest`: the node that is its destination, or an object that this node,
a local variable, did not refer to in the graph `g₀` but does in `g`. -/
def CopiesTo (g₀ g : Nodes) (ac dest : ℕ) : Prop :=
  ac ∈ (g dest).edges ∨ (g dest).type = .javaObject ∧ ∃ d, (g d).type = .localVar ∧
    ac ∈ (g d).edges ∧ dest ∈ (g d).edges ∧ dest ∉ (g₀ d).edges

/-- What `x` refers to may be referred to by `y`. -/
inductive Flow (g₀ g : Nodes) : ℕ → ℕ → Prop
  /-- an assignment, a store to a field or a load from it -/
  | edge {x y : ℕ} : x ∈ (g y).edges → (g x).type = .localVar ∨ (g x).type = .field →
      (g y).type = .localVar ∨ (g y).type = .field → Flow g₀ g x y
  /-- a field of the same object, at the same or an unknown offset -/
  | sameObject {f f' obj : ℕ} : OopField g f → OopField g f' →
      sameOffset (g f).offset (g f').offset = true → obj ≠ phantomObj → obj ≠ nullObj →
      HasBase g f obj → HasBase g f' obj → Flow g₀ g f f'
  /-- a field of the same local variable -/
  | sameVar {f f' b : ℕ} : OopField g f → OopField g f' →
      sameOffset (g f).offset (g f').offset = true → (g b).type = .localVar →
      b ∈ (g f).bases → b ∈ (g f').bases → Flow g₀ g f f'
  /-- a field of the object that an arraycopy copies to -/
  | copied {f f' ac source dest : ℕ} : OopField g f → OopField g f' →
      sameOffset (g f).offset (g f').offset = true → (g ac).type = .arraycopy →
      source ≠ nullObj → HasBase g f source → CopiesFrom g ac source →
      dest ≠ phantomObj → dest ≠ nullObj → HasBase g f' dest ∨ dest ∈ (g f').bases →
      CopiesTo g₀ g ac dest → Flow g₀ g f f'

section

variable {g₀ g : Nodes} {obj : ℕ} (hg : WellFormed g) (hclosed : AllClosed g)
include hg hclosed

/-- An object follows an edge. -/
theorem AllClosed.edge (hobj : (g obj).type = .javaObject) {x : ℕ} (hmem : obj ∈ (g x).edges)
    (hx : (g x).type = .localVar ∨ (g x).type = .field) {u : Use} (hu : u ∈ (g x).uses) :
    Reached g obj u := by
  have huse : .edge x ∈ (g obj).uses := by
    refine (hg.mem_uses x obj).2 ⟨hmem, ?_⟩
    rintro ⟨hjava, -⟩
    rw [hjava] at hx
    exact absurd hx (by decide)
  refine hclosed obj hobj x u huse ⟨?_, .inl hu⟩
  rintro hcopy
  rw [hcopy] at hx
  exact absurd hx (by decide)

/-- An object gets to the fields that may be the same. -/
theorem AllClosed.fieldDep (hobj : (g obj).type = .javaObject) {f f' : ℕ} (hf : OopField g f)
    (hf' : OopField g f') (hmem : obj ∈ (g f).edges) (hdep : FieldDep g f (.edge f')) :
    obj ∈ (g f').edges := by
  have huse : .edge f ∈ (g obj).uses := by
    refine (hg.mem_uses f obj).2 ⟨hmem, ?_⟩
    rintro ⟨hjava, -⟩
    exact absurd (hf.1.symm.trans hjava) (by decide)
  have hcopy : (g f).type ≠ .arraycopy := by
    rw [hf.1]
    decide
  obtain hreached | ⟨hcopy', -⟩ := hclosed obj hobj f _ huse ⟨hcopy, .inr ⟨hf.1, hf.2, hdep⟩⟩
  · exact hreached
  · exact absurd (hf'.1.symm.trans hcopy') (by decide)

/-- The objects a field's base refers to are its bases. -/
theorem HasBase.mem_bases {f : ℕ} (h : HasBase g f obj) : obj ∈ (g f).bases := by
  obtain ⟨hobj, b, hb, rfl | hmem⟩ := h
  · exact hb
  · obtain ⟨-, hjava | hlocal⟩ := hg.bases_field f b hb
    · obtain hfield | hcopy := hg.object_edges b obj hjava hmem
      · exact absurd (hobj.symm.trans hfield) (by decide)
      · exact absurd (hobj.symm.trans hcopy) (by decide)
    · have hnot : (g b).type ≠ .javaObject := by
        rw [hlocal]
        decide
      exact hclosed.edge hg hobj hmem (.inl hlocal) ((hg.mem_base_uses f b).2 ⟨hb, hnot⟩)

/-- The objects an arraycopy's source refers to are its sources. -/
theorem CopiesFrom.mem_edges {ac source : ℕ} (h : CopiesFrom g ac source)
    (hac : (g ac).type = .arraycopy) (hnull : source ≠ nullObj) : source ∈ (g ac).edges := by
  obtain ⟨hobj, s, hs, rfl | ⟨hlocal, hmem⟩⟩ := h
  · exact hs
  · have huse : .edge ac ∈ (g s).uses := by
      refine (hg.mem_uses ac s).2 ⟨hs, ?_⟩
      rintro ⟨hjava, -⟩
      exact absurd (hac.symm.trans hjava) (by decide)
    obtain hmem | ⟨-, hn⟩ := hclosed.edge hg hobj hmem (.inl hlocal) huse
    · exact hmem
    · exact absurd hn hnull

omit hclosed in
/-- A field of a base. -/
theorem related_of_mem_bases {f f' b : ℕ} (hf' : OopField g f') (hne : f' ≠ f)
    (hoff : sameOffset (g f).offset (g f').offset = true) (hphantom : b ≠ phantomObj)
    (hnull : b ≠ nullObj) (hb : b ∈ (g f').bases) : Related g f b (.edge f') := by
  refine ⟨f', rfl, ⟨hne, hf'.2, hoff⟩, ?_⟩
  obtain ⟨-, hjava | hlocal⟩ := hg.bases_field f' b hb
  · refine .inr ⟨?_, hphantom, hnull, ?_, ?_⟩
    · rw [hjava]
      decide
    · exact (hg.mem_object_edges f' b hjava hf'.1).2 ⟨hb, hnull⟩
    · rw [hf'.1]
      decide
  · refine .inl ⟨hlocal, (hg.mem_base_uses f' b).2 ⟨hb, ?_⟩⟩
    rw [hlocal]
    decide

omit hg hclosed in
/-- The destination of an arraycopy has an edge to it. -/
theorem CopiesTo.mem_edges {ac dest : ℕ} (hlinked : Linked g₀ g) (h : CopiesTo g₀ g ac dest)
    (hac : (g ac).type = .arraycopy) (hnull : dest ≠ nullObj) : ac ∈ (g dest).edges := by
  obtain hmem | ⟨hdest, d, hlocal, hmem, hobj, hnot⟩ := h
  · exact hmem
  · exact hlinked d dest ac hlocal hobj hnot hdest hnull hac hmem

/-- Objects follow the flows of values. -/
theorem AllClosed.flow (hlinked : Linked g₀ g) (hobj : (g obj).type = .javaObject) {x y : ℕ}
    (hmem : obj ∈ (g x).edges) (h : Flow g₀ g x y) : obj ∈ (g y).edges := by
  cases h with
  | edge hxy hx hy =>
    have huse : .edge y ∈ (g x).uses := by
      refine (hg.mem_uses y x).2 ⟨hxy, ?_⟩
      rintro ⟨hjava, -⟩
      rw [hjava] at hy
      exact absurd hy (by decide)
    obtain hmem | ⟨hcopy, -⟩ := hclosed.edge hg hobj hmem hx huse
    · exact hmem
    · rw [hcopy] at hy
      exact absurd hy (by decide)
  | @sameObject o hf hf' hoff hphantom hnull hbase hbase' =>
    by_cases hne : y = x
    · rwa [hne]
    · refine hclosed.fieldDep hg hobj hf hf' hmem (.inr ⟨o, hbase.mem_bases hg hclosed, .inl ?_⟩)
      exact related_of_mem_bases hg hf' hne hoff hphantom hnull (hbase'.mem_bases hg hclosed)
  | @sameVar b hf hf' hoff hlocal hb hb' =>
    have hvar : ∀ n, (g n).type = .javaObject → b ≠ n := by
      rintro _ hjava rfl
      exact absurd (hlocal.symm.trans hjava) (by decide)
    by_cases hne : y = x
    · rwa [hne]
    · refine hclosed.fieldDep hg hobj hf hf' hmem (.inr ⟨b, hb, .inl ?_⟩)
      exact related_of_mem_bases hg hf' hne hoff (hvar _ hg.phantom_type) (hvar _ hg.null_type) hb'
  | @copied ac source dest hf hf' hoff hac hsnull hbase hfrom hphantom hnull hbase' hto =>
    have hsource := hbase.mem_bases hg hclosed
    have hsrc := hfrom.mem_edges hg hclosed hac hsnull
    have hdst := hto.mem_edges hlinked hac hnull
    have hdest : dest ∈ (g y).bases := hbase'.elim (fun h => h.mem_bases hg hclosed) id
    have huse : ∀ n, ac ∈ (g n).edges → .edge n ∈ (g ac).uses := fun n hn => by
      refine (hg.mem_uses n ac).2 ⟨hn, ?_⟩
      rintro ⟨-, hfield⟩
      exact absurd (hac.symm.trans hfield) (by decide)
    by_cases hne : y = x
    · rwa [hne]
    have hrelated := related_of_mem_bases hg hf' hne hoff hphantom hnull hdest
    refine hclosed.fieldDep hg hobj hf hf' hmem (.inr ⟨source, hsource, ?_⟩)
    by_cases hself : dest = source
    · rw [hself] at hrelated
      exact .inl hrelated
    · refine .inr ⟨dest, ⟨hg.arraycopySrc ac source hac hsrc, ⟨ac, ?_, hac, huse dest hdst⟩,
        hg.arraycopyDst dest ac hac hdst, hself⟩, hrelated⟩
      refine (hg.mem_uses ac source).2 ⟨hsrc, ?_⟩
      rintro ⟨hjava, -⟩
      exact absurd (hac.symm.trans hjava) (by decide)

end

/-! ## Escape states along edges

A node passes its state on to what it points to, and the state of its fields to the values of its
fields. Null takes part in nothing. So the states can be compared along paths, which is how the
states of other modules are used. -/

/-- A points-to or field edge to a node other than null; an edge from or to an arraycopy is
neither. -/
structure EscapeEdge (g : Nodes) (n e : ℕ) : Prop where
  edge : e ∈ (g n).edges
  source : (g n).type ≠ .arraycopy
  target : (g e).type ≠ .arraycopy
  not_null : e ≠ nullObj

/-- Along a path of edges escape states only rise. -/
theorem EscapeClosed.escapeState_le {g : Nodes} (hg : WellFormed g) (h : EscapeClosed g)
    {n e : ℕ} (hpath : Relation.ReflTransGen (EscapeEdge g) n e)
    (hn : EscapeState.argEscape.toNat ≤ (g n).escapeState.toNat) :
    (g n).escapeState.toNat ≤ (g e).escapeState.toNat := by
  induction hpath with
  | refl => exact Nat.le_refl _
  | @tail m e _ hedge ih =>
    have hescaping : Escaping g m := Nat.le_trans (Nat.le_trans hn ih) (hg.state_le m)
    obtain ⟨hes, -, -⟩ := (h m hescaping).edges e hedge.edge hedge.not_null
    exact Nat.le_trans ih (hes hedge.target)

/-! ## Completion

The method interleaves three loops, each of which may undo what another has settled: new references,
escape states, and values that no store explains. It returns true when a round of all of them adds
no edge. What the loops have shown then is kept when the null values are added, which add references
to null only; all of it is collected in `Finished`. -/

/-- The graph that construction hands to `complete_connection_graph`: arraycopies are not listed,
but their sources escape as far as they do. -/
structure Constructed (W : Worklists) (g : Nodes) (nonEscaped : List ℕ) : Prop where
  wellFormed : WellFormed g
  enlisted : Enlisted W g
  lists : ListsNonEscaped g nonEscaped
  copies : CopiesSettled g g

/-- What is known of the graph when the method returns true. -/
structure Finished (W : Worklists) (g₀ g : Nodes) : Prop extends Completing W g₀ g where
  closed : AllClosed g
  settled : EscapeSettled g
  phantomInit : ∀ n, EscapeCandidate g n → PhantomInit g n

/-- The graph `g` is the completion of `g₀`. -/
structure Completed (W : Worklists) (I : InitInfo) (g₀ g : Nodes) : Prop where
  /-- no further call of `add_java_object_edges` adds an edge -/
  objects : ∀ jobj ∈ W.javaObjects, ∃ n, ∀ fuel, n < fuel →
    addJavaObjectEdges fuel g [] jobj true = some (g, 0)
  /-- no further call of `find_field_value`, for a field without references, adds an edge -/
  fieldValues : ∀ field ∈ W.oopFields, (g field).edges = [] → ∀ wl k,
    findFieldValue ⟨g, wl, k⟩ field = ⟨g, wl, k⟩
  /-- no further call of `find_init_values` adds an edge -/
  initValues : ∀ pta, EscapeCandidate g pta → (g pta).escapeState = .noEscape → ∀ wl k,
    findInitValuesPhantom ⟨g, wl, k⟩ pta = ⟨g, wl, k⟩ ∧
      findInitValuesNull I ⟨g, wl, k⟩ pta = ⟨g, wl, k⟩
  /-- what is reached from a node that escapes escapes as far, null apart -/
  escapeState : ∀ n e, Relation.ReflTransGen (EscapeEdge g) n e →
    EscapeState.argEscape.toNat ≤ (g n).escapeState.toNat →
      (g n).escapeState.toNat ≤ (g e).escapeState.toNat
  /-- so it is for what escapes from the fields -/
  fieldsEscapeState : ∀ n e, e ∈ (g n).edges → e ≠ nullObj →
    EscapeState.argEscape.toNat ≤ (g n).fieldsEscapeState.toNat →
      (g n).fieldsEscapeState.toNat ≤ (g e).fieldsEscapeState.toNat ∧
        (OopField g e → (g n).type = .javaObject →
          (g n).fieldsEscapeState.toNat ≤ (g e).escapeState.toNat)
  /-- stored objects get to where they are loaded -/
  flow : ∀ obj x v, (g obj).type = .javaObject → obj ∈ (g x).edges →
    Relation.ReflTransGen (Flow g₀ g) x v → obj ∈ (g v).edges
  /-- loads of a field that keeps its default get null -/
  nullValue : ∀ pta f v, (g pta).ideal = .allocate → (g pta).escapeState = .noEscape →
    HasBase g f pta → NeedsNull I g pta f → (g v).type = .localVar → f ∈ (g v).edges →
      nullObj ∈ (g v).edges

/-- Where the unknown values are there already, nothing is added. -/
theorem PhantomInit.findInitValuesPhantom_eq {g : Nodes} {pta : ℕ} (hg : WellFormed g)
    (h : PhantomInit g pta) (hescape : (g pta).escapeState = .noEscape) (wl : List Use) (k : ℕ) :
    findInitValuesPhantom ⟨g, wl, k⟩ pta = ⟨g, wl, k⟩ := by
  unfold findInitValuesPhantom
  split
  · rfl
  · next hskip =>
    refine Loops.invariant (P := fun w : Walk => w = ⟨g, wl, k⟩) (g pta).edges rfl ?_
    rintro w f hf rfl
    unfold initUnknown
    split
    · next hfield =>
      exact addFieldValue_of_mem hg hfield.1 (h hescape hskip f hf hfield.1 hfield.2)
    · rfl

/-- Null values keep what is settled. -/
theorem EscapeSettled.nullAdded {g g' : Nodes} (h : EscapeSettled g) (hadd : NullAdded g g') :
    EscapeSettled g' := by
  intro n hty hescape
  have hext := hadd.grown
  rw [hext.type] at hty
  rw [Escaping, hadd.fieldsEscapeState] at hescape
  obtain ⟨hphantom, hedges⟩ := h n hty hescape
  constructor
  · rw [hext.type, hext.isOop, hadd.escapeState]
    exact fun hty hoop hes => hext.edges n (hphantom hty hoop hes)
  · intro e he hnull
    rw [hadd.edges n e hnull] at he
    rw [hadd.escapeState, hadd.fieldsEscapeState, hext.type]
    exact (hedges e he hnull).congr hext (hadd.escapeState e) (hadd.fieldsEscapeState e)

/-- What a node passes on gets to what its target refers to. -/
theorem EdgeSettled.trans {g : Nodes} {es fieldEs : EscapeState} {v e : ℕ}
    (h : EdgeSettled g es fieldEs False v) (hv : (g v).type ≠ .arraycopy)
    (h' : EdgeSettled g (g v).escapeState (g v).fieldsEscapeState ((g v).type = .javaObject) e) :
    EdgeSettled g es fieldEs False e :=
  ⟨fun he => Nat.le_trans (h.escapeState hv) (h'.escapeState he),
    Nat.le_trans h.fieldsEscapeState h'.fieldsEscapeState, fun _ _ hfalse => hfalse.elim⟩

/-- Arraycopies have passed on their states to all their sources. -/
theorem EscapeSettled.escapeClosed {g₀ g : Nodes} (h : EscapeSettled g) (hg : WellFormed g)
    (hcopies : CopiesSettled g₀ g) (hsourced : Sourced g₀ g) : EscapeClosed g := by
  intro ac hescape
  by_cases hac : (g ac).type = .arraycopy
  swap
  · exact h ac hac hescape
  refine ⟨fun hty => absurd (hac.symm.trans hty) (by decide), fun e he hnull => ?_⟩
  rw [hac]
  suffices hsettled : EdgeSettled g (g ac).escapeState (g ac).fieldsEscapeState False e from
    ⟨hsettled.escapeState, hsettled.fieldsEscapeState, fun _ _ hjava => absurd hjava (by decide)⟩
  obtain hfirst | ⟨-, rfl | ⟨v, hv, hty, hmem⟩⟩ := hsourced ac e hac he
  · exact hcopies ac hac hescape e hfirst hnull
  · exact hg.edgeSettled_phantom _ _ _
  · -- the source that refers to the object is a variable or a field, so it is a first one
    have hjava : (g v).type ≠ .javaObject := by
      rintro hjava
      rw [hjava] at hty
      exact absurd hty (by decide)
    have hcopy : (g v).type ≠ .arraycopy := by
      rintro hcopy
      rw [hcopy] at hty
      exact absurd hty (by decide)
    have hfirst : v ∈ (g₀ ac).edges := (hsourced ac v hac hv).resolve_right fun h => hjava h.1
    have hvnull : v ≠ nullObj := by
      rintro rfl
      exact hjava hg.null_type
    have hpassed := hcopies ac hac hescape v hfirst hvnull
    have hvescape : Escaping g v := Nat.le_trans hescape hpassed.fieldsEscapeState
    exact hpassed.trans hcopy ((h v hcopy hvescape).edges e hmem hnull)

/-- They stay when the null object is added. -/
theorem PhantomInit.nullAdded {g g' : Nodes} {pta : ℕ} (h : PhantomInit g pta)
    (hadd : NullAdded g g') (hpta : (g pta).type = .javaObject) : PhantomInit g' pta := by
  intro hescape hskip f hf hty hoop
  rw [hadd.escapeState] at hescape
  rw [hadd.grown.ideal, hadd.arraycopyDst] at hskip
  rw [hadd.object_edges pta f hpta] at hf
  rw [hadd.grown.type] at hty
  rw [hadd.grown.isOop] at hoop
  exact hadd.grown.edges f (h hescape hskip f hf hty hoop)

/-- A field with an allocation as a base keeps it. -/
theorem Extends.hasAllocateBase {g g' : Nodes} (h : Extends g g') {f : ℕ}
    (hbase : hasAllocateBase g f = true) : hasAllocateBase g' f = true := by
  obtain ⟨b, hb, halloc⟩ := List.any_eq_true.1 hbase
  refine List.any_eq_true.2 ⟨b, h.bases f hb, ?_⟩
  rwa [h.type, h.ideal]

/-- The graph that the loops start with. -/
theorem Constructed.completing {W : Worklists} {g : Nodes} {nonEscaped : List ℕ}
    (h : Constructed W g nonEscaped) : Completing W g g where
  wellFormed := h.wellFormed
  grown := Extends.refl g
  raised := FieldsRaised.refl g
  linked _ _ _ _ hobj hnot := absurd hobj hnot
  enlisted := h.enlisted
  copies := h.copies
  sourced _ _ _ hobj := .inl hobj

/-- What the loops have shown when the method returns true, and the null values after them. -/
theorem completeConnectionGraph_completes {fuel : ℕ} {clock : Clock} {W : Worklists}
    {I : InitInfo} {g g' : Nodes} {nonEscaped nonEscaped' : List ℕ}
    (hconstructed : Constructed W g nonEscaped)
    (h : completeConnectionGraph fuel clock W I g nonEscaped = some (.finished (g', nonEscaped'))) :
    ∃ g₁ wl, Completes W g g₁ wl nonEscaped' ∧ AllClosed g₁ ∧ NoFieldUnknown W g₁ ∧
      GraphRun nullObj g₁ g' ∧ Closed g' nullObj ∧ ∀ pta ∈ nonEscaped', NullInit I g' pta := by
  unfold completeConnectionGraph at h
  split at h
  · cases h
  next g₁ wl ne hfind =>
  split at h
  · cases h
  split at h
  · cases h
  · cases h
  next c hloop =>
  obtain ⟨hend, hclosed, hfields⟩ :=
    (hconstructed.completing.findNonEscapedObjects hconstructed.lists hfind).completionLoop
      (c := ⟨g₁, wl, ne, 1, 0⟩) (fun h => absurd h Nat.one_ne_zero) hloop
  obtain ⟨g₂, hnull, heq⟩ := Option.map_eq_some_iff.1 h
  obtain ⟨rfl, rfl⟩ := Prod.mk.inj (Ended.finished.inj heq)
  obtain ⟨hrun, -, hclosedNull, hinit⟩ := addAllNullValues_nullInit hend.wellFormed
    (hclosed nullObj hend.wellFormed.null_type) (fun n hn => (hend.lists.candidate n hn).1) hnull
  exact ⟨c.graph, c.worklist, hend, hclosed, hfields, hrun, hclosedNull, hinit⟩

/-- Null values keep what the loops have shown. -/
theorem Completes.finished {W : Worklists} {g₀ g g' : Nodes} {wl : List Use} {nonEscaped : List ℕ}
    (h : Completes W g₀ g wl nonEscaped) (hclosed : AllClosed g) (hrun : GraphRun nullObj g g')
    (hnull : Closed g' nullObj) : Finished W g₀ g' := by
  have hadd := hrun.nullAdded
  have hg := h.wellFormed
  refine ⟨h.toCompleting.graphRun hg.null_type hrun (hadd.linked h.linked hg)
    (h.sourced.graphRun hg.null_type (.inr rfl) hrun), ?_, h.settled.nullAdded hadd, ?_⟩
  · intro j hj
    by_cases hjn : j = nullObj
    · rwa [hjn]
    · rw [hadd.grown.type] at hj
      exact hadd.closed hg hjn (hclosed j hj)
  · intro n hn
    have hold := hadd.grown.escapeCandidate.1 hn
    exact (h.phantomInit n hold).nullAdded hadd hold.1

/-- When the method returns true its graph is finished, and the list that it leaves has the
candidates that do not escape globally. -/
theorem completeConnectionGraph_finished {fuel : ℕ} {clock : Clock} {W : Worklists} {I : InitInfo}
    {g g' : Nodes} {nonEscaped nonEscaped' : List ℕ} (hconstructed : Constructed W g nonEscaped)
    (h : completeConnectionGraph fuel clock W I g nonEscaped = some (.finished (g', nonEscaped'))) :
    Finished W g g' ∧ ListsNonEscaped g' nonEscaped' := by
  obtain ⟨g₁, wl, hend, hclosed, -, hrun, hnull, -⟩ :=
    completeConnectionGraph_completes hconstructed h
  exact ⟨hend.finished hclosed hrun hnull, hend.lists.extends hrun.nullAdded.grown⟩

/-- A finished graph in which the unknown and null values have been added is complete. -/
theorem Finished.completed {W : Worklists} {I : InitInfo} {g₀ g : Nodes} {nonEscaped : List ℕ}
    (h : Finished W g₀ g) (hlists : ListsNonEscaped g nonEscaped) (hfields : NoFieldUnknown W g)
    (hinit : ∀ pta ∈ nonEscaped, NullInit I g pta) : Completed W I g₀ g := by
  have hg := h.wellFormed
  have hescapeClosed := h.settled.escapeClosed hg h.copies h.sourced
  have hnullInit : ∀ pta, EscapeCandidate g pta → (g pta).escapeState = .noEscape →
      NullInit I g pta := by
    intro pta hpta hescape
    refine hinit pta (hlists.nonEscaped pta hpta ?_)
    rw [hescape]
    decide
  constructor
  · intro j hj
    have hj := (h.enlisted.javaObjects j).1 hj
    exact (h.closed j hj).addJavaObjectEdges_eq hg hj
  · intro f hf hempty wl k
    unfold findFieldValue
    rw [if_pos (hfields f hf hempty)]
  · intro pta hpta hescape wl k
    exact ⟨(h.phantomInit pta hpta).findInitValuesPhantom_eq hg hescape wl k,
      (hnullInit pta hpta hescape).findInitValuesNull_eq hg hescape wl k⟩
  · exact fun n e => hescapeClosed.escapeState_le hg
  · intro n e he hn hescape
    obtain ⟨-, hfields, hoop⟩ := (hescapeClosed n hescape).edges e he hn
    exact ⟨hfields, fun hf hjava => hoop hf.1 hf.2 hjava⟩
  · intro obj x v hobj hmem hpath
    induction hpath with
    | refl => exact hmem
    | tail _ hstep ih => exact h.closed.flow hg h.linked hobj ih hstep
  · intro pta f v halloc hescape hbase hneeds hv hload
    have hpta := (hg.mem_object_edges f pta hbase.1 hneeds.type).2
      ⟨hbase.mem_bases hg h.closed, ?_⟩
    · have hmem := hnullInit pta ⟨hbase.1, .inl halloc⟩ hescape hescape halloc f hpta hneeds
      refine h.closed.flow hg h.linked hg.null_type hmem ?_
      exact .edge hload (.inr hneeds.type) (.inl hv)
    · rintro rfl
      have hideal := hg.null_ideal
      rw [halloc] at hideal
      exact absurd hideal (by decide)

/-- Fields that get null had references before, or belong to allocations. -/
theorem NoFieldUnknown.extends {W : Worklists} {g g' : Nodes} (h : NoFieldUnknown W g)
    (hext : Extends g g') : NoFieldUnknown W g' := by
  intro f hf hempty
  refine hext.hasAllocateBase (h f hf (List.eq_nil_iff_forall_not_mem.2 fun e he => ?_))
  have hmem := hext.edges f he
  rw [hempty] at hmem
  exact List.not_mem_nil hmem

/-- When the method returns true the graph is complete. -/
theorem completeConnectionGraph_completed {fuel : ℕ} {clock : Clock} {W : Worklists}
    {I : InitInfo} {g g' : Nodes} {nonEscaped nonEscaped' : List ℕ}
    (hconstructed : Constructed W g nonEscaped)
    (h : completeConnectionGraph fuel clock W I g nonEscaped = some (.finished (g', nonEscaped'))) :
    Completed W I g g' := by
  obtain ⟨g₁, wl, hend, hclosed, hfields, hrun, hnull, hinit⟩ :=
    completeConnectionGraph_completes hconstructed h
  have hext := hrun.nullAdded.grown
  exact (hend.finished hclosed hrun hnull).completed (hend.lists.extends hext)
    (hfields.extends hext) hinit

/-! ### What the method leaves out

A local variable that escapes globally refers to null (2). Two fields of the phantom object,
one with a stored object (7), one loaded (8). A field of an allocation through a raw
pointer (5). An arraycopy (14) from the object 11 to a variable (17) that refers to the object 12
from the first: the variable is the destination of the arraycopy, the object is not. -/

/-- Beyond the nodes of a graph. -/
def outside : PointsToNode := blankNode .localVar .other .noEscape

/-- What two nodes of a graph record of each other. -/
def PairRecorded (g : Nodes) (n e : ℕ) : Prop :=
  (.edge n ∈ (g e).uses ↔ e ∈ (g n).edges ∧ ¬ ((g n).type = .javaObject ∧ (g e).type = .field)) ∧
  (.base n ∈ (g e).uses ↔ e ∈ (g n).bases ∧ (g e).type ≠ .javaObject) ∧
  ((g e).type ≠ .javaObject ∨ (g n).type ≠ .field ∨
    (n ∈ (g e).edges ↔ e ∈ (g n).bases ∧ e ≠ nullObj)) ∧
  (e ∈ (g n).bases → (g n).type = .field ∧ ((g e).type = .javaObject ∨ (g e).type = .localVar)) ∧
  ((g n).type ≠ .javaObject ∨ e ∉ (g n).edges ∨ (g e).type = .field ∨ (g e).type = .arraycopy) ∧
  ((g n).type ≠ .arraycopy ∨ e ∉ (g n).edges ∨ (g e).arraycopySrc = true) ∧
  ((g e).type ≠ .arraycopy ∨ e ∉ (g n).edges ∨ (g n).arraycopyDst = true ∧
    ((g n).type = .javaObject ∨ (g n).type = .localVar))

instance (g : Nodes) (n e : ℕ) : Decidable (PairRecorded g n e) :=
  inferInstanceAs (Decidable (_ ∧ _))

/-- What a node of a graph records. -/
def NodeRecorded (g : Nodes) (n : ℕ) : Prop :=
  ((g n).hasUnknownPtr = true ↔ phantomObj ∈ (g n).edges) ∧
  ((g n).hasUnknownBase = true ↔ phantomObj ∈ (g n).bases) ∧
  (g n).escapeState.toNat ≤ (g n).fieldsEscapeState.toNat

instance (g : Nodes) (n : ℕ) : Decidable (NodeRecorded g n) :=
  inferInstanceAs (Decidable (_ ∧ _))

/-- The phantom and the null object of a new graph. -/
def ObjectsRecorded (g : Nodes) : Prop :=
  (g phantomObj).type = .javaObject ∧ (g phantomObj).escapeState = .globalEscape ∧
  (g phantomObj).fieldsEscapeState = .globalEscape ∧ (g nullObj).type = .javaObject ∧
  (g nullObj).ideal = .nullConP ∧ (g nullObj).edges = [] ∧
  (g nullObj).arraycopySrc = false ∧ (g nullObj).arraycopyDst = false

instance (g : Nodes) : Decidable (ObjectsRecorded g) :=
  inferInstanceAs (Decidable (_ ∧ _))

/-- A finite graph is well formed if its nodes are. -/
theorem wellFormed_of_lt {g : Nodes} {k : ℕ} (hout : ∀ n, k ≤ n → g n = outside)
    (hlt : ∀ n < k, (∀ e ∈ (g n).edges, e < k) ∧ (∀ b ∈ (g n).bases, b < k) ∧
      ∀ u ∈ (g n).uses, (∃ m < k, u = .edge m) ∨ ∃ m < k, u = .base m)
    (hpairs : ∀ n < k, ∀ e < k, PairRecorded g n e) (hnodes : ∀ n < k, NodeRecorded g n)
    (hobjects : ObjectsRecorded g) : WellFormed g := by
  have hpair : ∀ n e, PairRecorded g n e := by
    intro n e
    by_cases hn : n < k
    · by_cases he : e < k
      · exact hpairs n hn e he
      · have hedge : e ∉ (g n).edges := fun h => he ((hlt n hn).1 e h)
        have hbase : e ∉ (g n).bases := fun h => he ((hlt n hn).2.1 e h)
        simp [PairRecorded, hout e (Nat.le_of_not_lt he), outside, blankNode, hedge, hbase]
    · have huse : ∀ u, (u = .edge n ∨ u = .base n) → u ∉ (g e).uses := by
        intro u hu hmem
        by_cases he : e < k
        · obtain ⟨m, hm, rfl⟩ | ⟨m, hm, rfl⟩ := (hlt e he).2.2 u hmem
          · obtain h | h := hu
            · exact hn (Use.edge.inj h ▸ hm)
            · cases h
          · obtain h | h := hu
            · cases h
            · exact hn (Use.base.inj h ▸ hm)
        · rw [hout e (Nat.le_of_not_lt he)] at hmem
          exact List.not_mem_nil hmem
      simp [PairRecorded, hout n (Nat.le_of_not_lt hn), outside, blankNode,
        huse (.edge n) (.inl rfl),
        huse (.base n) (.inr rfl)]
  have hnode : ∀ n, NodeRecorded g n := by
    intro n
    by_cases hn : n < k
    · exact hnodes n hn
    · rw [NodeRecorded, hout n (Nat.le_of_not_lt hn)]
      decide
  obtain ⟨hpt, hpe, hpf, hnt, hni, hne, hns, hnd⟩ := hobjects
  constructor
  · exact fun n e => (hpair n e).1
  · exact fun f b => (hpair f b).2.1
  · exact fun f b hb hf => ((hpair f b).2.2.1.resolve_left (not_not_intro hb)).resolve_left
      (not_not_intro hf)
  · exact fun f b => (hpair f b).2.2.2.1
  · exact fun n e hn he => ((hpair n e).2.2.2.2.1.resolve_left (not_not_intro hn)).resolve_left
      (not_not_intro he)
  · exact fun n => (hnode n).1
  · exact fun n => (hnode n).2.1
  · exact fun ac s hac hs =>
      ((hpair ac s).2.2.2.2.2.1.resolve_left (not_not_intro hac)).resolve_left
      (not_not_intro hs)
  · exact fun d ac hac hd => (((hpair d ac).2.2.2.2.2.2.resolve_left
      (not_not_intro hac)).resolve_left (not_not_intro hd)).1
  · exact fun d ac hac hd => (((hpair d ac).2.2.2.2.2.2.resolve_left
      (not_not_intro hac)).resolve_left (not_not_intro hd)).2
  · exact hpt
  · exact ⟨hpe, hpf⟩
  · exact hnt
  · exact hni
  · exact hne
  · exact ⟨hns, hnd⟩
  · exact fun n => (hnode n).2.2

/-- What the worklists have of a node. An arraycopy is on none of them, and does not escape. -/
def NodeListed (W : Worklists) (nonEscaped : List ℕ) (g : Nodes) (n : ℕ) : Prop :=
  (∀ e ∈ (g n).edges, (g e).type ≠ .arraycopy → e ∈ W.ptnodes) ∧
  (EscapeState.argEscape.toNat ≤ (g n).fieldsEscapeState.toNat →
    (g n).type ≠ .arraycopy ∧ n ∈ W.ptnodes) ∧
  ((g n).type ≠ .localVar → (g n).type ≠ .arraycopy → n ∈ W.ptnodes) ∧
  (n ∈ W.javaObjects ↔ (g n).type = .javaObject) ∧
  (n ∈ W.oopFields ↔ (g n).type = .field ∧ (g n).isOop = true) ∧
  (n ∈ nonEscaped → (g n).type = .javaObject ∧
    ((g n).ideal = .allocate ∨ (g n).ideal = .callStaticJava)) ∧
  ((g n).type = .javaObject ∧ ((g n).ideal = .allocate ∨ (g n).ideal = .callStaticJava) →
    (g n).escapeState ≠ .globalEscape → n ∈ nonEscaped)

instance (W : Worklists) (nonEscaped : List ℕ) (g : Nodes) (n : ℕ) :
    Decidable (NodeListed W nonEscaped g n) :=
  inferInstanceAs (Decidable (_ ∧ _))

/-- The worklists of a finite graph. -/
theorem constructed_of_lt {W : Worklists} {g : Nodes} {nonEscaped : List ℕ} {k : ℕ}
    (hg : WellFormed g) (hout : ∀ n, k ≤ n → g n = outside)
    (hlists : ∀ n ∈ W.javaObjects ++ W.oopFields ++ nonEscaped, n < k)
    (hlt : ∀ n < k, NodeListed W nonEscaped g n) : Constructed W g nonEscaped := by
  have h : ∀ n, NodeListed W nonEscaped g n := by
    intro n
    by_cases hn : n < k
    · exact hlt n hn
    · have hnot : n ∉ W.javaObjects ++ W.oopFields ++ nonEscaped := fun hmem => hn (hlists n hmem)
      simp only [List.mem_append, not_or] at hnot
      simp [NodeListed, hout n (Nat.le_of_not_lt hn), outside, blankNode, EscapeState.toNat, hnot]
  exact
    { wellFormed := hg
      enlisted :=
        ⟨fun n => (h n).1, fun n _ hescape => ((h n).2.1 hescape).2, fun n => (h n).2.2.1,
          fun n => (h n).2.2.2.1, fun n => (h n).2.2.2.2.1⟩
      lists := ⟨fun n => (h n).2.2.2.2.2.1, fun n => (h n).2.2.2.2.2.2⟩
      copies := fun ac hac hescape => absurd hac ((h ac).2.1 hescape).1 }

/-- The nodes of the example. -/
def exceptionNodes : List PointsToNode :=
  [{ blankNode .javaObject .other .globalEscape with edges := [7, 8] },
   { blankNode .javaObject .nullConP .noEscape with uses := [.edge 2] },
   { blankNode .localVar .other .globalEscape with edges := [1] },
   { blankNode .javaObject .allocate .noEscape with edges := [5], uses := [.edge 4] },
   { blankNode .localVar .other .noEscape with edges := [3], uses := [.base 5] },
   { blankNode .field .other .noEscape with
     bases := [4, 3], offset := some 16, isOop := true, uses := [.edge 6] },
   { blankNode .localVar .other .noEscape with edges := [5] },
   { blankNode .field .other .noEscape with
     edges := [10], bases := [0], offset := some 16, isOop := true, hasUnknownBase := true },
   { blankNode .field .other .noEscape with
     bases := [0], offset := some 16, isOop := true, uses := [.edge 9], hasUnknownBase := true },
   { blankNode .localVar .other .noEscape with edges := [8] },
   { blankNode .javaObject .allocate .noEscape with uses := [.edge 7] },
   { blankNode .javaObject .allocate .noEscape with edges := [15], uses := [.edge 13] },
   { blankNode .javaObject .allocate .noEscape with edges := [16], uses := [.edge 17] },
   { blankNode .localVar .other .noEscape with
     edges := [11], uses := [.edge 14], arraycopySrc := true },
   { blankNode .arraycopy .other .noEscape with edges := [13], uses := [.edge 17] },
   { blankNode .field .other .noEscape with
     edges := [18], bases := [11], offset := some 16, isOop := true },
   { blankNode .field .other .noEscape with
     bases := [12], offset := some 16, isOop := true, uses := [.edge 19] },
   { blankNode .localVar .other .noEscape with edges := [12, 14], arraycopyDst := true },
   { blankNode .javaObject .allocate .noEscape with uses := [.edge 15] },
   { blankNode .localVar .other .noEscape with edges := [16] }]

/-- The graph of the example. -/
def exceptionGraph : Nodes := fun n => exceptionNodes.getD n outside

/-- Its worklists. -/
def exceptionWorklists : Worklists where
  ptnodes := (List.range 20).erase 14
  javaObjects := [0, 1, 3, 10, 11, 12, 18]
  oopFields := [5, 7, 8, 15, 16]

/-- The objects that do not escape globally at first. -/
def exceptionNonEscaped : List ℕ := [3, 10, 11, 12, 18]

/-- No store is captured; field 5 has a raw pointer type. -/
def exceptionInit : InitInfo := ⟨fun f => f = 5, fun _ _ => false⟩

/-- There is time enough. -/
def Clock.unlimited : Clock := ⟨fun _ _ => false, fun _ => false, fun _ => false⟩

/-- The graph has twenty nodes. -/
theorem exceptionGraph_of_le {n : ℕ} (hn : 20 ≤ n) : exceptionGraph n = outside := by
  have hlen : exceptionNodes.length = 20 := rfl
  unfold exceptionGraph
  rw [List.getD_eq_getElem?_getD, List.getElem?_eq_none (by omega)]
  rfl

/-- It is a graph that construction may leave. -/
theorem exceptionGraph_constructed :
    Constructed exceptionWorklists exceptionGraph exceptionNonEscaped := by
  refine constructed_of_lt (k := 20) ?_ (fun n => exceptionGraph_of_le) (by decide) (by decide)
  exact wellFormed_of_lt (k := 20) (fun n => exceptionGraph_of_le) (by decide) (by decide)
    (by decide) (by decide)

/-- A property of the graph of a finished completion. -/
def Finishes (r : Option (Ended (Nodes × List ℕ))) (P : Nodes → Prop) : Prop :=
  ∃ g nonEscaped, r = some (.finished (g, nonEscaped)) ∧ P g

/-- A result that is computed, read as a statement. -/
theorem finishes_of_match {r : Option (Ended (Nodes × List ℕ))} {P : Nodes → Prop}
    [DecidablePred P]
    (h : (match r with
      | some (.finished (g, _)) => decide (P g)
      | _ => false) = true) : Finishes r P := by
  match r, h with
  | some (.finished (g, nonEscaped)), h => exact ⟨g, nonEscaped, rfl, of_decide_eq_true h⟩

/-- The completion of the example returns true, yet null does not escape where a variable that
escapes globally refers to it, the object stored in a field of the phantom object does not get to
the load, the load through the raw pointer does not get null, and what the arraycopy copies to the
object that its destination refers to does not get to the load from there. -/
theorem completeConnectionGraph_exceptions :
    Constructed exceptionWorklists exceptionGraph exceptionNonEscaped ∧
    Finishes (completeConnectionGraph 40 Clock.unlimited exceptionWorklists exceptionInit
      exceptionGraph exceptionNonEscaped) fun g =>
        (1 ∈ (g 2).edges ∧ (g 2).escapeState = .globalEscape ∧ (g 1).escapeState = .noEscape) ∧
        ((10 ∈ (g 7).edges ∧ 0 ∈ (g 7).bases ∧ 0 ∈ (g 8).bases ∧ 8 ∈ (g 9).edges ∧
          (g 7).offset = (g 8).offset) ∧ 10 ∉ (g 9).edges) ∧
        ((g 3).ideal = .allocate ∧ (g 3).escapeState = .noEscape ∧ 3 ∈ (g 5).bases ∧
          5 ∈ (g 6).edges ∧ (g 5).offset = some 16 ∧
          exceptionInit.hasCapturedStore 3 16 = false ∧ 1 ∉ (g 6).edges) ∧
        ((18 ∈ (g 15).edges ∧ 11 ∈ (g 15).bases ∧ 11 ∈ (g 14).edges ∧ 14 ∈ (g 17).edges ∧
          12 ∈ (g 17).edges ∧ 12 ∈ (g 16).bases ∧ 16 ∈ (g 19).edges ∧
          (g 15).offset = (g 16).offset) ∧ 18 ∉ (g 19).edges) :=
  ⟨exceptionGraph_constructed, finishes_of_match (by decide +kernel)⟩

/-- The completion of the example is complete, these apart. -/
theorem completeConnectionGraph_completed_exceptionGraph :
    Finishes (completeConnectionGraph 40 Clock.unlimited exceptionWorklists exceptionInit
      exceptionGraph exceptionNonEscaped)
        (Completed exceptionWorklists exceptionInit exceptionGraph) := by
  obtain ⟨g, nonEscaped, h, -⟩ : Finishes (completeConnectionGraph 40 Clock.unlimited
    exceptionWorklists exceptionInit exceptionGraph exceptionNonEscaped) fun _ => True :=
      finishes_of_match (by decide +kernel)
  exact ⟨g, nonEscaped, h, completeConnectionGraph_completed exceptionGraph_constructed h⟩

end StackAllocation
