import StackAllocation.ConstructionSteps
import Mathlib.Order.MinMax

/-!
# The graph under construction

What construction does for one ideal node is a sequence of changes (`Change`): a new node, an edge,
a base, an escape state, an arraycopy. Each of them keeps what is known of the graph (`Built`) and
loses nothing (`Grows`).

The ideal graph is as the assertions of the source expect it to be (`IdealNodes.Typed`).
-/

namespace StackAllocation

/-! ## The ideal graph

What an operation asks for is data of the node: the operands, the field and base of an address, the
arguments of a call. The assertions of the source become the conditions of `IdealNodes.Typed`, which
say of which kind the operands of each operation are. -/

namespace IdealOp

/-- The result is mapped to the phantom object. -/
def isUnknown : IdealOp → Bool
  | .unknown => true
  | .call (some .unknown) _ => true
  | _ => false

def isStub : IdealOp → Bool
  | .stub _ => true
  | _ => false

def isAddP : IdealOp → Bool
  | .addP _ _ _ _ => true
  | _ => false

/-- The node that is made for it, but for later escape states. -/
def made : IdealOp → Option PointsToNode
  | .addP _ offset isOop isUnsafe =>
    some { blankNode .field .other (escapesGlobally isUnsafe) with
      offset := offset, isOop := isOop }
  | .cast _ | .merge _ | .load _ | .proj _ | .loadStore _ _ _ =>
    some (blankNode .localVar .other .noEscape)
  | .ret _ => some (blankNode .localVar .other .globalEscape)
  | .stringIntrinsic _ => some (blankNode .localVar .other .argEscape)
  | .con => some (javaObjectNode .other .globalEscape true)
  | .threadLocal => some (javaObjectNode .other .argEscape true)
  | .allocate escapes scalarReplaceable =>
    some (javaObjectNode .allocate (escapesGlobally escapes) scalarReplaceable)
  | .call (some (.object escapes scalarReplaceable)) _ =>
    some (javaObjectNode .callStaticJava (escapesGlobally escapes) scalarReplaceable)
  | .call (some .arguments) _ => some (blankNode .localVar .other .argEscape)
  | .stub _ => some (blankNode .arraycopy .other .noEscape)
  | .call (some .unknown) _ | .call none _ | .unknown | .store _ _ _ | .other => none

/-- The inputs that a local variable may be a reference to; an unknown value is top. -/
def inputs : IdealOp → List ℕ
  | .cast i | .load i | .proj i | .ret i | .loadStore _ i _ => [i]
  | .merge l => l.map MergeInput.node
  | .stringIntrinsic args => args
  | .call _ (.analyzed args returnLocal) =>
    ((args.filter fun arg => arg.isPtr && arg.returned).map JavaArgument.node) ++
      if returnLocal then [] else [phantomObj]
  | _ => []

/-- The ideal nodes whose nodes are looked up. -/
def operands : IdealOp → List ℕ
  | .addP base _ _ _ => [base]
  | .store _ address value | .loadStore _ address value => [address, value]
  | .stub leaf => leaf.src :: leaf.args.map StubArgument.node
  | .call _ (.analyzed args _) => args.map JavaArgument.node
  | .call _ (.others args) => args
  | op => op.inputs

end IdealOp

namespace IdealNodes

variable (G : IdealNodes)

/-- The constants of the graph's two predefined objects. -/
def Reserved (n : ℕ) : Prop := n = phantomObj ∨ n = nullObj ∨ G.narrowNull = some n

/-- What the source asserts. -/
structure Typed : Prop where
  reserved : ∀ {n}, G.Reserved n → G.kind n = .other
  /-- a stub has no result -/
  operands : ∀ {n i}, i ∈ (G.kind n).operands → (G.kind i).isStub = false
  base : ∀ {n b offset isOop isUnsafe}, G.kind n = .addP b offset isOop isUnsafe →
    (G.kind b).isAddP = false
  address : ∀ {n address value}, G.kind n = .store .oop address value ∨
    G.kind n = .loadStore .oop address value → (G.kind address).isAddP = true
  /-- the address of an argument is that of its base -/
  argument : ∀ {n call arg}, G.kind n = .stub call → arg ∈ call.args →
    (G.kind arg.node).isAddP = false
  src : ∀ {n call arg}, G.kind n = .stub call → arg ∈ call.args → arg.isFirst = true →
    arg.node = call.src
  first : ∀ {n call}, G.kind n = .stub call →
    call.args.Pairwise fun _ arg => arg.isFirst = false
  destination : ∀ {n call arg arg'}, G.kind n = .stub call → arg ∈ call.args → arg' ∈ call.args →
    arg.hasOops = true → arg'.hasOops = true → arg.isFirst = false → arg'.isFirst = false →
    arg.node = arg'.node
  /-- the type of null is not that of an object -/
  hasOops : ∀ {n call arg}, G.kind n = .stub call → arg ∈ call.args → arg.hasOops = true →
    arg.node ≠ nullObj ∧ G.narrowNull ≠ some arg.node
  returned : ∀ {n result args returnLocal arg},
    G.kind n = .call result (.analyzed args returnLocal) → arg ∈ args →
    (arg.isPtr && arg.returned) = true → result = none ∨ result = some .arguments

end IdealNodes

/-! ## What is known of the graph

A node of the connection graph that was made for an ideal node has the kind that its operation asks
for, and the nodes that were not made are as if they did not exist. With the well-formedness of the
graph this is all that the later steps rely on. -/

/-- The node `k` is what `m` has become. -/
structure IsMade (m k : PointsToNode) : Prop where
  type : k.type = m.type
  ideal : k.ideal = m.ideal
  offset : k.offset = m.offset
  isOop : k.isOop = m.isOop
  escapeState : m.escapeState.toNat ≤ k.escapeState.toNat

/-- What is known of a graph under construction. -/
structure Built (G : IdealNodes) (c : Construction) : Prop where
  wellFormed : WellFormed c.graph
  phantom : c.node phantomObj = some phantomObj
  null : c.node nullObj = some nullObj
  registered : ∀ {i p}, c.node i = some p → c.node p = some p
  mapped : ∀ {i p}, c.node i = some p → p = i ∨ p = nullObj ∧ G.narrowNull = some i ∨
    p = phantomObj ∧ (G.kind i).isUnknown = true
  made : ∀ {n}, c.node n = some n → n ≠ phantomObj → n ≠ nullObj →
    ∃ m, (G.kind n).made = some m ∧ IsMade m (c.graph n)
  fresh : ∀ {n}, c.node n ≠ some n → c.graph n = outside ∧ Unreferenced c.graph n
  inputs : ∀ {n e}, (c.graph n).type = .localVar → e ∈ (c.graph n).edges →
    (c.graph e).type = .arraycopy ∨ ∃ i ∈ (G.kind n).inputs, c.node i = some e
  copies : ∀ {n}, (c.graph n).type = .arraycopy →
    (c.graph n).fieldsEscapeState = (c.graph n).escapeState ∧
      ∀ s ∈ (c.graph n).edges, (c.graph n).escapeState.toNat ≤ (c.graph s).escapeState.toNat
  states : ∀ n, EscapeState.noEscape.toNat ≤ (c.graph n).escapeState.toNat

/-- Nothing is lost. -/
structure Grows (c c' : Construction) : Prop where
  node : ∀ {i p}, c.node i = some p → c'.node i = some p
  edges : ∀ n, (c.graph n).edges ⊆ (c'.graph n).edges
  bases : ∀ n, (c.graph n).bases ⊆ (c'.graph n).bases
  escapeState : ∀ n, (c.graph n).escapeState.toNat ≤ (c'.graph n).escapeState.toNat
  fieldsEscapeState : ∀ n,
    (c.graph n).fieldsEscapeState.toNat ≤ (c'.graph n).fieldsEscapeState.toNat

theorem Grows.refl (c : Construction) : Grows c c :=
  ⟨id, fun _ => List.Subset.refl _, fun _ => List.Subset.refl _, fun _ => Nat.le_refl _,
    fun _ => Nat.le_refl _⟩

/-- A construction that goes on keeps what was there before. -/
theorem Grows.trans {c₁ c₂ c₃ : Construction} (h : Grows c₁ c₂) (h' : Grows c₂ c₃) :
    Grows c₁ c₃ where
  node hp := h'.node (h.node hp)
  edges n := List.Subset.trans (h.edges n) (h'.edges n)
  bases n := List.Subset.trans (h.bases n) (h'.bases n)
  escapeState n := Nat.le_trans (h.escapeState n) (h'.escapeState n)
  fieldsEscapeState n := Nat.le_trans (h.fieldsEscapeState n) (h'.fieldsEscapeState n)

/-! ## Changes

Each call of the construction is one of a few changes of the graph. Every kind of change is shown to
keep the invariant once, and to lose no edge, base or state; what is recorded for other nodes then
stays without a further look. -/

/-- The node may be a base, or an end of an arraycopy. -/
def HoldsObjects (g : Nodes) (n : ℕ) : Prop := (g n).type = .javaObject ∨ (g n).type = .localVar

/-- What the first iteration, or the final one, does to the construction for the ideal node `n`. -/
inductive Change (G : IdealNodes) (n : ℕ) (final : Bool) (c : Construction) : Construction → Prop
  | push : final = false → Change G n final c (c.push n)
  | add {m : PointsToNode} : final = false → c.node n = none → (G.kind n).made = some m →
      (G.kind n).isStub = false → Change G n final c (c.addNode n m)
  | unknown : final = false → c.node n = none → (G.kind n).isUnknown = true →
      Change G n final c (c.mapPhantom n)
  | edge {s i p : ℕ} : c.node s = some s → c.node i = some p → (c.graph p).type ≠ .arraycopy →
      (c.graph s).type = .localVar ∧ i ∈ (G.kind s).inputs ∨ (c.graph s).type = .field →
      Change G n final c (c.edge s p)
  | base {f p : ℕ} : (c.graph f).type = .field → c.node p = some p → HoldsObjects c.graph p →
      Change G n final c (c.base f p)
  | escape {p : ℕ} (es : EscapeState) : final = true → c.node p = some p →
      (c.graph p).type ≠ .arraycopy →
      Change G n final c { c with graph := setEscapeState c.graph p es }
  | fields {p : ℕ} (es : EscapeState) : final = true → c.node p = some p →
      (c.graph p).type ≠ .arraycopy →
      Change G n final c { c with graph := setFieldsEscapeState c.graph p es }
  | copy {es : EscapeState} : final = true → c.node n = none → (G.kind n).isStub = true →
      EscapeState.noEscape.toNat ≤ es.toNat →
      Change G n final c (c.addNode n (blankNode .arraycopy .other es))
  | source {p : ℕ} : final = true → (c.graph n).type = .arraycopy → c.node p = some p →
      HoldsObjects c.graph p → p ≠ nullObj →
      (c.graph n).escapeState.toNat ≤ (c.graph p).escapeState.toNat →
      Change G n final c { c with graph := setArraycopySrc (c.edge n p).graph p }
  | destination {p : ℕ} : final = true → (c.graph n).type = .arraycopy → c.node p = some p →
      HoldsObjects c.graph p → p ≠ nullObj →
      Change G n final c { c with graph := setArraycopyDst (c.edge p n).graph p }

/-- What is done for an ideal node. -/
abbrev Changes (G : IdealNodes) (n : ℕ) (final : Bool) : Construction → Construction → Prop :=
  Relation.ReflTransGen (Change G n final)

/-- The graph has changed, with the same nodes. -/
structure Regraphed (G : IdealNodes) (c : Construction) (g : Nodes) : Prop where
  wellFormed : WellFormed g
  grown : Extends c.graph g
  raised : FieldsRaised c.graph g
  fresh : ∀ n, c.node n ≠ some n → g n = outside
  edges : ∀ n e, e ∈ (g n).edges → e ∈ (c.graph n).edges ∨ c.node e = some e ∧
    ((c.graph n).type = .localVar →
      (c.graph e).type = .arraycopy ∨ ∃ i ∈ (G.kind n).inputs, c.node i = some e) ∧
    ((c.graph n).type = .arraycopy →
      (c.graph n).escapeState.toNat ≤ (c.graph e).escapeState.toNat)
  bases : ∀ n b, b ∈ (g n).bases → b ∈ (c.graph n).bases ∨ c.node b = some b
  copies : ∀ n, (c.graph n).type = .arraycopy →
    (g n).escapeState = (c.graph n).escapeState ∧
      (g n).fieldsEscapeState = (c.graph n).fieldsEscapeState

section

variable {G : IdealNodes} {c c' : Construction} {n : ℕ} {final : Bool}

/-- Nothing is changed. -/
theorem Regraphed.refl (h : Built G c) : Regraphed G c c.graph where
  wellFormed := h.wellFormed
  grown := Extends.refl _
  raised := FieldsRaised.refl _
  fresh _ hn := (h.fresh hn).1
  edges _ _ := .inl
  bases _ _ := .inl
  copies _ _ := ⟨rfl, rfl⟩

/-- What is known stays when the graph changes. -/
theorem Built.regraphed (h : Built G c) {g : Nodes} (hg : Regraphed G c g) :
    Built G { c with graph := g } where
  wellFormed := hg.wellFormed
  phantom := h.phantom
  null := h.null
  registered := h.registered
  mapped := h.mapped
  made {n} hn hphantom hnull := by
    obtain ⟨m, hm, hmade⟩ := h.made hn hphantom hnull
    exact ⟨m, hm, (hg.grown.type n).trans hmade.type, (hg.grown.ideal n).trans hmade.ideal,
      (hg.grown.offset n).trans hmade.offset, (hg.grown.isOop n).trans hmade.isOop,
      Nat.le_trans hmade.escapeState (hg.grown.escapeState n)⟩
  fresh {n} hn := by
    have hnew := (h.fresh hn).2
    refine ⟨hg.fresh n hn, fun k => ⟨fun he => ?_, fun hb => ?_⟩⟩
    · exact (hg.edges k n he).elim (hnew k).1 fun hreg => hn hreg.1
    · exact (hg.bases k n hb).elim (hnew k).2 hn
  inputs {n e} hn he := by
    rw [hg.grown.type] at hn ⊢
    exact (hg.edges n e he).elim (h.inputs hn) fun hnew => hnew.2.1 hn
  copies {n} hn := by
    rw [hg.grown.type] at hn
    obtain ⟨hes, hfields⟩ := hg.copies n hn
    obtain ⟨hsame, hsources⟩ := h.copies hn
    refine ⟨by rw [hes, hfields, hsame], fun s hs => ?_⟩
    rw [hes]
    refine Nat.le_trans ?_ (hg.grown.escapeState s)
    exact (hg.edges n s hs).elim (hsources s) fun hnew => hnew.2.2 hn
  states n := Nat.le_trans (h.states n) (hg.grown.escapeState n)

/-- A change of the graph that makes no node keeps what is there. -/
theorem Regraphed.grows {g : Nodes} (hg : Regraphed G c g) : Grows c { c with graph := g } where
  node := id
  edges := hg.grown.edges
  bases := hg.grown.bases
  escapeState := hg.grown.escapeState
  fieldsEscapeState := hg.raised

namespace Built

variable (h : Built G c)
include h

/-- Only nodes that have been made are something else than local variables. -/
theorem node_of_type (hn : (c.graph n).type ≠ .localVar) : c.node n = some n := by
  by_contra hnone
  rw [(h.fresh hnone).1] at hn
  exact hn rfl

/-- A node that is not made yet is neither the unknown object nor null. -/
theorem node_ne (hn : c.node n = none) : n ≠ phantomObj ∧ n ≠ nullObj := by
  constructor
  · rintro rfl
    rw [h.phantom] at hn
    cases hn
  · rintro rfl
    rw [h.null] at hn
    cases hn

/-- The objects of the constructor are objects. -/
theorem ne_nullObj (hn : (c.graph n).type ≠ .javaObject) : n ≠ nullObj := by
  rintro rfl
  exact hn h.wellFormed.null_type

omit h in
/-- The ends of an edge are not outside. -/
theorem ne_of_fresh {k p : ℕ} (hk : c.node k ≠ some k) (hp : c.node p = some p) : k ≠ p := by
  rintro rfl
  exact hk hp

/-- An edge between nodes that are not arraycopies. -/
theorem edge_regraphed {s i p : ℕ} (hs : c.node s = some s) (hp : c.node i = some p)
    (hcopy : (c.graph p).type ≠ .arraycopy)
    (hty : (c.graph s).type = .localVar ∧ i ∈ (G.kind s).inputs ∨ (c.graph s).type = .field) :
    Regraphed G c (c.edge s p).graph ∧ SameStates c.graph (c.edge s p).graph := by
  have hjava : (c.graph s).type ≠ .javaObject := by
    obtain ⟨hty, -⟩ | hty := hty <;> rw [hty] <;> decide
  have hnot : (c.graph s).type ≠ .arraycopy := by
    obtain ⟨hty, -⟩ | hty := hty <;> rw [hty] <;> decide
  unfold Construction.edge
  have hpair : ¬ ((c.graph s).type = .javaObject ∧ (c.graph p).type = .field) :=
    fun hpair => hjava hpair.1
  obtain ⟨-, heq⟩ | ⟨-, g, heq, hadd⟩ := addEdge_cases h.wellFormed hpair
  · rw [heq]
    exact ⟨Regraphed.refl h, fun _ => ⟨rfl, rfl⟩⟩
  rw [heq]
  refine ⟨⟨?_, hadd.extends, hadd.sameStates.fieldsRaised, fun k hk => ?_, fun k e he => ?_,
    fun k b hb => ?_, fun k _ => hadd.sameStates k⟩, hadd.sameStates⟩
  · exact h.wellFormed.edgeAdded hadd (h.ne_nullObj hjava) (fun hs => absurd hs hjava)
      (fun hs => absurd hs hnot) fun hp => absurd hp hcopy
  · exact hadd.outside (h.fresh hk).1 (ne_of_fresh hk hs) (ne_of_fresh hk (h.registered hp))
  · obtain he | ⟨rfl, rfl⟩ := (hadd.mem_edges k e).1 he
    · exact .inl he
    · refine .inr ⟨h.registered hp, fun hk => ?_, fun hk => absurd hk hnot⟩
      obtain ⟨-, hi⟩ | hfield := hty
      · exact .inr ⟨i, hi, hp⟩
      · exact absurd (hk.symm.trans hfield) (by decide)
  · rw [hadd.bases] at hb
    exact .inl hb

/-- A base. -/
theorem base_regraphed {f p : ℕ} (hf : (c.graph f).type = .field) (hp : c.node p = some p)
    (hobj : HoldsObjects c.graph p) :
    Regraphed G c (c.base f p).graph ∧ SameStates c.graph (c.base f p).graph := by
  have hreg : c.node f = some f := h.node_of_type (by rw [hf]; decide)
  have hnot : ∀ {k : ℕ}, (c.graph k).type = .field → (c.graph k).type ≠ .localVar ∧
      (c.graph k).type ≠ .arraycopy := by
    intro k hk
    rw [hk]
    decide
  unfold Construction.base
  obtain hobj | hlocal := hobj
  · obtain ⟨-, heq⟩ | ⟨-, g, heq, hadd⟩ := addBase_cases h.wellFormed hf hobj
    · rw [heq]
      exact ⟨Regraphed.refl h, fun _ => ⟨rfl, rfl⟩⟩
    rw [heq]
    have hsame : SameStates c.graph g := fun k => ⟨hadd.escapeState k, hadd.fieldsEscapeState k⟩
    refine ⟨⟨h.wellFormed.baseAdded hadd hf hobj, hadd.extends, hsame.fieldsRaised, fun k hk => ?_,
      fun k e he => ?_, fun k b hb => ?_, fun k _ => hsame k⟩, hsame⟩
    · exact hadd.outside (h.fresh hk).1 (ne_of_fresh hk hreg) (ne_of_fresh hk hp)
    · obtain he | ⟨rfl, rfl, -⟩ := (hadd.mem_edges k e).1 he
      · exact .inl he
      · refine .inr ⟨hreg, fun hk => ?_, fun hk => ?_⟩
        · exact absurd (hobj.symm.trans hk) (by decide)
        · exact absurd (hobj.symm.trans hk) (by decide)
    · obtain hb | ⟨-, rfl⟩ := (hadd.mem_bases k b).1 hb
      · exact .inl hb
      · exact .inr hp
  · obtain ⟨-, heq⟩ | ⟨-, hadd⟩ := addBase_localVar h.wellFormed hf hlocal
    · rw [heq]
      exact ⟨Regraphed.refl h, fun _ => ⟨rfl, rfl⟩⟩
    generalize (addBase c.graph f p).2 = g at hadd
    have hsame : SameStates c.graph g := fun k =>
      ⟨hadd.same k PointsToNode.escapeState fun _ => rfl,
        hadd.same k PointsToNode.fieldsEscapeState fun _ => rfl⟩
    refine ⟨⟨h.wellFormed.baseUsed hadd hf hlocal, hadd.extends, hsame.fieldsRaised, fun k hk => ?_,
      fun k e he => ?_, fun k b hb => ?_, fun k _ => hsame k⟩, hsame⟩
    · exact hadd.outside (h.fresh hk).1 (ne_of_fresh hk hreg) (ne_of_fresh hk hp)
    · rw [hadd.same k PointsToNode.edges fun _ => rfl] at he
      exact .inl he
    · obtain hb | ⟨-, rfl⟩ := (hadd.mem_bases k b).1 hb
      · exact .inl hb
      · exact .inr hp

/-- Escape states of a node that is not an arraycopy. -/
theorem states_regraphed {p : ℕ} {g : Nodes} (hp : c.node p = some p)
    (hcopy : (c.graph p).type ≠ .arraycopy) (hraised : StatesRaised c.graph g)
    (hle : ∀ n, (g n).escapeState.toNat ≤ (g n).fieldsEscapeState.toNat)
    (hothers : ∀ k, k ≠ p → g k = c.graph k) : Regraphed G c g where
  wellFormed := h.wellFormed.statesRaised hraised hle
  grown := hraised.extends
  raised := hraised.fieldsEscapeState
  fresh k hk := (hothers k (ne_of_fresh hk hp)).trans (h.fresh hk).1
  edges k e he := by
    rw [hraised.same k PointsToNode.edges fun _ => rfl] at he
    exact .inl he
  bases k b hb := by
    rw [hraised.same k PointsToNode.bases fun _ => rfl] at hb
    exact .inl hb
  copies k hk := by
    have hne : k ≠ p := by
      rintro rfl
      exact hcopy hk
    rw [hothers k hne]
    exact ⟨rfl, rfl⟩

/-- To give a node a state is such a change. An arraycopy has none. -/
theorem escape_regraphed {p : ℕ} (es : EscapeState) (hp : c.node p = some p)
    (hcopy : (c.graph p).type ≠ .arraycopy) : Regraphed G c (setEscapeState c.graph p es) := by
  refine h.states_regraphed hp hcopy (setEscapeState_raised _ p es) (fun k => ?_) fun k hk => ?_
  · rw [setEscapeState_apply]
    split
    · simp only [EscapeState.toNat_max]
      exact max_le_max_right _ (h.wellFormed.state_le k)
    · exact h.wellFormed.state_le k
  · rw [setEscapeState_apply, if_neg fun heq => hk heq.1]

/-- So is it to give one to its fields. -/
theorem fields_regraphed {p : ℕ} (es : EscapeState) (hp : c.node p = some p)
    (hcopy : (c.graph p).type ≠ .arraycopy) :
    Regraphed G c (setFieldsEscapeState c.graph p es) := by
  refine h.states_regraphed hp hcopy (setFieldsEscapeState_raised _ p es) (fun k => ?_)
    fun k hk => ?_
  · rw [setFieldsEscapeState_apply]
    split
    · simp only [EscapeState.toNat_max]
      exact Nat.le_trans (h.wellFormed.state_le k) (Nat.le_max_left _ _)
    · exact h.wellFormed.state_le k
  · rw [setFieldsEscapeState_apply, if_neg fun heq => hk heq.1]

/-- The edge from an arraycopy to its source, with the flag. -/
theorem source_regraphed {p : ℕ} (hn : (c.graph n).type = .arraycopy) (hp : c.node p = some p)
    (hobj : HoldsObjects c.graph p) (hnull : p ≠ nullObj)
    (hle : (c.graph n).escapeState.toNat ≤ (c.graph p).escapeState.toNat) :
    Regraphed G c (setArraycopySrc (c.edge n p).graph p) := by
  have hreg : c.node n = some n := h.node_of_type (by rw [hn]; decide)
  have hjava : (c.graph n).type ≠ .javaObject := by rw [hn]; decide
  have hlocal : (c.graph n).type ≠ .localVar := by rw [hn]; decide
  have hcopy : (c.graph p).type ≠ .arraycopy := by obtain hp | hp := hobj <;> rw [hp] <;> decide
  have hflags := setArraycopySrc_flagsSet c.graph hnull
  unfold Construction.edge
  have hpair : ¬ ((c.graph n).type = .javaObject ∧ (c.graph p).type = .field) :=
    fun hpair => hjava hpair.1
  obtain ⟨hmem, heq⟩ | ⟨-, g, heq, hadd⟩ := addEdge_cases h.wellFormed hpair
  · rw [heq]
    refine ⟨h.wellFormed.flagsSet hflags, hflags.extends, hflags.sameStates.fieldsRaised,
      fun k hk => ?_, fun k e he => ?_, fun k b hb => ?_, fun k _ => hflags.sameStates k⟩
    · rw [setArraycopySrc, Function.update_of_ne (ne_of_fresh hk hp)]
      exact (h.fresh hk).1
    · rw [hflags.same k PointsToNode.edges fun _ => rfl] at he
      exact .inl he
    · rw [hflags.same k PointsToNode.bases fun _ => rfl] at hb
      exact .inl hb
  rw [heq]
  have hflags' := setArraycopySrc_flagsSet g hnull
  have hstates := hadd.sameStates.trans hflags'.sameStates
  refine ⟨?_, hadd.extends.trans hflags'.extends, hstates.fieldsRaised, fun k hk => ?_,
    fun k e he => ?_, fun k b hb => ?_, fun k _ => hstates k⟩
  · refine (h.wellFormed.flagsSet hflags).edgeAdded (hadd.setArraycopySrc p) (h.ne_nullObj hjava)
      ?_ (fun _ => by simp [setArraycopySrc_apply]) ?_
    · rw [hflags.same n PointsToNode.type fun _ => rfl]
      exact fun hs => absurd hs hjava
    · rw [hflags.same p PointsToNode.type fun _ => rfl]
      exact fun hs => absurd hs hcopy
  · rw [setArraycopySrc, Function.update_of_ne (ne_of_fresh hk hp)]
    exact hadd.outside (h.fresh hk).1 (ne_of_fresh hk hreg) (ne_of_fresh hk hp)
  · rw [hflags'.same k PointsToNode.edges fun _ => rfl] at he
    obtain he | ⟨rfl, rfl⟩ := (hadd.mem_edges k e).1 he
    · exact .inl he
    · exact .inr ⟨hp, fun hk => absurd hk hlocal, fun _ => hle⟩
  · rw [hflags'.same k PointsToNode.bases fun _ => rfl, hadd.bases] at hb
    exact .inl hb

/-- The edge from the destination of an arraycopy, with the flag. -/
theorem destination_regraphed {p : ℕ} (hn : (c.graph n).type = .arraycopy)
    (hp : c.node p = some p) (hobj : HoldsObjects c.graph p) (hnull : p ≠ nullObj) :
    Regraphed G c (setArraycopyDst (c.edge p n).graph p) := by
  have hreg : c.node n = some n := h.node_of_type (by rw [hn]; decide)
  have hcopy : (c.graph p).type ≠ .arraycopy := by obtain hp | hp := hobj <;> rw [hp] <;> decide
  have hflags := setArraycopyDst_flagsSet c.graph hnull
  unfold Construction.edge
  have hpair : ¬ ((c.graph p).type = .javaObject ∧ (c.graph n).type = .field) :=
    fun hpair => absurd (hn.symm.trans hpair.2) (by decide)
  obtain ⟨hmem, heq⟩ | ⟨-, g, heq, hadd⟩ := addEdge_cases h.wellFormed hpair
  · rw [heq]
    refine ⟨h.wellFormed.flagsSet hflags, hflags.extends, hflags.sameStates.fieldsRaised,
      fun k hk => ?_, fun k e he => ?_, fun k b hb => ?_, fun k _ => hflags.sameStates k⟩
    · rw [setArraycopyDst, Function.update_of_ne (ne_of_fresh hk hp)]
      exact (h.fresh hk).1
    · rw [hflags.same k PointsToNode.edges fun _ => rfl] at he
      exact .inl he
    · rw [hflags.same k PointsToNode.bases fun _ => rfl] at hb
      exact .inl hb
  rw [heq]
  have hflags' := setArraycopyDst_flagsSet g hnull
  have hstates := hadd.sameStates.trans hflags'.sameStates
  refine ⟨?_, hadd.extends.trans hflags'.extends, hstates.fieldsRaised, fun k hk => ?_,
    fun k e he => ?_, fun k b hb => ?_, fun k _ => hstates k⟩
  · refine (h.wellFormed.flagsSet hflags).edgeAdded_of_dst (hadd.setArraycopyDst p) hnull ?_ ?_ ?_
    · rw [hflags.same n PointsToNode.type fun _ => rfl]
      exact fun _ => hn
    · rw [hflags.same p PointsToNode.type fun _ => rfl]
      exact fun hs => absurd hs hcopy
    · intro _
      refine ⟨by simp [setArraycopyDst_apply], ?_⟩
      rw [hflags.same p PointsToNode.type fun _ => rfl]
      exact hobj
  · rw [setArraycopyDst, Function.update_of_ne (ne_of_fresh hk hp)]
    exact hadd.outside (h.fresh hk).1 (ne_of_fresh hk hp) (ne_of_fresh hk hreg)
  · rw [hflags'.same k PointsToNode.edges fun _ => rfl] at he
    obtain he | ⟨rfl, rfl⟩ := (hadd.mem_edges k e).1 he
    · exact .inl he
    · exact .inr ⟨hreg, fun _ => .inl hn, fun hk => absurd hk hcopy⟩
  · rw [hflags'.same k PointsToNode.bases fun _ => rfl, hadd.bases] at hb
    exact .inl hb

end Built

/-! ## New nodes

A node is made with the kind and state that its operation asks for, and without links. `addNode`
does nothing if the node is there already, so it may be called for one node several times. -/

/-- A node that is made has no links. -/
theorem IdealOp.made_blank {op : IdealOp} {m : PointsToNode} (h : op.made = some m) : m.Blank := by
  unfold IdealOp.made at h
  split at h <;> cases h <;> exact ⟨rfl, rfl, rfl, rfl, rfl, rfl⟩

/-- A new object has at least the lowest state. -/
theorem noEscape_le_escapesGlobally (escapes : Bool) :
    EscapeState.noEscape.toNat ≤ (escapesGlobally escapes).toNat := by
  cases escapes <;> decide

/-- So has every node that is made. -/
theorem IdealOp.noEscape_le_made {op : IdealOp} {m : PointsToNode} (h : op.made = some m) :
    EscapeState.noEscape.toNat ≤ m.escapeState.toNat := by
  unfold IdealOp.made at h
  split at h <;> cases h <;> first | exact noEscape_le_escapesGlobally _ | exact Nat.le_add_left 1 _

theorem IsMade.refl (m : PointsToNode) : IsMade m m := ⟨rfl, rfl, rfl, rfl, Nat.le_refl _⟩

/-- A node is made once; when it is there, it stays as it is. -/
theorem Construction.addNode_of_none {m : PointsToNode} (hn : c.node n = none) :
    c.addNode n m = { c with
      graph := Function.update c.graph n m
      node := Function.update c.node n (some n) } := by
  rw [Construction.addNode, hn]

namespace Built

variable (h : Built G c)
include h

/-- A new node. -/
theorem added {m₀ m : PointsToNode} (hn : c.node n = none) (hm : (G.kind n).made = some m₀)
    (hmade : IsMade m₀ m) (hblank : m.Blank)
    (hstate : EscapeState.noEscape.toNat ≤ m.escapeState.toNat) : Built G (c.addNode n m) := by
  have hnone : c.node n ≠ some n := by
    rw [hn]
    exact (Option.some_ne_none n).symm
  obtain ⟨hout, hnew⟩ := h.fresh hnone
  obtain ⟨hphantom, hnull⟩ := h.node_ne hn
  have hne : ∀ {i p}, c.node i = some p → i ≠ n := by
    rintro i p hi rfl
    rw [hn] at hi
    cases hi
  have hnode : ∀ {i p}, c.node i = some p → Function.update c.node n (some n) i = some p :=
    fun hi => by rw [Function.update_of_ne (hne hi), hi]
  have hedges := update_blank_same (m := m) hout PointsToNode.edges hblank.edges
  have hbases := update_blank_same (m := m) hout PointsToNode.bases hblank.bases
  rw [Construction.addNode_of_none hn]
  constructor
  case wellFormed => exact h.wellFormed.nodeAdded hout hnew hblank
  case phantom => exact hnode h.phantom
  case null => exact hnode h.null
  case registered =>
    intro i p hi
    simp only at hi ⊢
    by_cases hin : i = n
    · rw [hin, Function.update_self] at hi
      obtain rfl := Option.some.inj hi
      rw [Function.update_self]
    · rw [Function.update_of_ne hin] at hi
      exact hnode (h.registered hi)
  case mapped =>
    intro i p hi
    simp only at hi
    by_cases hin : i = n
    · rw [hin, Function.update_self] at hi
      exact .inl ((Option.some.inj hi).symm.trans hin.symm)
    · rw [Function.update_of_ne hin] at hi
      exact h.mapped hi
  case made =>
    intro k hk hkp hkn
    simp only at hk ⊢
    by_cases hkn' : k = n
    · subst hkn'
      rw [Function.update_self]
      exact ⟨m₀, hm, hmade⟩
    · rw [Function.update_of_ne hkn'] at hk ⊢
      exact h.made hk hkp hkn
  case fresh =>
    intro k hk
    simp only at hk ⊢
    by_cases hkn' : k = n
    · rw [hkn', Function.update_self] at hk
      exact absurd rfl hk
    · rw [Function.update_of_ne hkn'] at hk ⊢
      refine ⟨(h.fresh hk).1, fun l => ?_⟩
      rw [hedges, hbases]
      exact (h.fresh hk).2 l
  case inputs =>
    intro k e hk he
    simp only [hedges] at hk he ⊢
    obtain ⟨hkn', hen⟩ := hnew.edge_ne hout he
    rw [Function.update_of_ne hkn'] at hk
    rw [Function.update_of_ne hen]
    obtain hcopy | ⟨i, hi, hie⟩ := h.inputs hk he
    · exact .inl hcopy
    · exact .inr ⟨i, hi, hnode hie⟩
  case copies =>
    intro k hk
    simp only [hedges] at hk ⊢
    by_cases hkn' : k = n
    · subst hkn'
      rw [Function.update_self]
      refine ⟨hblank.state, fun s hs => ?_⟩
      rw [hout] at hs
      exact absurd hs List.not_mem_nil
    · rw [Function.update_of_ne hkn'] at hk ⊢
      obtain ⟨hsame, hsources⟩ := h.copies hk
      refine ⟨hsame, fun s hs => ?_⟩
      rw [Function.update_of_ne (hnew.edge_ne hout hs).2]
      exact hsources s hs
  case states =>
    intro k
    simp only
    by_cases hkn' : k = n
    · rw [hkn', Function.update_self]
      exact hstate
    · rw [Function.update_of_ne hkn']
      exact h.states k

/-- Nothing is lost with a new node. -/
theorem added_grows {m : PointsToNode} (hn : c.node n = none) (hblank : m.Blank)
    (hstate : EscapeState.noEscape.toNat ≤ m.escapeState.toNat) : Grows c (c.addNode n m) := by
  have hnone : c.node n ≠ some n := by
    rw [hn]
    exact (Option.some_ne_none n).symm
  have hout := (h.fresh hnone).1
  rw [Construction.addNode_of_none hn]
  refine ⟨fun {i p} hi => ?_, fun k => ?_, fun k => ?_, fun k => ?_, fun k => ?_⟩
  · have hne : i ≠ n := by
      rintro rfl
      rw [hn] at hi
      cases hi
    simp only [Function.update_of_ne hne, hi]
  · rw [update_blank_same hout PointsToNode.edges hblank.edges]
    exact List.Subset.refl _
  · rw [update_blank_same hout PointsToNode.bases hblank.bases]
    exact List.Subset.refl _
  · by_cases hkn : k = n
    · simp only [hkn, Function.update_self, hout]
      exact hstate
    · simp [Function.update_of_ne hkn]
  · by_cases hkn : k = n
    · simp only [hkn, Function.update_self, hout, hblank.state]
      exact hstate
    · simp [Function.update_of_ne hkn]

end Built

/-! ## Runs

What the code does for one ideal node is a sequence of changes, and for all nodes a longer one. The
invariant and the growth are carried through by induction on the sequence. -/

/-- A result that is unknown. -/
theorem Built.unknown (h : Built G c) (hn : c.node n = none) (hk : (G.kind n).isUnknown = true) :
    Built G (c.mapPhantom n) ∧ Grows c (c.mapPhantom n) := by
  have hnode : ∀ {i p}, c.node i = some p →
      Function.update c.node n (some phantomObj) i = some p := by
    intro i p hi
    have hne : i ≠ n := by
      rintro rfl
      rw [hn] at hi
      cases hi
    rw [Function.update_of_ne hne, hi]
  have hphantom := (h.node_ne hn).1
  have hself : ∀ {k}, Function.update c.node n (some phantomObj) k = some k ↔
      c.node k = some k := by
    refine fun {k} => ⟨fun hk => ?_, hnode⟩
    by_cases hkn : k = n
    · rw [hkn, Function.update_self] at hk
      exact absurd (Option.some.inj hk).symm hphantom
    · rwa [Function.update_of_ne hkn] at hk
  refine ⟨⟨h.wellFormed, hnode h.phantom, hnode h.null, fun {i p} hi => ?_, fun {i p} hi => ?_,
    fun {k} hk => h.made (hself.1 hk), fun {k} hk => h.fresh fun heq => hk (hself.2 heq),
    fun {k e} hk he => ?_, h.copies, h.states⟩, ⟨hnode, fun _ => List.Subset.refl _,
      fun _ => List.Subset.refl _, fun _ => Nat.le_refl _, fun _ => Nat.le_refl _⟩⟩
  · by_cases hin : i = n
    · simp only [Construction.mapPhantom, hin, Function.update_self] at hi
      obtain rfl := Option.some.inj hi
      exact hnode h.phantom
    · simp only [Construction.mapPhantom, Function.update_of_ne hin] at hi
      exact hnode (h.registered hi)
  · by_cases hin : i = n
    · simp only [Construction.mapPhantom, hin, Function.update_self] at hi
      exact .inr (.inr ⟨(Option.some.inj hi).symm, hin ▸ hk⟩)
    · simp only [Construction.mapPhantom, Function.update_of_ne hin] at hi
      exact h.mapped hi
  · obtain hcopy | ⟨i, hi, hie⟩ := h.inputs hk he
    · exact .inl hcopy
    · exact .inr ⟨i, hi, hnode hie⟩

/-- A change keeps what is known and loses nothing. -/
theorem Built.change (h : Built G c) (hchange : Change G n final c c') :
    Built G c' ∧ Grows c c' := by
  have hgraph : ∀ {g : Nodes}, Regraphed G c g → Built G { c with graph := g } ∧
      Grows c { c with graph := g } := fun hg => ⟨h.regraphed hg, hg.grows⟩
  cases hchange with
  | push =>
    unfold Construction.push
    split
    · exact ⟨h, Grows.refl c⟩
    · exact ⟨⟨h.wellFormed, h.phantom, h.null, h.registered, h.mapped, h.made, h.fresh, h.inputs,
        h.copies, h.states⟩, ⟨id, fun _ => List.Subset.refl _, fun _ => List.Subset.refl _,
          fun _ => Nat.le_refl _, fun _ => Nat.le_refl _⟩⟩
  | add _ hn hm _ =>
    have hblank := IdealOp.made_blank hm
    have hstate := IdealOp.noEscape_le_made hm
    exact ⟨h.added hn hm (IsMade.refl _) hblank hstate, h.added_grows hn hblank hstate⟩
  | unknown _ hn hk => exact h.unknown hn hk
  | edge hs hp hcopy hty => exact hgraph (h.edge_regraphed hs hp hcopy hty).1
  | base hf hp hobj => exact hgraph (h.base_regraphed hf hp hobj).1
  | escape es _ hp hcopy => exact hgraph (h.escape_regraphed es hp hcopy)
  | fields es _ hp hcopy => exact hgraph (h.fields_regraphed es hp hcopy)
  | @copy es _ hn hk hes =>
    have hblank := blankNode_blank .arraycopy .other es
    refine ⟨?_, h.added_grows hn hblank hes⟩
    cases hop : G.kind n with
    | stub leaf =>
      have hm : (G.kind n).made = some (blankNode .arraycopy .other .noEscape) := by
        rw [hop, IdealOp.made]
      exact h.added hn hm ⟨rfl, rfl, rfl, rfl, hes⟩ hblank hes
    | _ =>
      rw [hop] at hk
      cases hk
  | source _ hn hp hobj hnull hle => exact hgraph (h.source_regraphed hn hp hobj hnull hle)
  | destination _ hn hp hobj hnull => exact hgraph (h.destination_regraphed hn hp hobj hnull)

/-- The invariant after a run of changes, by induction on them. -/
theorem Built.changes (h : Built G c) (hrun : Changes G n final c c') :
    Built G c' ∧ Grows c c' := by
  induction hrun with
  | refl => exact ⟨h, Grows.refl c⟩
  | tail _ hstep ih =>
    obtain ⟨hbuilt, hgrows⟩ := ih
    obtain ⟨hnext, hstep⟩ := hbuilt.change hstep
    exact ⟨hnext, hgrows.trans hstep⟩

end

end StackAllocation
