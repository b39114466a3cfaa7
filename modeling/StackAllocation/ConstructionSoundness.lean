import StackAllocation.ConstructionResult

/-!
# The ideal graph and the escape states

What the method does with references, read off the ideal graph (`idealMethod`), and that the
constructed connection graph has all of it (`Built.idealMethod_le`). Construction and completion
together are right about every run of the ideal graph: what other code gets hold of has an escape
state that says so (`computeEscape_sound`).

Nodes of the ideal graph run in any order and any number of times. Loads and stores are those
through an `AddP`; a load, a store and an exchange access the field of the base that the address
has then. A string intrinsic and a stub may keep their arguments, unless the stub is a validated
arraycopy.
-/

namespace StackAllocation

open HeapAbstraction

/-! ## What the ideal graph does

The method is read off the ideal graph. A node copies a reference, loads or stores one through an
address, makes an object, passes arguments to a call or gives a result back; every node may run at
any time. So an execution of the ideal graph is a run of this method, whatever the schedule. -/

section

variable (G : IdealNodes)

/-- The operand that an ideal node is, unless it is top. -/
def idealOperand (n : ℕ) : Option (Operand ℕ ℕ) :=
  if n = phantomObj then none
  else if n = nullObj ∨ G.narrowNull = some n then some .null
  else
    match G.kind n with
    | .unknown | .call (some .unknown) _ => some .unknown
    | .con | .threadLocal => some (.constant n)
    | .cast _ | .merge _ | .load _ | .proj _ | .ret _ | .loadStore _ _ _ | .stringIntrinsic _
    | .call (some .arguments) _ => some (.var n)
    | _ => none

/-- The node is an object: a constant, an allocation, or a result that is unknown. -/
def IsObject (n : ℕ) : Prop :=
  G.Reserved n ∨ (G.kind n).isUnknown = true ∨
    ∃ m, (G.kind n).made = some m ∧ m.type = .javaObject

/-- The field that an `AddP` is the address of holds references. -/
def IsOopAddress (f : ℕ) : Prop := ∃ b offset isUnsafe, G.kind f = .addP b offset true isUnsafe

/-- The inputs that a local variable gets its value from. -/
def movesFrom (n : ℕ) : List ℕ :=
  match G.kind n with
  | .cast i | .proj i | .ret i => [i]
  | .merge l => (l.filter fun input =>
      decide (input.uncast ≠ phantomObj) && decide (input.uncast ≠ n)).map MergeInput.node
  | .stringIntrinsic args => args
  | .call (some .arguments) (.analyzed args _) =>
    (args.filter fun arg => arg.isPtr && arg.returned).map JavaArgument.node
  | _ => []

/-- The address and the value of an access. -/
def Stores (access : Access) (address value : ℕ) : Prop :=
  ∃ n, G.kind n = .store access address value ∨ G.kind n = .loadStore access address value

/-- What a call may keep. -/
def PassedTo (n i : ℕ) : Prop :=
  match G.kind n with
  | .call _ (.analyzed args _) => ∃ arg ∈ args, arg.isOop = true ∧ i = arg.node
  | .call _ (.others args) => i ∈ args
  | .stub call => call.validated = false ∧ ∃ arg ∈ call.args, i = arg.node
  | .store .raw _ value | .loadStore .raw _ value => i = value
  | _ => False

/-- What the method does with references, by the ideal graph. -/
def idealMethod : Method ℕ ℕ ℕ ℤ where
  unknown := phantomObj
  global s := G.kind s = .con ∨ G.kind s = .threadLocal
  initialized s := ∃ escapes scalarReplaceable args,
    G.kind s = .call (some (.object escapes scalarReplaceable)) args
  move y x := (∃ i ∈ movesFrom G y, idealOperand G i = some x) ∨
    x = .unknown ∧ ∃ args, G.kind y = .call (some .arguments) (.analyzed args false)
  allocate y p := G.kind y = .proj p ∧ (G.kind p).isCandidate = true
  load y f := (G.kind y = .load f ∨ ∃ access value, G.kind y = .loadStore access f value) ∧
    IsOopAddress G f
  store f x := IsOopAddress G f ∧ ∃ access value, access ≠ .skipped ∧ Stores G access f value ∧
    idealOperand G value = some x
  base f b := ∃ i offset isUnsafe, G.kind f = .addP i offset true isUnsafe ∧
    idealOperand G i = some b
  covers f d := ∃ i offset isOop isUnsafe, G.kind f = .addP i offset isOop isUnsafe ∧
    (offset = none ∨ offset = some d)
  pass x := x ≠ .null ∧ ((∃ n i, PassedTo G n i ∧ idealOperand G i = some x) ∨
    ∃ n, x = .var n ∧ ((∃ value, G.kind n = .ret value) ∨
      (∃ args, G.kind n = .stringIntrinsic args) ∨ ∃ args, G.kind n = .call (some .arguments) args))
  expose x := x ≠ .null ∧ ∃ n result args returnLocal arg,
    G.kind n = .call result (.analyzed args returnLocal) ∧ arg ∈ args ∧ arg.isOop = true ∧
      arg.isLocal = false ∧ idealOperand G arg.node = some x
  clone x y := x ≠ y ∧ ∃ n call arg, G.kind n = .stub call ∧ arg ∈ call.args ∧
    arg.isDestination call ∧ idealOperand G call.src = some x ∧
      idealOperand G arg.node = some y ∧ ∀ i ∈ (G.kind arg.node).inputs, ¬ IsObject G i

end

/-! ## Operands

An operand of the ideal graph becomes an operand of the abstract method: a variable, a constant,
null or something unknown. An edge of the connection graph between the two nodes says that the
values flow. -/

section

variable {g : Nodes} {n : ℕ}

/-- A local variable is a variable of the method. -/
theorem operandOf_localVar (h : (g n).type = .localVar) : operandOf g n = some (.var n) := by
  rw [operandOf, h]

/-- An object that comes from elsewhere is a constant. -/
theorem operandOf_constant (h : (g n).type = .javaObject) (hideal : (g n).ideal = .other)
    (hphantom : n ≠ phantomObj) (hnull : n ≠ nullObj) :
    operandOf g n = some (.constant n) := by
  rw [operandOf, h]
  simp only
  rw [if_neg hnull, if_neg hphantom, if_pos hideal]

/-- The null object is null. -/
theorem WellFormed.operandOf_null (hg : WellFormed g) : operandOf g nullObj = some .null := by
  simp [operandOf, hg.null_type]

/-- The unknown object is what is not known. -/
theorem WellFormed.operandOf_phantom (hg : WellFormed g) :
    operandOf g phantomObj = some .unknown := by
  simp [operandOf, hg.phantom_type, phantomObj_ne_nullObj]

end

section

variable {G : IdealNodes} {c : Construction} {n i p : ℕ} {x : Operand ℕ ℕ}

namespace Built

variable (h : Built G c) (hT : G.Typed)
include h hT

/-- A node that the construction has made is what its operation asks for. -/
theorem isMade {m : PointsToNode} (hn : c.node n = some n) (hm : (G.kind n).made = some m) :
    IsMade m (c.graph n) ∧ n ≠ phantomObj ∧ n ≠ nullObj := by
  have hres : ¬ G.Reserved n := fun hres => by
    rw [hT.reserved hres] at hm
    cases hm
  have hphantom : n ≠ phantomObj := fun heq => hres (.inl heq)
  have hnull : n ≠ nullObj := fun heq => hres (.inr (.inl heq))
  obtain ⟨m', hm', hmade⟩ := h.made hn hphantom hnull
  obtain rfl := Option.some.inj (hm.symm.trans hm')
  exact ⟨hmade, hphantom, hnull⟩

/-- The node of an ideal node stands for the same operand. -/
theorem operand (hi : c.node i = some p) (hx : idealOperand G i = some x) :
    operandOf c.graph p = some x := by
  unfold idealOperand at hx
  split at hx
  · cases hx
  next hphantom =>
  split at hx
  · next hnull =>
    obtain rfl := Option.some.inj hx
    obtain rfl | ⟨rfl, -⟩ | ⟨rfl, hunknown⟩ := h.mapped hi
    · by_cases hpn : p = nullObj
      · rw [hpn]
        exact h.wellFormed.operandOf_null
      · obtain ⟨m, hm, -⟩ := h.made hi hphantom hpn
        rw [hT.reserved (.inr hnull)] at hm
        cases hm
    · exact h.wellFormed.operandOf_null
    · rw [hT.reserved (.inr hnull)] at hunknown
      cases hunknown
  next hnull =>
  rw [not_or] at hnull
  obtain rfl | ⟨-, hnarrow⟩ | ⟨rfl, hunknown⟩ := h.mapped hi
  · obtain ⟨m, hm, hmade⟩ := h.made hi hphantom hnull.1
    cases hop : G.kind p with rw [hop] at hx hm
    | con =>
      obtain rfl := Option.some.inj hx
      obtain rfl := Option.some.inj hm
      exact operandOf_constant hmade.type hmade.ideal hphantom hnull.1
    | threadLocal =>
      obtain rfl := Option.some.inj hx
      obtain rfl := Option.some.inj hm
      exact operandOf_constant hmade.type hmade.ideal hphantom hnull.1
    | call result =>
      cases result with
      | none => cases hx
      | some result =>
        cases result with
        | arguments =>
          obtain rfl := Option.some.inj hx
          obtain rfl := Option.some.inj hm
          exact operandOf_localVar hmade.type
        | unknown => cases hm
        | object => cases hx
    | _ =>
      first
        | cases hx
          done
        | obtain rfl := Option.some.inj hx
          obtain rfl := Option.some.inj hm
          exact operandOf_localVar hmade.type
        | cases hm
  · exact absurd hnarrow hnull.2
  · unfold IdealOp.isUnknown at hunknown
    split at hunknown
    · next hop =>
      rw [hop] at hx
      obtain rfl := Option.some.inj hx
      exact h.wellFormed.operandOf_phantom
    · next hop =>
      rw [hop] at hx
      obtain rfl := Option.some.inj hx
      exact h.wellFormed.operandOf_phantom
    · cases hunknown

/-- An edge to the node of an operand. -/
theorem edge_operand {s : ℕ} (hedge : EdgeTo c s i) (hx : idealOperand G i = some x) :
    ∃ q ∈ (c.graph s).edges, operandOf c.graph q = some x := by
  obtain ⟨q, hq, hmem⟩ := hedge
  exact ⟨q, hmem, h.operand hT hq hx⟩

/-- The operand of a value that escapes. -/
theorem escaped_operand {es : EscapeState} (hes : EscapeState.argEscape.toNat ≤ es.toNat)
    (hescaped : EscapedTo c es i) (hx : idealOperand G i = some x) (hnull : x ≠ .null) :
    ∃ q, operandOf c.graph q = some x ∧ EscapesAt c.graph q := by
  obtain ⟨q, hq, hstate⟩ := hescaped
  have hop := h.operand hT hq hx
  refine ⟨q, hop, Nat.le_trans hes (hstate.resolve_left ?_)⟩
  rintro rfl
  rw [h.wellFormed.operandOf_null] at hop
  exact hnull (Option.some.inj hop).symm

/-- An operand whose fields have escaped, unless it is null. -/
theorem fieldsEscaped_operand (hescaped : FieldsEscapedTo c .globalEscape i)
    (hx : idealOperand G i = some x) (hnull : x ≠ .null) :
    ∃ q, operandOf c.graph q = some x ∧ Escaping c.graph q := by
  obtain ⟨q, hq, hstate⟩ := hescaped
  have hop := h.operand hT hq hx
  refine ⟨q, hop, Nat.le_trans (by decide) (hstate.resolve_left ?_)⟩
  rintro rfl
  rw [h.wellFormed.operandOf_null] at hop
  exact hnull (Option.some.inj hop).symm

variable (hall : ∀ n, G.kind n ≠ .other → Noted G c n ∧ Recorded G c n)
include hall

omit h hT in
/-- What an operation does is recorded in the graph when the construction is done. -/
theorem recorded {op : IdealOp} (hop : G.kind n = op) (hother : op ≠ .other) :
    Recorded G c n := by
  subst hop
  exact (hall n hother).2

/-- The node that is made for an ideal node. -/
theorem madeNode {op : IdealOp} (hop : G.kind n = op) {m : PointsToNode} (hm : op.made = some m)
    (hstub : op.isStub = false) : c.node n = some n ∧ IsMade m (c.graph n) := by
  subst hop
  have hother : G.kind n ≠ .other := fun heq => by
    rw [heq] at hm
    cases hm
  have hnode := (hall n hother).1.node m hm hstub
  exact ⟨hnode, (h.isMade hT hnode hm).1⟩

/-- A local variable is made for the node, and escapes as far as it says. -/
theorem madeLocalVar {op : IdealOp} (hop : G.kind n = op) {es : EscapeState}
    (hm : op.made = some (blankNode .localVar .other es)) :
    (c.graph n).type = .localVar ∧ operandOf c.graph n = some (.var n) ∧
      es.toNat ≤ (c.graph n).escapeState.toNat := by
  have hstub : op.isStub = false := by
    cases op with
    | stub => cases hm
    | _ => rfl
  obtain ⟨-, hmade⟩ := h.madeNode hT hall hop hm hstub
  exact ⟨hmade.type, operandOf_localVar hmade.type, hmade.escapeState⟩

/-- The address of a field that holds references. -/
theorem oopAddress {f : ℕ} (hf : IsOopAddress G f) :
    c.node f = some f ∧ OopField c.graph f := by
  obtain ⟨b, offset, isUnsafe, hop⟩ := hf
  obtain ⟨hnode, hmade⟩ := h.madeNode hT hall hop rfl rfl
  exact ⟨hnode, hmade.type, hmade.isOop⟩

/-- The moves of the ideal graph are edges. -/
theorem movesFrom_edge (hi : i ∈ movesFrom G n) :
    (c.graph n).type = .localVar ∧ EdgeTo c n i := by
  unfold movesFrom at hi
  cases hop : G.kind n with simp only [hop] at hi
  | cast | proj | ret =>
    have hr := recorded hall hop IdealOp.noConfusion
    simp only [Recorded, hop] at hr
    rw [List.mem_singleton.1 hi]
    exact ⟨(h.madeLocalVar hT hall hop rfl).1, hr⟩
  | merge l =>
    have hr := recorded hall hop IdealOp.noConfusion
    simp only [Recorded, hop] at hr
    obtain ⟨input, hinput, rfl⟩ := List.mem_map.1 hi
    rw [List.mem_filter, Bool.and_eq_true, decide_eq_true_eq, decide_eq_true_eq] at hinput
    refine ⟨(h.madeLocalVar hT hall hop rfl).1, ?_⟩
    exact ((hr input hinput.1).resolve_left hinput.2.1).resolve_left hinput.2.2
  | stringIntrinsic args =>
    have hr := recorded hall hop IdealOp.noConfusion
    simp only [Recorded, hop] at hr
    exact ⟨(h.madeLocalVar hT hall hop rfl).1, hr i hi⟩
  | call result args =>
    have hr := recorded hall hop IdealOp.noConfusion
    simp only [Recorded, hop] at hr
    cases result with
    | none => exact absurd hi List.not_mem_nil
    | some result =>
      cases result with
      | arguments =>
        cases args with
        | analyzed args returnLocal =>
          obtain ⟨arg, harg, rfl⟩ := List.mem_map.1 hi
          rw [List.mem_filter] at harg
          refine ⟨(h.madeLocalVar hT hall hop rfl).1, ?_⟩
          exact (hr.1 arg harg.1).returned harg.2 rfl
        | _ => exact absurd hi List.not_mem_nil
      | _ => exact absurd hi List.not_mem_nil
  | _ => exact absurd hi List.not_mem_nil

omit h hT in
/-- A value that a call may keep escapes. -/
theorem passedTo_escaped (hp : PassedTo G n i) : EscapedTo c .argEscape i := by
  have hglobal : ∀ {k}, EscapedTo c .globalEscape k → EscapedTo c .argEscape k := by
    rintro k ⟨q, hq, hes⟩
    exact ⟨q, hq, hes.imp id fun hes => Nat.le_trans (by decide) hes⟩
  unfold PassedTo at hp
  cases hop : G.kind n with simp only [hop] at hp
  | call result args =>
    have hr := recorded hall hop IdealOp.noConfusion
    simp only [Recorded, hop] at hr
    cases args with
    | boxing => exact hp.elim
    | analyzed args returnLocal =>
      obtain ⟨arg, harg, hoop, rfl⟩ := hp
      exact (hr.1 arg harg).escapes hoop
    | others args => exact hglobal (hr i hp)
  | stub call =>
    have hr := recorded hall hop IdealOp.noConfusion
    simp only [Recorded, hop] at hr
    obtain ⟨hvalid, arg, harg, rfl⟩ := hp
    exact (hr arg harg).1 hvalid
  | store access address value =>
    have hr := recorded hall hop IdealOp.noConfusion
    simp only [Recorded, hop] at hr
    cases access with
    | raw =>
      obtain rfl : i = value := hp
      exact hglobal hr.1
    | _ => exact hp.elim
  | loadStore access address value =>
    have hr := recorded hall hop IdealOp.noConfusion
    simp only [Recorded, hop] at hr
    cases access with
    | raw =>
      obtain rfl : i = value := hp
      exact hglobal hr.2.1
    | _ => exact hp.elim

omit h hT in
/-- A stored value is an edge of the field. -/
theorem stores_edge {access : Access} {f value : ℕ} (haccess : access ≠ .skipped)
    (hf : IsOopAddress G f) (hs : Stores G access f value) : EdgeTo c f value := by
  have hadd : (G.kind f).isAddP = true := by
    obtain ⟨b, offset, isUnsafe, hop⟩ := hf
    rw [hop]
    rfl
  have hrecorded : AccessRecorded G c access f value := by
    obtain ⟨n, hop | hop⟩ := hs
    · have hr := recorded hall hop IdealOp.noConfusion
      simpa only [Recorded, hop] using hr
    · have hr := recorded hall hop IdealOp.noConfusion
      simp only [Recorded, hop] at hr
      exact hr.2
  cases access with
  | oop => exact hrecorded
  | raw => exact hrecorded.2 hadd
  | skipped => exact absurd rfl haccess

omit hT hall in
/-- An ideal node whose node is an object is one. -/
theorem isObject (hi : c.node i = some p) (hp : (c.graph p).type = .javaObject) :
    IsObject G i := by
  obtain rfl | ⟨-, hnarrow⟩ | ⟨-, hunknown⟩ := h.mapped hi
  · by_cases hres : G.Reserved p
    · exact .inl hres
    · obtain ⟨m, hm, hmade⟩ := h.made hi (fun heq => hres (.inl heq))
        fun heq => hres (.inr (.inl heq))
      exact .inr (.inr ⟨m, hm, hmade.type.symm.trans hp⟩)
  · exact .inl (.inr (.inr hnarrow))
  · exact .inr (.inl hunknown)

omit hT hall in
/-- The destination of an arraycopy refers to no object directly if its inputs are none. -/
theorem indirectDestination (hi : c.node i = some p)
    (hinputs : ∀ k ∈ (G.kind i).inputs, ¬ IsObject G k) : IndirectDestination c.graph p := by
  intro hlocal e he hjava
  obtain hcopy | ⟨k, hk, hke⟩ := h.inputs hlocal he
  · exact absurd (hcopy.symm.trans hjava) (by decide)
  obtain hp | ⟨rfl, -⟩ := h.node_cases hi
  · exact absurd (hp.symm.trans hlocal) (by decide)
  · exact hinputs k hk (h.isObject hke hjava)

/-- The result of an allocation has an edge to it. -/
theorem allocated_edge {y p : ℕ} (hop : G.kind y = .proj p)
    (hcandidate : (G.kind p).isCandidate = true) : (c.graph y).type = .localVar ∧
      p ∈ (c.graph y).edges ∧ (c.graph p).type = .javaObject ∧
        ((c.graph p).ideal = .allocate ∨ (c.graph p).ideal = .callStaticJava) := by
  have hr := recorded hall hop IdealOp.noConfusion
  simp only [Recorded, hop] at hr
  obtain ⟨q, hq, hmem⟩ := hr
  obtain ⟨m, hm, hty, hideal⟩ := IdealOp.made_isCandidate hcandidate
  have hstub : (G.kind p).isStub = false := by
    cases hop : G.kind p with
    | stub =>
      rw [hop] at hcandidate
      cases hcandidate
    | _ => rfl
  obtain ⟨hself, hmade⟩ := h.madeNode hT hall rfl hm hstub
  obtain rfl := Option.some.inj (hself.symm.trans hq)
  refine ⟨(h.madeLocalVar hT hall hop rfl).1, hmem, hmade.type.trans hty, ?_⟩
  rw [hmade.ideal]
  exact hideal

/-- A load has an edge to its address. -/
theorem loads_edge {y f : ℕ}
    (hop : G.kind y = .load f ∨ ∃ access value, G.kind y = .loadStore access f value) :
    (c.graph y).type = .localVar ∧ EdgeTo c y f := by
  obtain hop | ⟨access, value, hop⟩ := hop
  · have hr := recorded hall hop IdealOp.noConfusion
    simp only [Recorded, hop] at hr
    exact ⟨(h.madeLocalVar hT hall hop rfl).1, hr⟩
  · have hr := recorded hall hop IdealOp.noConfusion
    simp only [Recorded, hop] at hr
    exact ⟨(h.madeLocalVar hT hall hop rfl).1, hr.1⟩

/-- The connection graph has what the ideal graph does. -/
theorem idealMethod_le : (idealMethod G).Le (graphMethod c.graph) where
  unknown := rfl
  global := by
    rintro s (hop | hop)
    · obtain ⟨-, hmade⟩ := h.madeNode hT hall hop rfl rfl
      exact ⟨hmade.type, hmade.ideal⟩
    · obtain ⟨-, hmade⟩ := h.madeNode hT hall hop rfl rfl
      exact ⟨hmade.type, hmade.ideal⟩
  initialized := by
    rintro s ⟨escapes, scalarReplaceable, args, hop⟩
    obtain ⟨-, hmade⟩ := h.madeNode hT hall hop rfl rfl
    exact hmade.ideal
  move := by
    rintro y x (⟨i, hi, hx⟩ | ⟨rfl, args, hop⟩)
    · obtain ⟨hlocal, hedge⟩ := h.movesFrom_edge hT hall hi
      exact ⟨hlocal, h.edge_operand hT hedge hx⟩
    · have hr := recorded hall hop IdealOp.noConfusion
      simp only [Recorded, hop] at hr
      exact ⟨(h.madeLocalVar hT hall hop rfl).1, phantomObj,
        hr.2 trivial trivial, h.wellFormed.operandOf_phantom⟩
  allocate := by
    rintro y p ⟨hop, hcandidate⟩
    exact h.allocated_edge hT hall hop hcandidate
  load := by
    rintro y f ⟨hop, hf⟩
    obtain ⟨hnode, hfield⟩ := h.oopAddress hT hall hf
    obtain ⟨hlocal, q, hq, hmem⟩ := h.loads_edge hT hall hop
    obtain rfl := Option.some.inj (hnode.symm.trans hq)
    exact ⟨hlocal, hmem, hfield⟩
  store := by
    rintro f x ⟨hf, access, value, haccess, hs, hx⟩
    exact ⟨(h.oopAddress hT hall hf).2,
      h.edge_operand hT (stores_edge hall haccess hf hs) hx⟩
  base := by
    rintro f b ⟨i, offset, isUnsafe, hop, hx⟩
    have hr := recorded hall hop IdealOp.noConfusion
    simp only [Recorded, hop] at hr
    obtain ⟨q, hq, hmem⟩ := hr
    exact ⟨(h.oopAddress hT hall ⟨i, offset, isUnsafe, hop⟩).2, q, hmem, h.operand hT hq hx⟩
  covers := by
    rintro f d ⟨i, offset, isOop, isUnsafe, hop, hd⟩
    obtain ⟨-, hmade⟩ := h.madeNode hT hall hop rfl rfl
    have hoffset : (c.graph f).offset = offset := hmade.offset
    change (c.graph f).offset = none ∨ (c.graph f).offset = some d
    rw [hoffset]
    exact hd
  pass := by
    rintro x ⟨hnull, ⟨n, i, hp, hx⟩ | ⟨n, rfl, hop⟩⟩
    · exact h.escaped_operand hT (Nat.le_refl _) (passedTo_escaped hall hp) hx hnull
    · refine ⟨n, ?_⟩
      obtain ⟨value, hop⟩ | ⟨args, hop⟩ | ⟨args, hop⟩ := hop
      · obtain ⟨-, hn, hes⟩ := h.madeLocalVar hT hall hop rfl
        exact ⟨hn, Nat.le_trans (by decide) hes⟩
      · exact (h.madeLocalVar hT hall hop rfl).2
      · exact (h.madeLocalVar hT hall hop rfl).2
  expose := by
    rintro x ⟨hnull, n, result, args, returnLocal, arg, hop, harg, hoop, hlocal, hx⟩
    have hr := recorded hall hop IdealOp.noConfusion
    simp only [Recorded, hop] at hr
    exact h.fieldsEscaped_operand hT ((hr.1 arg harg).fields hoop hlocal) hx hnull
  clone := by
    rintro x y ⟨hne, n, call, arg, hop, harg, hdest, hx, hy, hinputs⟩
    have hr := recorded hall hop IdealOp.noConfusion
    simp only [Recorded, hop] at hr
    obtain ⟨s, d, hs, hd, hlinks⟩ := (hr arg harg).2 hdest
    have hsx := h.operand hT hs hx
    have hdy := h.operand hT hd hy
    obtain rfl | ⟨⟨hn, hsrc⟩, hdst⟩ := hlinks
    · exact absurd (Option.some.inj (hsx.symm.trans hdy)) hne
    have hm : (G.kind n).made = _ := congrArg IdealOp.made hop
    obtain ⟨hmade, -⟩ := h.isMade hT hn hm
    exact ⟨n, s, d, hmade.type, hsrc, hsx, hdst, hdy, h.indirectDestination hd hinputs⟩

end Built

end

/-! ## Runs of the ideal graph

The method of the ideal graph does no more than the one that the connection graph describes,
operation by operation. Soundness of the completed graph for the larger method then gives soundness
for the ideal graph. -/

/-- Construction and completion are right about every state of every run of the ideal graph: what
other code refers to escapes, and a variable refers to what the graph says, or to what escapes
where the graph has the phantom object. -/
theorem computeEscape_sound {fuel : ℕ} {clock : Clock} {I : InitInfo} {G : IdealNodes}
    {ideal : List ℕ} {g : Nodes} {nonEscaped : List ℕ} (hT : G.Typed)
    (hall : ∀ n, G.kind n ≠ .other → n ∈ ideal) (hnull : nullObj ∈ ideal)
    (h : computeEscape fuel clock I G ideal = some (.finished (g, nonEscaped)))
    {s s' : State ℕ ℕ ℤ} (hs : (idealMethod G).Start s)
    (hrun : Relation.ReflTransGen (Step (idealMethod G)) s s') :
    (∀ o ∈ s'.outside, EscapesAt g o.site) ∧ (∀ o ∈ s'.exposed, Escaping g o.site) ∧
      ∀ x o, s'.var x = some o →
        NodeRefersTo g x o.site ∨ EscapesAt g o.site ∧ NodeRefersTo g x phantomObj := by
  unfold computeEscape at h
  split at h
  · cases h
  next c w hconstruct =>
  split at h
  · cases h
  obtain ⟨hbuilt, hcollects, -, hrecorded⟩ := constructGraph_spec hT hnull hconstruct
  have hdone : ∀ n, G.kind n ≠ .other → Noted G c n ∧ Recorded G c n := fun n hn =>
    (hrecorded n (hall n hn)).resolve_left fun hres => hn (hT.reserved hres)
  have hle := hbuilt.idealMethod_le hT hdone
  have hgraph : GraphClosed ⟨w.ptnodes, w.javaObjects, w.oopFields⟩ c.graph g :=
    ⟨(completeConnectionGraph_finished (hcollects.constructed hbuilt) h).1, hbuilt.objectsKnown⟩
  have hsound := hgraph.abstraction_closed.sound (hle.start hs)
    (Relation.ReflTransGen.mono (fun _ _ hstep => hle.step hstep) _ _ hrun)
  exact ⟨fun o => hsound.outside, fun o => hsound.exposed, fun x o => hsound.var⟩

/-- The three objects of the example are allocated, object 2 gets object 5, is cloned to object 11
and is returned, and other code loads object 5. -/
theorem returnedIdeal_run : ∃ s, Relation.ReflTransGen (Step (idealMethod returnedIdeal))
    emptyState s ∧ (⟨5, 0⟩ : Obj ℕ) ∈ s.outside ∧ s.heap ⟨11, 0⟩ 16 = some ⟨5, 0⟩ := by
  have hnone : ∀ s : State ℕ ℕ ℤ, ∀ d : ℤ, Known s ((fun _ => none : ℤ → Option (Obj ℕ)) d) :=
    fun s d p hp => by cases hp
  have haddress : IsOopAddress returnedIdeal 8 := ⟨4, some 16, false, rfl⟩
  have hfield : ∀ {s : State ℕ ℕ ℤ}, s.var 4 = some ⟨2, 0⟩ →
      Accesses (idealMethod returnedIdeal) s 8 ⟨2, 0⟩ 16 := fun {s} h =>
    ⟨⟨4, some 16, true, false, rfl, .inr rfl⟩, .var 4, ⟨4, some 16, false, rfl, rfl⟩,
      h ▸ .var 4⟩
  have hmove : ∀ {y x}, movesFrom returnedIdeal y = [x] →
      idealOperand returnedIdeal x = some (.var x) →
      (idealMethod returnedIdeal).move y (.var x) := fun {y x} hy hx =>
    .inl ⟨x, hy ▸ List.mem_singleton_self x, hx⟩
  have hclone : (idealMethod returnedIdeal).clone (.var 4) (.var 13) := by
    refine ⟨fun heq => (by cases heq), 15, _, ⟨13, false, true⟩, rfl, by decide, ?_, rfl, rfl,
      fun i hi => ?_⟩
    · exact ⟨rfl, rfl, rfl, ⟨4, true, true⟩, by decide, rfl, rfl⟩
    obtain rfl : i = 12 := List.mem_singleton.1 hi
    rintro ((h | h | h) | h | ⟨m, hm, hty⟩)
    · cases h
    · cases h
    · cases h
    · cases h
    · obtain rfl := Option.some.inj hm
      cases hty
  have hpass : (idealMethod returnedIdeal).pass (.var 10) :=
    ⟨fun heq => (by cases heq), .inr ⟨10, rfl, .inl ⟨4, rfl⟩⟩⟩
  refine ⟨_, Relation.ReflTransGen.refl
    |>.tail (.allocate (y := 3) (o := ⟨2, 0⟩) (c := fun _ => none) ⟨rfl, rfl⟩
      (Set.notMem_empty _) (hnone _) fun _ _ => rfl)
    |>.tail (.allocate (y := 6) (o := ⟨5, 0⟩) (c := fun _ => none) ⟨rfl, rfl⟩
      (by simp [emptyState]) (hnone _) fun _ _ => rfl)
    |>.tail (.allocate (y := 12) (o := ⟨11, 0⟩) (c := fun _ => none) ⟨rfl, rfl⟩
      (by simp [emptyState]) (hnone _) fun _ _ => rfl)
    |>.tail (.move (y := 4) (x := .var 3) (hmove rfl rfl) (.var 3))
    |>.tail (.move (y := 7) (x := .var 6) (hmove rfl rfl) (.var 6))
    |>.tail (.move (y := 13) (x := .var 12) (hmove rfl rfl) (.var 12))
    |>.tail (.store (f := 8) (x := .var 7) (o := ⟨2, 0⟩) (d := 16)
      ⟨haddress, .oop, 7, Access.noConfusion, ⟨9, .inl rfl⟩, rfl⟩ (.var 7) (hfield rfl))
    |>.tail (.clone (x := .var 4) (y := .var 13) (o := ⟨2, 0⟩) (d := 16) hclone
      (.var 4) (.var 13) (Set.notMem_empty _))
    |>.tail (.move (y := 10) (x := .var 4) (hmove rfl rfl) (.var 4))
    |>.tail (.pass (x := .var 10) (o := ⟨2, 0⟩) hpass (.var 10))
    |>.tail (.otherLoad (o := ⟨2, 0⟩) (p := ⟨5, 0⟩) (d := 16) (.inl (Set.mem_insert _ _)) rfl),
    Set.mem_insert _ _, rfl⟩

/-- What other code gets hold of in the example escapes, object 5 among it; object 11 does not. -/
theorem computeEscape_sound_returnedIdeal :
    Finishes (computeEscape 40 Clock.unlimited exceptionInit returnedIdeal (List.range 16)) fun g =>
      (EscapesAt g 5 ∧ ¬ EscapesAt g 11) ∧ ∃ s, Relation.ReflTransGen
        (Step (idealMethod returnedIdeal)) emptyState s ∧ (⟨5, 0⟩ : Obj ℕ) ∈ s.outside ∧
          ∀ o ∈ s.outside, EscapesAt g o.site := by
  obtain ⟨g, nonEscaped, h, hstay⟩ : Finishes (computeEscape 40 Clock.unlimited exceptionInit
    returnedIdeal (List.range 16)) fun g => ¬ EscapesAt g 11 :=
      finishes_of_match (by decide +kernel)
  obtain ⟨s, hrun, hout, -⟩ := returnedIdeal_run
  have hall : ∀ n, returnedIdeal.kind n ≠ .other → n ∈ List.range 16 := by
    intro n hn
    rw [List.mem_range]
    by_contra hle
    refine hn ?_
    have hlen : returnedOps.length = 16 := rfl
    simp only [returnedIdeal, List.getD_eq_getElem?_getD]
    rw [List.getElem?_eq_none (by omega)]
    rfl
  obtain ⟨hescapes, -⟩ := computeEscape_sound returnedIdeal_typed hall (by decide) h
    (emptyState_start _) hrun
  exact ⟨g, nonEscaped, h, ⟨hescapes _ hout, hstay⟩, s, hrun, hout, hescapes⟩

end StackAllocation
