import StackAllocation.IdealKitMeaning
import Mathlib.Data.List.Basic

/-!
# What the kit adds to the graph

An expression adds operations and leaves what there was (`IdealKit.expr_adds`), and its node has the
value of the expression in every graph with these operations. A conditional adds an `If` with its
projections (`IdealKit.openIf_opened`).
-/

namespace StackAllocation

variable {Val : Type}

/-- The inputs of an operation are older than the node, and so is the region of a `Phi`. -/
def KitNode.Older (n : ℕ) : KitNode Val → Prop
  | .op _ a b c => a < n ∧ b < n ∧ c < n
  | .phi r _ => r < n
  | _ => True

/-- All that a cvstate should have is there, and in the graph. -/
structure CvState.Live (cv : CvState) (numAliasTypes size : ℕ) : Prop where
  ctrl : ∃ c, cv.ctrl = some c ∧ c < size
  io : ∃ n, cv.io = some n ∧ n < size
  memory : ∃ m, cv.memory = some m ∧ ∀ i < numAliasTypes, m i < size
  vars : ∀ {v n}, cv.vars v = some n → n < size

/-- What a state refers to stays there when nodes are added. -/
theorem CvState.Live.mono {cv : CvState} {numAliasTypes size size' : ℕ}
    (h : cv.Live numAliasTypes size) (hle : size ≤ size') : cv.Live numAliasTypes size' := by
  obtain ⟨c, hc, hlc⟩ := h.ctrl
  obtain ⟨n, hn, hln⟩ := h.io
  obtain ⟨m, hm, hlm⟩ := h.memory
  exact ⟨⟨c, hc, by omega⟩, ⟨n, hn, by omega⟩, ⟨m, hm, fun i hi => by have := hlm i hi; omega⟩,
    fun hv => by have := h.vars hv; omega⟩

namespace IdealKit

/-- A kit in the course of its calls. -/
structure WellFormed (kit : IdealKit Val) : Prop where
  older : ∀ n < kit.size, (kit.node n).Older n
  cvstate : kit.cvstate.Live kit.numAliasTypes kit.size

/-- Where every node has older inputs only, the graph can be evaluated in the order of the nodes. -/
theorem ordered_of_older {kit : IdealKit Val} (h : ∀ n < kit.size, (kit.node n).Older n) :
    Ordered kit.node kit.size := by
  intro n hn f a b c heq
  have := h n hn
  rwa [heq] at this

/-- So it can in a well formed kit. -/
theorem WellFormed.ordered {kit : IdealKit Val} (h : kit.WellFormed) :
    Ordered kit.node kit.size := ordered_of_older h.older

/-- `G` is a graph that has all operations of the kit. -/
def Agrees (G : ℕ → KitNode Val) (kit : IdealKit Val) : Prop :=
  ∀ n < kit.size, (G n).op? = (kit.node n).op?

/-- From `kit` to `kit'` only nodes were added. -/
structure Adds (P : ℕ → KitNode Val → Prop) (kit kit' : IdealKit Val) : Prop where
  size_le : kit.size ≤ kit'.size
  node : ∀ n < kit.size, kit'.node n = kit.node n
  new : ∀ n, kit.size ≤ n → n < kit'.size → P n (kit'.node n)
  cvstate : kit'.cvstate = kit.cvstate
  pendingCvstates : kit'.pendingCvstates = kit.pendingCvstates
  varCt : kit'.varCt = kit.varCt
  numAliasTypes : kit'.numAliasTypes = kit.numAliasTypes

section

variable {P Q : ℕ → KitNode Val → Prop} {kit kit₁ kit₂ : IdealKit Val}

theorem Adds.refl (P : ℕ → KitNode Val → Prop) (kit : IdealKit Val) : Adds P kit kit :=
  ⟨le_refl _, fun _ _ => rfl, fun n hn hn' => absurd hn' (by omega), rfl, rfl, rfl, rfl⟩

/-- Nodes that are added one batch after another. -/
theorem Adds.trans (h : Adds P kit kit₁) (h' : Adds P kit₁ kit₂) : Adds P kit kit₂ where
  size_le := h.size_le.trans h'.size_le
  node := fun n hn => (h'.node n (hn.trans_le h.size_le)).trans (h.node n hn)
  new := by
    intro n hn hn'
    by_cases hlt : n < kit₁.size
    · rw [h'.node n hlt]
      exact h.new n hn hlt
    · exact h'.new n (by omega) hn'
  cvstate := h'.cvstate.trans h.cvstate
  pendingCvstates := h'.pendingCvstates.trans h.pendingCvstates
  varCt := h'.varCt.trans h.varCt
  numAliasTypes := h'.numAliasTypes.trans h.numAliasTypes

/-- They have the weaker of two properties. -/
theorem Adds.mono (h : Adds P kit kit₁) (hPQ : ∀ n x, P n x → Q n x) : Adds Q kit kit₁ :=
  { h with new := fun n hn hn' => hPQ _ _ (h.new n hn hn') }

/-- A new node is one that was added. -/
theorem addNode_adds (kit : IdealKit Val) {x : KitNode Val} (hP : P kit.size x) :
    Adds P kit (kit.addNode x).2 where
  size_le := Nat.le_succ _
  node := fun n hn => Function.update_of_ne hn.ne _ _
  new := by
    intro n hn hn'
    have : n = kit.size := by simp only [addNode] at hn'; omega
    subst this
    simpa [addNode] using hP
  cvstate := rfl
  pendingCvstates := rfl
  varCt := rfl
  numAliasTypes := rfl

/-- A graph that has the nodes of the later kit has those of the earlier one. -/
theorem Adds.agrees (h : Adds P kit kit₁) {G : ℕ → KitNode Val} (hG : Agrees G kit₁) :
    Agrees G kit :=
  fun n hn => by rw [hG n (hn.trans_le h.size_le), h.node n hn]

/-- What is added leaves the state as it is, and what it represents. -/
theorem Adds.represents (h : Adds P kit kit₁) {value : ℕ → Val} {env : KitEnv Val}
    (hrep : kit.cvstate.Represents kit.varCt kit.numAliasTypes value env) :
    kit₁.cvstate.Represents kit₁.varCt kit₁.numAliasTypes value env := by
  rw [h.cvstate, h.varCt, h.numAliasTypes]
  exact hrep

/-- If all that is added has older inputs only, so have all nodes. -/
theorem Adds.older (h : Adds P kit kit₁) (hP : ∀ n x, P n x → x.Older n)
    (hkit : ∀ n < kit.size, (kit.node n).Older n) : ∀ n < kit₁.size, (kit₁.node n).Older n := by
  intro n hn
  by_cases hlt : n < kit.size
  · rw [h.node n hlt]
    exact hkit n hlt
  · exact hP _ _ (h.new n (by omega) hn)

/-- Then the kit stays well formed. -/
theorem Adds.wellFormed (h : Adds P kit kit₁) (hP : ∀ n x, P n x → x.Older n)
    (hkit : kit.WellFormed) : kit₁.WellFormed where
  older := h.older hP hkit.older
  cvstate := by
    rw [h.cvstate, h.numAliasTypes]
    exact hkit.cvstate.mono h.size_le

end

/-! ## Expressions

A node of an expression is an operation of older nodes or one that was there. Its value is that of
the expression in every graph with the operations of the kit, which is the form in which all later
statements use it. -/

/-- An operation of older inputs. -/
def IsOp (n : ℕ) (x : KitNode Val) : Prop := ∃ f a b c, x = .op f a b c ∧ a < n ∧ b < n ∧ c < n

/-- The nodes of an expression have older inputs only. -/
theorem IsOp.older {n : ℕ} {x : KitNode Val} (h : IsOp n x) : x.Older n := by
  obtain ⟨f, a, b, c, rfl, hlt⟩ := h
  exact hlt

section

variable {K : KitCompiler Val} {kit kit' : IdealKit Val} {n : ℕ}

/-- `transform` adds at most the operation, and gives its value. -/
theorem transform_adds (hkit : kit.WellFormed) {f a b c} (ha : a < kit.size) (hb : b < kit.size)
    (hc : c < kit.size) (h : kit.transform K f a b c = (n, kit')) :
    Adds IsOp kit kit' ∧ n < kit'.size ∧
      ∀ {G ρ}, Agrees G kit' → eval G ρ n = f (eval G ρ a) (eval G ρ b) (eval G ρ c) := by
  unfold transform at h
  split at h
  · next m heq =>
    obtain ⟨rfl, rfl⟩ := Prod.mk.inj h
    obtain ⟨hlt, heval⟩ := K.gvn_eval hkit.ordered ha hb hc heq
    refine ⟨Adds.refl _ _, hlt, fun {G ρ} hG => ?_⟩
    have hsame {i : ℕ} (hi : i < kit.size) : eval G ρ i = eval kit.node ρ i :=
      eval_congr hkit.ordered hG (fun _ _ _ => rfl) hi
    rw [hsame hlt, hsame ha, hsame hb, hsame hc, heval]
  · obtain ⟨rfl, rfl⟩ := Prod.mk.inj h
    have hadds : Adds IsOp kit (kit.addNode (.op f a b c)).2 :=
      addNode_adds kit ⟨f, a, b, c, rfl, ha, hb, hc⟩
    have hlt : kit.size < (kit.addNode (.op f a b c)).2.size := Nat.lt_succ_self _
    refine ⟨hadds, hlt, fun {G ρ} hG => ?_⟩
    have hord := (hadds.wellFormed (fun _ _ => IsOp.older) hkit).ordered
    refine eval_op (hord.congr hG) hlt (KitNode.op?_eq_some.mp ((hG _ hlt).trans ?_))
    simp [KitNode.op?]

/-- An expression adds operations, and its node has the value of the expression. -/
theorem expr_adds {nodes : List ℕ} {e : KitExpr Val} (hkit : kit.WellFormed)
    (hnodes : ∀ i ∈ nodes, i < kit.size) (h : expr K nodes e kit = some (n, kit')) :
    Adds IsOp kit kit' ∧ n < kit'.size ∧
      ∀ {G ρ env x}, Agrees G kit' →
        kit.cvstate.Represents kit.varCt kit.numAliasTypes (eval G ρ) env →
        e.denote (nodes.map (eval G ρ)) env = some x → eval G ρ n = x := by
  induction e generalizing kit kit' n with
  | node i =>
    simp only [expr, Option.map_eq_some_iff, Prod.mk.injEq] at h
    obtain ⟨m, hm, rfl, rfl⟩ := h
    refine ⟨Adds.refl _ _, hnodes _ (List.mem_of_getElem? hm), fun {G ρ env x} _ _ hx => ?_⟩
    simpa [KitExpr.denote, hm] using hx
  | value v =>
    simp only [expr] at h
    split at h
    · next hv =>
      simp only [Option.map_eq_some_iff, Prod.mk.injEq] at h
      obtain ⟨m, hm, rfl, rfl⟩ := h
      refine ⟨Adds.refl _ _, hkit.cvstate.vars hm, fun {G ρ env x} _ hrep hx => ?_⟩
      obtain ⟨n, hn, rfl⟩ := hrep.vars hv hx
      rw [Option.some.inj (hm.symm.trans hn)]
    · cases h
  | memory aliasIdx =>
    simp only [expr] at h
    split at h
    · next hi =>
      simp only [Option.map_eq_some_iff, Prod.mk.injEq] at h
      obtain ⟨m, hm, rfl, rfl⟩ := h
      obtain ⟨m', hm', hlt⟩ := hkit.cvstate.memory
      obtain rfl := Option.some.inj (hm.symm.trans hm')
      refine ⟨Adds.refl _ _, hlt _ hi, fun {G ρ env x} _ hrep hx => ?_⟩
      obtain ⟨m', hm', hval⟩ := hrep.memory
      obtain rfl := Option.some.inj (hm.symm.trans hm')
      rw [hval _ hi]
      exact Option.some.inj hx
    · cases h
  | io =>
    simp only [expr, Option.map_eq_some_iff, Prod.mk.injEq] at h
    obtain ⟨m, hm, rfl, rfl⟩ := h
    obtain ⟨m', hm', hlt⟩ := hkit.cvstate.io
    obtain rfl := Option.some.inj (hm.symm.trans hm')
    refine ⟨Adds.refl _ _, hlt, fun {G ρ env x} _ hrep hx => ?_⟩
    obtain ⟨m', hm', hval⟩ := hrep.io
    obtain rfl := Option.some.inj (hm.symm.trans hm')
    rw [hval]
    exact Option.some.inj hx
  | op f a b c iha ihb ihc =>
    simp only [expr, Option.bind_eq_some_iff, Option.map_eq_some_iff] at h
    obtain ⟨⟨na, kita⟩, ha, ⟨nb, kitb⟩, hb, ⟨nc, kitc⟩, hc, hop⟩ := h
    obtain ⟨hadda, hlta, hvala⟩ := iha hkit hnodes ha
    have hkita := hadda.wellFormed (fun _ _ => IsOp.older) hkit
    obtain ⟨haddb, hltb, hvalb⟩ :=
      ihb hkita (fun i hi => (hnodes i hi).trans_le hadda.size_le) hb
    have hkitb := haddb.wellFormed (fun _ _ => IsOp.older) hkita
    have hab := hadda.trans haddb
    obtain ⟨haddc, hltc, hvalc⟩ :=
      ihc hkitb (fun i hi => (hnodes i hi).trans_le hab.size_le) hc
    have hkitc := haddc.wellFormed (fun _ _ => IsOp.older) hkitb
    obtain ⟨haddn, hltn, hvaln⟩ := transform_adds hkitc
      (hlta.trans_le (haddb.trans haddc).size_le) (hltb.trans_le haddc.size_le) hltc hop
    refine ⟨(hab.trans haddc).trans haddn, hltn, fun {G ρ env x} hG hrep hx => ?_⟩
    simp only [KitExpr.denote, Option.bind_eq_some_iff, Option.map_eq_some_iff] at hx
    obtain ⟨xa, hxa, xb, hxb, xc, hxc, rfl⟩ := hx
    have hGc := haddn.agrees hG
    have hGb := haddc.agrees hGc
    have hGa := haddb.agrees hGb
    have hrepa := hadda.represents hrep
    have hrepb := hab.represents hrep
    rw [hvaln hG, hvala hGa hrep hxa, hvalb hGb hrepa hxb, hvalc hGc hrepb hxc]

/-- A `store` adds operations, and the new memory is what it stores. -/
theorem store_adds {f aliasIdx adr val} (hkit : kit.WellFormed) (hadr : adr < kit.size)
    (hval : val < kit.size) (h : kit.store K f aliasIdx adr val = some kit') :
    ∃ kit₁ st m, Adds IsOp kit kit₁ ∧ kit' = kit₁.setMemory st aliasIdx ∧ st < kit₁.size ∧
      aliasIdx < kit.numAliasTypes ∧ kit.cvstate.memory = some m ∧
      ∀ {G ρ}, Agrees G kit₁ →
        eval G ρ st = f (eval G ρ (m aliasIdx)) (eval G ρ adr) (eval G ρ val) := by
  unfold store at h
  split at h
  · next hi =>
    simp only [Option.map_eq_some_iff] at h
    obtain ⟨m, hm, rfl⟩ := h
    obtain ⟨m', hm', hlt⟩ := hkit.cvstate.memory
    obtain rfl := Option.some.inj (hm.symm.trans hm')
    rcases hst : kit.transform K f (m aliasIdx) adr val with ⟨st, kit₁⟩
    obtain ⟨hadds, hlt, heval⟩ := transform_adds hkit (hlt _ hi) hadr hval hst
    exact ⟨kit₁, st, m, hadds, rfl, hlt, hi, hm, heval⟩
  · cases h

end

/-! ## Conditionals

A conditional evaluates its comparison and adds three nodes. Both branches start with the values
from before it. -/

/-- From `kit` to `kit'` operations were added, and an `If` at `iff` with its projections. The else
state is on the stack. -/
structure Opened (kit kit' : IdealKit Val) (ctrl bol iff : ℕ) : Prop where
  size_le : kit.size ≤ iff
  size : kit'.size = iff + 3
  node : ∀ n < kit.size, kit'.node n = kit.node n
  new : ∀ n, kit.size ≤ n → n < iff → IsOp n (kit'.node n)
  node_iff : kit'.node iff = .iff ctrl bol
  node_ifTrue : kit'.node (iff + 1) = .ifTrue iff
  node_ifFalse : kit'.node (iff + 2) = .ifFalse iff
  ctrl : kit.cvstate.ctrl = some ctrl
  cvstate : kit'.cvstate = { kit.cvstate with ctrl := some (iff + 1) }
  pendingCvstates : kit'.pendingCvstates =
    { kit.cvstate with ctrl := some (iff + 2) } :: kit.pendingCvstates
  varCt : kit'.varCt = kit.varCt
  numAliasTypes : kit'.numAliasTypes = kit.numAliasTypes

section

variable {K : KitCompiler Val} {kit kit₁ kit' : IdealKit Val} {ctrl bol iff : ℕ}

/-- A conditional that is opened after its condition was evaluated. -/
theorem Opened.of_adds (hadds : Adds IsOp kit kit₁) (h : Opened kit₁ kit' ctrl bol iff) :
    Opened kit kit' ctrl bol iff where
  size_le := hadds.size_le.trans h.size_le
  size := h.size
  node := fun n hn => (h.node n (hn.trans_le hadds.size_le)).trans (hadds.node n hn)
  new := by
    intro n hn hlt
    by_cases hlt' : n < kit₁.size
    · rw [h.node n hlt']
      exact hadds.new n hn hlt'
    · exact h.new n (by omega) hlt
  node_iff := h.node_iff
  node_ifTrue := h.node_ifTrue
  node_ifFalse := h.node_ifFalse
  ctrl := hadds.cvstate ▸ h.ctrl
  cvstate := by rw [h.cvstate, hadds.cvstate]
  pendingCvstates := by rw [h.pendingCvstates, hadds.cvstate, hadds.pendingCvstates]
  varCt := h.varCt.trans hadds.varCt
  numAliasTypes := h.numAliasTypes.trans hadds.numAliasTypes

/-- A graph with the nodes of an open conditional has those from before it. -/
theorem Opened.agrees (h : Opened kit kit' ctrl bol iff) {G : ℕ → KitNode Val}
    (hG : Agrees G kit') : Agrees G kit := by
  intro n hn
  have := h.size_le
  have := h.size
  rw [hG n (by omega), h.node n hn]

/-- The kit of an open conditional is well formed. -/
theorem Opened.wellFormed (h : Opened kit kit' ctrl bol iff) (hkit : kit.WellFormed) :
    kit'.WellFormed where
  older := by
    intro n hn
    have := h.size
    rcases Nat.lt_or_ge n kit.size with hlt | hge
    · rw [h.node n hlt]
      exact hkit.older n hlt
    rcases Nat.lt_or_ge n iff with hlt | hge'
    · exact (h.new n hge hlt).older
    obtain rfl | rfl | rfl : n = iff ∨ n = iff + 1 ∨ n = iff + 2 := by omega
    · rw [h.node_iff]; trivial
    · rw [h.node_ifTrue]; trivial
    · rw [h.node_ifFalse]; trivial
  cvstate := by
    have hle : kit.size ≤ kit'.size := by have := h.size_le; have := h.size; omega
    have hlive := hkit.cvstate.mono hle
    rw [h.cvstate, h.numAliasTypes]
    exact ⟨⟨_, rfl, by have := h.size; omega⟩, hlive.io, hlive.memory, hlive.vars⟩

/-- `if_then_common` -/
theorem ifThenCommon_opened (h : kit.ifThenCommon bol = some kit') :
    ∃ ctrl, Opened kit kit' ctrl bol kit.size := by
  unfold ifThenCommon at h
  split at h
  · cases h
  next ctrl hctrl =>
  obtain rfl := Option.some.inj h
  refine ⟨ctrl, le_refl _, rfl, fun n hn => ?_, fun n hn hn' => absurd hn' (by omega), ?_, ?_, ?_,
    hctrl, rfl, rfl, rfl, rfl⟩
  · simp [show n ≠ kit.size + 1 + 1 by omega, show n ≠ kit.size + 1 by omega, hn.ne]
  · simp [show kit.size ≠ kit.size + 1 + 1 by omega]
  · simp
  · simp

/-- `if_then` and `uif_then` test their operands. -/
theorem ifThen_opened {unsigned left relop right} (hkit : kit.WellFormed) (hl : left < kit.size)
    (hr : right < kit.size) (h : kit.ifThen K unsigned left relop right = some kit') :
    ∃ ctrl bol iff, Opened kit kit' ctrl bol iff ∧ ∀ {G ρ}, Agrees G kit' →
      K.holds (eval G ρ bol) = K.test unsigned (eval G ρ left) relop (eval G ρ right) := by
  unfold ifThen at h
  rcases hcmp : kit.transform K (fun l r _ => K.cmp unsigned l r) left right right with ⟨cmp, kitc⟩
  rw [hcmp] at h
  obtain ⟨haddc, hltc, hvalc⟩ := transform_adds hkit hl hr hr hcmp
  have hkitc := haddc.wellFormed (fun _ _ => IsOp.older) hkit
  rcases hbool : kitc.transform K (fun c _ _ => K.bool relop c) cmp cmp cmp with ⟨bol, kitb⟩
  simp only [hbool] at h
  obtain ⟨haddb, -, hvalb⟩ := transform_adds hkitc hltc hltc hltc hbool
  obtain ⟨ctrl, hopen⟩ := ifThenCommon_opened h
  refine ⟨ctrl, _, _, (hopen.of_adds haddb).of_adds haddc, fun {G ρ} hG => ?_⟩
  have hGb := hopen.agrees hG
  rw [hvalb hGb, hvalc (haddb.agrees hGb), KitCompiler.test]

/-- The same, of expressions. -/
theorem openIf_opened {nodes unsigned left relop right} (hkit : kit.WellFormed)
    (hnodes : ∀ i ∈ nodes, i < kit.size)
    (h : kit.openIf K nodes unsigned left relop right = some kit') :
    ∃ ctrl bol iff, Opened kit kit' ctrl bol iff ∧ ∀ {G ρ env x y}, Agrees G kit' →
      kit.cvstate.Represents kit.varCt kit.numAliasTypes (eval G ρ) env →
      left.denote (nodes.map (eval G ρ)) env = some x →
      right.denote (nodes.map (eval G ρ)) env = some y →
      K.holds (eval G ρ bol) = K.test unsigned x relop y := by
  simp only [openIf, Option.bind_eq_some_iff] at h
  obtain ⟨⟨l, kitl⟩, hl, ⟨r, kitr⟩, hr, hif⟩ := h
  obtain ⟨haddl, hltl, hvall⟩ := expr_adds hkit hnodes hl
  have hkitl := haddl.wellFormed (fun _ _ => IsOp.older) hkit
  obtain ⟨haddr, hltr, hvalr⟩ :=
    expr_adds hkitl (fun i hi => (hnodes i hi).trans_le haddl.size_le) hr
  have hkitr := haddr.wellFormed (fun _ _ => IsOp.older) hkitl
  obtain ⟨ctrl, bol, iff, hopen, htest⟩ :=
    ifThen_opened hkitr (hltl.trans_le haddr.size_le) hltr hif
  refine ⟨ctrl, bol, iff, (hopen.of_adds haddr).of_adds haddl, ?_⟩
  intro G ρ env x y hG hrep hx hy
  have hGr := hopen.agrees hG
  have hrepl := haddl.represents hrep
  rw [htest hG, hvall (haddr.agrees hGr) hrep hx, hvalr hGr hrepl hy]

end

end IdealKit

end StackAllocation
