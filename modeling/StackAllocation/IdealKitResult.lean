import StackAllocation.IdealKitLoops
import StackAllocation.IdealKitThreads

/-!
# What a sequence of calls builds

A sequence should add nodes whose `Phi`s have all their inputs, and in every graph with these nodes
lead from its start to its end with the values of the program (`IdealKit.Result`). Straight code,
sequences and conditionals do.
-/

namespace StackAllocation

variable {Val : Type}

namespace IdealKit

/-! ## Entering a region

What the kit says of a label, slot by slot, becomes a statement about values: on entry from a slot
each merged variable has the value that it had at that predecessor. A variable that is the same on
both sides has no `Phi`, and its node is older than the region. -/

/-- On entry to the region from slot `k`, `n` takes the value of `l`. -/
def Enters (G : ℕ → KitNode Val) (r k n l : ℕ) : Prop :=
  n = l ∧ n < r ∨ ∃ ins, G n = .phi r ins ∧ ins[k]? = some (some l)

section

variable {G : ℕ → KitNode Val} {ρ : ℕ → Val} {r k n l size : ℕ}

/-- Values below are not affected. -/
theorem eval_of_eq_below {ρ' : ℕ → Val} (hord : Ordered G size) (h : ∀ i < size, ρ' i = ρ i)
    (hn : n < size) : eval G ρ' n = eval G ρ n :=
  eval_congr hord (fun _ _ => rfl) (fun i hi _ => h i hi) hn

/-- When control enters a region, a `Phi` has the value that its input had before. -/
theorem Enters.eval_enter (hord : Ordered G r) (hphi : ∀ i < r, ∀ ins, G i ≠ .phi r ins)
    (h : Enters G r k n l) : eval G (enter G r k ρ) n = eval G ρ l := by
  obtain ⟨rfl, hlt⟩ | ⟨ins, hn, hk⟩ := h
  · refine eval_of_eq_below hord (fun i hi => ?_) hlt
    unfold enter
    split
    · next reg ins heq =>
      rw [if_neg]
      rintro rfl
      exact hphi i hi ins heq
    · rfl
  · rw [eval_of_op?_eq_none (by rw [hn]; rfl)]
    simp only [enter, hn, if_true, hk]

/-- The `Phi`s that the kit has made for a label are those that change when control enters it. -/
theorem EnteredAs.enters {kit : IdealKit Val} (h : kit.EnteredAs r k n l) (hl : l < r)
    (hsame : ∀ {i ins}, i < kit.size → kit.node i = .phi r ins → G i = .phi r ins) :
    Enters G r k n l := by
  obtain rfl | ⟨hlt, ins, hn, hk⟩ := h
  · exact .inl ⟨rfl, hl⟩
  · exact .inr ⟨ins, hsame hlt hn, hk⟩

/-- A cvstate that takes its values from `t` has those of `t` before. -/
theorem represents_enter {t cv : CvState} {varCt numAliasTypes : ℕ} {env : KitEnv Val}
    (h : t.Represents varCt numAliasTypes (eval G ρ) env) (hord : Ordered G r)
    (hphi : ∀ i < r, ∀ ins, G i ≠ .phi r ins)
    (hvars : ∀ {i l}, i < varCt → t.vars i = some l → ∃ n, cv.vars i = some n ∧ Enters G r k n l)
    (hmem : ∃ m₀ m, t.memory = some m₀ ∧ cv.memory = some m ∧
      ∀ i < numAliasTypes, Enters G r k (m i) (m₀ i))
    (hio : ∃ l n, t.io = some l ∧ cv.io = some n ∧ Enters G r k n l) :
    cv.Represents varCt numAliasTypes (eval G (enter G r k ρ)) env where
  vars := by
    intro v x hv hx
    obtain ⟨l, hl, rfl⟩ := h.vars hv hx
    obtain ⟨n, hn, henters⟩ := hvars hv hl
    exact ⟨n, hn, henters.eval_enter hord hphi⟩
  memory := by
    obtain ⟨m₀, m, hm₀, hm, henters⟩ := hmem
    obtain ⟨m₀', hm₀', hval⟩ := h.memory
    obtain rfl := Option.some.inj (hm₀.symm.trans hm₀')
    exact ⟨m, hm, fun i hi => ((henters i hi).eval_enter hord hphi).trans (hval i hi)⟩
  io := by
    obtain ⟨l, n, hl, hn, henters⟩ := hio
    obtain ⟨l', hl', hval⟩ := h.io
    obtain rfl := Option.some.inj (hl.symm.trans hl')
    exact ⟨n, hn, (henters.eval_enter hord hphi).trans hval⟩

end

/-! ## What a sequence of calls does to the graph

`Result` is stated for every graph in which the new nodes are as they were built, whatever was added
later. This is what makes it an induction: the graph of a sequence is one for each of its parts. -/

/-- From `kit` to `kit'` nodes were added. New `Phi`s have new regions, and all their inputs. -/
structure AddsNodes (kit kit' : IdealKit Val) : Prop where
  size_le : kit.size ≤ kit'.size
  node : ∀ n < kit.size, kit'.node n = kit.node n
  varCt : kit'.varCt = kit.varCt
  numAliasTypes : kit'.numAliasTypes = kit.numAliasTypes
  phi : ∀ {n r ins}, kit.size ≤ n → n < kit'.size → kit'.node n = .phi r ins → kit.size ≤ r
  complete : ∀ n, kit.size ≤ n → n < kit'.size → CompletePhi kit'.node n

/-- The same, and the states on the stack are kept. -/
structure Grows (kit kit' : IdealKit Val) : Prop extends AddsNodes kit kit' where
  pendingCvstates : kit'.pendingCvstates = kit.pendingCvstates
  ctrl : ∀ {c c'}, kit.cvstate.ctrl = some c → kit'.cvstate.ctrl = some c' → c' = c ∨ kit.size ≤ c'

/-- `G` is a graph with the nodes that were added from `kit` to `kit'`, and the operations before
them. -/
structure Embeds (G : ℕ → KitNode Val) (kit kit' : IdealKit Val) : Prop where
  same : ∀ n, kit.size ≤ n → n < kit'.size → G n = kit'.node n
  agrees : Agrees G kit'
  phi : ∀ {n r ins}, G n = .phi r ins → kit.size ≤ r → r < kit'.size →
    kit.size ≤ n ∧ n < kit'.size

/-- What a sequence of calls should do. -/
structure Result (K : KitCompiler Val) (c : KitCalls Val) (nodes : List ℕ)
    (kit kit' : IdealKit Val) : Prop where
  wellFormed : kit'.WellFormed
  grows : Grows kit kit'
  threads : ∀ {a b}, kit.cvstate.ctrl = some a → kit'.cvstate.ctrl = some b →
    Threads kit'.node kit.size kit'.size a b
  simulates : ∀ {G ρ env env' ctrl ctrl'}, Embeds G kit kit' → kit.cvstate.ctrl = some ctrl →
    kit'.cvstate.ctrl = some ctrl' →
    kit.cvstate.Represents kit.varCt kit.numAliasTypes (eval G ρ) env →
    c.Exec K (nodes.map (eval G ρ)) env env' →
    ∃ ρ', KitRun G K (ctrl, ρ) (ctrl', ρ') ∧
      kit'.cvstate.Represents kit.varCt kit.numAliasTypes (eval G ρ') env' ∧
      ∀ n < kit.size, ρ' n = ρ n

section

variable {kit kit₁ kit₂ kit' : IdealKit Val} {G : ℕ → KitNode Val}

/-- A `Phi` that has all its inputs keeps them, if its region does. -/
theorem completePhi_of_node {node node' : ℕ → KitNode Val} {n : ℕ} (hn : node' n = node n)
    (hr : ∀ {r ins}, node n = .phi r ins → node' r = node r) (h : CompletePhi node n) :
    CompletePhi node' n := by
  intro r ins hphi
  rw [hn] at hphi
  obtain ⟨preds, hreg, hrest⟩ := h hphi
  exact ⟨preds, (hr hphi).trans hreg, hrest⟩

/-- No `Phi` is new. -/
theorem addsNodes_of_not_phi (hle : kit.size ≤ kit'.size)
    (hnode : ∀ n < kit.size, kit'.node n = kit.node n)
    (hvarCt : kit'.varCt = kit.varCt) (hnum : kit'.numAliasTypes = kit.numAliasTypes)
    (hphi : ∀ {n}, kit.size ≤ n → n < kit'.size → ∀ r ins, kit'.node n ≠ .phi r ins) :
    AddsNodes kit kit' :=
  ⟨hle, hnode, hvarCt, hnum, fun hn hn' h => absurd h (hphi hn hn' _ _),
    fun _ hn hn' _ _ h => absurd h (hphi hn hn' _ _)⟩

/-- The nodes of an expression are added after all others. -/
theorem Adds.addsNodes (h : Adds IsOp kit kit') : AddsNodes kit kit' := by
  refine addsNodes_of_not_phi h.size_le h.node h.varCt h.numAliasTypes fun hn hn' r ins => ?_
  obtain ⟨f, a, b, c, heq, -⟩ := h.new _ hn hn'
  rw [heq]
  nofun

/-- Nodes that are added in two parts. -/
theorem AddsNodes.trans (hkit₁ : ∀ n < kit₁.size, (kit₁.node n).Older n) (h : AddsNodes kit kit₁)
    (h' : AddsNodes kit₁ kit₂) : AddsNodes kit kit₂ where
  size_le := h.size_le.trans h'.size_le
  node := fun n hn => (h'.node n (hn.trans_le h.size_le)).trans (h.node n hn)
  varCt := h'.varCt.trans h.varCt
  numAliasTypes := h'.numAliasTypes.trans h.numAliasTypes
  phi := by
    intro n r ins hn hn' hphi
    by_cases hlt : n < kit₁.size
    · exact h.phi hn hlt ((h'.node n hlt).symm.trans hphi)
    · exact h.size_le.trans (h'.phi (by omega) hn' hphi)
  complete := by
    intro n hn hn'
    by_cases hlt : n < kit₁.size
    · refine completePhi_of_node (h'.node n hlt) (fun {r ins} hphi => ?_) (h.complete n hn hlt)
      have hold := hkit₁ n hlt
      rw [hphi] at hold
      exact h'.node r (lt_trans hold hlt)
    · exact h'.complete n (by omega) hn'

/-- A graph that grows in two parts keeps what was there before the first. -/
theorem Grows.trans (hkit₁ : kit₁.WellFormed) (h : Grows kit kit₁) (h' : Grows kit₁ kit₂) :
    Grows kit kit₂ where
  toAddsNodes := h.toAddsNodes.trans hkit₁.older h'.toAddsNodes
  pendingCvstates := h'.pendingCvstates.trans h.pendingCvstates
  ctrl := by
    intro c c₂ hc hc₂
    obtain ⟨c₁, hc₁, -⟩ := hkit₁.cvstate.ctrl
    have hle := h.size_le
    obtain rfl | hlt := h'.ctrl hc₁ hc₂
    · exact h.ctrl hc hc₁
    · exact .inr (by omega)

/-- Operations that were there are in the graph. -/
theorem AddsNodes.agrees (h : AddsNodes kit kit') (hG : Agrees G kit') : Agrees G kit :=
  fun n hn => by rw [hG n (hn.trans_le h.size_le), h.node n hn]

/-- A graph with the nodes of a sequence has those of a part of it. -/
theorem Embeds.restrict (h : Embeds G kit kit') (holder : ∀ n < kit'.size, (kit'.node n).Older n)
    (hle₁ : kit.size ≤ kit₁.size) (hle₂ : kit₂.size ≤ kit'.size)
    (hsame : ∀ n, kit₁.size ≤ n → n < kit₂.size → kit'.node n = kit₂.node n)
    (hops : ∀ n < kit₂.size, (kit'.node n).op? = (kit₂.node n).op?)
    (hphi : ∀ {n r ins}, kit₂.size ≤ n → n < kit'.size → kit'.node n = .phi r ins →
      r < kit₁.size ∨ kit₂.size ≤ r) : Embeds G kit₁ kit₂ where
  same := fun n hn hn' => (h.same n (by omega) (by omega)).trans (hsame n hn hn')
  agrees := fun n hn => (h.agrees n (by omega)).trans (hops n hn)
  phi := by
    intro n r ins hn hr hr'
    obtain ⟨hle, hlt⟩ := h.phi hn (by omega) (by omega)
    have hnode := (h.same n hle hlt).symm.trans hn
    have hold := holder n hlt
    rw [hnode] at hold
    have hold : r < n := hold
    refine ⟨by omega, ?_⟩
    by_contra hge
    have := hphi (by omega) hlt hnode
    omega

/-- The regions that were added are newer than what is not theirs. -/
theorem Embeds.not_phi (h : Embeds G kit kit') (holder : ∀ n < kit'.size, (kit'.node n).Older n)
    {r : ℕ} (hr : kit.size ≤ r) (hr' : r < kit'.size) : ∀ i < r, ∀ ins, G i ≠ .phi r ins := by
  intro i hi ins hphi
  obtain ⟨hle, hlt⟩ := h.phi hphi hr hr'
  have hold := holder i hlt
  rw [← h.same i hle hlt, hphi] at hold
  exact lt_asymm hi hold

end

/-- The nodes of an expression do not pass on control. -/
theorem IsOp.isPlain {n : ℕ} {x : KitNode Val} (h : IsOp n x) : x.IsPlain := by
  obtain ⟨f, a, b, c, rfl, -⟩ := h
  trivial

/-- Nor do the `Phi`s of a region. -/
theorem IsJoin.isPlain {r n : ℕ} {x : KitNode Val} (h : IsJoin r n x) : x.IsPlain := by
  obtain ⟨-, l, m, rfl⟩ := h
  trivial

/-- The control of a kit is one of its nodes. -/
theorem WellFormed.ctrl_lt {kit : IdealKit Val} {a : ℕ} (h : kit.WellFormed)
    (ha : kit.cvstate.ctrl = some a) : a < kit.size := by
  obtain ⟨a', ha', hlt⟩ := h.cvstate.ctrl
  obtain rfl := Option.some.inj (ha.symm.trans ha')
  exact hlt

/-! ## Straight code

Only operations were added, and one component of the cvstate was set. So control stays where it
is. -/

section

variable {cv : CvState} {varCt numAliasTypes n v : ℕ} {value : ℕ → Val} {env : KitEnv Val} {x : Val}

/-- After `set` the state has the new value for the variable, and all else as before. -/
theorem represents_set (h : cv.Represents varCt numAliasTypes value env) (hn : value n = x) :
    CvState.Represents { cv with vars := Function.update cv.vars v (some n) } varCt numAliasTypes
      value { env with vars := Function.update env.vars v (some x) } where
  vars := by
    intro w y hw hy
    simp only [Function.update_apply] at hy ⊢
    split at hy
    · next heq =>
      obtain rfl := Option.some.inj hy
      exact ⟨n, if_pos heq, hn⟩
    · next hne =>
      obtain ⟨m, hm, hval⟩ := h.vars hw hy
      exact ⟨m, by rw [if_neg hne, hm], hval⟩
  memory := h.memory
  io := h.io

/-- A variable that is dead is not asked for any more. -/
theorem represents_dead (h : cv.Represents varCt numAliasTypes value env) :
    CvState.Represents { cv with vars := Function.update cv.vars v none } varCt numAliasTypes
      value { env with vars := Function.update env.vars v none } where
  vars := by
    intro w y hw hy
    simp only [Function.update_apply] at hy ⊢
    split at hy
    · cases hy
    · next hne =>
      obtain ⟨m, hm, hval⟩ := h.vars hw hy
      exact ⟨m, by rw [if_neg hne, hm], hval⟩
  memory := h.memory
  io := h.io

/-- After a store the slice has the new state. -/
theorem represents_setMemory (h : cv.Represents varCt numAliasTypes value env) (hn : value n = x) :
    CvState.Represents
      { cv with memory := cv.memory.map fun slices => Function.update slices v n } varCt
      numAliasTypes value { env with memory := Function.update env.memory v x } where
  vars := h.vars
  memory := by
    obtain ⟨m, hm, hval⟩ := h.memory
    refine ⟨Function.update m v n, by rw [hm, Option.map_some], fun i hi => ?_⟩
    simp only [Function.update_apply]
    split
    · exact hn
    · exact hval i hi
  io := h.io

end

section

variable {K : KitCompiler Val} {c : KitCalls Val} {nodes : List ℕ} {kit kit₁ kit' : IdealKit Val}

/-- Only operations were added, and the cvstate set. -/
theorem result_of_adds {cv : CvState} (hkit : kit.WellFormed) (hadds : Adds IsOp kit kit₁)
    (hctrl : cv.ctrl = kit.cvstate.ctrl) (hlive : cv.Live kit.numAliasTypes kit₁.size)
    (hsim : ∀ {G ρ env env'}, Agrees G kit₁ →
      kit.cvstate.Represents kit.varCt kit.numAliasTypes (eval G ρ) env →
      c.Exec K (nodes.map (eval G ρ)) env env' →
      cv.Represents kit.varCt kit.numAliasTypes (eval G ρ) env') :
    Result K c nodes kit { kit₁ with cvstate := cv } where
  wellFormed := ⟨hadds.older (fun _ _ => IsOp.older) hkit.older, by
    rw [hadds.numAliasTypes]; exact hlive⟩
  grows := {
    hadds.addsNodes with
    pendingCvstates := hadds.pendingCvstates
    ctrl := fun hc hc' => .inl (Option.some.inj (hc'.symm.trans (hctrl.trans hc))) }
  threads := by
    intro a b ha hb
    obtain rfl := Option.some.inj (hb.symm.trans (hctrl.trans ha))
    exact threads_plain (hkit.ctrl_lt ha) fun n hn hn' => (hadds.new n hn hn').isPlain
  simulates := by
    intro G ρ env env' ctrl ctrl' hG hc hc' hrep hexec
    obtain rfl := Option.some.inj (hc'.symm.trans (hctrl.trans hc))
    exact ⟨ρ, .refl, hsim hG.agrees hrep hexec, fun _ _ => rfl⟩

/-- Nothing is done. -/
theorem result_skip (hkit : kit.WellFormed) : Result K .skip nodes kit kit :=
  result_of_adds hkit (Adds.refl _ _) rfl hkit.cvstate fun _ hrep hexec => by
    obtain rfl := hexec
    exact hrep

/-- A variable is set to the value of an expression, whose nodes do not move control. -/
theorem result_set {v : ℕ} {rhs : KitExpr Val} (hkit : kit.WellFormed)
    (hnodes : ∀ i ∈ nodes, i < kit.size) (h : calls K (.set v rhs) nodes kit = some kit') :
    Result K (.set v rhs) nodes kit kit' := by
  simp only [calls] at h
  split at h
  · obtain ⟨⟨n, kit₁⟩, hexpr, rfl⟩ := Option.map_eq_some_iff.mp h
    obtain ⟨hadds, hlt, hval⟩ := expr_adds hkit hnodes hexpr
    have hlive := hkit.cvstate.mono hadds.size_le
    have hctrl : kit₁.cvstate.ctrl = kit.cvstate.ctrl := by rw [hadds.cvstate]
    refine result_of_adds hkit hadds hctrl ?_ ?_
    · rw [hadds.cvstate]
      refine ⟨hlive.ctrl, hlive.io, hlive.memory, fun {w m} hw => ?_⟩
      simp only [Function.update_apply] at hw
      split at hw
      · cases hw
        exact hlt
      · exact hlive.vars hw
    · rintro G ρ env env' hG hrep ⟨x, hx, rfl⟩
      rw [hadds.cvstate]
      exact represents_set hrep (hval hG hrep hx)
  · cases h

/-- A variable is given up. -/
theorem result_dead {v : ℕ} (hkit : kit.WellFormed)
    (h : calls K (.dead v) nodes kit = some kit') : Result K (.dead v) nodes kit kit' := by
  simp only [calls] at h
  split at h
  · obtain rfl := Option.some.inj h
    have hlive := hkit.cvstate
    refine result_of_adds hkit (Adds.refl _ _) rfl ?_ ?_
    · refine ⟨hlive.ctrl, hlive.io, hlive.memory, fun {w m} hw => ?_⟩
      simp only [Function.update_apply] at hw
      split at hw
      · cases hw
      · exact hlive.vars hw
    · rintro G ρ env env' hG hrep rfl
      exact represents_dead hrep
  · cases h

/-- The state of I/O is set. -/
theorem result_setIo {e : KitExpr Val} (hkit : kit.WellFormed)
    (hnodes : ∀ i ∈ nodes, i < kit.size) (h : calls K (.setIo e) nodes kit = some kit') :
    Result K (.setIo e) nodes kit kit' := by
  obtain ⟨⟨n, kit₁⟩, hexpr, rfl⟩ := Option.map_eq_some_iff.mp h
  obtain ⟨hadds, hlt, hval⟩ := expr_adds hkit hnodes hexpr
  have hlive := hkit.cvstate.mono hadds.size_le
  have hctrl : kit₁.cvstate.ctrl = kit.cvstate.ctrl := by rw [hadds.cvstate]
  refine result_of_adds hkit hadds hctrl ?_ ?_
  · rw [hadds.cvstate]
    exact ⟨hlive.ctrl, ⟨n, rfl, hlt⟩, hlive.memory, hlive.vars⟩
  · rintro G ρ env env' hG hrep ⟨x, hx, rfl⟩
    rw [hadds.cvstate]
    exact ⟨hrep.vars, hrep.memory, n, rfl, hval hG hrep hx⟩

/-- A store to one slice, at an address and with a value that are evaluated first. -/
theorem result_store {f : Val → Val → Val → Val} {aliasIdx : ℕ} {adr val : KitExpr Val}
    (hkit : kit.WellFormed) (hnodes : ∀ i ∈ nodes, i < kit.size)
    (h : calls K (.store f aliasIdx adr val) nodes kit = some kit') :
    Result K (.store f aliasIdx adr val) nodes kit kit' := by
  simp only [calls, Option.bind_eq_some_iff] at h
  obtain ⟨⟨na, kita⟩, ha, ⟨nv, kitv⟩, hv, hstore⟩ := h
  obtain ⟨hadda, hlta, hvala⟩ := expr_adds hkit hnodes ha
  have hkita := hadda.wellFormed (fun _ _ => IsOp.older) hkit
  obtain ⟨haddv, hltv, hvalv⟩ :=
    expr_adds hkita (fun i hi => (hnodes i hi).trans_le hadda.size_le) hv
  have hkitv := haddv.wellFormed (fun _ _ => IsOp.older) hkita
  obtain ⟨kit₁, st, m, hadd, rfl, hst, hi, hm, hval⟩ :=
    store_adds hkitv (hlta.trans_le haddv.size_le) hltv hstore
  have hadds := (hadda.trans haddv).trans hadd
  have hcvv := (hadda.trans haddv).cvstate
  have hlive := hkit.cvstate.mono hadds.size_le
  have hctrl : kit₁.cvstate.ctrl = kit.cvstate.ctrl := by rw [hadds.cvstate]
  refine result_of_adds hkit hadds hctrl ?_ ?_
  · rw [hadds.cvstate]
    refine ⟨hlive.ctrl, hlive.io, ?_, hlive.vars⟩
    obtain ⟨m, hm, hlt⟩ := hlive.memory
    refine ⟨_, by rw [hm, Option.map_some], fun i hi => ?_⟩
    simp only [Function.update_apply]
    split
    · exact hst
    · exact hlt i hi
  · rintro G ρ env env' hG hrep ⟨a, x, hxa, hx, rfl⟩
    have hGv := hadd.agrees hG
    have hrepa := hadda.represents hrep
    rw [hadds.cvstate]
    refine represents_setMemory hrep ?_
    obtain ⟨m', hm', hmval⟩ := hrep.memory
    obtain rfl := Option.some.inj ((hcvv ▸ hm).symm.trans hm')
    have hi' : aliasIdx < kit.numAliasTypes := (hadda.trans haddv).numAliasTypes ▸ hi
    rw [hval hG, hmval aliasIdx hi', hvala (haddv.agrees hGv) hrep hxa, hvalv hGv hrepa hx]

end

/-! ## Sequences

The first part of a sequence ends in the kit that the second starts with. The run through the whole
is the one run followed by the other, and the second does not change what the nodes of the first
hold. -/

section

variable {K : KitCompiler Val} {nodes : List ℕ} {kit kit₁ kit' : IdealKit Val}
  {G : ℕ → KitNode Val}

/-- A graph with the nodes of both parts has those of the first. -/
theorem Embeds.first (h : Embeds G kit kit') (hkit' : kit'.WellFormed)
    (h₂ : AddsNodes kit₁ kit') : Embeds G kit kit₁ :=
  h.restrict hkit'.older (le_refl _) h₂.size_le (fun n _ hn => h₂.node n hn)
    (fun n hn => by rw [h₂.node n hn]) fun hn hn' hphi => .inr (h₂.phi hn hn' hphi)

/-- And those of the second. -/
theorem Embeds.second (h : Embeds G kit kit') (hkit' : kit'.WellFormed)
    (h₁ : AddsNodes kit kit₁) : Embeds G kit₁ kit' :=
  h.restrict hkit'.older h₁.size_le (le_refl _) (fun _ _ _ => rfl) (fun _ _ => rfl)
    fun hn hn' => absurd hn' (by omega)

/-- The values of the nodes at hand stay. -/
theorem map_eval_of_eq_below {ρ ρ' : ℕ → Val} (hkit : kit.WellFormed) (hG : Agrees G kit)
    (hnodes : ∀ i ∈ nodes, i < kit.size) (h : ∀ i < kit.size, ρ' i = ρ i) :
    nodes.map (eval G ρ') = nodes.map (eval G ρ) :=
  List.map_congr_left fun i hi => eval_of_eq_below (hkit.ordered.congr hG) h (hnodes i hi)

/-- One sequence after another: control that comes to the end of the first goes on through the
second. -/
theorem result_seq {first rest : KitCalls Val} (hkit : kit.WellFormed)
    (hnodes : ∀ i ∈ nodes, i < kit.size) (h₁ : Result K first nodes kit kit₁)
    (h₂ : Result K rest nodes kit₁ kit') : Result K (.seq first rest) nodes kit kit' where
  wellFormed := h₂.wellFormed
  grows := h₁.grows.trans h₁.wellFormed h₂.grows
  threads := by
    intro a b ha hb
    obtain ⟨m, hm, -⟩ := h₁.wellFormed.cvstate.ctrl
    exact ((h₁.threads ha hm).congr fun n _ hn => h₂.grows.node n hn).trans (h₂.threads hm hb)
      h₁.grows.size_le h₂.grows.size_le
  simulates := by
    rintro G ρ env env' ctrl ctrl' hG hc hc' hrep ⟨env₁, hexec₁, hexec₂⟩
    obtain ⟨ctrl₁, hc₁, -⟩ := h₁.wellFormed.cvstate.ctrl
    obtain ⟨ρ₁, hrun₁, hrep₁, hbelow₁⟩ := h₁.simulates
      (hG.first h₂.wellFormed h₂.grows.toAddsNodes) hc hc₁ hrep hexec₁
    have hagrees := h₁.grows.agrees (h₂.grows.agrees hG.agrees)
    rw [← map_eval_of_eq_below hkit hagrees hnodes hbelow₁] at hexec₂
    obtain ⟨ρ₂, hrun₂, hrep₂, hbelow₂⟩ := h₂.simulates
      (hG.second h₂.wellFormed h₁.grows.toAddsNodes) hc₁ hc'
      (by rw [h₁.grows.varCt, h₁.grows.numAliasTypes]; exact hrep₁) hexec₂
    refine ⟨ρ₂, hrun₁.trans hrun₂, ?_, fun n hn => ?_⟩
    · rw [h₁.grows.varCt, h₁.grows.numAliasTypes] at hrep₂
      exact hrep₂
    · rw [hbelow₂ n (hn.trans_le h₁.grows.size_le), hbelow₁ n hn]

/-- An expression whose value is used by what comes after it. -/
theorem result_node {e : KitExpr Val} {rest : KitCalls Val} {n : ℕ} (hkit : kit.WellFormed)
    (hnodes : ∀ i ∈ nodes, i < kit.size) (hexpr : expr K nodes e kit = some (n, kit₁))
    (h : Result K rest (n :: nodes) kit₁ kit') : Result K (.node e rest) nodes kit kit' := by
  obtain ⟨hadds, hlt, hval⟩ := expr_adds hkit hnodes hexpr
  have hkit₁ := hadds.wellFormed (fun _ _ => IsOp.older) hkit
  exact {
    wellFormed := h.wellFormed
    grows := {
      hadds.addsNodes.trans hkit₁.older h.grows.toAddsNodes with
      pendingCvstates := h.grows.pendingCvstates.trans hadds.pendingCvstates
      ctrl := by
        intro c c' hc hc'
        have hle := hadds.size_le
        obtain rfl | hge := h.grows.ctrl (hadds.cvstate ▸ hc) hc'
        · exact .inl rfl
        · exact .inr (by omega) }
    threads := by
      intro a b ha hb
      refine (threads_plain (hkit.ctrl_lt ha) fun n hn hn' => ?_).trans
        (h.threads (hadds.cvstate ▸ ha) hb) hadds.size_le h.grows.size_le
      rw [h.grows.node n hn']
      exact (hadds.new n hn hn').isPlain
    simulates := by
      rintro G ρ env env' ctrl ctrl' hG hc hc' hrep ⟨x, hx, hexec⟩
      have hG₁ := hG.second h.wellFormed hadds.addsNodes
      have hx' := hval (h.grows.agrees hG₁.agrees) hrep hx
      have hrep₁ := hadds.represents hrep
      obtain ⟨ρ', hrun, hrep', hbelow⟩ := h.simulates hG₁ (hadds.cvstate ▸ hc) hc' hrep₁
        (by rw [List.map_cons, hx']; exact hexec)
      refine ⟨ρ', hrun, ?_, fun i hi => hbelow i (hi.trans_le hadds.size_le)⟩
      rw [hadds.varCt, hadds.numAliasTypes] at hrep'
      exact hrep' }

end

/-! ## Conditionals

The condition decides which projection control goes to, and the branch that was chosen goes on to
the region. With and without an `else_` the two states that meet are built in the same way from the
branches; what is different is only which of them has waited on the stack. -/

section

variable {K : KitCompiler Val} {kit kit₀ kit' : IdealKit Val} {other : CvState} {c₀ c₁ : ℕ}
  {G : ℕ → KitNode Val} {ρ : ℕ → Val} {env : KitEnv Val}

/-- What is added to open a conditional. -/
theorem Opened.addsNodes {ctrl bol iff : ℕ} (h : Opened kit kit' ctrl bol iff) :
    AddsNodes kit kit' := by
  have hle := h.size_le
  have hsize := h.size
  refine addsNodes_of_not_phi (by omega) h.node h.varCt h.numAliasTypes fun {n} hn hn' r ins => ?_
  rcases Nat.lt_or_ge n iff with hlt | hge
  · obtain ⟨f, a, b, c, heq, -⟩ := h.new n hn hlt
    rw [heq]
    nofun
  obtain rfl | rfl | rfl : n = iff ∨ n = iff + 1 ∨ n = iff + 2 := by omega
  · rw [h.node_iff]; nofun
  · rw [h.node_ifTrue]; nofun
  · rw [h.node_ifFalse]; nofun

/-- What is added where two branches meet. -/
theorem Merged.addsNodes (h : Merged kit kit' other c₀ c₁) : AddsNodes kit kit' where
  size_le := h.size_lt.le
  node := h.node
  varCt := h.varCt
  numAliasTypes := h.numAliasTypes
  phi := by
    intro n r ins hn hn' hphi
    obtain rfl | hlt := hn.eq_or_lt
    · cases h.node_region.symm.trans hphi
    · obtain ⟨-, l, m, heq⟩ := h.new n hlt hn'
      obtain ⟨rfl, -⟩ := KitNode.phi.inj (heq.symm.trans hphi)
      exact le_refl _
  complete := by
    intro n hn hn' r ins hphi
    obtain rfl | hlt := hn.eq_or_lt
    · cases h.node_region.symm.trans hphi
    · obtain ⟨-, l, m, heq⟩ := h.new n hlt hn'
      obtain ⟨rfl, rfl⟩ := KitNode.phi.inj (heq.symm.trans hphi)
      exact ⟨_, h.node_region, rfl, exists_getElem?_pair l m, exists_getElem?_pair c₀ c₁⟩

/-- The kit after the merge is well formed. -/
theorem Merged.wellFormed (h : Merged kit kit' other c₀ c₁) (hkit : kit.WellFormed) :
    kit'.WellFormed where
  older := by
    intro n hn
    rcases Nat.lt_trichotomy n kit.size with hlt | rfl | hgt
    · rw [h.node n hlt]
      exact hkit.older n hlt
    · rw [h.node_region]
      trivial
    · exact (h.new n hgt hn).older
  cvstate := by
    obtain ⟨l, m, n, -, -, hn, hjoins⟩ := h.io
    obtain ⟨m₀, m₁, m', -, -, hm, hjoins'⟩ := h.memory
    rw [h.numAliasTypes]
    refine ⟨⟨_, h.ctrl, h.size_lt⟩, ⟨n, hn, hjoins.lt⟩, ⟨m', hm, fun i hi => (hjoins' i hi).lt⟩, ?_⟩
    intro i p hp
    rcases Nat.lt_or_ge i kit.varCt with hi | hi
    · exact (h.vars i hi).lt hp
    · cases (h.vars_eq_none i hi).symm.trans hp

/-- What the kit has at the entry of a new region the graph has. -/
theorem EnteredAs.enters_of_embeds {r k n l : ℕ} (hn : kit'.EnteredAs r k n l)
    (hkit' : kit'.WellFormed) (hG : Embeds G kit₀ kit') (hle : kit₀.size ≤ r) (hl : l < r) :
    Enters G r k n l := by
  refine hn.enters hl fun {i ins} hi heq => ?_
  have hold := hkit'.older i hi
  rw [heq] at hold
  have hold : r < i := hold
  rw [hG.same i (by omega) hi, heq]

/-- The first predecessor enters the region of an `end_if`. -/
theorem Merged.enter_first (h : Merged kit kit' other c₀ c₁) (hkit : kit.WellFormed)
    (hG : Embeds G kit₀ kit') (hle : kit₀.size ≤ kit.size)
    (hrep : kit.cvstate.Represents kit.varCt kit.numAliasTypes (eval G ρ) env) :
    KitStep G K (c₀, ρ) (kit.size, enter G kit.size 0 ρ) ∧
      kit'.cvstate.Represents kit.varCt kit.numAliasTypes (eval G (enter G kit.size 0 ρ)) env := by
  have hkit' := h.wellFormed hkit
  have henters {n l : ℕ} (hn : kit'.EnteredAs kit.size 0 n l) (hl : l < kit.size) :=
    hn.enters_of_embeds hkit' hG hle hl
  refine ⟨.region ((hG.same _ hle h.size_lt).trans h.node_region) rfl,
    represents_enter hrep ((hkit'.ordered.congr hG.agrees).mono h.size_lt.le)
      (hG.not_phi hkit'.older hle h.size_lt) ?_ ?_ ?_⟩
  · intro i l hi hl
    obtain ⟨n, hn, hentered⟩ := (h.vars i hi).first hl
    exact ⟨n, hn, henters hentered (hkit.cvstate.vars hl)⟩
  · obtain ⟨m₀, m₁, m, hm₀, -, hm, hjoins⟩ := h.memory
    obtain ⟨m₀', hm₀', hlt⟩ := hkit.cvstate.memory
    obtain rfl := Option.some.inj (hm₀.symm.trans hm₀')
    exact ⟨m₀, m, hm₀, hm, fun i hi => henters (hjoins i hi).first (hlt i hi)⟩
  · obtain ⟨l, m, n, hl, -, hn, hjoins⟩ := h.io
    obtain ⟨l', hl', hlt⟩ := hkit.cvstate.io
    obtain rfl := Option.some.inj (hl.symm.trans hl')
    exact ⟨l, n, hl, hn, henters hjoins.first hlt⟩

/-- So does the second. -/
theorem Merged.enter_second (h : Merged kit kit' other c₀ c₁) (hkit : kit.WellFormed)
    (hother : other.Live kit.numAliasTypes kit.size) (hG : Embeds G kit₀ kit')
    (hle : kit₀.size ≤ kit.size)
    (hrep : other.Represents kit.varCt kit.numAliasTypes (eval G ρ) env) :
    KitStep G K (c₁, ρ) (kit.size, enter G kit.size 1 ρ) ∧
      kit'.cvstate.Represents kit.varCt kit.numAliasTypes (eval G (enter G kit.size 1 ρ)) env := by
  have hkit' := h.wellFormed hkit
  have henters {n l : ℕ} (hn : kit'.EnteredAs kit.size 1 n l) (hl : l < kit.size) :=
    hn.enters_of_embeds hkit' hG hle hl
  refine ⟨.region ((hG.same _ hle h.size_lt).trans h.node_region) rfl,
    represents_enter hrep ((hkit'.ordered.congr hG.agrees).mono h.size_lt.le)
      (hG.not_phi hkit'.older hle h.size_lt) ?_ ?_ ?_⟩
  · intro i l hi hl
    obtain ⟨n, hn, hentered⟩ := (h.vars i hi).second hl
    exact ⟨n, hn, henters hentered (hother.vars hl)⟩
  · obtain ⟨m₀, m₁, m, -, hm₁, hm, hjoins⟩ := h.memory
    obtain ⟨m₁', hm₁', hlt⟩ := hother.memory
    obtain rfl := Option.some.inj (hm₁.symm.trans hm₁')
    exact ⟨m₁, m, hm₁, hm, fun i hi => henters (hjoins i hi).second (hlt i hi)⟩
  · obtain ⟨l, m, n, -, hm, hn, hjoins⟩ := h.io
    obtain ⟨m', hm', hlt⟩ := hother.io
    obtain rfl := Option.some.inj (hm.symm.trans hm')
    exact ⟨m, n, hm, hn, henters hjoins.second hlt⟩

/-- Entering a region leaves the values below it. -/
theorem enter_of_lt {r k : ℕ} (hphi : ∀ i < r, ∀ ins, G i ≠ .phi r ins) {n : ℕ} (hn : n < r) :
    enter G r k ρ n = ρ n := by
  unfold enter
  split
  · next reg ins heq =>
    rw [if_neg]
    rintro rfl
    exact hphi n hn ins heq
  · rfl

/-- `Live` and `Represents` do not read the control. -/
theorem represents_setCtrl {cv : CvState} {varCt numAliasTypes : ℕ} {value : ℕ → Val}
    (ctrl : Option ℕ) (h : cv.Represents varCt numAliasTypes value env) :
    CvState.Represents { cv with ctrl := ctrl } varCt numAliasTypes value env :=
  ⟨h.vars, h.memory, h.io⟩

/-- A state whose control is a node of the graph refers to nodes of it only. -/
theorem live_setCtrl {cv : CvState} {numAliasTypes size ctrl : ℕ} (h : cv.Live numAliasTypes size)
    (hlt : ctrl < size) : CvState.Live { cv with ctrl := some ctrl } numAliasTypes size :=
  ⟨⟨ctrl, rfl, hlt⟩, h.io, h.memory, h.vars⟩

/-- From the control of an `If` to a projection. -/
theorem Opened.step {ctrl bol iff : ℕ} (h : Opened kit kit' ctrl bol iff)
    (hG : ∀ n, kit.size ≤ n → n < kit'.size → G n = kit'.node n) :
    KitStep G K (ctrl, ρ) (bif K.holds (eval G ρ bol) then iff + 1 else iff + 2, ρ) := by
  have hle := h.size_le
  have hsize := h.size
  have hiff := (hG iff hle (by omega)).trans h.node_iff
  have htrue := (hG (iff + 1) (by omega) (by omega)).trans h.node_ifTrue
  have hfalse := (hG (iff + 2) (by omega) (by omega)).trans h.node_ifFalse
  cases hb : K.holds (eval G ρ bol) with
  | true => exact .ifTrue hiff htrue hb
  | false => exact .ifFalse hiff hfalse hb

/-- The `If` of a conditional goes to the branch that the program takes. -/
theorem Opened.step_test {kit₁ : IdealKit Val} {ctrl bol iff : ℕ} {taken : Bool}
    (h : Opened kit kit₁ ctrl bol iff) (hadds : AddsNodes kit₁ kit') (hG : Embeds G kit kit')
    (htest : Agrees G kit₁ → K.holds (eval G ρ bol) = taken) :
    KitStep G K (ctrl, ρ) (bif taken then iff + 1 else iff + 2, ρ) := by
  rw [← htest (hadds.agrees hG.agrees)]
  exact h.step fun n hn hn' =>
    (hG.same n hn (hn'.trans_le hadds.size_le)).trans (hadds.node n hn')

/-- The state at the start of the first branch is that before the `If`. -/
theorem Opened.represents {ctrl bol iff : ℕ} (h : Opened kit kit' ctrl bol iff)
    (hrep : kit.cvstate.Represents kit.varCt kit.numAliasTypes (eval G ρ) env) :
    kit'.cvstate.Represents kit'.varCt kit'.numAliasTypes (eval G ρ) env := by
  rw [h.cvstate, h.varCt, h.numAliasTypes]
  exact represents_setCtrl _ hrep

/-- A conditional adds nodes, and its end is the control. -/
theorem Opened.grows {kit₁ kitₑ : IdealKit Val} {ctrl bol iff : ℕ}
    (h : Opened kit kit₁ ctrl bol iff) (hkit₁ : kit₁.WellFormed) (hadds : AddsNodes kit₁ kitₑ)
    (hkitₑ : kitₑ.WellFormed) (hmerged : Merged kitₑ kit' other c₀ c₁)
    (hpending : kit'.pendingCvstates = kit.pendingCvstates) : Grows kit kit' := by
  have haddsOpen : AddsNodes kit₁ kit' := hadds.trans hkitₑ.older hmerged.addsNodes
  have hle := h.size_le
  have hsize := h.size
  have hleₑ := hadds.size_le
  refine ⟨h.addsNodes.trans hkit₁.older haddsOpen, hpending, fun _ hc' => ?_⟩
  obtain rfl := Option.some.inj (hmerged.ctrl.symm.trans hc')
  exact .inr (by omega)

/-- The control goes from the `If` through both branches to the region where they meet. -/
theorem Opened.threads {kit₁ kitₑ : IdealKit Val} {ctrl bol iff mid x y : ℕ}
    (h : Opened kit kit₁ ctrl bol iff) (hkit : kit.WellFormed) (hadds : AddsNodes kit₁ kitₑ)
    (hkitₑ : kitₑ.WellFormed) (hmerged : Merged kitₑ kit' other c₀ c₁) (hlm : kit₁.size ≤ mid)
    (hme : mid ≤ kitₑ.size) (hthen : Threads kit'.node kit₁.size mid (iff + 1) x)
    (helse : Threads kit'.node mid kitₑ.size (iff + 2) y)
    (hxy : c₀ = x ∧ c₁ = y ∨ c₀ = y ∧ c₁ = x) {a b : ℕ} (ha : kit.cvstate.ctrl = some a)
    (hb : kit'.cvstate.ctrl = some b) : Threads kit'.node kit.size kit'.size a b := by
  obtain rfl := Option.some.inj (hmerged.ctrl.symm.trans hb)
  obtain rfl := Option.some.inj (h.ctrl.symm.trans ha)
  have hle := h.size_le
  have hsize := h.size
  have hnode {n : ℕ} (hn : n < kit₁.size) : kit'.node n = kit₁.node n :=
    (hadds.trans hkitₑ.older hmerged.addsNodes).node n hn
  rw [hsize] at hthen
  exact threads_if (hkit.ctrl_lt ha) hle hmerged.size_lt
    (fun n hn hn' => by rw [hnode (by omega)]; exact (h.new n hn hn').isPlain)
    ((hnode (by omega)).trans h.node_iff) ((hnode (by omega)).trans h.node_ifTrue)
    ((hnode (by omega)).trans h.node_ifFalse) (by omega) hme hthen helse hmerged.node_region hxy
    fun n hn hn' => (hmerged.new n hn hn').isPlain

/-- Where a branch ends as the first predecessor, the run goes on into the region. -/
theorem Merged.run_first {ρ₀ : ℕ → Val} {ctrl size : ℕ} (h : Merged kit kit' other c₀ c₁)
    (hkit : kit.WellFormed) (hG : Embeds G kit₀ kit') (hle : kit₀.size ≤ kit.size)
    (hvarCt : kit.varCt = kit₀.varCt) (hnum : kit.numAliasTypes = kit₀.numAliasTypes)
    (hrun : KitRun G K (ctrl, ρ₀) (c₀, ρ)) (hsize : size ≤ kit.size)
    (hbelow : ∀ n < size, ρ n = ρ₀ n)
    (hrep : kit.cvstate.Represents kit₀.varCt kit₀.numAliasTypes (eval G ρ) env) :
    ∃ ρ', KitRun G K (ctrl, ρ₀) (kit.size, ρ') ∧
      kit'.cvstate.Represents kit₀.varCt kit₀.numAliasTypes (eval G ρ') env ∧
      ∀ n < size, ρ' n = ρ₀ n := by
  rw [← hvarCt, ← hnum] at hrep ⊢
  obtain ⟨hlast, hrep'⟩ := h.enter_first (K := K) hkit hG hle hrep
  have hphi := hG.not_phi (h.wellFormed hkit).older hle h.size_lt
  exact ⟨_, hrun.tail hlast, hrep', fun n hn =>
    (enter_of_lt hphi (hn.trans_le hsize)).trans (hbelow n hn)⟩

/-- So does a run to the second. -/
theorem Merged.run_second {ρ₀ : ℕ → Val} {ctrl size : ℕ} (h : Merged kit kit' other c₀ c₁)
    (hkit : kit.WellFormed) (hother : other.Live kit.numAliasTypes kit.size)
    (hG : Embeds G kit₀ kit') (hle : kit₀.size ≤ kit.size) (hvarCt : kit.varCt = kit₀.varCt)
    (hnum : kit.numAliasTypes = kit₀.numAliasTypes) (hrun : KitRun G K (ctrl, ρ₀) (c₁, ρ))
    (hsize : size ≤ kit.size) (hbelow : ∀ n < size, ρ n = ρ₀ n)
    (hrep : other.Represents kit₀.varCt kit₀.numAliasTypes (eval G ρ) env) :
    ∃ ρ', KitRun G K (ctrl, ρ₀) (kit.size, ρ') ∧
      kit'.cvstate.Represents kit₀.varCt kit₀.numAliasTypes (eval G ρ') env ∧
      ∀ n < size, ρ' n = ρ₀ n := by
  rw [← hvarCt, ← hnum] at hrep ⊢
  obtain ⟨hlast, hrep'⟩ := h.enter_second (K := K) hkit hother hG hle hrep
  have hphi := hG.not_phi (h.wellFormed hkit).older hle h.size_lt
  exact ⟨_, hrun.tail hlast, hrep', fun n hn =>
    (enter_of_lt hphi (hn.trans_le hsize)).trans (hbelow n hn)⟩

end

section

variable {K : KitCompiler Val} {nodes : List ℕ} {kit kit₁ kit₂ kit' : IdealKit Val}
  {unsigned : Bool} {left right : KitExpr Val} {relop : BoolTest} {then_ orelse : KitCalls Val}

/-- An `if_then` without an `else_`: the state at the `If` waits on the stack for `end_if`. -/
theorem result_ifThen (hkit : kit.WellFormed) (hnodes : ∀ i ∈ nodes, i < kit.size)
    (hopen : kit.openIf K nodes unsigned left relop right = some kit₁)
    (hbody : Result K then_ nodes kit₁ kit₂) (hend : kit₂.endIf = some kit') :
    Result K (.ifThen unsigned left relop right then_) nodes kit kit' := by
  obtain ⟨ctrl₀, bol, iff, hopened, htest⟩ := openIf_opened hkit hnodes hopen
  have hkit₁ := hopened.wellFormed hkit
  have hkit₂ := hbody.wellFormed
  have hle := hopened.size_le
  have hsize := hopened.size
  have hle₂ := hbody.grows.size_le
  obtain ⟨c₀, hc₀, -⟩ := hkit₂.cvstate.ctrl
  have hctrl₁ : kit₁.cvstate.ctrl = some (iff + 1) := by rw [hopened.cvstate]
  have hne : iff + 2 ≠ c₀ := by
    obtain rfl | hge := hbody.grows.ctrl hctrl₁ hc₀ <;> omega
  have hadds₁ := hopened.addsNodes
  have hadds₂ := hbody.grows.toAddsNodes
  have hvarCt : kit₂.varCt = kit.varCt := hadds₂.varCt.trans hadds₁.varCt
  have hnum : kit₂.numAliasTypes = kit.numAliasTypes :=
    hadds₂.numAliasTypes.trans hadds₁.numAliasTypes
  have hother : CvState.Live { kit.cvstate with ctrl := some (iff + 2) } kit₂.numAliasTypes
      kit₂.size := by
    rw [hnum]
    exact live_setCtrl (hkit.cvstate.mono (by omega)) (by omega)
  obtain ⟨hmerged, hpending⟩ := endIf_merged hkit₂
    (hbody.grows.pendingCvstates.trans hopened.pendingCvstates) hother hc₀ rfl hne hend
  have hkit' := hmerged.wellFormed hkit₂
  have haddsOpen : AddsNodes kit₁ kit' := hadds₂.trans hkit₂.older hmerged.addsNodes
  have hthen := (hbody.threads hctrl₁ hc₀).congr fun n _ hn => hmerged.node n hn
  refine ⟨hkit', hopened.grows hkit₁ hadds₂ hkit₂ hmerged hpending,
    hopened.threads hkit hadds₂ hkit₂ hmerged hle₂ (le_refl _) hthen
      (threads_plain (by omega) fun n hn hn' => absurd hn' (by omega)) (.inl ⟨rfl, rfl⟩), ?_⟩
  rintro G ρ env env' ctrl ctrl' hG hc hc' hrep ⟨x, y, hx, hy, hexec⟩
  obtain rfl := Option.some.inj (hopened.ctrl.symm.trans hc)
  obtain rfl := Option.some.inj (hmerged.ctrl.symm.trans hc')
  have hstep := hopened.step_test haddsOpen hG fun hG₁ => htest hG₁ hrep hx hy
  cases hb : K.test unsigned x relop y with
  | true =>
    rw [hb] at hstep hexec
    have hGbody := (hG.second hkit' hadds₁).first hkit' hmerged.addsNodes
    obtain ⟨ρ₁, hrun, hrep₂, hbelow⟩ :=
      hbody.simulates hGbody hctrl₁ hc₀ (hopened.represents hrep) hexec
    rw [hopened.varCt, hopened.numAliasTypes] at hrep₂
    exact hmerged.run_first hkit₂ hG (by omega) hvarCt hnum (.head hstep hrun) (by omega)
      (fun n hn => hbelow n (by omega)) hrep₂
  | false =>
    rw [hb] at hstep hexec
    obtain rfl := hexec
    exact hmerged.run_second hkit₂ hother hG (by omega) hvarCt hnum (.single hstep) (by omega)
      (fun _ _ => rfl) (represents_setCtrl _ hrep)

/-- `else_` takes the state on the stack, and puts the current one there. -/
theorem else_wellFormed {exit : CvState} {rest : List CvState} (hkit : kit.WellFormed)
    (hpending : kit.pendingCvstates = exit :: rest)
    (hexit : exit.Live kit.numAliasTypes kit.size) (h : kit.else_ = some kit') :
    kit' = { kit with pendingCvstates := kit.cvstate :: rest, cvstate := exit } ∧
      kit'.WellFormed := by
  unfold else_ at h
  rw [hpending] at h
  obtain rfl := Option.some.inj h
  exact ⟨rfl, hkit.older, hexit⟩

/-- With an `else_` the state on the stack is taken for the second branch, and that at the end of
the first waits there for `end_if`. -/
theorem result_ifElse {kit₃ kit₄ : IdealKit Val} (hkit : kit.WellFormed)
    (hnodes : ∀ i ∈ nodes, i < kit.size)
    (hopen : kit.openIf K nodes unsigned left relop right = some kit₁)
    (hthen : Result K then_ nodes kit₁ kit₂) (helse : kit₂.else_ = some kit₃)
    (horelse : kit₃.WellFormed → Result K orelse nodes kit₃ kit₄) (hend : kit₄.endIf = some kit') :
    Result K (.ifElse unsigned left relop right then_ orelse) nodes kit kit' := by
  obtain ⟨ctrl₀, bol, iff, hopened, htest⟩ := openIf_opened hkit hnodes hopen
  have hkit₁ := hopened.wellFormed hkit
  have hkit₂ := hthen.wellFormed
  have hle := hopened.size_le
  have hsize := hopened.size
  have hle₂ := hthen.grows.size_le
  obtain ⟨c₂, hc₂, hlt₂⟩ := hkit₂.cvstate.ctrl
  have hctrl₁ : kit₁.cvstate.ctrl = some (iff + 1) := by rw [hopened.cvstate]
  have hadds₁ := hopened.addsNodes
  have hadds₂ := hthen.grows.toAddsNodes
  have hvarCt : kit₂.varCt = kit.varCt := hadds₂.varCt.trans hadds₁.varCt
  have hnum : kit₂.numAliasTypes = kit.numAliasTypes :=
    hadds₂.numAliasTypes.trans hadds₁.numAliasTypes
  have hlive : CvState.Live { kit.cvstate with ctrl := some (iff + 2) } kit₂.numAliasTypes
      kit₂.size := by
    rw [hnum]
    exact live_setCtrl (hkit.cvstate.mono (by omega)) (by omega)
  obtain ⟨rfl, hkit₃⟩ := else_wellFormed hkit₂
    (hthen.grows.pendingCvstates.trans hopened.pendingCvstates) hlive helse
  have hor := horelse hkit₃
  have hkit₄ := hor.wellFormed
  have hle₄ : kit₂.size ≤ kit₄.size := hor.grows.size_le
  have hadds₄ : AddsNodes kit₂ kit₄ :=
    ⟨hor.grows.size_le, hor.grows.node, hor.grows.varCt, hor.grows.numAliasTypes, hor.grows.phi,
      hor.grows.complete⟩
  have haddsBoth : AddsNodes kit₁ kit₄ := hadds₂.trans hkit₂.older hadds₄
  have hvarCt₄ : kit₄.varCt = kit.varCt := hadds₄.varCt.trans hvarCt
  have hnum₄ : kit₄.numAliasTypes = kit.numAliasTypes := hadds₄.numAliasTypes.trans hnum
  obtain ⟨c₄, hc₄, -⟩ := hkit₄.cvstate.ctrl
  have hne : c₂ ≠ c₄ := by
    have hthenctrl := hthen.grows.ctrl hctrl₁ hc₂
    have horctrl : c₄ = iff + 2 ∨ kit₂.size ≤ c₄ := hor.grows.ctrl rfl hc₄
    omega
  have hother : kit₂.cvstate.Live kit₄.numAliasTypes kit₄.size := by
    rw [hadds₄.numAliasTypes]
    exact hkit₂.cvstate.mono hle₄
  obtain ⟨hmerged, hpending⟩ :=
    endIf_merged hkit₄ hor.grows.pendingCvstates hother hc₄ hc₂ hne hend
  have hkit' := hmerged.wellFormed hkit₄
  have hadds₂' : AddsNodes kit₂ kit' := hadds₄.trans hkit₄.older hmerged.addsNodes
  have haddsOpen : AddsNodes kit₁ kit' := hadds₂.trans hkit₂.older hadds₂'
  have hthreads₀ := (hthen.threads hctrl₁ hc₂).congr fun n _ hn => hadds₂'.node n hn
  have hthreads₁ := (hor.threads rfl hc₄).congr fun n _ hn => hmerged.node n hn
  refine ⟨hkit', hopened.grows hkit₁ haddsBoth hkit₄ hmerged hpending,
    hopened.threads hkit haddsBoth hkit₄ hmerged hle₂ hle₄ hthreads₀ hthreads₁ (.inr ⟨rfl, rfl⟩),
      ?_⟩
  rintro G ρ env env' ctrl ctrl' hG hc hc' hrep ⟨x, y, hx, hy, hexec⟩
  obtain rfl := Option.some.inj (hopened.ctrl.symm.trans hc)
  obtain rfl := Option.some.inj (hmerged.ctrl.symm.trans hc')
  have hstep := hopened.step_test haddsOpen hG fun hG₁ => htest hG₁ hrep hx hy
  cases hb : K.test unsigned x relop y with
  | true =>
    rw [hb] at hstep hexec
    have hGthen := (hG.second hkit' hadds₁).first hkit' hadds₂'
    obtain ⟨ρ₁, hrun, hrep₂, hbelow⟩ :=
      hthen.simulates hGthen hctrl₁ hc₂ (hopened.represents hrep) hexec
    rw [hopened.varCt, hopened.numAliasTypes] at hrep₂
    exact hmerged.run_second hkit₄ hother hG (by omega) hvarCt₄ hnum₄ (.head hstep hrun) (by omega)
      (fun n hn => hbelow n (by omega)) hrep₂
  | false =>
    rw [hb] at hstep hexec
    have hGelse : Embeds G kit₂ kit₄ :=
      (hG.second hkit' (hadds₁.trans hkit₁.older hadds₂)).first hkit' hmerged.addsNodes
    have hrep₃ : CvState.Represents { kit.cvstate with ctrl := some (iff + 2) } kit₂.varCt
        kit₂.numAliasTypes (eval G ρ) env := by
      rw [hvarCt, hnum]
      exact represents_setCtrl _ hrep
    obtain ⟨ρ₁, hrun, hrep₂, hbelow⟩ :=
      hor.simulates ⟨hGelse.same, hGelse.agrees, hGelse.phi⟩ rfl hc₄ hrep₃ hexec
    change kit₄.cvstate.Represents kit₂.varCt kit₂.numAliasTypes _ _ at hrep₂
    rw [hvarCt, hnum] at hrep₂
    refine hmerged.run_first hkit₄ hG (by omega) hvarCt₄ hnum₄ (.head hstep hrun) (by omega)
      (fun n hn => hbelow n ?_) hrep₂
    change n < kit₂.size
    omega

end

end IdealKit

end StackAllocation
