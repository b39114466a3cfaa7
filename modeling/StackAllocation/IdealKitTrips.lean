import StackAllocation.IdealKitResult

/-!
# The loops of a kit

The nodes of a loop from the state before it to the state after, and what they do: each trip enters
the region from the second predecessor with the values at the end of the body, and finds the memory
and the I/O state that were there before (`IdealKit.LoopParts.trips`).
-/

namespace StackAllocation

variable {Val : Type}

namespace IdealKit

/-- The kits on the way through a loop: with the start and the limit, about to enter, at the head,
at the start and at the end of the body, and after `end_loop`. -/
structure LoopParts (K : KitCompiler Val) (kit kit₀ kit₁ kit₂ kit₃ kit₄ kit' : IdealKit Val)
    (ctrl c c₁ iv init limit value bol iff : ℕ) (relop : BoolTest) : Prop where
  wellFormed : kit.WellFormed
  adds : Adds IsOp kit kit₀
  init_lt : init < kit₀.size
  limit_lt : limit < kit₀.size
  iv_lt : iv < kit.varCt
  ctrl_eq : kit.cvstate.ctrl = some ctrl
  entering : Entering kit₀ kit₁ ctrl c iv init
  headed : Headed kit₁ kit₂ c
  value_eq : kit₂.cvstate.vars iv = some value
  opened : Opened { kit₂ with pendingCvstates := kit₂.cvstate :: kit₂.pendingCvstates } kit₃
    kit₁.size bol iff
  test : ∀ {G ρ}, Agrees G kit₃ →
    K.holds (eval G ρ bol) = K.test false (eval G ρ value) relop (eval G ρ limit)
  body : Grows kit₃ kit₄
  body_wellFormed : kit₄.WellFormed
  ctrl₁_eq : kit₄.cvstate.ctrl = some c₁
  ends : kit₄.endsWithHead kit₂.cvstate = true
  closed : Closed kit₄ kit' kit₂.cvstate kit₁.size c c₁
  cvstate : kit'.cvstate = { kit₂.cvstate with ctrl := some (iff + 2) }
  pendingCvstates : kit'.pendingCvstates = kit.pendingCvstates

namespace LoopParts

variable {K : KitCompiler Val} {kit kit₀ kit₁ kit₂ kit₃ kit₄ kit' : IdealKit Val}
  {ctrl c c₁ iv init limit value bol iff : ℕ} {relop : BoolTest}

section

variable (h : LoopParts K kit kit₀ kit₁ kit₂ kit₃ kit₄ kit' ctrl c c₁ iv init limit value bol iff
  relop)

include h

/-- The kit before the loop variable is set. -/
theorem wellFormed₀ : kit₀.WellFormed := h.adds.wellFormed (fun _ _ => IsOp.older) h.wellFormed

/-- The kit at the head. -/
theorem wellFormed₁ : kit₁.WellFormed :=
  h.entering.wellFormed h.wellFormed₀ (h.adds.cvstate ▸ h.ctrl_eq) h.init_lt

/-- The kit when the condition has been evaluated. -/
theorem wellFormed₂ : kit₂.WellFormed := h.headed.wellFormed h.wellFormed₁

/-- The parts of a loop add nodes one after the other, and the back edge adds none. -/
theorem sizes : kit.size ≤ kit₀.size ∧ kit₀.size ≤ kit₁.size ∧ kit₁.size < kit₂.size ∧
    kit₂.size ≤ iff ∧ kit₃.size = iff + 3 ∧ kit₃.size ≤ kit₄.size ∧ kit'.size = kit₄.size :=
  ⟨h.adds.size_le, h.entering.size_le, h.headed.size_lt, h.opened.size_le, h.opened.size,
    h.body.size_le, h.closed.size⟩

/-- The number of variables is declared before, and stays. -/
theorem varCts : kit₁.varCt = kit.varCt ∧ kit₂.varCt = kit.varCt ∧ kit₃.varCt = kit.varCt ∧
    kit₄.varCt = kit.varCt ∧ kit'.varCt = kit.varCt := by
  have h₁ := h.entering.varCt.trans h.adds.varCt
  have h₂ := h.headed.varCt.trans h₁
  have h₃ := h.opened.varCt.trans h₂
  have h₄ := h.body.varCt.trans h₃
  exact ⟨h₁, h₂, h₃, h₄, h.closed.varCt.trans h₄⟩

/-- So does the number of memory slices. -/
theorem numAliasTypess : kit₁.numAliasTypes = kit.numAliasTypes ∧
    kit₂.numAliasTypes = kit.numAliasTypes ∧ kit₃.numAliasTypes = kit.numAliasTypes ∧
    kit₄.numAliasTypes = kit.numAliasTypes ∧ kit'.numAliasTypes = kit.numAliasTypes := by
  have h₁ := h.entering.numAliasTypes.trans h.adds.numAliasTypes
  have h₂ := h.headed.numAliasTypes.trans h₁
  have h₃ := h.opened.numAliasTypes.trans h₂
  have h₄ := h.body.numAliasTypes.trans h₃
  exact ⟨h₁, h₂, h₃, h₄, h.closed.numAliasTypes.trans h₄⟩

/-- The `Phi` of a variable in the end. -/
theorem node_phi {i p : ℕ} (hp : kit₂.cvstate.vars i = some p) :
    i < kit.varCt ∧ kit₁.size < p ∧ p < kit₂.size ∧ ∃ m m', kit₁.cvstate.vars i = some m ∧
      kit₄.cvstate.vars i = some m' ∧ kit₄.node p = .phi kit₁.size [some m, none] ∧
      kit'.node p = .phi kit₁.size [some m, some m'] := by
  obtain ⟨hi, m, hm, hlt, hlt', hnode⟩ := h.headed.phi hp
  obtain ⟨-, -, -, h₄, h₅, h₆, -⟩ := h.sizes
  rw [h.varCts.1] at hi
  have hnode₄ : kit₄.node p = .phi kit₁.size [some m, none] := by
    rw [h.body.node p (by omega), h.opened.node p hlt', hnode]
  obtain ⟨m', hm', hnode'⟩ := h.closed.node_phi (h.varCts.2.2.2.1 ▸ hi) hp hnode₄
  exact ⟨hi, hlt, hlt', m, m', hm, hm', hnode₄, hnode'⟩

/-- Nodes of the body stay. -/
theorem node_body {n : ℕ} (hn : kit₂.size ≤ n) : kit'.node n = kit₄.node n := by
  refine h.closed.node n (by have := h.headed.size_lt; omega) fun i _ hi => ?_
  obtain ⟨-, -, hlt, -⟩ := h.node_phi hi
  omega

/-- So do the nodes before the region. -/
theorem node_before {n : ℕ} (hn : n < kit₁.size) : kit'.node n = kit₁.node n := by
  obtain ⟨h₀, h₁, h₂, h₃, h₄, h₅, h₆⟩ := h.sizes
  rw [h.closed.node n hn.ne fun i _ hi => by obtain ⟨-, hlt, -⟩ := h.node_phi hi; omega,
    h.body.node n (by omega), h.opened.node n (by change n < kit₂.size; omega),
    h.headed.node n hn]

/-- The nodes from the region to the `If` are the region and the `Phi`s of variables. -/
theorem node_head {n : ℕ} (hn : kit₁.size ≤ n) (hn' : n < kit₂.size) :
    n = kit₁.size ∨ ∃ i, kit₂.cvstate.vars i = some n := by
  rcases hn.eq_or_lt with rfl | hlt
  · exact .inl rfl
  · obtain ⟨i, -, hi⟩ := h.headed.vars_all n hlt hn'
    exact .inr ⟨i, hi⟩

/-- All nodes have older inputs only; the back edge is the one exception, and is an input of the
head that is looked at when control comes to it. -/
theorem older : ∀ n < kit'.size, (kit'.node n).Older n := by
  intro n hn
  rw [h.closed.size] at hn
  rcases Nat.lt_or_ge n kit₁.size with hlt | hge
  · rw [h.node_before hlt]
    exact h.wellFormed₁.older n hlt
  rcases Nat.lt_or_ge n kit₂.size with hlt | hge₂
  · obtain rfl | ⟨i, hi⟩ := h.node_head hge hlt
    · rw [h.closed.node_region]
      trivial
    · obtain ⟨-, hlt, -, m, m', -, -, -, hnode⟩ := h.node_phi hi
      rw [hnode]
      exact hlt
  · rw [h.node_body hge₂]
    exact h.body_wellFormed.older n hn

/-- The kit after the loop is well formed. -/
theorem result_wellFormed : kit'.WellFormed where
  older := h.older
  cvstate := by
    obtain ⟨h₀, h₁, h₂, h₃, h₄, h₅, h₆⟩ := h.sizes
    rw [h.cvstate, h.numAliasTypess.2.2.2.2, ← h.numAliasTypess.2.1]
    exact live_setCtrl (h.wellFormed₂.cvstate.mono (by omega)) (by omega)

/-- A `Phi` after the region is one of a variable or of the body. -/
theorem phi_cases {n r : ℕ} {ins : List (Option ℕ)} (hn : kit.size ≤ n) (hn' : n < kit'.size)
    (hphi : kit'.node n = .phi r ins) :
    (∃ i, kit₂.cvstate.vars i = some n) ∨ kit₃.size ≤ n ∧ kit₄.node n = .phi r ins := by
  obtain ⟨h₀, h₁, h₂, h₃, h₄, h₅, h₆⟩ := h.sizes
  rcases Nat.lt_or_ge n kit₁.size with hlt | hge
  · rw [h.node_before hlt] at hphi
    rcases Nat.lt_or_ge n kit₀.size with hlt₀ | hge₀
    · rw [h.entering.node n hlt₀] at hphi
      obtain ⟨f, a, b, c, heq, -⟩ := h.adds.new n hn hlt₀
      cases heq.symm.trans hphi
    · cases (h.entering.new n hge₀ hlt).symm.trans hphi
  rcases Nat.lt_or_ge n kit₂.size with hlt | hge₂
  · obtain rfl | hi := h.node_head hge hlt
    · cases h.closed.node_region.symm.trans hphi
    · exact .inl hi
  rw [h.node_body hge₂] at hphi
  rcases Nat.lt_or_ge n kit₃.size with hlt | hge₃
  · rw [h.body.node n hlt] at hphi
    rcases Nat.lt_or_ge n iff with hlt' | hge'
    · obtain ⟨f, a, b, c, heq, -⟩ := h.opened.new n hge₂ hlt'
      cases heq.symm.trans hphi
    · obtain rfl | rfl | rfl : n = iff ∨ n = iff + 1 ∨ n = iff + 2 := by omega
      · cases h.opened.node_iff.symm.trans hphi
      · cases h.opened.node_ifTrue.symm.trans hphi
      · cases h.opened.node_ifFalse.symm.trans hphi
  · exact .inr ⟨hge₃, hphi⟩

/-- A loop adds nodes, and its `Phi`s have their two inputs. -/
theorem addsNodes : AddsNodes kit kit' where
  size_le := by
    obtain ⟨h₀, h₁, h₂, h₃, h₄, h₅, h₆⟩ := h.sizes
    omega
  node := by
    intro n hn
    have hlt := hn.trans_le h.sizes.1
    rw [h.node_before (hlt.trans_le h.sizes.2.1), h.entering.node n hlt, h.adds.node n hn]
  varCt := h.varCts.2.2.2.2
  numAliasTypes := h.numAliasTypess.2.2.2.2
  phi := by
    intro n r ins hn hn' hphi
    obtain ⟨h₀, h₁, h₂, h₃, h₄, h₅, h₆⟩ := h.sizes
    obtain ⟨i, hi⟩ | ⟨hge, hphi₄⟩ := h.phi_cases hn hn' hphi
    · obtain ⟨-, -, -, m, m', -, -, -, hnode⟩ := h.node_phi hi
      obtain ⟨rfl, -⟩ := KitNode.phi.inj (hnode.symm.trans hphi)
      omega
    · have := h.body.phi hge (by omega) hphi₄
      omega
  complete := by
    intro n hn hn' r ins hphi
    obtain ⟨h₀, h₁, h₂, h₃, h₄, h₅, h₆⟩ := h.sizes
    obtain ⟨i, hi⟩ | ⟨hge, hphi₄⟩ := h.phi_cases hn hn' hphi
    · obtain ⟨-, -, -, m, m', -, -, -, hnode⟩ := h.node_phi hi
      obtain ⟨rfl, rfl⟩ := KitNode.phi.inj (hnode.symm.trans hphi)
      exact ⟨_, h.closed.node_region, rfl, exists_getElem?_pair m m', exists_getElem?_pair c c₁⟩
    · refine completePhi_of_node (h.node_body (by omega)) (fun {r ins} hphi' => ?_)
        (h.body.complete n hge (by omega)) hphi
      have := h.body.phi hge (by omega) hphi'
      exact h.node_body (by omega)

/-- What was there before the loop is as it was. -/
theorem grows : Grows kit kit' := by
  refine ⟨h.addsNodes, h.pendingCvstates, ?_⟩
  intro a b _ hb
  obtain ⟨h₀, h₁, h₂, h₃, h₄, h₅, h₆⟩ := h.sizes
  rw [h.cvstate] at hb
  obtain rfl := Option.some.inj hb
  exact .inr (by omega)

/-- Control goes through a loop on one path. -/
theorem threads (hbody : Threads kit₄.node kit₃.size kit₄.size (iff + 1) c₁) :
    Threads kit'.node kit.size kit'.size ctrl (iff + 2) := by
  obtain ⟨h₀, h₁, h₂, h₃, h₄, h₅, h₆⟩ := h.sizes
  have hnode {n : ℕ} (hn : kit₂.size ≤ n) (hn' : n < kit₃.size) : kit'.node n = kit₃.node n :=
    (h.node_body hn).trans (h.body.node n hn')
  have hthreads := hbody.congr fun n hn _ => h.node_body (show kit₂.size ≤ n by omega)
  rw [h₄, ← h₆] at hthreads
  refine threads_loop (h.wellFormed.ctrl_lt h.ctrl_eq) h₀ ?_ ?_ h.closed.node_region ?_
    (h₂.trans_le h₃) ((hnode h₃ (by omega)).trans h.opened.node_iff)
    ((hnode (by omega) (by omega)).trans h.opened.node_ifTrue)
    ((hnode (by omega) (by omega)).trans h.opened.node_ifFalse) (by omega) hthreads
  · intro n hn hn'
    rw [h.node_before (by omega), h.entering.node n hn']
    exact (h.adds.new n hn hn').isPlain
  · obtain ⟨hc, hsize⟩ | ⟨hc, hsize⟩ := h.entering.ctrl
    · exact .inl ⟨hc, hsize⟩
    · refine .inr ⟨hc, hsize, ?_⟩
      rw [h.node_before (by omega)]
      exact h.entering.new _ (le_refl _) (by omega)
  · intro n hn hn'
    rcases Nat.lt_or_ge n kit₂.size with hlt | hge
    · obtain rfl | ⟨i, hi⟩ := h.node_head hn.le hlt
      · exact absurd hn (lt_irrefl _)
      · obtain ⟨-, -, -, m, m', -, -, -, hphi⟩ := h.node_phi hi
        rw [hphi]
        trivial
    · rw [hnode hge (by omega)]
      exact (h.opened.new n hge hn').isPlain

/-! ## Trips

A trip is a run through the body and over the back edge. At the head the variables have the values
of the program at each trip; memory and I/O are those before the loop, which is right as no trip
changes them. The induction is on the trips of the program. -/

variable {G : ℕ → KitNode Val} (hG : Embeds G kit kit')

include hG

/-- A graph with the nodes of the loop has those of its body. -/
theorem embeds_body : Embeds G kit₃ kit₄ := by
  obtain ⟨h₀, h₁, h₂, h₃, h₄, h₅, h₆⟩ := h.sizes
  refine hG.restrict h.older (by omega) h₆.ge (fun n hn _ => h.node_body (by omega)) ?_ ?_
  · intro n hn
    rcases Nat.lt_or_ge n kit₁.size with hlt | hge
    · rw [h.node_before hlt, h.body.node n (by omega),
        h.opened.node n (by change n < kit₂.size; omega), h.headed.node n hlt]
    rcases Nat.lt_or_ge n kit₂.size with hlt | hge₂
    · obtain rfl | ⟨i, hi⟩ := h.node_head hge hlt
      · rw [h.closed.node_region, h.body.node _ (by omega), h.opened.node _ hlt,
          h.headed.node_region]
        rfl
      · obtain ⟨-, -, -, m, m', -, -, hnode, hnode'⟩ := h.node_phi hi
        rw [hnode, hnode']
        rfl
    · rw [h.node_body hge₂]
  · intro n r ins hn hn'
    exact absurd hn' (by omega)

/-- Below the head the graph can be evaluated in order. -/
theorem ordered_graph : Ordered G kit₁.size := by
  obtain ⟨h₀, h₁, h₂, h₃, h₄, h₅, h₆⟩ := h.sizes
  exact (h.result_wellFormed.ordered.congr hG.agrees).mono (by omega)

/-- No node before the head is one of its `Phi`s. -/
theorem not_phi : ∀ i < kit₁.size, ∀ ins, G i ≠ .phi kit₁.size ins := by
  obtain ⟨h₀, h₁, h₂, h₃, h₄, h₅, h₆⟩ := h.sizes
  exact hG.not_phi h.older (by omega) (by omega)

/-- At a predecessor of the region with the memory and the I/O state of before the loop, and with
the inputs of the `Phi`s in the variables, a step enters the region with these values. -/
theorem enter_region {k a : ℕ} {t : CvState} {ρ : ℕ → Val} {env : KitEnv Val}
    (hk : [some c, some c₁][k]? = some (some a))
    (hrep : t.Represents kit.varCt kit.numAliasTypes (eval G ρ) env)
    (hvars : ∀ {i l}, i < kit.varCt → t.vars i = some l → ∃ p m m',
      kit₂.cvstate.vars i = some p ∧ kit'.node p = .phi kit₁.size [some m, some m'] ∧
        [some m, some m'][k]? = some (some l))
    (hmem : ∃ m₀, t.memory = some m₀ ∧ ∃ m, kit₂.cvstate.memory = some m ∧
      ∀ i < kit.numAliasTypes, m₀ i = m i)
    (hio : t.io = kit₂.cvstate.io) :
    KitStep G K (a, ρ) (kit₁.size, enter G kit₁.size k ρ) ∧
      kit₂.cvstate.Represents kit.varCt kit.numAliasTypes (eval G (enter G kit₁.size k ρ)) env := by
  obtain ⟨h₀, h₁, h₂, h₃, h₄, h₅, h₆⟩ := h.sizes
  have hregion := (hG.same kit₁.size (by omega) (by omega)).trans h.closed.node_region
  refine ⟨.region hregion hk, represents_enter hrep (h.ordered_graph hG) (h.not_phi hG) ?_ ?_ ?_⟩
  · intro i l hi hl
    obtain ⟨p, m, m', hp, hnode, hkl⟩ := hvars hi hl
    obtain ⟨-, hlt, hlt', -⟩ := h.node_phi hp
    exact ⟨p, hp, .inr ⟨_, (hG.same p (by omega) (by omega)).trans hnode, hkl⟩⟩
  · obtain ⟨m₀, hm₀, m, hm, hsame⟩ := hmem
    obtain ⟨m', hm', hlt⟩ := h.wellFormed₁.cvstate.memory
    obtain rfl := Option.some.inj (hm.symm.trans (h.headed.memory.trans hm'))
    refine ⟨m₀, m, hm₀, hm, fun i hi => .inl ⟨(hsame i hi).symm, ?_⟩⟩
    exact hlt i (h.numAliasTypess.1 ▸ hi)
  · obtain ⟨l, hl, hlt⟩ := h.wellFormed₁.cvstate.io
    exact ⟨l, l, hio.trans (h.headed.io.trans hl), h.headed.io.trans hl, .inl ⟨rfl, hlt⟩⟩

/-- From the region the graph makes the trips of the program. -/
theorem trips {nodes : List ℕ} {body : KitCalls Val} {ρ : ℕ → Val} {env env' : KitEnv Val}
    (hnodes : ∀ i ∈ nodes, i < kit.size) (hbody : Result K body nodes kit₃ kit₄)
    (htrips : Trips K iv relop (eval G ρ limit) (body.Exec K (nodes.map (eval G ρ))) env env') :
    ∀ {ρ₁}, (∀ n < kit₁.size, ρ₁ n = ρ n) →
      kit₂.cvstate.Represents kit.varCt kit.numAliasTypes (eval G ρ₁) env →
      ∃ ρ', KitRun G K (kit₁.size, ρ₁) (iff + 2, ρ') ∧
        kit₂.cvstate.Represents kit.varCt kit.numAliasTypes (eval G ρ') env' ∧
        ∀ n < kit₁.size, ρ' n = ρ n := by
  obtain ⟨h₀, h₁, h₂, h₃, h₄, h₅, h₆⟩ := h.sizes
  have hGbody := h.embeds_body hG
  have hG₃ : Agrees G kit₃ := h.body.agrees hGbody.agrees
  have hord := h.ordered_graph hG
  -- the `If` of the loop
  have htest {ρ₁ : ℕ → Val} {env : KitEnv Val} {x : Val} (hbelow : ∀ n < kit₁.size, ρ₁ n = ρ n)
      (hrep : kit₂.cvstate.Represents kit.varCt kit.numAliasTypes (eval G ρ₁) env)
      (hx : env.vars iv = some x) :
      KitStep G K (kit₁.size, ρ₁)
        (bif K.test false x relop (eval G ρ limit) then iff + 1 else iff + 2, ρ₁) := by
    obtain ⟨n, hn, rfl⟩ := hrep.vars h.iv_lt hx
    obtain rfl := Option.some.inj (hn.symm.trans h.value_eq)
    have hlimit : eval G ρ₁ limit = eval G ρ limit :=
      eval_of_eq_below hord hbelow (h.limit_lt.trans_le h₁)
    rw [← hlimit, ← h.test hG₃]
    refine h.opened.step fun n hn hn' => ?_
    change kit₂.size ≤ n at hn
    rw [hG.same n (by omega) (by omega), h.node_body hn, h.body.node n hn']
  induction htrips with
  | leave hx hfalse =>
    intro ρ₁ hbelow hrep
    have hstep := htest hbelow hrep hx
    rw [hfalse] at hstep
    exact ⟨ρ₁, .single hstep, hrep, hbelow⟩
  | @next env x env₁ env₂ hx htrue hexec _ ih =>
    intro ρ₁ hbelow hrep
    have hstep := htest hbelow hrep hx
    rw [htrue] at hstep
    have hrep₃ : kit₃.cvstate.Represents kit₃.varCt kit₃.numAliasTypes (eval G ρ₁) env := by
      rw [h.opened.cvstate, h.varCts.2.2.1, h.numAliasTypess.2.2.1]
      exact represents_setCtrl _ hrep
    have hbelow₀ : ∀ n < kit.size, ρ₁ n = ρ n := fun n hn => hbelow n (by omega)
    rw [← map_eval_of_eq_below h.wellFormed (h.addsNodes.agrees hG.agrees) hnodes hbelow₀] at hexec
    obtain ⟨ρ₂, hrun, hrep₄, hbelow₂⟩ :=
      hbody.simulates hGbody (by rw [h.opened.cvstate]) h.ctrl₁_eq hrep₃ hexec
    rw [h.varCts.2.2.1, h.numAliasTypess.2.2.1] at hrep₄
    have hends := h.ends
    simp only [endsWithHead, Bool.and_eq_true, decide_eq_true_eq] at hends
    obtain ⟨⟨⟨hsome, -⟩, hslices⟩, hsameio⟩ := hends
    have hvars : ∀ {i l}, i < kit.varCt → kit₄.cvstate.vars i = some l → ∃ p m m',
        kit₂.cvstate.vars i = some p ∧ kit'.node p = .phi kit₁.size [some m, some m'] ∧
          [some m, some m'][1]? = some (some l) := by
      intro i l hi hl
      have hi₄ := hsome i (h.varCts.2.2.2.1 ▸ hi)
      rw [hl, Option.isSome_some] at hi₄
      obtain ⟨p, hp⟩ := Option.isSome_iff_exists.mp hi₄.symm
      obtain ⟨-, -, -, m, m', -, hm', -, hnode⟩ := h.node_phi hp
      obtain rfl := Option.some.inj (hl.symm.trans hm')
      exact ⟨p, m, l, hp, hnode, rfl⟩
    have hmem : ∃ m₀, kit₄.cvstate.memory = some m₀ ∧ ∃ m, kit₂.cvstate.memory = some m ∧
        ∀ i < kit.numAliasTypes, m₀ i = m i := by
      obtain ⟨m₀, hm₀, -⟩ := h.body_wellFormed.cvstate.memory
      obtain ⟨m, hm, -⟩ := h.wellFormed₂.cvstate.memory
      refine ⟨m₀, hm₀, m, hm, fun i hi => ?_⟩
      simpa [hm₀, hm] using hslices i (h.numAliasTypess.2.2.2.1 ▸ hi)
    obtain ⟨hlast, hrep₂⟩ := h.enter_region hG (k := 1) rfl hrep₄ hvars hmem hsameio
    have hbelow₃ : ∀ n < kit₁.size, enter G kit₁.size 1 ρ₂ n = ρ n := by
      intro n hn
      rw [enter_of_lt (h.not_phi hG) hn, hbelow₂ n (by omega), hbelow n hn]
    obtain ⟨ρ', hrun', hrep', hbelow'⟩ := ih hbelow₃ hrep₂
    exact ⟨ρ', .head hstep ((hrun.tail hlast).trans hrun'), hrep', hbelow'⟩

/-- A loop does what the program does. -/
theorem simulates {nodes : List ℕ} {body : KitCalls Val} {ρ : ℕ → Val} {env env' : KitEnv Val}
    (hnodes : ∀ i ∈ nodes, i < kit.size) (hbody : Result K body nodes kit₃ kit₄)
    (hrep : kit.cvstate.Represents kit.varCt kit.numAliasTypes (eval G ρ) env)
    (htrips : Trips K iv relop (eval G ρ limit) (body.Exec K (nodes.map (eval G ρ)))
      { env with vars := Function.update env.vars iv (some (eval G ρ init)) } env') :
    ∃ ρ', KitRun G K (ctrl, ρ) (iff + 2, ρ') ∧
      kit'.cvstate.Represents kit.varCt kit.numAliasTypes (eval G ρ') env' ∧
      ∀ n < kit.size, ρ' n = ρ n := by
  obtain ⟨h₀, h₁, h₂, h₃, h₄, h₅, h₆⟩ := h.sizes
  have hpredicate : KitRun G K (ctrl, ρ) (c, ρ) := by
    obtain ⟨rfl, -⟩ | ⟨rfl, hsize⟩ := h.entering.ctrl
    · exact .refl
    · have hnode := h.entering.new kit₀.size (le_refl _) (by omega)
      rw [← h.node_before (by omega)] at hnode
      exact .single (.predicate ((hG.same _ h₀ (by omega)).trans hnode))
  have hrep₁ : kit₁.cvstate.Represents kit.varCt kit.numAliasTypes (eval G ρ)
      { env with vars := Function.update env.vars iv (some (eval G ρ init)) } := by
    rw [h.entering.cvstate, h.adds.cvstate]
    exact represents_setCtrl _ (represents_set hrep rfl)
  have hvars : ∀ {i l}, i < kit.varCt → kit₁.cvstate.vars i = some l → ∃ p m m',
      kit₂.cvstate.vars i = some p ∧ kit'.node p = .phi kit₁.size [some m, some m'] ∧
        [some m, some m'][0]? = some (some l) := by
    intro i l hi hl
    obtain ⟨p, hp, -⟩ := h.headed.vars_some (h.varCts.1 ▸ hi) hl
    obtain ⟨-, -, -, m, m', hm, -, -, hnode⟩ := h.node_phi hp
    obtain rfl := Option.some.inj (hl.symm.trans hm)
    exact ⟨p, l, m', hp, hnode, rfl⟩
  have hmem : ∃ m₀, kit₁.cvstate.memory = some m₀ ∧ ∃ m, kit₂.cvstate.memory = some m ∧
      ∀ i < kit.numAliasTypes, m₀ i = m i := by
    obtain ⟨m, hm, -⟩ := h.wellFormed₁.cvstate.memory
    exact ⟨m, hm, m, h.headed.memory.trans hm, fun _ _ => rfl⟩
  obtain ⟨hfirst, hrep₂⟩ := h.enter_region hG (k := 0) rfl hrep₁ hvars hmem h.headed.io.symm
  have hlimit : eval G ρ limit = eval G (enter G kit₁.size 0 ρ) limit := by
    refine (eval_of_eq_below (h.ordered_graph hG) (fun n hn => ?_) (h.limit_lt.trans_le h₁)).symm
    exact enter_of_lt (h.not_phi hG) hn
  have hmap : nodes.map (eval G ρ) = nodes.map (eval G (enter G kit₁.size 0 ρ)) := by
    refine (map_eval_of_eq_below h.wellFormed (h.addsNodes.agrees hG.agrees) hnodes
      fun n hn => ?_).symm
    exact enter_of_lt (h.not_phi hG) (by omega)
  rw [hlimit, hmap] at htrips
  obtain ⟨ρ', hrun, hrep', hbelow⟩ := h.trips hG hnodes hbody htrips (fun _ _ => rfl) hrep₂
  refine ⟨ρ', hpredicate.trans (.head hfirst hrun), ?_, fun n hn => ?_⟩
  · rw [h.cvstate]
    exact represents_setCtrl _ hrep'
  · rw [hbelow n (by omega), enter_of_lt (h.not_phi hG) (by omega)]

end

end LoopParts

end IdealKit

end StackAllocation
