import StackAllocation.IdealKitLabels

/-!
# The head and the end of a loop

At its head a loop gets a region with one predecessor, and a `Phi` for every variable that has a
value (`IdealKit.bind_headed`). The memory and the I/O state stay those before the loop. The jump at
the end of the body fills the second predecessor in, and the second input of the `Phi` of each
variable that the body changed (`IdealKit.endLoop_closed`).
-/

namespace StackAllocation

variable {Val : Type}

namespace IdealKit

/-! ## The head

At the head all variables with a value get a `Phi` with one input; the second input is missing till
the end of the body. The kit counts as well formed in this state, since only older inputs are asked
for. -/

/-- A `Phi` with the input of the first predecessor only. -/
def IsHalf (r n : ℕ) (x : KitNode Val) : Prop := r < n ∧ ∃ m, x = .phi r [some m, none]

/-- A `Phi` with one input has older inputs only. -/
theorem IsHalf.older {r n : ℕ} {x : KitNode Val} (h : IsHalf r n x) : x.Older n := by
  obtain ⟨hlt, m, rfl⟩ := h
  exact hlt

/-- The `Phi`s of the variables up to `k` at the head of a loop. -/
structure HeadVars (kit kit' : IdealKit Val) (r k : ℕ) (vars : ℕ → Option ℕ) : Prop where
  none : ∀ i < k, kit.cvstate.vars i = none → vars i = none
  some : ∀ {i m}, i < k → kit.cvstate.vars i = some m → ∃ p, vars i = some p ∧ kit.size ≤ p ∧
    p < kit'.size ∧ kit'.node p = .phi r [some m, Option.none]
  rest : ∀ i, k ≤ i → vars i = Option.none
  inj : ∀ {i j p}, vars i = Option.some p → vars j = Option.some p → i = j
  all : ∀ p, kit.size ≤ p → p < kit'.size → ∃ i < k, vars i = Option.some p

section

variable {kit : IdealKit Val} {r c : ℕ}

/-- A label with one predecessor gets a `Phi` with one input, and the second one is set by the back
edge. -/
theorem promoteToPhi_half (hreg : kit.node r = .region [some c, none]) (m : ℕ) :
    kit.promoteToPhi m r = kit.addNode (.phi r [some m, none]) := by
  simp [promoteToPhi, regionIns, hreg]

section

variable {kit₁ : IdealKit Val} {k : ℕ} {vars : ℕ → Option ℕ}

/-- A variable without a value gets no `Phi`. -/
theorem HeadVars.skip (h : HeadVars kit kit₁ r k vars) (hm : kit.cvstate.vars k = Option.none) :
    HeadVars kit kit₁ r (k + 1) vars where
  none i hi hnone := by
    by_cases hik : i = k
    · subst hik
      exact h.rest i (le_refl i)
    · exact h.none i (by omega) hnone
  some {i m} hi hsome := by
    by_cases hik : i = k
    · subst hik
      cases hm.symm.trans hsome
    · exact h.some (by omega) hsome
  rest i hi := h.rest i (by omega)
  inj := h.inj
  all p hp hp' := by
    obtain ⟨i, hi, hv⟩ := h.all p hp hp'
    exact ⟨i, by omega, hv⟩

/-- The next node is the `Phi` of no variable. -/
theorem HeadVars.fresh (h : HeadVars kit kit₁ r k vars) (i : ℕ) :
    vars i ≠ Option.some kit₁.size := by
  intro hi
  by_cases hik : i < k
  · cases hmi : kit.cvstate.vars i with
    | none => cases (h.none i hik hmi).symm.trans hi
    | some m =>
      obtain ⟨p, hp, -, hlt, -⟩ := h.some hik hmi
      obtain rfl := Option.some.inj (hp.symm.trans hi)
      exact lt_irrefl _ hlt
  · cases (h.rest i (by omega)).symm.trans hi

/-- A variable with a value gets a new `Phi`. -/
theorem HeadVars.add (h : HeadVars kit kit₁ r k vars) (hle : kit.size ≤ kit₁.size) {m : ℕ}
    (hm : kit.cvstate.vars k = Option.some m) :
    HeadVars kit (kit₁.addNode (.phi r [Option.some m, Option.none])).2 r (k + 1)
      (Function.update vars k (Option.some kit₁.size)) where
  none i hi hnone := by
    have hik : i ≠ k := by
      rintro rfl
      cases hm.symm.trans hnone
    rw [Function.update_of_ne hik]
    exact h.none i (by omega) hnone
  some {i m'} hi hsome := by
    by_cases hik : i = k
    · subst hik
      obtain rfl := Option.some.inj (hm.symm.trans hsome)
      exact ⟨kit₁.size, by simp, hle, Nat.lt_succ_self _, by simp⟩
    · obtain ⟨p, hp, hge, hlt, hnode⟩ := h.some (show i < k by omega) hsome
      refine ⟨p, by rw [Function.update_of_ne hik, hp], hge, hlt.trans (Nat.lt_succ_self _), ?_⟩
      have hold : (kit₁.addNode (.phi r [Option.some m, Option.none])).2.node p = kit₁.node p :=
        Function.update_of_ne (Nat.ne_of_lt hlt) _ _
      rw [hold, hnode]
  rest i hi := by rw [Function.update_of_ne (by omega), h.rest i (by omega)]
  inj {i j p} hi hj := by
    by_cases hik : i = k
    · subst hik
      by_cases hjk : j = i
      · exact hjk.symm
      · rw [Function.update_self] at hi
        rw [Function.update_of_ne hjk, ← hi] at hj
        exact absurd hj (h.fresh j)
    · rw [Function.update_of_ne hik] at hi
      by_cases hjk : j = k
      · subst hjk
        rw [Function.update_self] at hj
        rw [← hj] at hi
        exact absurd hi (h.fresh i)
      · rw [Function.update_of_ne hjk] at hj
        exact h.inj hi hj
  all p hp hp' := by
    rcases Nat.lt_succ_iff_lt_or_eq.mp hp' with hlt | rfl
    · obtain ⟨i, hi, hv⟩ := h.all p hp hlt
      exact ⟨i, by omega, by rw [Function.update_of_ne (by omega), hv]⟩
    · exact ⟨k, Nat.lt_succ_self k, by simp⟩

end

/-- All variables get a `Phi`. -/
theorem foldl_gotoVar_half (hr : r < kit.size) (hreg : kit.node r = .region [some c, none])
    (k : ℕ) :
    ∃ kit' vars,
      (List.range k).foldl (gotoVar r 0 true) (kit, ⟨some r, none, none, fun _ => none⟩) =
        (kit', ⟨some r, none, none, vars⟩) ∧
      Adds (IsHalf r) kit kit' ∧ HeadVars kit kit' r k vars := by
  induction k with
  | zero =>
    exact ⟨kit, fun _ => none, rfl, Adds.refl _ _, nofun, nofun, fun _ _ => rfl, nofun,
      fun p hp hp' => absurd hp' (by omega)⟩
  | succ k ih =>
    obtain ⟨kit₁, vars, heq, hadds, hvars⟩ := ih
    have hle := hadds.size_le
    have hfold : (List.range (k + 1)).foldl (gotoVar r 0 true)
        (kit, ⟨some r, none, none, fun _ => none⟩) =
          gotoVar r 0 true (kit₁, ⟨some r, none, none, vars⟩) k := by
      rw [List.range_succ, List.foldl_append, heq]
      rfl
    cases hm : kit.cvstate.vars k with
    | none =>
      refine ⟨kit₁, vars, ?_, hadds, hvars.skip hm⟩
      rw [hfold]
      simp [gotoVar, hadds.cvstate, hm]
    | some m =>
      have hvk := hvars.rest k (le_refl k)
      have hadd : Adds (IsHalf r) kit₁ (kit₁.addNode (.phi r [some m, none])).2 :=
        addNode_adds kit₁ ⟨by omega, m, rfl⟩
      refine ⟨(kit₁.addNode (.phi r [some m, none])).2, Function.update vars k (some kit₁.size), ?_,
        hadds.trans hadd, hvars.add hle hm⟩
      rw [hfold]
      simp only [gotoVar, hadds.cvstate, hm, hvk, if_true,
        promoteToPhi_half ((hadds.node r hr).trans hreg)]
      rfl

end

/-- `kit'` is at the head of a loop that `kit` was about to enter. -/
structure Headed (kit kit' : IdealKit Val) (c : ℕ) : Prop where
  size_lt : kit.size < kit'.size
  node : ∀ n < kit.size, kit'.node n = kit.node n
  node_region : kit'.node kit.size = .region [some c, none]
  new : ∀ n, kit.size < n → n < kit'.size → IsHalf kit.size n (kit'.node n)
  ctrl : kit'.cvstate.ctrl = some kit.size
  io : kit'.cvstate.io = kit.cvstate.io
  memory : kit'.cvstate.memory = kit.cvstate.memory
  vars_none : ∀ i < kit.varCt, kit.cvstate.vars i = none → kit'.cvstate.vars i = none
  vars_some : ∀ {i m}, i < kit.varCt → kit.cvstate.vars i = some m →
    ∃ p, kit'.cvstate.vars i = some p ∧ kit.size < p ∧ p < kit'.size ∧
      kit'.node p = .phi kit.size [some m, none]
  vars_rest : ∀ i, kit.varCt ≤ i → kit'.cvstate.vars i = none
  vars_inj : ∀ {i j p}, kit'.cvstate.vars i = some p → kit'.cvstate.vars j = some p → i = j
  vars_all : ∀ p, kit.size < p → p < kit'.size → ∃ i < kit.varCt, kit'.cvstate.vars i = some p
  pendingCvstates : kit'.pendingCvstates = kit.pendingCvstates
  varCt : kit'.varCt = kit.varCt
  numAliasTypes : kit'.numAliasTypes = kit.numAliasTypes

/-- `make_label` and `bind` at the head of a loop -/
theorem bind_headed {kit kit' : IdealKit Val} {c : ℕ} (hctrl : kit.cvstate.ctrl = some c)
    (h : (kit.makeLabel 1).2.bind (kit.makeLabel 1).1 = some kit') : Headed kit kit' c := by
  let kit₀ := (kit.addNode (.region (List.replicate (1 + 1) none))).2
  let kit₁ := kit₀.enterRegion kit.size [some c, none]
  have hreg₁ : kit₁.node kit.size = .region [some c, none] := by simp [kit₁]
  have hold {n : ℕ} (hn : n < kit.size) : kit₁.node n = kit.node n := by
    simp [kit₁, kit₀, hn.ne]
  obtain ⟨kit₂, vars, heq, hadds, hvars⟩ :=
    @foldl_gotoVar_half _ kit₁ kit.size c (Nat.lt_succ_self _) hreg₁ kit.varCt
  have hfold : (List.range kit₀.varCt).foldl
      (gotoVar kit.size 0 (true && decide (0 ≠ [(none : Option ℕ), none].length - 1)))
      (kit₀.enterRegion kit.size ([none, none].set 0 kit₀.cvstate.ctrl),
        ⟨some kit.size, none, none, fun _ => none⟩) =
      (kit₂, ⟨some kit.size, none, none, vars⟩) := by
    change (List.range kit.varCt).foldl (gotoVar kit.size 0 true)
      (kit₀.enterRegion kit.size [kit.cvstate.ctrl, none], _) = _
    rw [hctrl]
    exact heq
  have hgoto : kit₀.goto_ ⟨some kit.size, none, none, fun _ => none⟩ true =
      some ({ kit₂ with cvstate := newCvstate },
        ⟨some kit.size, kit.cvstate.io, kit.cvstate.memory, vars⟩) := by
    rw [goto_eq true 0 rfl (by simp [kit₀, List.replicate]) rfl (by decide) hfold]
    simp only [doMemoryMerge, hadds.cvstate, if_true, Option.map_some]
    rfl
  change (kit₀.goto_ ⟨some kit.size, none, none, fun _ => none⟩ true).map _ = _ at h
  rw [hgoto] at h
  obtain rfl := Option.some.inj h
  have hle : kit.size + 1 ≤ kit₂.size := hadds.size_le
  exact {
    size_lt := hle
    node := fun n hn => (hadds.node n (hn.trans (Nat.lt_succ_self _))).trans (hold hn)
    node_region := (hadds.node _ (Nat.lt_succ_self _)).trans hreg₁
    new := fun n hn hn' => hadds.new n hn hn'
    ctrl := rfl
    io := rfl
    memory := rfl
    vars_none := hvars.none
    vars_some := hvars.some
    vars_rest := hvars.rest
    vars_inj := hvars.inj
    vars_all := hvars.all
    pendingCvstates := hadds.pendingCvstates
    varCt := hadds.varCt
    numAliasTypes := hadds.numAliasTypes }

/-- A variable at the head is a `Phi` with its value before. -/
theorem Headed.phi {kit kit' : IdealKit Val} {c i p : ℕ} (h : Headed kit kit' c)
    (hp : kit'.cvstate.vars i = some p) : i < kit.varCt ∧ ∃ m, kit.cvstate.vars i = some m ∧
      kit.size < p ∧ p < kit'.size ∧ kit'.node p = .phi kit.size [some m, none] := by
  rcases Nat.lt_or_ge i kit.varCt with hi | hi
  · cases hm : kit.cvstate.vars i with
    | none => cases (h.vars_none i hi hm).symm.trans hp
    | some m =>
      obtain ⟨p', hp', hlt⟩ := h.vars_some hi hm
      obtain rfl := Option.some.inj (hp'.symm.trans hp)
      exact ⟨hi, m, rfl, hlt⟩
  · cases (h.vars_rest i hi).symm.trans hp

/-- The kit at a head is well formed, though its region has one input. -/
theorem Headed.wellFormed {kit kit' : IdealKit Val} {c : ℕ} (h : Headed kit kit' c)
    (hkit : kit.WellFormed) : kit'.WellFormed where
  older := by
    intro n hn
    rcases Nat.lt_trichotomy n kit.size with hlt | rfl | hgt
    · rw [h.node n hlt]
      exact hkit.older n hlt
    · rw [h.node_region]
      trivial
    · exact (h.new n hgt hn).older
  cvstate := by
    have hlive := hkit.cvstate.mono h.size_lt.le
    rw [h.numAliasTypes]
    refine ⟨⟨_, h.ctrl, h.size_lt⟩, h.io ▸ hlive.io, h.memory ▸ hlive.memory, ?_⟩
    intro i p hp
    obtain ⟨-, m, -, -, hlt, -⟩ := h.phi hp
    exact hlt

/-- `kit'` is about to enter a loop, with the start of the loop variable. -/
structure Entering (kit kit' : IdealKit Val) (ctrl c iv init : ℕ) : Prop where
  size_le : kit.size ≤ kit'.size
  node : ∀ n < kit.size, kit'.node n = kit.node n
  new : ∀ n, kit.size ≤ n → n < kit'.size → kit'.node n = .predicate ctrl
  cvstate : kit'.cvstate = { kit.cvstate with
    ctrl := some c
    vars := Function.update kit.cvstate.vars iv (some init) }
  ctrl : c = ctrl ∧ kit'.size = kit.size ∨ c = kit.size ∧ kit'.size = kit.size + 1
  pendingCvstates : kit'.pendingCvstates = kit.pendingCvstates
  varCt : kit'.varCt = kit.varCt
  numAliasTypes : kit'.numAliasTypes = kit.numAliasTypes

/-- So is the kit when the loop is entered. -/
theorem Entering.wellFormed {kit kit' : IdealKit Val} {ctrl c iv init : ℕ}
    (h : Entering kit kit' ctrl c iv init) (hkit : kit.WellFormed)
    (hctrl : kit.cvstate.ctrl = some ctrl) (hinit : init < kit.size) : kit'.WellFormed where
  older := by
    intro n hn
    by_cases hlt : n < kit.size
    · rw [h.node n hlt]
      exact hkit.older n hlt
    · rw [h.new n (by omega) hn]
      trivial
  cvstate := by
    have hle := h.size_le
    have hlive := hkit.cvstate.mono hle
    obtain ⟨ctrl', hctrl', hlt⟩ := hlive.ctrl
    obtain rfl := Option.some.inj (hctrl.symm.trans hctrl')
    rw [h.cvstate, h.numAliasTypes]
    refine ⟨⟨c, rfl, ?_⟩, hlive.io, hlive.memory, ?_⟩
    · obtain ⟨rfl, -⟩ | ⟨rfl, hsize⟩ := h.ctrl
      · exact hlt
      · omega
    · intro v n hv
      simp only [Function.update_apply] at hv
      split at hv
      · cases hv
        exact hinit.trans_le hle
      · exact hlive.vars hv

section

variable {K : KitCompiler Val} {kit kit' : IdealKit Val}

/-- The empty predicates, and the start of the loop variable. -/
theorem addEmptyPredicates_entering (iv init : ℕ) {ctrl : ℕ} (hctrl : kit.cvstate.ctrl = some ctrl)
    (h : kit.addEmptyPredicates = some kit') :
    ∃ c, Entering kit (kit'.set iv (some init)) ctrl c iv init := by
  unfold addEmptyPredicates at h
  split at h
  · simp only [hctrl] at h
    obtain rfl := Option.some.inj h
    have hadds : Adds (fun _ x => x = .predicate ctrl) kit (kit.addNode (.predicate ctrl)).2 :=
      addNode_adds kit rfl
    exact ⟨kit.size, hadds.size_le, hadds.node, hadds.new, rfl, .inr ⟨rfl, rfl⟩, rfl, rfl, rfl⟩
  · obtain rfl := Option.some.inj h
    refine ⟨ctrl, le_refl _, fun _ _ => rfl, fun n hn hn' => absurd hn' (Nat.not_lt.mpr hn), ?_,
      .inl ⟨rfl, rfl⟩, rfl, rfl, rfl⟩
    simp only [set, hctrl]

/-- `loop` makes the head, and an `If` of the loop variable and the limit. -/
theorem loop_opened {iv init relop limit} (hkit : kit.WellFormed) (hinit : init < kit.size)
    (hlimit : limit < kit.size) (h : kit.loop K iv init relop limit = some kit') :
    ∃ kit₁ kit₂ ctrl c value bol iff, kit.cvstate.ctrl = some ctrl ∧
      Entering kit kit₁ ctrl c iv init ∧ Headed kit₁ kit₂ c ∧ kit₂.cvstate.vars iv = some value ∧
      Opened { kit₂ with pendingCvstates := kit₂.cvstate :: kit₂.pendingCvstates } kit' kit₁.size
        bol iff ∧
      ∀ {G ρ}, Agrees G kit' →
        K.holds (eval G ρ bol) = K.test false (eval G ρ value) relop (eval G ρ limit) := by
  obtain ⟨ctrl, hctrl, -⟩ := hkit.cvstate.ctrl
  unfold loop at h
  split at h
  · cases h
  next kit₀ hpredicate =>
  obtain ⟨c, hentering⟩ := addEmptyPredicates_entering iv init hctrl hpredicate
  have hkit₁ := hentering.wellFormed hkit hctrl hinit
  simp only at h
  split at h
  · cases h
  next kit₂ hbind =>
  have hheaded := bind_headed (by rw [hentering.cvstate]) hbind
  have hkit₂ := hheaded.wellFormed hkit₁
  split at h
  · cases h
  next value hvalue =>
  have hlt : limit < kit₂.size := (hlimit.trans_le hentering.size_le).trans hheaded.size_lt
  have hpushed : WellFormed
      { kit₂ with pendingCvstates := kit₂.cvstate :: kit₂.pendingCvstates } :=
    ⟨hkit₂.older, hkit₂.cvstate⟩
  obtain ⟨ctrl₂, bol, iff, hopen, htest⟩ :=
    ifThen_opened hpushed (hkit₂.cvstate.vars hvalue) hlt h
  obtain rfl := Option.some.inj (hheaded.ctrl.symm.trans hopen.ctrl)
  exact ⟨_, kit₂, ctrl, c, value, bol, iff, hctrl, hentering, hheaded, hvalue, hopen, htest⟩

end

/-! ## The end

At the end of the body the region has its second predecessor, and so the `Phi` of each variable its
second input. A variable that still has its `Phi` as the value is left without one, and a slice that
was stored to gets a `Phi` that nothing refers to; `endsWithHead` excludes both. -/

/-- The state at the end of a body is that of the head, but for new values of the variables that
have one at the head. -/
def endsWithHead (kit : IdealKit Val) (head : CvState) : Bool :=
  decide (∀ v < kit.varCt, (kit.cvstate.vars v).isSome = (head.vars v).isSome) &&
    decide (∀ v < kit.varCt, kit.cvstate.vars v = head.vars v → head.vars v = none) &&
    decide (∀ i < kit.numAliasTypes,
      (kit.cvstate.memory.map fun m => m i) = head.memory.map fun m => m i) &&
    decide (kit.cvstate.io = head.io)

/-- `kit'` has left a loop whose body ended in `kit`. -/
structure Closed (kit kit' : IdealKit Val) (head : CvState) (r c c₁ : ℕ) : Prop where
  size : kit'.size = kit.size
  node_region : kit'.node r = .region [some c, some c₁]
  node_phi : ∀ {i p m}, i < kit.varCt → head.vars i = some p → kit.node p = .phi r [some m, none] →
    ∃ m', kit.cvstate.vars i = some m' ∧ kit'.node p = .phi r [some m, some m']
  node : ∀ n, n ≠ r → (∀ i < kit.varCt, head.vars i ≠ some n) → kit'.node n = kit.node n
  varCt : kit'.varCt = kit.varCt
  numAliasTypes : kit'.numAliasTypes = kit.numAliasTypes

section

variable {kit : IdealKit Val} {head : CvState} {r c c₁ : ℕ}

/-- One variable at the end of a loop. -/
theorem gotoVar_closes {i : ℕ} (hsome : (kit.cvstate.vars i).isSome = (head.vars i).isSome)
    (hne : kit.cvstate.vars i = head.vars i → head.vars i = none)
    (hphi : ∀ p, head.vars i = some p → ∃ m, kit.node p = .phi r [some m, none]) :
    ∃ node, gotoVar r 1 false (kit, head) i = ({ kit with node := node }, head) ∧
      (∀ {p m}, head.vars i = some p → kit.node p = .phi r [some m, none] →
        ∃ m', kit.cvstate.vars i = some m' ∧ node p = .phi r [some m, some m']) ∧
      ∀ n, head.vars i ≠ some n → node n = kit.node n := by
  cases hl : head.vars i with
  | none =>
    rw [hl, Option.isSome_none] at hsome
    have hm := Option.not_isSome_iff_eq_none.mp (Bool.not_eq_true _ ▸ hsome)
    exact ⟨kit.node, by simp [gotoVar, hm], nofun, fun _ _ => rfl⟩
  | some p =>
    rw [hl, Option.isSome_some] at hsome
    obtain ⟨m', hm'⟩ := Option.isSome_iff_exists.mp hsome
    obtain ⟨m, hnode⟩ := hphi p hl
    have hne' : m' ≠ p := by
      rintro rfl
      cases hl.symm.trans (hne (hm'.trans hl.symm))
    refine ⟨Function.update kit.node p (.phi r [some m, some m']), ?_, ?_, ?_⟩
    · have hpromoted : kit.wasPromotedToPhi p r = true := by simp [wasPromotedToPhi, hnode]
      have hself : Function.update head.vars i (some p) = head.vars := by
        rw [← hl, Function.update_eq_self]
      simp [gotoVar, hm', hl, hne', mergeInto, hpromoted, setPhi, hnode, hself]
    · rintro p' m₀ ⟨⟩ hnode'
      obtain ⟨-, hins⟩ := KitNode.phi.inj (hnode.symm.trans hnode')
      obtain ⟨⟨rfl⟩, -⟩ := List.cons.inj hins
      exact ⟨m', hm', Function.update_self _ _ _⟩
    · intro n hn
      exact Function.update_of_ne (fun h => hn (congrArg some h.symm)) _ _

/-- The variables up to one. -/
theorem foldl_gotoVar_closes {k : ℕ}
    (hsome : ∀ i < k, (kit.cvstate.vars i).isSome = (head.vars i).isSome)
    (hne : ∀ i < k, kit.cvstate.vars i = head.vars i → head.vars i = none)
    (hphi : ∀ i < k, ∀ p, head.vars i = some p → ∃ m, kit.node p = .phi r [some m, none])
    (hinj : ∀ {i j p}, head.vars i = some p → head.vars j = some p → i = j) :
    ∃ node, (List.range k).foldl (gotoVar r 1 false) (kit, head) =
        ({ kit with node := node }, head) ∧
      (∀ {i p m}, i < k → head.vars i = some p → kit.node p = .phi r [some m, none] →
        ∃ m', kit.cvstate.vars i = some m' ∧ node p = .phi r [some m, some m']) ∧
      ∀ n, (∀ i < k, head.vars i ≠ some n) → node n = kit.node n := by
  induction k with
  | zero => exact ⟨kit.node, rfl, nofun, fun _ _ => rfl⟩
  | succ k ih =>
    obtain ⟨node, heq, hphis, hrest⟩ := ih (fun i hi => hsome i (by omega))
      (fun i hi => hne i (by omega)) (fun i hi => hphi i (by omega))
    -- the variables before have other Phis
    have hother {p : ℕ} (hp : head.vars k = some p) : node p = kit.node p := by
      refine hrest p fun i hi hpi => ?_
      have := hinj hpi hp
      omega
    obtain ⟨node₁, heq₁, hphis₁, hrest₁⟩ :=
      @gotoVar_closes _ { kit with node := node } head r k (hsome k (Nat.lt_succ_self k))
        (hne k (Nat.lt_succ_self k)) fun p hp =>
          (hphi k (Nat.lt_succ_self k) p hp).imp fun _ hnode => (hother hp).trans hnode
    refine ⟨node₁, ?_, ?_, ?_⟩
    · rw [List.range_succ, List.foldl_append, heq]
      exact heq₁
    · intro i p m hi hp hnode
      by_cases hik : i = k
      · subst hik
        exact hphis₁ hp ((hother hp).trans hnode)
      · obtain ⟨m', hm', hnode'⟩ := hphis (show i < k by omega) hp hnode
        refine ⟨m', hm', ?_⟩
        exact (hrest₁ p fun h => hik (hinj hp h)).trans hnode'
    · intro n hn
      exact (hrest₁ n (hn k (Nat.lt_succ_self k))).trans (hrest n fun i hi => hn i (by omega))

/-- Slices that are the same stay. -/
theorem foldl_mergeSlice_self {slot : ℕ} {merging join : ℕ → ℕ} {k : ℕ}
    (h : ∀ i < k, merging i = join i) :
    (List.range k).foldl (mergeSlice r slot merging) (kit, join) = (kit, join) := by
  induction k with
  | zero => rfl
  | succ k ih =>
    rw [List.range_succ, List.foldl_append, ih fun i hi => h i (by omega)]
    simp [mergeSlice, h k (Nat.lt_succ_self k)]

/-- `end_loop` fills the second predecessor in. -/
theorem endLoop_closed {kit' : IdealKit Val} {exit : CvState} {rest : List CvState} {l₀ : ℕ}
    {m₀ m₁ : ℕ → ℕ} (hpending : kit.pendingCvstates = exit :: head :: rest)
    (hctrl : head.ctrl = some r) (hreg : kit.node r = .region [some c, none])
    (hctrl₁ : kit.cvstate.ctrl = some c₁) (hio : head.io = some l₀) (hmem : head.memory = some m₀)
    (hmem₁ : kit.cvstate.memory = some m₁)
    (hphi : ∀ i p, head.vars i = some p → ∃ m, kit.node p = .phi r [some m, none])
    (hinj : ∀ {i j p}, head.vars i = some p → head.vars j = some p → i = j)
    (hends : kit.endsWithHead head = true) (h : kit.endLoop = some kit') :
    Closed kit kit' head r c c₁ ∧ kit'.cvstate = exit ∧ kit'.pendingCvstates = rest := by
  simp only [endsWithHead, Bool.and_eq_true, decide_eq_true_eq] at hends
  obtain ⟨⟨⟨hsome, hne⟩, hslices⟩, hsameio⟩ := hends
  have hsame : ∀ i < kit.numAliasTypes, m₁ i = m₀ i := by
    intro i hi
    simpa [hmem, hmem₁] using hslices i hi
  let kit₀ : IdealKit Val := { kit with pendingCvstates := rest }
  have hphi₀ : ∀ i < kit.varCt, ∀ p, head.vars i = some p →
      ∃ m, (kit₀.enterRegion r [some c, some c₁]).node p = .phi r [some m, none] := by
    intro i _ p hp
    obtain ⟨m, hnode⟩ := hphi i p hp
    refine ⟨m, ?_⟩
    rw [enterRegion_node, Function.update_of_ne]
    · exact hnode
    · rintro rfl
      cases hreg.symm.trans hnode
  obtain ⟨node, heq, hphis, hrest⟩ :=
    @foldl_gotoVar_closes _ (kit₀.enterRegion r [some c, some c₁]) head r kit.varCt hsome hne hphi₀
      hinj
  let kit₁ : IdealKit Val := { kit₀.enterRegion r [some c, some c₁] with node := node }
  have hreg₁ : kit₁.node r = .region [some c, some c₁] := by
    refine (hrest r fun i _ hi => ?_).trans (Function.update_self _ _ _)
    obtain ⟨m, hnode⟩ := hphi i r hi
    cases hreg.symm.trans hnode
  obtain ⟨slot, hslot, hlt⟩ : ∃ slot, (kit₁.regionIns r).findIdx
      (fun ctrl => decide (ctrl = kit₁.cvstate.ctrl)) = slot ∧
        slot ≠ (kit₁.regionIns r).length := by
    refine ⟨_, rfl, (List.findIdx_lt_length_of_exists ⟨some c₁, ?_, decide_eq_true ?_⟩).ne⟩
    · simp [regionIns, hreg₁]
    · exact hctrl₁.symm
  have hfold : (List.range kit.varCt).foldl
      (gotoVar r 1 (false && decide (1 ≠ [some c, (none : Option ℕ)].length - 1)))
      (kit₀.enterRegion r ([some c, none].set 1 kit₀.cvstate.ctrl), head) = (kit₁, head) := by
    rw [show kit₀.cvstate.ctrl = some c₁ from hctrl₁]
    exact heq
  have hmerge := @doMemoryMerge_eq _ kit₁ r head slot l₀ m₀ m₁ hio hmem hmem₁ hslot hlt _ _
    (foldl_mergeSlice_self hsame)
  have hgoto := @goto_eq _ kit₀ r head false 1 _ hctrl hreg (by simp [List.findIdx_cons])
    (by simp) _ _ hfold
  have hio₁ : mergeIo r slot kit₁.cvstate.io kit₁ { head with memory := some m₀ } =
      (kit₁, { head with memory := some m₀ }) := by
    have : kit₁.cvstate.io = some l₀ := hsameio.trans hio
    simp [mergeIo, hio, this]
  rw [hmerge, hio₁] at hgoto
  have hend : kit.endLoop = some { kit₁ with cvstate := exit } := by
    unfold endLoop
    rw [hpending]
    change (kit₀.goto_ head false).map _ = _
    rw [hgoto]
    rfl
  obtain rfl := Option.some.inj (h.symm.trans hend)
  refine ⟨⟨rfl, hreg₁, ?_, ?_, rfl, rfl⟩, rfl, rfl⟩
  · intro i p m hi hp hnode
    refine hphis hi hp ?_
    rw [enterRegion_node, Function.update_of_ne]
    · exact hnode
    · rintro rfl
      cases hreg.symm.trans hnode
  · intro n hn hvars
    refine (hrest n hvars).trans ?_
    rw [enterRegion_node, Function.update_of_ne hn]

end

end IdealKit

end StackAllocation
