import StackAllocation.IdealKitNodes

/-!
# Labels of a kit

What a jump to a label leaves in its cvstate and its region, for the second jump of an `end_if`
(`IdealKit.endIf_merged`), and for the two jumps to the head of a loop.
-/

namespace StackAllocation

variable {Val : Type}

namespace IdealKit

/-- A `Phi` of a region with two predecessors. -/
def IsJoin (r n : ℕ) (x : KitNode Val) : Prop := r < n ∧ ∃ l m, x = .phi r [some l, some m]

/-- A `Phi` of a merge has older inputs only. -/
theorem IsJoin.older {r n : ℕ} {x : KitNode Val} (h : IsJoin r n x) : x.Older n := by
  obtain ⟨hlt, l, m, rfl⟩ := h
  exact hlt

/-- On entry to the region from slot `k`, `n` has the value that `l` has there. -/
def EnteredAs (kit : IdealKit Val) (r k n l : ℕ) : Prop :=
  n = l ∨ n < kit.size ∧ ∃ ins, kit.node n = .phi r ins ∧ ins[k]? = some (some l)

/-- `res` merges the variables `t` and `e` of the two predecessors. -/
structure JoinsVar (kit : IdealKit Val) (r : ℕ) (t e res : Option ℕ) : Prop where
  first : ∀ {l}, t = some l → ∃ n, res = some n ∧ kit.EnteredAs r 0 n l
  second : ∀ {m}, e = some m → ∃ n, res = some n ∧ kit.EnteredAs r 1 n m
  lt : ∀ {n}, res = some n → n < kit.size

/-- `n` merges the nodes `l` and `m` of the two predecessors. -/
structure Joins (kit : IdealKit Val) (r l m n : ℕ) : Prop where
  first : kit.EnteredAs r 0 n l
  second : kit.EnteredAs r 1 n m
  lt : n < kit.size

section

variable {kit kit' : IdealKit Val} {P : ℕ → KitNode Val → Prop} {r k n l m : ℕ}

/-- What is entered as an input of a region stays so. -/
theorem EnteredAs.mono (h : kit.EnteredAs r k n l) (hadds : Adds P kit kit') :
    kit'.EnteredAs r k n l := by
  obtain rfl | ⟨hlt, ins, hn, hk⟩ := h
  · exact .inl rfl
  · exact .inr ⟨hlt.trans_le hadds.size_le, ins, (hadds.node n hlt).trans hn, hk⟩

/-- So does what is joined for a variable. -/
theorem JoinsVar.mono {t e res : Option ℕ} (h : kit.JoinsVar r t e res)
    (hadds : Adds P kit kit') : kit'.JoinsVar r t e res where
  first := fun ht => (h.first ht).imp fun _ hn => ⟨hn.1, hn.2.mono hadds⟩
  second := fun he => (h.second he).imp fun _ hn => ⟨hn.1, hn.2.mono hadds⟩
  lt := fun hn => (h.lt hn).trans_le hadds.size_le

/-- And what is joined at all. -/
theorem Joins.mono (h : kit.Joins r l m n) (hadds : Adds P kit kit') : kit'.Joins r l m n :=
  ⟨h.first.mono hadds, h.second.mono hadds, h.lt.trans_le hadds.size_le⟩

/-- What is the same on both sides needs no `Phi`. -/
theorem joins_self (hlt : n < kit.size) : kit.Joins r n n n := ⟨.inl rfl, .inl rfl, hlt⟩

/-- An older node is no `Phi` of the region. -/
theorem wasPromotedToPhi_of_lt (holder : ∀ n < kit.size, (kit.node n).Older n) (hlt : l < r)
    (hr : r < kit.size) : kit.wasPromotedToPhi l r = false := by
  unfold wasPromotedToPhi
  split
  · next reg ins heq =>
    have hold := holder l (hlt.trans hr)
    rw [heq] at hold
    have hold : reg < l := hold
    exact decide_eq_false (by omega)
  · rfl

/-- The merge of a second value makes a `Phi` of both. -/
theorem mergeInto_joins {c₀ c₁ : ℕ} (hr : r < kit.size)
    (hreg : kit.node r = .region [some c₀, some c₁]) (hl : kit.wasPromotedToPhi l r = false) :
    Adds (IsJoin r) kit (kit.mergeInto r 1 l m).2 ∧
      (kit.mergeInto r 1 l m).2.Joins r l m (kit.mergeInto r 1 l m).1 := by
  have heq : kit.mergeInto r 1 l m = kit.addNode (.phi r [some l, some m]) := by
    simp [mergeInto, hl, promoteToPhi, regionIns, hreg, setPhi, addNode]
  rw [heq]
  have hnode :
      (kit.addNode (.phi r [some l, some m])).2.node kit.size = .phi r [some l, some m] := by simp
  exact ⟨addNode_adds kit ⟨hr, l, m, rfl⟩,
    .inr ⟨Nat.lt_succ_self _, _, hnode, rfl⟩, .inr ⟨Nat.lt_succ_self _, _, hnode, rfl⟩,
    Nat.lt_succ_self _⟩

end

/-! ## The second predecessor of an `end_if`

Variables, slices and I/O are merged one after the other, each with its own loop. The invariant says
of those up to an index that they are merged and of the others that they are as they were; a `Phi`
that is made for one is newer than the values of the rest. -/

section

variable {kit : IdealKit Val} {r c₀ c₁ : ℕ}

/-- One variable. -/
theorem gotoVar_joins (lab : CvState) {i : ℕ} (hr : r < kit.size)
    (hreg : kit.node r = .region [some c₀, some c₁])
    (hlab : ∀ l, lab.vars i = some l → l < kit.size ∧ kit.wasPromotedToPhi l r = false)
    (hvar : ∀ m, kit.cvstate.vars i = some m → m < kit.size) :
    ∃ kit' res, gotoVar r 1 false (kit, lab) i =
        (kit', { lab with vars := Function.update lab.vars i res }) ∧
      Adds (IsJoin r) kit kit' ∧ kit'.JoinsVar r (lab.vars i) (kit.cvstate.vars i) res := by
  cases hm : kit.cvstate.vars i with
  | none =>
    refine ⟨kit, lab.vars i, ?_, Adds.refl _ _, fun hl => ⟨_, hl, .inl rfl⟩, nofun,
      fun hl => (hlab _ hl).1⟩
    simp [gotoVar, hm]
  | some m =>
    cases hl : lab.vars i with
    | none =>
      refine ⟨kit, some m, ?_, Adds.refl _ _, nofun, fun h => ⟨_, h, .inl rfl⟩, ?_⟩
      · simp [gotoVar, hm, hl]
      · rintro n ⟨⟩
        exact hvar _ hm
    | some l =>
      by_cases heq : m = l
      · subst heq
        refine ⟨kit, some m, ?_, Adds.refl _ _, fun h => ⟨_, h, .inl rfl⟩,
          fun h => ⟨_, h, .inl rfl⟩, ?_⟩
        · simp [gotoVar, hm, hl]
        · rintro n ⟨⟩
          exact hvar _ hm
      · obtain ⟨hadds, hjoin⟩ := mergeInto_joins (m := m) hr hreg (hlab l hl).2
        refine ⟨_, some (kit.mergeInto r 1 l m).1, ?_, hadds, ?_, ?_, ?_⟩
        · simp [gotoVar, hm, hl, heq]
        · rintro l' ⟨⟩
          exact ⟨_, rfl, hjoin.first⟩
        · rintro m' ⟨⟩
          exact ⟨_, rfl, hjoin.second⟩
        · rintro n ⟨⟩
          exact hjoin.lt

/-- The variables up to one. -/
theorem foldl_gotoVar_joins {lab : CvState} (holder : ∀ n < kit.size, (kit.node n).Older n)
    (hr : r < kit.size) (hreg : kit.node r = .region [some c₀, some c₁])
    (hlab : ∀ i l, lab.vars i = some l → l < r)
    (hvar : ∀ i m, kit.cvstate.vars i = some m → m < kit.size) (k : ℕ) :
    ∃ kit' vars, (List.range k).foldl (gotoVar r 1 false) (kit, lab) =
        (kit', { lab with vars := vars }) ∧
      Adds (IsJoin r) kit kit' ∧
      (∀ i < k, kit'.JoinsVar r (lab.vars i) (kit.cvstate.vars i) (vars i)) ∧
      ∀ i, k ≤ i → vars i = lab.vars i := by
  induction k with
  | zero => exact ⟨kit, lab.vars, rfl, Adds.refl _ _, nofun, fun _ _ => rfl⟩
  | succ k ih =>
    obtain ⟨kit₁, vars, heq, hadds, hjoins, hrest⟩ := ih
    have hreg₁ := (hadds.node r hr).trans hreg
    have hlab₁ : ∀ l, vars k = some l → l < kit₁.size ∧ kit₁.wasPromotedToPhi l r = false := by
      intro l hl
      rw [hrest k (le_refl k)] at hl
      have hlt := hlab k l hl
      refine ⟨by have := hadds.size_le; omega, ?_⟩
      have := wasPromotedToPhi_of_lt holder hlt hr
      rwa [wasPromotedToPhi, hadds.node l (hlt.trans hr)]
    have hvar₁ : ∀ m, kit₁.cvstate.vars k = some m → m < kit₁.size := by
      intro m hm
      rw [hadds.cvstate] at hm
      exact (hvar k m hm).trans_le hadds.size_le
    obtain ⟨kit₂, res, heq₂, hadds₂, hjoins₂⟩ :=
      gotoVar_joins { lab with vars := vars } (hr.trans_le hadds.size_le) hreg₁ hlab₁ hvar₁
    refine ⟨kit₂, Function.update vars k res, ?_, hadds.trans hadds₂, ?_, ?_⟩
    · rw [List.range_succ, List.foldl_append, heq]
      exact heq₂
    · intro i hi
      by_cases hik : i = k
      · subst hik
        rw [Function.update_self, ← hrest i (le_refl i), ← hadds.cvstate]
        exact hjoins₂
      · rw [Function.update_of_ne hik]
        exact (hjoins i (by omega)).mono hadds₂
    · intro i hi
      rw [Function.update_of_ne (by omega), hrest i (by omega)]

/-- The slices up to one. -/
theorem foldl_mergeSlice_joins (merging : ℕ → ℕ) {join : ℕ → ℕ} {k : ℕ}
    (holder : ∀ n < kit.size, (kit.node n).Older n) (hr : r < kit.size)
    (hreg : kit.node r = .region [some c₀, some c₁]) (hjoin : ∀ i < k, join i < r) :
    ∃ kit' m, (List.range k).foldl (mergeSlice r 1 merging) (kit, join) = (kit', m) ∧
      Adds (IsJoin r) kit kit' ∧ (∀ i < k, kit'.Joins r (join i) (merging i) (m i)) ∧
      ∀ i, k ≤ i → m i = join i := by
  induction k with
  | zero => exact ⟨kit, join, rfl, Adds.refl _ _, nofun, fun _ _ => rfl⟩
  | succ k ih =>
    obtain ⟨kit₁, m, heq, hadds, hjoins, hrest⟩ := ih fun i hi => hjoin i (by omega)
    have hmk := hrest k (le_refl k)
    have hlt := hjoin k (Nat.lt_succ_self k)
    have hfold : (List.range (k + 1)).foldl (mergeSlice r 1 merging) (kit, join) =
        mergeSlice r 1 merging (kit₁, m) k := by
      rw [List.range_succ, List.foldl_append, heq]
      rfl
    by_cases hne : join k = merging k
    · refine ⟨kit₁, m, ?_, hadds, ?_, fun i hi => hrest i (by omega)⟩
      · rw [hfold]
        simp [mergeSlice, hmk, hne]
      · intro i hi
        by_cases hik : i = k
        · subst hik
          rw [hmk, ← hne]
          exact joins_self (by have := hadds.size_le; omega)
        · exact hjoins i (by omega)
    · have hpromoted : kit₁.wasPromotedToPhi (join k) r = false := by
        have := wasPromotedToPhi_of_lt holder hlt hr
        rwa [wasPromotedToPhi, hadds.node _ (hlt.trans hr)]
      obtain ⟨hadds₂, hjoins₂⟩ :=
        mergeInto_joins (m := merging k) (hr.trans_le hadds.size_le) ((hadds.node r hr).trans hreg)
          hpromoted
      refine ⟨(kit₁.mergeInto r 1 (join k) (merging k)).2,
        Function.update m k (kit₁.mergeInto r 1 (join k) (merging k)).1, ?_, hadds.trans hadds₂,
        ?_, ?_⟩
      · rw [hfold]
        simp [mergeSlice, hmk, hne]
      · intro i hi
        by_cases hik : i = k
        · subst hik
          rw [Function.update_self]
          exact hjoins₂
        · rw [Function.update_of_ne hik]
          exact (hjoins i (by omega)).mono hadds₂
      · intro i hi
        rw [Function.update_of_ne (by omega), hrest i (by omega)]

/-- The I/O state. -/
theorem mergeIo_joins (m : ℕ) (join : CvState) {l : ℕ}
    (holder : ∀ n < kit.size, (kit.node n).Older n) (hr : r < kit.size)
    (hreg : kit.node r = .region [some c₀, some c₁]) (hio : join.io = some l)
    (hlt : l < r) :
    ∃ kit' n, mergeIo r 1 (some m) kit join = (kit', { join with io := some n }) ∧
      Adds (IsJoin r) kit kit' ∧ kit'.Joins r l m n := by
  by_cases heq : l = m
  · subst heq
    refine ⟨kit, l, ?_, Adds.refl _ _, joins_self (by omega)⟩
    obtain ⟨ctrl, io, memory, vars⟩ := join
    obtain rfl : io = some l := hio
    simp [mergeIo]
  · obtain ⟨hadds, hjoins⟩ :=
      mergeInto_joins (m := m) hr hreg (wasPromotedToPhi_of_lt holder hlt hr)
    exact ⟨_, _, by simp [mergeIo, hio, heq], hadds, hjoins⟩

/-! ## Jumps

A region that waits for its second predecessor has one empty slot, the next one. The two jumps to
the label of an `end_if` are described as a whole: after the first it has the current state, after
the second that of both branches. -/

/-- A kit that ends its current cvstate with a jump. -/
def enterRegion (kit : IdealKit Val) (r : ℕ) (ins : List (Option ℕ)) : IdealKit Val :=
  { kit with node := Function.update kit.node r (.region ins) }

/-- To enter a region sets its inputs. -/
@[simp]
theorem enterRegion_node (kit : IdealKit Val) (r : ℕ) (ins : List (Option ℕ)) :
    (kit.enterRegion r ins).node = Function.update kit.node r (.region ins) := rfl

variable {c : ℕ}

/-- `goto_`, when the next empty slot is known. -/
theorem goto_eq {lab : CvState} (bind : Bool) (slot : ℕ) {ins : List (Option ℕ)}
    (hlab : lab.ctrl = some r) (hreg : kit.node r = .region ins)
    (hslot : ins.findIdx (fun ctrl => decide (ctrl = none)) = slot) (hne : slot ≠ ins.length)
    {kit' : IdealKit Val} {lab' : CvState}
    (hfold : (List.range kit.varCt).foldl
      (gotoVar r slot (bind && decide (slot ≠ ins.length - 1)))
      (kit.enterRegion r (ins.set slot kit.cvstate.ctrl), lab) = (kit', lab')) :
    kit.goto_ lab bind =
      (kit'.doMemoryMerge lab' r).map fun x => ({ x.1 with cvstate := newCvstate }, x.2) := by
  have hins : kit.regionIns r = ins := by simp [regionIns, hreg]
  unfold goto_
  simp only [hlab, hins, hslot, if_neg hne]
  have hset : kit.setRegion r slot kit.cvstate.ctrl =
      kit.enterRegion r (ins.set slot kit.cvstate.ctrl) := by
    rw [setRegion, hins, enterRegion]
  have hvarCt : (kit.enterRegion r (ins.set slot kit.cvstate.ctrl)).varCt = kit.varCt := rfl
  rw [hset, hvarCt, hfold]

/-- The first jump to a label takes the cvstate over. -/
theorem goto_first (hctrl : kit.cvstate.ctrl = some c) (hreg : kit.node r = .region [none, none]) :
    kit.goto_ ⟨some r, none, none, fun _ => none⟩ false =
      some ({ kit.enterRegion r [some c, none] with cvstate := newCvstate },
        ⟨some r, kit.cvstate.io, kit.cvstate.memory,
          fun v => if v < kit.varCt then kit.cvstate.vars v else none⟩) := by
  have hfold (kit : IdealKit Val) (k : ℕ) :
      (List.range k).foldl (gotoVar r 0 false) (kit, ⟨some r, none, none, fun _ => none⟩) =
        (kit, ⟨some r, none, none, fun v => if v < k then kit.cvstate.vars v else none⟩) := by
    induction k with
    | zero => simp
    | succ k ih =>
      rw [List.range_succ, List.foldl_append, ih]
      cases hm : kit.cvstate.vars k with
      | none =>
        simp only [List.foldl_cons, List.foldl_nil, gotoVar, hm, Prod.mk.injEq, true_and,
          CvState.mk.injEq]
        funext v
        rcases Nat.lt_trichotomy v k with hlt | rfl | hgt
        · simp [hlt, hlt.trans (Nat.lt_succ_self k)]
        · simp [hm]
        · simp [show ¬v < k by omega, show ¬v < k + 1 by omega]
      | some m =>
        simp only [List.foldl_cons, List.foldl_nil, gotoVar, hm, lt_self_iff_false, if_false,
          Bool.false_eq_true, Prod.mk.injEq, true_and, CvState.mk.injEq]
        funext v
        rcases Nat.lt_trichotomy v k with hlt | rfl | hgt
        · simp [hlt, hlt.ne, hlt.trans (Nat.lt_succ_self k)]
        · simp [hm]
        · simp [show ¬v < k by omega, show ¬v < k + 1 by omega, show v ≠ k by omega]
  rw [goto_eq false 0 rfl hreg rfl (by decide) (hfold _ _), hctrl]
  simp [doMemoryMerge, enterRegion]

/-- `do_memory_merge`, of a label that has a state. -/
theorem doMemoryMerge_eq (lab : CvState) (slot : ℕ) {l₀ : ℕ} {m₀ m₁ : ℕ → ℕ}
    (hio : lab.io = some l₀) (hmem : lab.memory = some m₀) (hmem₁ : kit.cvstate.memory = some m₁)
    (hslot : (kit.regionIns r).findIdx (fun ctrl => decide (ctrl = kit.cvstate.ctrl)) = slot)
    (hne : slot ≠ (kit.regionIns r).length) {kit' : IdealKit Val} {m : ℕ → ℕ}
    (hfold : (List.range kit.numAliasTypes).foldl (mergeSlice r slot m₁) (kit, m₀) = (kit', m)) :
    kit.doMemoryMerge lab r =
      some (mergeIo r slot kit.cvstate.io kit' { lab with memory := some m }) := by
  obtain ⟨ctrl, io, memory, vars⟩ := lab
  obtain rfl : io = some l₀ := hio
  obtain rfl : memory = some m₀ := hmem
  unfold doMemoryMerge
  simp only [reduceCtorEq, if_false, hmem₁, hslot, if_neg hne, hfold]

/-- The second jump merges the cvstate into that of the label. -/
theorem goto_second {lab : CvState} {bind : Bool} {l₀ : ℕ} {m₀ m₁ : ℕ → ℕ} {n₁ : ℕ}
    (holder : ∀ n < kit.size, (kit.node n).Older n) (hr : r < kit.size)
    (hreg : kit.node r = .region [some c₀, none]) (hlabctrl : lab.ctrl = some r)
    (hctrl : kit.cvstate.ctrl = some c₁) (hne : c₁ ≠ c₀)
    (hlab : ∀ i l, lab.vars i = some l → l < r)
    (hvar : ∀ i m, kit.cvstate.vars i = some m → m < kit.size) (hio : lab.io = some l₀)
    (hlt : l₀ < r) (hio₁ : kit.cvstate.io = some n₁) (hmem : lab.memory = some m₀)
    (hmemlt : ∀ i < kit.numAliasTypes, m₀ i < r) (hmem₁ : kit.cvstate.memory = some m₁) :
    ∃ kit' vars m n, kit.goto_ lab bind =
        some ({ kit' with cvstate := newCvstate }, ⟨some r, some n, some m, vars⟩) ∧
      Adds (IsJoin r) (kit.enterRegion r [some c₀, some c₁]) kit' ∧
      (∀ i < kit.varCt, kit'.JoinsVar r (lab.vars i) (kit.cvstate.vars i) (vars i)) ∧
      (∀ i, kit.varCt ≤ i → vars i = lab.vars i) ∧
      (∀ i < kit.numAliasTypes, kit'.Joins r (m₀ i) (m₁ i) (m i)) ∧ kit'.Joins r l₀ n₁ n := by
  have hreg' : (kit.enterRegion r [some c₀, some c₁]).node r = .region [some c₀, some c₁] := by
    simp [enterRegion]
  have holder' : ∀ n < (kit.enterRegion r [some c₀, some c₁]).size,
      ((kit.enterRegion r [some c₀, some c₁]).node n).Older n := by
    intro n hn
    by_cases hnr : n = r
    · subst hnr
      rw [hreg']
      trivial
    · simp only [enterRegion, Function.update_of_ne hnr]
      exact holder n hn
  obtain ⟨kit₁, vars, heq₁, hadds₁, hjoins₁, hrest⟩ :=
    foldl_gotoVar_joins holder' hr hreg' hlab hvar kit.varCt
  have holder₁ := hadds₁.older (fun _ _ => IsJoin.older) holder'
  have hr₁ : r < kit₁.size := hr.trans_le hadds₁.size_le
  have hreg₁ := (hadds₁.node r hr).trans hreg'
  obtain ⟨kit₂, m, heq₂, hadds₂, hjoins₂, -⟩ :=
    foldl_mergeSlice_joins m₁ holder₁ hr₁ hreg₁ hmemlt
  have hadds₁₂ := hadds₁.trans hadds₂
  have holder₂ := hadds₂.older (fun _ _ => IsJoin.older) holder₁
  obtain ⟨kit₃, n, heq₃, hadds₃, hjoins₃⟩ := mergeIo_joins n₁
    { lab with memory := some m, vars := vars } holder₂ (hr₁.trans_le hadds₂.size_le)
    ((hadds₂.node r hr₁).trans hreg₁) hio hlt
  have hslot : (kit₁.regionIns r).findIdx (fun ctrl => decide (ctrl = kit₁.cvstate.ctrl)) = 1 := by
    have hins : kit₁.regionIns r = [some c₀, some c₁] := by simp [regionIns, hreg₁]
    rw [hins, hadds₁.cvstate]
    simp [enterRegion, hctrl, List.findIdx_cons, Ne.symm hne]
  have hmerge : kit₁.doMemoryMerge { lab with vars := vars } r =
      some (kit₃, ⟨some r, some n, some m, vars⟩) := by
    have hlen : (kit₁.regionIns r).length = 2 := by simp [regionIns, hreg₁]
    rw [doMemoryMerge_eq { lab with vars := vars } 1 hio hmem (hadds₁.cvstate ▸ hmem₁) hslot
      (by omega) (hadds₁.numAliasTypes ▸ heq₂), hadds₁.cvstate]
    change some (mergeIo r 1 kit.cvstate.io _ _) = _
    rw [hio₁, heq₃, hlabctrl]
  refine ⟨kit₃, vars, m, n, ?_, hadds₁₂.trans hadds₃, ?_, hrest, ?_, hjoins₃⟩
  · have hfold : (List.range kit.varCt).foldl
        (gotoVar r 1 (bind && decide (1 ≠ [some c₀, none].length - 1)))
        (kit.enterRegion r ([some c₀, none].set 1 kit.cvstate.ctrl), lab) =
        (kit₁, { lab with vars := vars }) := by
      simpa [hctrl] using heq₁
    rw [goto_eq bind 1 hlabctrl hreg rfl (by simp) hfold, hmerge]
    rfl
  · exact fun i hi => (hjoins₁ i hi).mono (hadds₂.trans hadds₃)
  · exact fun i hi => (hjoins₂ i hi).mono hadds₃

end

/-- What `end_if` makes of the current cvstate and the one on the stack. -/
structure Merged (kit kit' : IdealKit Val) (other : CvState) (c₀ c₁ : ℕ) : Prop where
  size_lt : kit.size < kit'.size
  node : ∀ n < kit.size, kit'.node n = kit.node n
  node_region : kit'.node kit.size = .region [some c₀, some c₁]
  new : ∀ n, kit.size < n → n < kit'.size → IsJoin kit.size n (kit'.node n)
  ctrl : kit'.cvstate.ctrl = some kit.size
  vars : ∀ i < kit.varCt,
    kit'.JoinsVar kit.size (kit.cvstate.vars i) (other.vars i) (kit'.cvstate.vars i)
  vars_eq_none : ∀ i, kit.varCt ≤ i → kit'.cvstate.vars i = none
  memory : ∃ m₀ m₁ m, kit.cvstate.memory = some m₀ ∧ other.memory = some m₁ ∧
    kit'.cvstate.memory = some m ∧ ∀ i < kit.numAliasTypes, kit'.Joins kit.size (m₀ i) (m₁ i) (m i)
  io : ∃ l m n, kit.cvstate.io = some l ∧ other.io = some m ∧ kit'.cvstate.io = some n ∧
    kit'.Joins kit.size l m n
  varCt : kit'.varCt = kit.varCt
  numAliasTypes : kit'.numAliasTypes = kit.numAliasTypes

/-- `end_if` joins the branch that was put aside with the one that ends: each variable and slice
that differs gets a `Phi`. -/
theorem endIf_merged {kit kit' : IdealKit Val} {other : CvState} {rest : List CvState} {c₀ c₁ : ℕ}
    (hkit : kit.WellFormed) (hpending : kit.pendingCvstates = other :: rest)
    (hother : other.Live kit.numAliasTypes kit.size) (hctrl : kit.cvstate.ctrl = some c₀)
    (hctrl₁ : other.ctrl = some c₁) (hne : c₁ ≠ c₀) (h : kit.endIf = some kit') :
    Merged kit kit' other c₀ c₁ ∧ kit'.pendingCvstates = rest := by
  obtain ⟨l₀, hio, hlt⟩ := hkit.cvstate.io
  obtain ⟨m₀, hmem, hmemlt⟩ := hkit.cvstate.memory
  obtain ⟨l₁, hio₁, hlt₁⟩ := hother.io
  obtain ⟨m₁, hmem₁, hmemlt₁⟩ := hother.memory
  let kit₀ := (kit.addNode (.region (List.replicate (1 + 1) none))).2
  have hreg₀ : kit₀.node kit.size = .region [none, none] := by simp [kit₀, List.replicate]
  have hfirst := @goto_first _ kit₀ kit.size c₀ hctrl hreg₀
  let kit₁ : IdealKit Val :=
    { kit₀.enterRegion kit.size [some c₀, none] with cvstate := other, pendingCvstates := rest }
  have hreg₁ : kit₁.node kit.size = .region [some c₀, none] := by simp [kit₁, enterRegion]
  have hold {n : ℕ} (hn : n < kit.size) : kit₁.node n = kit.node n := by
    simp [kit₁, kit₀, enterRegion, hn.ne]
  have holder₁ : ∀ n < kit₁.size, (kit₁.node n).Older n := by
    intro n hn
    obtain hn | rfl := Nat.lt_succ_iff_lt_or_eq.mp hn
    · rw [hold hn]
      exact hkit.older n hn
    · rw [hreg₁]
      trivial
  have hlab : ∀ i l, (if i < kit.varCt then kit.cvstate.vars i else none) = some l →
      l < kit.size := by
    intro i l hl
    split at hl
    · exact hkit.cvstate.vars hl
    · cases hl
  have hvar : ∀ i m, kit₁.cvstate.vars i = some m → m < kit₁.size :=
    fun i m hm => (hother.vars hm).trans (Nat.lt_succ_self _)
  obtain ⟨kit₂, vars, m, n, hsecond, hadds, hvars, hrest, hslices, hjoinio⟩ :=
    @goto_second _ kit₁ kit.size c₀ c₁ ⟨some kit.size, kit.cvstate.io, kit.cvstate.memory,
      fun v => if v < kit.varCt then kit.cvstate.vars v else none⟩ true l₀ m₀ m₁ l₁ holder₁
      (Nat.lt_succ_self _) hreg₁ rfl hctrl₁ hne hlab hvar hio hlt hio₁ hmem hmemlt hmem₁
  have heq : kit.endIf = some { kit₂ with cvstate := ⟨some kit.size, some n, some m, vars⟩ } := by
    have hlabel : kit.makeLabel 1 = (⟨some kit.size, none, none, fun _ => none⟩, kit₀) := rfl
    have hpending₀ : kit₀.pendingCvstates = other :: rest := hpending
    rw [endIf, hlabel]
    dsimp only
    rw [hfirst]
    simp only [enterRegion, hpending₀]
    change (kit₁.goto_ ⟨some kit.size, kit.cvstate.io, kit.cvstate.memory,
      fun v => if v < kit.varCt then kit.cvstate.vars v else none⟩ true).map _ = _
    rw [hsecond]
    rfl
  obtain rfl := Option.some.inj (h.symm.trans heq)
  have hlt₂ : kit.size < kit₂.size := (Nat.lt_succ_self _).trans_le hadds.size_le
  have hnode {n : ℕ} (hn : n < kit.size + 1) :
      kit₂.node n = (kit₁.enterRegion kit.size [some c₀, some c₁]).node n := hadds.node n hn
  refine ⟨{
    size_lt := hlt₂
    node := ?_
    node_region := ?_
    new := fun n hn hn' => hadds.new n hn hn'
    ctrl := rfl
    vars := ?_
    vars_eq_none := ?_
    memory := ⟨m₀, m₁, m, hmem, hmem₁, rfl, fun i hi => ?_⟩
    io := ⟨l₀, l₁, n, hio, hio₁, rfl, ?_⟩
    varCt := hadds.varCt
    numAliasTypes := hadds.numAliasTypes }, hadds.pendingCvstates⟩
  · intro n hn
    change kit₂.node n = _
    rw [hnode (by omega), enterRegion_node, Function.update_of_ne hn.ne, hold hn]
  · change kit₂.node kit.size = _
    rw [hnode (by omega), enterRegion_node, Function.update_self]
  · intro i hi
    have := hvars i hi
    simp only [if_pos hi] at this
    exact ⟨this.first, this.second, this.lt⟩
  · intro i hi
    change vars i = none
    exact (hrest i hi).trans (if_neg (by omega))
  · have := hslices i hi
    exact ⟨this.first, this.second, this.lt⟩
  · exact ⟨hjoinio.first, hjoinio.second, hjoinio.lt⟩

end IdealKit

end StackAllocation
