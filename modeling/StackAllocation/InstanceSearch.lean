import StackAllocation.MemorySplitting

/-!
# The search for the memory of an instance is sound and ends

Each of the four functions keeps the invariant and returns what holds of the instance what it was
given, by induction on how deep they go (`search_good`). That they end goes by the number of `Phi`s
that are left to split and, as long as none is split, up the memory (`Above`).
-/

namespace StackAllocation

open Dominance

namespace SliceFlow

variable {G : SliceGraph} {F : SliceFlow G} {S S' : SplitState} {a n m id : ℕ}
  {out : Option ℕ × SplitState}

/-! ## What is returned

Each of the four functions has a lemma for one turn, which takes the results of the calls in it as
hypotheses. The invariant is kept by the calls; what they return holds of the instance what the
given state holds. The induction on the depth then has nothing to do but to apply these. -/

/-- What a search from a later state returns is good for the earlier one, if it is kept for the node
that the earlier search started at. -/
theorem Good.lift (h : F.Good S' a m out) (hpost : F.Post S S' a)
    (hk : ∀ x, F.Kept out.2 a m x → F.Kept out.2 a n x) : F.Good S a n out := by
  obtain hfail | ⟨x, hx, hpost', hkept, hfinal⟩ := h
  · exact .inl hfail
  · exact .inr ⟨x, hx, hpost.trans hpost', hk x hkept, hfinal⟩

section Round

variable (hF : F.Splitting) (hid : G.instanceOf a = some id) {fuel : ℕ}
  (hfind : ∀ S n out, F.Inv S → F.IsState a n → G.findInstMem a fuel (some n) S = some out →
    F.Good S a n out)
  (hloop : ∀ S n out, F.Inv S → F.IsState a n → G.findLoop a fuel n S = some out → F.Good S a n out)
  (hsplit : ∀ S n r k inputs out, F.Inv S → F.IsState a n → G.node n = .phi r k inputs →
    G.splitMemoryPhi a fuel n S = some out → F.Good S a n out)
  (hfill : ∀ S₀ S phi r k inputs idx out, F.Filling a S₀ S phi r k inputs idx → F.IsState a phi →
    G.node phi = .phi r k inputs →
    G.splitLoop a fuel phi idx (G.size + S₀.phis.length) [] S = some out → F.Good S₀ a phi out)

include hid in
/-- The loop of `find_inst_mem` returns the state where it stands, when nothing more can be gone
past. -/
theorem findLoop_of_final (hS : F.Inv S) (hk : F.Kept S a n m) (hf : Final G S a m)
    (h : G.findLoop a fuel m S = some out) : F.Good S a n out := by
  cases fuel with
  | zero =>
    rw [SliceGraph.findLoop] at h
    cases h
  | succ fuel =>
    rw [findLoop_final hid hf fuel] at h
    cases h
    exact .inr ⟨m, rfl, .refl hS, hk, hf⟩

/-- What a step goes past does not clear an unknown part of the slice. -/
theorem not_clearsUnknown_of_step {step : FindStep} (hs : F.IsState a n)
    (hstep : G.findStep S a n = step) (hne : step ≠ .stop) : ¬ ClearsUnknown G n :=
  not_clearsUnknown hs (hstep ▸ hne)

include hF hid hfind in
/-- A turn at a node with several slices: the search goes on in the general one, and the result is
set for the instance. -/
theorem findLoop_general {m : ℕ} (hS : F.Inv S) (hs : F.IsState a n)
    (hstep : G.findStep S a n = .general m) (h : G.findLoop a (fuel + 1) n S = some out) :
    F.Good S a n out := by
  rw [SliceGraph.findLoop, hstep] at h
  obtain ⟨base, slices, hn, hbase, hq⟩ := findStep_general hF hS hid hs hstep
  have hunknown := not_clearsUnknown_of_step hs hstep FindStep.noConfusion
  have hpost : F.Post S (S.pass n m) a := .pass hS ⟨hs, .quiet (.single hq) .refl, hunknown⟩
  dsimp only at h
  split at h
  · cases h
  · next T hsearch =>
    cases h
    obtain ⟨hfail, -⟩ | ⟨x, hx, -⟩ := hfind _ m _ hpost.inv (hq.state hs) hsearch
    · exact .inl ⟨hfail, rfl⟩
    · cases hx
  · next result T hsearch =>
    obtain ⟨-, hnone⟩ | ⟨x, hx, hpost', hk, hf⟩ := hfind _ m _ hpost.inv (hq.state hs) hsearch
    · cases hnone
    · cases hx
      split at h
      · next hfail =>
        cases h
        exact .inl ⟨hfail, rfl⟩
      · have hkept : F.Kept T a n result := .quiet (.single hq) hk
        have hset : F.Post T (T.setMemoryAt n a result) a :=
          .setMemoryAt hpost'.inv hs hid hn hbase hkept hf
        have hgood : F.Good (T.setMemoryAt n a result) a n out :=
          findLoop_of_final hid hset.inv (hkept.mono hset.keys) (hf.mono hset.keys) h
        exact hgood.lift ((hpost.trans hpost').trans hset) fun x hx => hx

include hid hsplit in
/-- A turn at which the loop stops: at a `Phi` of another slice, which is split, or else with the node
where it stands. -/
theorem findLoop_stop (hS : F.Inv S) (hs : F.IsState a n) (hstep : G.findStep S a n = .stop)
    (h : G.findLoop a (fuel + 1) n S = some out) : F.Good S a n out := by
  rw [SliceGraph.findLoop, hstep] at h
  have hfinal : (∀ r k inputs, G.node n = .phi r k inputs → k = a) → Final G S a n :=
    fun hown => .inr ⟨F.state_lt a n hs, fun _ => findStep_stop hid hs hstep, hown⟩
  dsimp only at h
  cases hidx : G.phiIdx S n with
  | none =>
    rw [hidx] at h
    cases h
    refine .inr ⟨n, rfl, .refl hS, .refl, hfinal fun r k inputs hn => ?_⟩
    rw [(phiIdx_state (F.state_lt a n hs)).2 ⟨r, inputs, hn⟩] at hidx
    cases hidx
  | some k =>
    rw [hidx] at h
    obtain ⟨r, inputs, hn⟩ := (phiIdx_state (F.state_lt a n hs)).1 hidx
    simp only [hid, Option.isNone_some, Bool.false_eq_true, if_false] at h
    split at h
    · next hk =>
      cases h
      subst hk
      exact .inr ⟨n, rfl, .refl hS, .refl, final_own hn⟩
    · exact hsplit S n r k inputs out hS hs hn h

include hF hid hfind hloop hsplit in
/-- One turn of the loop, with the result of the recursive calls: it stands at a quiet node before,
at the result of a `Phi`, or returns. -/
theorem findLoop_round (hS : F.Inv S) (hs : F.IsState a n)
    (h : G.findLoop a (fuel + 1) n S = some out) : F.Good S a n out := by
  cases hstep : G.findStep S a n with
  | next m =>
    rw [SliceGraph.findLoop, hstep] at h
    have hunknown := not_clearsUnknown_of_step hs hstep FindStep.noConfusion
    obtain hq | ⟨hk, hf⟩ := findStep_next hF hS hid hs hstep
    · have hpost : F.Post S (S.pass n m) a := .pass hS ⟨hs, .quiet hq .refl, hunknown⟩
      refine Good.lift (hloop _ m out hpost.inv (quiet_state hq hs) h) hpost fun x hx => ?_
      exact .quiet hq hx
    · have hpost : F.Post S (S.pass n m) a := .pass hS ⟨hs, hk, hunknown⟩
      have hgood : F.Good (S.pass n m) a n out :=
        findLoop_of_final hid hpost.inv (hk.mono hpost.keys) (hf.mono hpost.keys) h
      exact hgood.lift hpost fun x hx => hx
  | unique m =>
    rw [SliceGraph.findLoop, hstep] at h
    obtain ⟨r, k, inputs, hn, hu⟩ := findStep_unique hid hs hstep
    have hunknown := not_clearsUnknown_of_step hs hstep FindStep.noConfusion
    have hpost : F.Post S (S.pass n m) a := .pass hS ⟨hs, .unique hn hu .refl, hunknown⟩
    have hpost' : F.Post S ((S.pass n m).appendOrig n) a := hpost.trans (.appendOrig hpost.inv n)
    refine Good.lift (hloop _ m out hpost'.inv (unique_state hn hu hs) h) hpost' fun x hx => ?_
    exact .unique hn hu hx
  | general m => exact findLoop_general hF hid hfind hS hs hstep h
  | stop => exact findLoop_stop hid hsplit hS hs hstep h

include hfill in
/-- A `Phi` that is split: the one that was made for it before, its only input, or a new one that is
filled. -/
theorem splitMemoryPhi_round {r k : ℕ} {inputs : List (Option ℕ)} (hS : F.Inv S)
    (hs : F.IsState a n) (hn : G.node n = .phi r k inputs)
    (h : G.splitMemoryPhi a (fuel + 1) n S = some out) : F.Good S a n out := by
  rw [SliceGraph.splitMemoryPhi] at h
  cases hcreate : G.createSplitPhi S a n with
  | found q =>
    rw [hcreate] at h
    cases h
    obtain ⟨hk, hf⟩ := createSplitPhi_found hs hn hS hcreate
    exact .inr ⟨q, rfl, .refl hS, hk, hf⟩
  | created N T =>
    rw [hcreate] at h
    obtain ⟨-, rfl, -, rfl⟩ := createSplitPhi_created hs hn hcreate
    exact hfill S _ n r k inputs 0 out (.create hS hs hn) hs hn h
  | failed T =>
    rw [hcreate] at h
    cases h
    exact .inl ⟨createSplitPhi_failed hs hn hcreate, rfl⟩

include hfind hfill in
/-- The loop over the inputs of a new `Phi`. It keeps what is filled already (`Filling`), whatever
the recursive search for an input makes besides. -/
theorem splitLoop_round {S₀ : SplitState} {phi r k idx : ℕ} {inputs : List (Option ℕ)}
    (hS : F.Filling a S₀ S phi r k inputs idx) (hs : F.IsState a phi)
    (hn : G.node phi = .phi r k inputs)
    (h : G.splitLoop a (fuel + 1) phi idx (G.size + S₀.phis.length) [] S = some out) :
    F.Good S₀ a phi out := by
  have hinputs : G.phiInputs S phi = inputs := by rw [SliceGraph.phiInputs, nodeIn_state hs, hn]
  rw [SliceGraph.splitLoop, hinputs] at h
  cases hi : inputs[idx]? with
  | none =>
    rw [hi] at h
    cases h
    exact hS.good hn (List.getElem?_eq_none_iff.1 hi)
  | some input =>
    rw [hi] at h
    dsimp only at h
    cases input with
    | none =>
      cases fuel with
      | zero =>
        rw [SliceGraph.findInstMem] at h
        cases h
      | succ fuel =>
        simp only [SliceGraph.findInstMem, hS.inv.failing, Bool.false_eq_true, if_false] at h
        exact hfill S₀ _ phi r k inputs (idx + 1) out (hS.setInput hi .none) hs hn h
    | some i =>
      have hstate : F.IsState a i :=
        F.state_input a phi r k inputs i hs hn (List.mem_of_getElem? hi)
      split at h
      · cases h
      · next T hsearch =>
        obtain ⟨hfail, -⟩ | ⟨x, hx, -⟩ := hfind S i _ hS.inv hstate hsearch
        · rw [if_pos hfail] at h
          cases h
          exact .inl ⟨hfail, rfl⟩
        · cases hx
      · next mem T hsearch =>
        obtain ⟨-, hnone⟩ | ⟨x, hx, hpost, hk, hf⟩ := hfind S i _ hS.inv hstate hsearch
        · cases hnone
        · cases hx
          have hfailing : T.failing = false := hpost.inv.failing
          simp only [splitInput_final hf, hfailing, Bool.false_eq_true, if_false] at h
          exact hfill S₀ _ phi r k inputs (idx + 1) out ((hS.search hpost).setInput hi (.some hk))
            hs hn h

end Round

/-- The four functions, by how deep they go. -/
theorem search_good (hF : F.Splitting) (hid : G.instanceOf a = some id) (fuel : ℕ) :
    (∀ S n out, F.Inv S → F.IsState a n → G.findInstMem a fuel (some n) S = some out →
      F.Good S a n out) ∧
    (∀ S n out, F.Inv S → F.IsState a n → G.findLoop a fuel n S = some out → F.Good S a n out) ∧
    (∀ S n r k inputs out, F.Inv S → F.IsState a n → G.node n = .phi r k inputs →
      G.splitMemoryPhi a fuel n S = some out → F.Good S a n out) ∧
    ∀ S₀ S phi r k inputs idx out, F.Filling a S₀ S phi r k inputs idx → F.IsState a phi →
      G.node phi = .phi r k inputs →
      G.splitLoop a fuel phi idx (G.size + S₀.phis.length) [] S = some out →
      F.Good S₀ a phi out := by
  induction fuel with
  | zero =>
    refine ⟨?_, ?_, ?_, ?_⟩
    · intro S n out _ _ h
      rw [SliceGraph.findInstMem] at h
      cases h
    · intro S n out _ _ h
      rw [SliceGraph.findLoop] at h
      cases h
    · intro S n r k inputs out _ _ _ h
      rw [SliceGraph.splitMemoryPhi] at h
      cases h
    · intro S₀ S phi r k inputs idx out _ _ _ h
      rw [SliceGraph.splitLoop] at h
      cases h
  | succ fuel ih =>
    obtain ⟨hfind, hloop, hsplit, hfill⟩ := ih
    refine ⟨?_, ?_, ?_, ?_⟩
    · intro S n out hS hs h
      rw [SliceGraph.findInstMem] at h
      exact hloop S n out hS hs h
    · exact fun S n out hS hs h => findLoop_round hF hid hfind hloop hsplit hS hs h
    · exact fun S n r k inputs out hS hs hn h => splitMemoryPhi_round hfill hS hs hn h
    · exact fun S₀ S phi r k inputs idx out hS hs hn h =>
        splitLoop_round hfind hfill hS hs hn h

/-- What `find_inst_mem` returns. -/
theorem findInstMem_good (hF : F.Splitting) (hid : G.instanceOf a = some id) (hS : F.Inv S)
    (hs : F.IsState a n) {fuel : ℕ} (h : G.findInstMem a fuel (some n) S = some out) :
    F.Good S a n out := (search_good hF hid fuel).1 S n out hS hs h

/-! ## The search ends

A measure for the recursion is the number of `Phi`s that are not split for this alias index;
`split_memory_phi` starts by splitting one. A search that splits none goes up the memory, and the
order of the states it passes is well founded because a node dominates what it is the memory of. -/

/-- Deep enough, a function returns always the same. -/
def Ends (f : ℕ → Option (Option ℕ × SplitState)) : Prop :=
  ∃ depth out, ∀ fuel, depth ≤ fuel → f fuel = some out

/-- A search ends if the next turn of it does. -/
theorem Ends.of_succ {f g : ℕ → Option (Option ℕ × SplitState)} (h : Ends g)
    (heq : ∀ fuel, f (fuel + 1) = g fuel) : Ends f := by
  obtain ⟨depth, out, hg⟩ := h
  refine ⟨depth + 1, out, fun fuel hle => ?_⟩
  obtain ⟨fuel, rfl⟩ : ∃ k, fuel = k + 1 := ⟨fuel - 1, by omega⟩
  rw [heq]
  exact hg fuel (Nat.le_of_succ_le_succ hle)

/-- A search that returns at once ends. -/
theorem ends_of_eq {f : ℕ → Option (Option ℕ × SplitState)} (result : Option ℕ × SplitState)
    (h : ∀ fuel, f (fuel + 1) = some result) : Ends f := by
  refine ⟨1, result, fun fuel hle => ?_⟩
  obtain ⟨fuel, rfl⟩ : ∃ k, fuel = k + 1 := ⟨fuel - 1, by omega⟩
  exact h fuel

/-- A function that calls another first. -/
theorem Ends.bind {f g : ℕ → Option (Option ℕ × SplitState)}
    {k : Option ℕ × SplitState → ℕ → Option (Option ℕ × SplitState)} (h : Ends g)
    (heq : ∀ fuel out, g fuel = some out → f (fuel + 1) = k out fuel)
    (hk : ∀ out, (∃ fuel, g fuel = some out) → Ends (k out)) : Ends f := by
  obtain ⟨depth, out, hg⟩ := h
  obtain ⟨depth', out', hk'⟩ := hk out ⟨depth, hg depth (Nat.le_refl _)⟩
  refine ⟨max depth depth' + 1, out', fun fuel hle => ?_⟩
  obtain ⟨fuel, rfl⟩ : ∃ k, fuel = k + 1 := ⟨fuel - 1, by omega⟩
  rw [heq fuel out (hg fuel (by omega))]
  exact hk' fuel (by omega)

open Classical in
/-- The `Phi`s that were not split for the alias index. -/
noncomputable def unsplit (G : SliceGraph) (S : SplitState) (a : ℕ) : Finset ℕ :=
  (Finset.range G.size).filter fun n => ¬ SplitFor G S a n

/-- The memory `Phi`s for which none of the slice has been made. -/
theorem mem_unsplit : n ∈ unsplit G S a ↔ n < G.size ∧ ¬ SplitFor G S a n := by
  classical rw [unsplit, Finset.mem_filter, Finset.mem_range]

/-- No entry of `mapPhi` is taken back, so there are never more of them. -/
theorem unsplit_mono (hkeys : Keys S S') (hmap : ∀ n, S.mapPhi n ≠ none → S'.mapPhi n ≠ none) :
    unsplit G S' a ⊆ unsplit G S a := by
  intro n hn
  rw [mem_unsplit] at hn ⊢
  exact ⟨hn.1, fun h => hn.2 (h.mono hkeys hmap)⟩

/-- A search leaves no more `Phi`s to be split than it found. -/
theorem Post.unsplit_le (h : F.Post S S' a) : (unsplit G S' a).card ≤ (unsplit G S a).card :=
  Finset.card_le_card (unsplit_mono h.keys h.mapPhi)

/-- A `Phi` that is being filled is split already. This is what makes the recursion over cyclic
`Phi`s end. -/
theorem Filling.unsplit_lt {S₀ : SplitState} {phi r k idx : ℕ} {inputs : List (Option ℕ)}
    (h : F.Filling a S₀ S phi r k inputs idx) (hs : F.IsState a phi)
    (hnew : ¬ SplitFor G S₀ a phi) :
    (unsplit G S a).card < (unsplit G S₀ a).card := by
  refine Finset.card_lt_card ⟨unsplit_mono (.of_keep h.keep) h.mapPhi, fun hle => ?_⟩
  have hmem := hle (mem_unsplit.2 ⟨F.state_lt a phi hs, hnew⟩)
  exact (mem_unsplit.1 hmem).2 h.split

variable (F) (a) in
/-- `m` is further up the memory: a node that dominates makes it, or it is further up in the same
node. -/
def Above (m n : ℕ) : Prop :=
  Prod.Lex (· < ·) (· < ·) (distance F.flow F.start (F.defAt m), F.rank m)
    (distance F.flow F.start (F.defAt n), F.rank n)

/-- A state cannot be above itself: with the same `Phi`s left, the steps of a search go up the
dominator tree. -/
theorem above_wf : WellFounded F.Above :=
  InvImage.wf (fun n => (distance F.flow F.start (F.defAt n), F.rank n))
    (WellFounded.prod_lex Nat.lt_wfRel.wf Nat.lt_wfRel.wf)

/-- Past a node that does not write the slice. -/
theorem quiet_above (h : Relation.TransGen (F.Quiet a) n m) (hs : F.IsState a n) : F.Above m n := by
  have hdom := quiet_dominates h hs
  by_cases heq : F.defAt m = F.defAt n
  · rw [Above, heq]
    exact .right _ (quiet_rank h hs)
  · obtain ⟨l, hrun⟩ := F.state_reached a n hs
    exact .left _ _ (hdom.distance_lt heq hrun)

/-- To the only input of a `Phi` that has no other. -/
theorem unique_above {r k : ℕ} {inputs : List (Option ℕ)} (hn : G.node n = .phi r k inputs)
    (hu : G.uniqueInput n = some m) (hs : F.IsState a n) : F.Above m n := by
  obtain ⟨l, hrun⟩ := F.state_reached a n hs
  have hdef := (F.defAt_phi n r k inputs hn).1
  refine .left _ _ ?_
  rw [hdef] at hrun ⊢
  exact (unique_dominates hn hu).distance_lt (unique_ne hn hu hs) hrun

section Ends

variable (hF : F.Splitting) (hid : G.instanceOf a = some id)
include hF hid

/-- `split_memory_phi` fills a `Phi`, if the searches end. -/
theorem splitLoop_ends {count : ℕ}
    (hsearch : ∀ S n, F.Inv S → (unsplit G S a).card ≤ count → F.IsState a n →
      Ends fun fuel => G.findInstMem a fuel (some n) S)
    {S₀ : SplitState} {phi r k : ℕ} {inputs : List (Option ℕ)} (hs : F.IsState a phi)
    (hn : G.node phi = .phi r k inputs) (left idx : ℕ) (hleft : inputs.length - idx = left)
    (hS : F.Filling a S₀ S phi r k inputs idx) (hcount : (unsplit G S a).card ≤ count) :
    Ends fun fuel => G.splitLoop a fuel phi idx (G.size + S₀.phis.length) [] S := by
  have hinputs : ∀ S, G.phiInputs S phi = inputs := fun S => by
    rw [SliceGraph.phiInputs, nodeIn_state hs, hn]
  induction left generalizing idx S with
  | zero =>
    refine ends_of_eq (some (G.size + S₀.phis.length), S) fun fuel => ?_
    rw [SliceGraph.splitLoop, hinputs, List.getElem?_eq_none (by omega)]
  | succ left ih =>
    have hlt : idx < inputs.length := by omega
    have hi := List.getElem?_eq_getElem hlt
    have hstep : ∀ {T : SplitState} {i mem : Option ℕ}, F.Filling a S₀ T phi r k inputs idx →
        (unsplit G T a).card ≤ count → inputs[idx]? = some i → Option.Rel (F.Kept T a) i mem →
        Ends fun fuel => G.splitLoop a fuel phi (idx + 1) (G.size + S₀.phis.length) []
          (G.setInput T (G.size + S₀.phis.length) idx mem) := by
      intro T i mem hT hcountT hi hrel
      refine ih (idx + 1) (by omega) (hT.setInput hi hrel) ?_
      exact (Finset.card_le_card (unsplit_mono (keys_setInput _ _ _) fun _ h => h)).trans hcountT
    cases hinput : inputs[idx] with
    | none =>
      rw [hinput] at hi
      refine Ends.bind (ends_of_eq (none, S) fun _ => ?_) (fun fuel out hsearch => ?_)
        (fun _ _ => hstep hS hcount hi .none) (g := fun fuel => G.findInstMem a fuel none S)
      · rw [SliceGraph.findInstMem]
      · cases fuel with
        | zero =>
          rw [SliceGraph.findInstMem] at hsearch
          cases hsearch
        | succ fuel =>
          rw [SliceGraph.splitLoop, hinputs, hi]
          simp only [SliceGraph.findInstMem, hS.inv.failing, Bool.false_eq_true, if_false]
    | some i =>
      rw [hinput] at hi
      have hstate : F.IsState a i :=
        F.state_input a phi r k inputs i hs hn (List.mem_of_getElem? hi)
      refine Ends.bind (hsearch S i hS.inv hcount hstate) (fun fuel out hout => ?_)
        (fun out hout => ?_)
        (k := fun out fuel => if out.2.failing then some (none, out.2) else
          G.splitLoop a fuel phi (idx + 1) (G.size + S₀.phis.length) []
            (G.setInput out.2 (G.size + S₀.phis.length) idx out.1))
      · rw [SliceGraph.splitLoop, hinputs, hi]
        dsimp only
        rw [hout]
        obtain ⟨mem, T⟩ := out
        obtain ⟨hfail, hnone⟩ | ⟨x, hx, hpost, hk, hf⟩ := findInstMem_good hF hid hS.inv hstate hout
        · cases hnone
          rfl
        · cases hx
          dsimp only
          rw [splitInput_final hf]
      · obtain ⟨fuel, hout⟩ := hout
        obtain ⟨mem, T⟩ := out
        obtain ⟨hfail, -⟩ | ⟨x, hx, hpost, hk, -⟩ := findInstMem_good hF hid hS.inv hstate hout
        · exact ⟨0, _, fun _ _ => if_pos hfail⟩
        · cases hx
          have hfailing : T.failing = false := hpost.inv.failing
          simp only [hfailing, Bool.false_eq_true, if_false]
          exact hstep (hS.search hpost) (hpost.unsplit_le.trans hcount) hi (.some hk)

omit hF in
/-- The loop of `find_inst_mem` ends at a state where it cannot go on. -/
theorem findLoop_ends_of_final (hf : Final G S a n) : Ends fun fuel => G.findLoop a fuel n S :=
  ends_of_eq _ fun fuel => findLoop_final hid hf fuel

/-- A turn at a node with several slices ends, if the search in the general one does. -/
theorem findLoop_ends_general {m : ℕ} (hS : F.Inv S) (hs : F.IsState a n)
    (hstep : G.findStep S a n = .general m)
    (hloop : Ends fun fuel => G.findLoop a fuel m (S.pass n m)) :
    Ends fun fuel => G.findLoop a fuel n S := by
  obtain ⟨base, slices, hn, hbase, hq⟩ := findStep_general hF hS hid hs hstep
  have hgeneral : Ends fun fuel => G.findInstMem a fuel (some m) (S.pass n m) := by
    refine hloop.of_succ fun fuel => ?_
    rw [SliceGraph.findInstMem]
  refine hgeneral.bind (fun fuel out hout => ?_) (fun out hout => ?_)
    (k := fun out fuel => out.1.elim (some (none, out.2)) fun result =>
      if out.2.failing then some (none, out.2)
      else G.findLoop a fuel result (out.2.setMemoryAt n a result))
  · rw [SliceGraph.findLoop, hstep]
    dsimp only
    rw [hout]
    obtain ⟨result, T⟩ := out
    cases result <;> rfl
  · obtain ⟨fuel, hout⟩ := hout
    obtain ⟨result, T⟩ := out
    cases result with
    | none => exact ⟨0, _, fun _ _ => rfl⟩
    | some result =>
      obtain ⟨-, hnone⟩ | ⟨x, hx, hpost, -, hf⟩ :=
        findInstMem_good hF hid (hS.pass n m) (hq.state hs) hout
      · cases hnone
      · cases hx
        have hfailing : T.failing = false := hpost.inv.failing
        simp only [hfailing, Bool.false_eq_true, if_false]
        exact findLoop_ends_of_final hid (hf.mono .refl)

/-- A `Phi` is split to the end: if a new one is made, there is one less left for the searches in its
inputs. -/
theorem splitMemoryPhi_ends {count : ℕ}
    (hfewer : ∀ S n, F.Inv S → (unsplit G S a).card < count → F.IsState a n →
      Ends fun fuel => G.findInstMem a fuel (some n) S)
    {r k : ℕ} {inputs : List (Option ℕ)} (hS : F.Inv S) (hcount : (unsplit G S a).card ≤ count)
    (hs : F.IsState a n) (hn : G.node n = .phi r k inputs) :
    Ends fun fuel => G.splitMemoryPhi a fuel n S := by
  cases hcreate : G.createSplitPhi S a n with
  | found q =>
    refine ends_of_eq (some q, S) fun fuel => ?_
    rw [SliceGraph.splitMemoryPhi, hcreate]
  | failed T =>
    refine ends_of_eq (none, T) fun fuel => ?_
    rw [SliceGraph.splitMemoryPhi, hcreate]
  | created N T =>
    have hcreated := createSplitPhi_created hs hn hcreate
    obtain ⟨-, rfl, hnew, rfl⟩ := hcreated
    have hfill := Filling.create hS hs hn
    have hlt := hfill.unsplit_lt hs hnew
    have hloop := splitLoop_ends hF hid
      (fun S n hS hle hs => hfewer S n hS (hle.trans_lt (hlt.trans_le hcount)) hs) hs hn
      inputs.length 0 (Nat.sub_zero _) hfill (Nat.le_refl _)
    refine hloop.of_succ fun fuel => ?_
    rw [SliceGraph.splitMemoryPhi, hcreate]

/-- The loop of `find_inst_mem` ends, if the searches end with fewer `Phi`s left. -/
theorem findLoop_ends {count : ℕ}
    (hfewer : ∀ S n, F.Inv S → (unsplit G S a).card < count → F.IsState a n →
      Ends fun fuel => G.findInstMem a fuel (some n) S)
    (hS : F.Inv S) (hcount : (unsplit G S a).card ≤ count) (hs : F.IsState a n) :
    Ends fun fuel => G.findLoop a fuel n S := by
  induction n using F.above_wf.induction generalizing S with
  | _ n ih =>
    cases hstep : G.findStep S a n with
    | next m =>
      have hnext : Ends fun fuel => G.findLoop a fuel m (S.pass n m) := by
        obtain hq | ⟨-, hf⟩ := findStep_next hF hS hid hs hstep
        · exact ih m (quiet_above hq hs) (hS.pass n m) hcount (quiet_state hq hs)
        · exact findLoop_ends_of_final hid (hf.mono .refl)
      refine hnext.of_succ fun fuel => ?_
      rw [SliceGraph.findLoop, hstep]
    | unique m =>
      obtain ⟨r, k, inputs, hn, hu⟩ := findStep_unique hid hs hstep
      have hnext : Ends fun fuel => G.findLoop a fuel m ((S.pass n m).appendOrig n) :=
        ih m (unique_above hn hu hs) ((hS.pass n m).appendOrig n) hcount (unique_state hn hu hs)
      refine hnext.of_succ fun fuel => ?_
      rw [SliceGraph.findLoop, hstep]
    | general m =>
      obtain ⟨base, slices, hn, hbase, hq⟩ := findStep_general hF hS hid hs hstep
      have hsingle : Relation.TransGen (F.Quiet a) n m := .single hq
      exact findLoop_ends_general hF hid hS hs hstep
        (ih m (quiet_above hsingle hs) (hS.pass n m) hcount (hq.state hs))
    | stop =>
      cases hidx : G.phiIdx S n with
      | none =>
        refine ends_of_eq (some n, S) fun fuel => ?_
        rw [SliceGraph.findLoop, hstep]
        simp only [hidx]
      | some k =>
        by_cases hk : k = a
        · refine ends_of_eq (some n, S) fun fuel => ?_
          rw [SliceGraph.findLoop, hstep]
          simp only [hidx, hid, Option.isNone_some, Bool.false_eq_true, if_false, if_pos hk]
        · obtain ⟨r, inputs, hn⟩ := (phiIdx_state (F.state_lt a n hs)).1 hidx
          refine (splitMemoryPhi_ends hF hid hfewer hS hcount hs hn).of_succ fun fuel => ?_
          rw [SliceGraph.findLoop, hstep]
          simp only [hidx, hid, Option.isNone_some, Bool.false_eq_true, if_false, if_neg hk]

/-- `find_inst_mem` returns. -/
theorem findInstMem_ends (hS : F.Inv S) (hs : F.IsState a n) :
    Ends fun fuel => G.findInstMem a fuel (some n) S := by
  induction hcount : (unsplit G S a).card using Nat.strong_induction_on generalizing S n with
  | _ count ih =>
    have hloop := findLoop_ends hF hid (fun S n hS hlt hs => ih _ hlt hS hs rfl) hS hcount.le hs
    refine hloop.of_succ fun fuel => ?_
    rw [SliceGraph.findInstMem]

end Ends

/-! ## `optimize_simple_memory_chain`

What it goes past does not write the slice, so it ends with a state of the same contents. The walk
goes up the same order as the search. -/

variable (F) in
/-- After the slices were split, a `MergeMem` has of an alias index what `transform` leads to. -/
def Separated (transform : ℕ → ℕ) (a : ℕ) : Prop :=
  ∀ n base slices, G.node n = .mergeMem base slices → G.stepThroughMergemem transform a n ≠ n →
    F.mergeSlice n a = G.stepThroughMergemem transform a n

section Chain

variable {Q : ChainQuery} {transform : ℕ → ℕ} (hF : F.Separated transform Q.aliasIdx)
  (hid : G.instanceOf Q.aliasIdx = some Q.instanceId) (hQ : Q.isInstance = true)

include hid hQ in
/-- `optimize_simple_memory_chain` goes past a projection only where nothing is written to the
slice. -/
theorem quiet_chainProj {p : ℕ} (hn : G.node n = .proj p) (h : G.chainProj Q p = some m) :
    F.Quiet Q.aliasIdx n m := by
  unfold SliceGraph.chainProj at h
  split at h
  · next hp =>
    split at h
    · cases h
    · next hne =>
      cases h
      exact quiet_allocate hid hn hp hne
  · next hp =>
    split at h
    · cases h
    · next hne =>
      cases h
      exact quiet_call hn hp hne
  · cases h
  · next b memory hp =>
    rw [hQ, Bool.true_or, if_pos rfl] at h
    split at h
    · cases h
    · next hne =>
      cases h
      exact quiet_initialize hid hn hp fun heq => hne (Option.some.inj heq)
  · next hp =>
    split at h
    · cases h
    · next hne =>
      cases h
      exact quiet_memBar hn hp fun hbar => absurd hbar hne
  · cases h

include hF hid hQ in
/-- A step of the walk. -/
theorem quiet_chainStep (hs : F.IsState Q.aliasIdx n) (h : G.chainStep Q transform n = some m) :
    Relation.TransGen (F.Quiet Q.aliasIdx) n m ∧ ¬ ClearsUnknown G n := by
  unfold SliceGraph.chainStep at h
  split at h
  · cases h
  · split at h
    · next p hn =>
      refine ⟨.single (quiet_chainProj hid hQ hn h), ?_⟩
      rintro ⟨dest, memory, hn', -⟩
      rw [hn] at hn'
      cases hn'
    · next dest memory hn =>
      refine ⟨quiet_stepThrough hid hs hn h, ?_⟩
      rintro ⟨dest', memory', hn', hunknown⟩
      rw [hn] at hn'
      cases hn'
      rw [SliceGraph.stepThrough, hunknown] at h
      cases h
    · next base slices hn =>
      split at h
      · cases h
      · next hne =>
        cases h
        refine ⟨.single ⟨?_, fun x _ => ?_⟩, ?_⟩
        · rw [SliceGraph.memoryOf, hn]
          exact congrArg some (hF n base slices hn hne)
        · rw [SliceGraph.writer, hn]
          exact F.mergeMem_writes n base slices x hn
        · rintro ⟨dest, memory, hn', -⟩
          rw [hn] at hn'
          cases hn'
    · cases h

include hF hid hQ in
/-- The walk ends, and holds what it began with. -/
theorem chainLoop_kept (hs : F.IsState Q.aliasIdx n) :
    ∃ depth r, (∀ fuel, depth ≤ fuel → G.chainLoop Q transform fuel n = some r) ∧
      F.Kept S Q.aliasIdx n r.1 ∧ ∀ e ∈ r.2, F.PassedOver S Q.aliasIdx e.1 e.2 := by
  induction n using F.above_wf.induction with
  | _ n ih =>
    cases hstep : G.chainStep Q transform n with
    | none =>
      refine ⟨1, (n, []), fun fuel hle => ?_, .refl, fun e he => absurd he List.not_mem_nil⟩
      obtain ⟨fuel, rfl⟩ : ∃ k, fuel = k + 1 := ⟨fuel - 1, by omega⟩
      rw [SliceGraph.chainLoop, hstep]
    | some m =>
      obtain ⟨hq, hunknown⟩ := quiet_chainStep hF hid hQ hs hstep
      obtain ⟨depth, r, hloop, hk, hpassed⟩ := ih m (quiet_above hq hs) (quiet_state hq hs)
      refine ⟨depth + 1, (r.1, (n, m) :: r.2), fun fuel hle => ?_, .quiet hq hk, fun e he => ?_⟩
      · obtain ⟨fuel, rfl⟩ : ∃ k, fuel = k + 1 := ⟨fuel - 1, by omega⟩
        rw [SliceGraph.chainLoop, hstep]
        simp only [hloop fuel (Nat.le_of_succ_le_succ hle), Option.map_some]
      · obtain rfl | he := List.mem_cons.1 he
        · exact ⟨hs, .quiet hq .refl, hunknown⟩
        · exact hpassed e he

end Chain

/-! ## In every execution

Contents are compared in every execution in which the node has a state. What was shown of one search
holds of any number of them, one after the other, as each keeps the invariant and leaves the graph
closed. -/

variable (F) (S) in
/-- In every execution `m` is there where `n` is, and holds of the alias index what `n` holds. -/
def SameContents (a n m : ℕ) : Prop :=
  ∀ p l s, F.Exec S (p :: l) s → F.Available S n p →
    F.Available S m p ∧ ∀ x, F.idxOf x = a → s n x = s m x

/-- What is kept has the same contents in every execution. -/
theorem Kept.sameContents (hS : F.Closed S) (h : F.Kept S a n m) (hs : F.IsState a n) :
    F.SameContents S a n m := fun _ _ _ hexec hp =>
  ⟨kept_available h hs hp, fun _ hx => contents_kept hS hexec h hs hp hx⟩

variable (F) in
/-- The states that searches for the memory of instances lead to, one after another. -/
inductive Reached : SplitState → Prop
  | initial : Reached .initial
  | search {S : SplitState} {a id n fuel : ℕ} {out : Option ℕ × SplitState} (h : Reached S)
    (hid : G.instanceOf a = some id) (hs : F.IsState a n)
    (hout : G.findInstMem a fuel (some n) S = some out) (hfailing : out.2.failing = false) :
    Reached out.2

/-- A search leaves a closed graph closed: each new `Phi` has an input for each of the old one. -/
theorem Post.closed (h : F.Post S S' a) (hS : F.Closed S) : F.Closed S' := by
  intro i φ hi
  refine ⟨(h.inv.phis i φ hi).1, ?_⟩
  by_cases hlt : i < S.phis.length
  · have hφ := List.getElem?_eq_getElem hlt
    obtain rfl := Option.some.inj ((h.keep i _ hφ).symm.trans hi)
    exact (hS i _ hφ).2.mono h.keys
  · exact h.made i φ (Nat.le_of_not_lt hlt) hi

/-- Before the first search there are no new `Phi`s. -/
theorem inv_initial : F.Inv .initial :=
  ⟨nofun, nofun, nofun, rfl⟩

/-- The invariant holds after every number of searches. -/
theorem Reached.inv (hF : F.Splitting) (h : F.Reached S) : F.Inv S ∧ F.Closed S := by
  induction h with
  | initial => exact ⟨inv_initial, nofun⟩
  | search _ hid hs hout hfailing ih =>
    obtain ⟨hfail, -⟩ | ⟨m, -, hpost, -⟩ := findInstMem_good hF hid ih.1 hs hout
    · rw [hfailing] at hfail
      cases hfail
    · exact ⟨hpost.inv, hpost.closed ih.2⟩

variable (F) (S) in
/-- `find_inst_mem` returns, unless the compilation fails, a memory state that holds of the instance
what the given one holds. So do the inputs of the `Phi`s that it makes and the memory that it sets
of a `MergeMem`, and it goes past what does not touch the instance, and past no `ClearArray` whose
allocation is not known. -/
def FindsInstance (a n : ℕ) : Prop :=
  ∃ depth result S', (∀ fuel, depth ≤ fuel → G.findInstMem a fuel (some n) S = some (result, S')) ∧
    (S'.failing = true ∧ result = none ∨
      ∃ m, result = some m ∧ F.SameContents S' a n m ∧ (ClearsUnknown G n → m = n) ∧
        (∀ (i : ℕ) φ, S.phis.length ≤ i → S'.phis[i]? = some φ →
          ∃ k inputs, G.node φ.orig = .phi φ.region k inputs ∧
            List.Forall₂ (Option.Rel (F.SameContents S' φ.aliasIdx)) inputs φ.inputs) ∧
        (∀ n b m, S'.slots n b = some m → F.SameContents S' b n m) ∧
        ∀ e ∈ S'.passed, e ∈ S.passed ∨ F.SameContents S' a e.1 e.2 ∧ ¬ ClearsUnknown G e.1)

variable (F) in
/-- `optimize_simple_memory_chain` returns a memory state that holds of the instance what the given
one holds, and goes past what does not touch it. -/
def WalksInstance (Q : ChainQuery) (transform : ℕ → ℕ) (n : ℕ) : Prop :=
  ∃ depth m passed,
    (∀ fuel, depth ≤ fuel → G.optimizeSimpleMemoryChain Q transform fuel n = some (m, passed)) ∧
    F.SameContents .initial Q.aliasIdx n m ∧
    ∀ e ∈ passed, F.SameContents .initial Q.aliasIdx e.1 e.2 ∧ ¬ ClearsUnknown G e.1

/-- Each search of `split_unique_types` ends and finds a state with the same contents of the
instance. -/
theorem findsInstance (hF : F.Splitting) (hS : F.Reached S) (hid : G.instanceOf a = some id)
    (hs : F.IsState a n) : F.FindsInstance S a n := by
  obtain ⟨hinv, hclosed⟩ := hS.inv hF
  obtain ⟨depth, ⟨result, S'⟩, hends⟩ := findInstMem_ends hF hid hinv hs
  have hout := hends depth (Nat.le_refl _)
  refine ⟨depth, result, S', hends, ?_⟩
  obtain hfail | ⟨m, hm, hpost, hk, -⟩ := findInstMem_good hF hid hinv hs hout
  · exact .inl hfail
  · have hclosed' : F.Closed S' := hpost.closed hclosed
    refine .inr ⟨m, hm, hk.sameContents hclosed' hs, fun hunknown => ?_, fun i φ hle hi => ?_,
      fun n b m hslot => ?_, fun e he => ?_⟩
    · have hfinal : Final G S a n := by
        refine .inr ⟨F.state_lt a n hs, fun _ => findStep_clearsUnknown hs hunknown, ?_⟩
        obtain ⟨dest, memory, hn, -⟩ := hunknown
        intro r k inputs hn'
        rw [hn] at hn'
        cases hn'
      have hmore := hends (depth + 2) (by omega)
      dsimp only at hmore
      rw [SliceGraph.findInstMem, findLoop_final hid hfinal depth] at hmore
      cases hmore
      exact (Option.some.inj hm).symm
    · obtain ⟨hstate, k, inputs, hphi, hlength, hinputs⟩ := hclosed' i φ hi
      refine ⟨k, inputs, hphi, ?_⟩
      refine List.forall₂_iff_get.2 ⟨hlength.symm, fun j hj hj' => ?_⟩
      have hrel : Option.Rel (F.Kept S' φ.aliasIdx) inputs[j] φ.inputs[j] :=
        hinputs j _ _ (List.getElem?_eq_getElem hj) (List.getElem?_eq_getElem hj')
      have hmem := List.getElem_mem hj
      simp only [List.get_eq_getElem]
      generalize inputs[j] = i₁ at hrel hmem ⊢
      generalize φ.inputs[j] = i₂ at hrel ⊢
      cases hrel with
      | some hk =>
        exact .some (hk.sameContents hclosed' (F.state_input _ _ _ _ _ _ hstate hphi hmem))
      | none => exact .none
    · obtain ⟨hstate, -, hk', -⟩ := hpost.inv.slots n b m hslot
      exact hk'.sameContents hclosed' hstate
    · obtain he | ⟨hstate, hk', hunknown⟩ := hpost.passed e he
      · exact .inl he
      · exact .inr ⟨hk'.sameContents hclosed' hstate, hunknown⟩

/-- So does each walk of `optimize_memory_chain` over the memory of an instance. -/
theorem walksInstance {Q : ChainQuery} {transform : ℕ → ℕ}
    (hF : F.Separated transform Q.aliasIdx) (hid : G.instanceOf Q.aliasIdx = some Q.instanceId)
    (hQ : Q.isInstance = true) (hs : F.IsState Q.aliasIdx n) : F.WalksInstance Q transform n := by
  have hclosed : F.Closed .initial := nofun
  obtain ⟨depth, r, hloop, hk, hpassed⟩ := chainLoop_kept (S := .initial) hF hid hQ hs
  refine ⟨depth, r.1, r.2, fun fuel hle => ?_, hk.sameContents hclosed hs, fun e he => ?_⟩
  · rw [SliceGraph.optimizeSimpleMemoryChain, hQ, Bool.true_or, if_pos rfl]
    exact hloop fuel hle
  · obtain ⟨hstate, hk', hunknown⟩ := hpassed e he
    exact ⟨hk'.sameContents hclosed hstate, hunknown⟩

/-- Finding and splitting the memory of an instance, and walking up the memory that is split. -/
theorem findsInstance_walksInstance {G G' : SliceGraph} {F : SliceFlow G} {F' : SliceFlow G'}
    {S : SplitState} {a id n m : ℕ} {Q : ChainQuery} {transform : ℕ → ℕ} (hF : F.Splitting)
    (hS : F.Reached S) (hid : G.instanceOf a = some id) (hs : F.IsState a n)
    (hF' : F'.Separated transform Q.aliasIdx)
    (hid' : G'.instanceOf Q.aliasIdx = some Q.instanceId) (hQ : Q.isInstance = true)
    (hs' : F'.IsState Q.aliasIdx m) : F.FindsInstance S a n ∧ F'.WalksInstance Q transform m :=
  ⟨findsInstance hF hS hid hs, walksInstance hF' hid' hQ hs'⟩

end SliceFlow

/-! ## A loop

A loop whose memory `Phi` is of the general slice. The search splits it and comes back to it through
the body, where it takes the `Phi` that it has just made. -/

/-- A loop that stores to another object (4) and calls a method (5, 6), with a `Phi` of the general
slice (3); alias index 2 is of the allocation 9. -/
def loopGraph : SliceGraph where
  node
    | 0 => .proj 1
    | 3 => .phi 2 1 [some 0, some 6]
    | 4 => .mem (some 1) false 3
    | 5 => .call 4
    | 6 => .proj 5
    | _ => .other
  size := 7
  node_ge := fun n h => by
    split
    all_goals first | rfl | exact absurd h (by decide)
  startMem := 0
  instanceOf a := if a = 2 then some 9 else none
  generalIdx _ := 1
  anyOffset _ := false
  mayModify _ _ := false
  memBarMayModify _ _ := false
  idealAllocation _ := none
  initialization _ := none
  uniqueInput _ := none
  regionPhis r := if r = 2 then [3] else []
  liveNodes := 7
  maxNodeLimit := 100
  nodeLimitFudgeFactor := 10

/-- The nodes of the graph of the loop. -/
theorem node_loopGraph {n : ℕ} {x : MemoryNode} (h : loopGraph.node n = x) :
    n = 0 ∧ x = .proj 1 ∨ n = 3 ∧ x = .phi 2 1 [some 0, some 6] ∨
      n = 4 ∧ x = .mem (some 1) false 3 ∨
      n = 5 ∧ x = .call 4 ∨ n = 6 ∧ x = .proj 5 ∨ x = .other := by
  subst h
  unfold loopGraph
  dsimp only
  split <;> simp

/-- It has one memory `Phi`. -/
theorem phi_loopGraph {n r k : ℕ} {inputs : List (Option ℕ)}
    (h : loopGraph.node n = .phi r k inputs) :
    n = 3 ∧ r = 2 ∧ k = 1 ∧ inputs = [some 0, some 6] := by
  obtain ⟨-, h⟩ | ⟨rfl, h⟩ | ⟨-, h⟩ | ⟨-, h⟩ | ⟨-, h⟩ | h := node_loopGraph h <;> cases h
  exact ⟨rfl, rfl, rfl, rfl⟩

/-- And two nodes that have a memory state as an input. -/
theorem memory_loopGraph {mergeSlice : ℕ → ℕ → ℕ} {a n m : ℕ}
    (h : loopGraph.memoryOf mergeSlice a n = some m) : n = 4 ∧ m = 3 ∨ n = 6 ∧ m = 4 := by
  unfold SliceGraph.memoryOf at h
  obtain ⟨-, hn⟩ | ⟨-, hn⟩ | ⟨rfl, hn⟩ | ⟨-, hn⟩ | ⟨rfl, hn⟩ | hn :=
    node_loopGraph (n := n) rfl <;> rw [hn] at h <;> cases h
  · exact .inl ⟨rfl, rfl⟩
  · exact .inr ⟨rfl, rfl⟩

/-- The entry (0), the head of the loop (2) and its body (5). -/
inductive LoopEdge : ℕ → ℕ → Prop
  | enter : LoopEdge 0 2
  | body : LoopEdge 2 5
  | back : LoopEdge 5 2

/-- Every way into the body goes through the head. -/
theorem head_dominates_body : Dominates LoopEdge 0 2 5 := by
  intro l h
  cases h with
  | step h hbc =>
    cases hbc
    exact List.mem_cons_of_mem _ List.mem_cons_self

def loopFlow : SliceFlow loopGraph where
  flow := LoopEdge
  start := 0
  defAt n := if n = 3 then 2 else if n = 0 then 0 else 5
  preds _ := [0, 5]
  rank n := n
  Cell := ℕ
  Val := ℕ
  idxOf x := x
  writes n x := n = 4 ∧ x = 1
  mergeSlice _ _ := 0
  IsState _ n := n = 0 ∨ n = 3 ∨ n = 4 ∨ n = 6
  state_lt := by
    rintro _ n (rfl | rfl | rfl | rfl) <;> decide
  state_memory := by
    intro _ n m _ h
    obtain ⟨-, rfl⟩ | ⟨-, rfl⟩ := memory_loopGraph h <;> simp
  state_input := by
    intro _ n r k inputs i _ h hi
    obtain ⟨-, -, -, rfl⟩ := phi_loopGraph h
    simp only [List.mem_cons, Option.some.injEq, List.not_mem_nil, or_false] at hi
    obtain rfl | rfl := hi <;> simp
  state_own := by
    intro _ n r inputs h
    exact .inr (.inl (phi_loopGraph h).1)
  state_reached := by
    have hhead : Run LoopEdge 0 [2, 0] := .step .start .enter
    rintro _ n (rfl | rfl | rfl | rfl)
    · exact ⟨[], .start⟩
    · exact ⟨[0], hhead⟩
    · exact ⟨[2, 0], .step hhead .body⟩
    · exact ⟨[2, 0], .step hhead .body⟩
  memory_ne_start := by
    intro _ n m h
    obtain ⟨rfl, -⟩ | ⟨rfl, -⟩ := memory_loopGraph h <;> decide
  memory_dominates := by
    intro _ n m _ h
    obtain ⟨rfl, rfl⟩ | ⟨rfl, rfl⟩ := memory_loopGraph h
    · exact head_dominates_body
    · exact fun _ _ => List.mem_cons_self
  memory_rank := by
    intro _ n m _ h
    obtain ⟨rfl, rfl⟩ | ⟨rfl, rfl⟩ := memory_loopGraph h <;> decide
  defAt_phi := by
    intro n r k inputs h
    obtain ⟨rfl, rfl, -, -⟩ := phi_loopGraph h
    decide
  phi_dominates := by
    intro n r k inputs j i b h hi hb
    obtain ⟨-, -, -, rfl⟩ := phi_loopGraph h
    match j with
    | 0 =>
      cases hi
      cases hb
      exact fun _ _ => List.mem_cons_self
    | 1 =>
      cases hi
      cases hb
      exact fun _ _ => List.mem_cons_self
    | _ + 2 => cases hi
  phi_edge := by
    intro n r k inputs b h hb
    obtain ⟨-, rfl, -, rfl⟩ := phi_loopGraph h
    cases hb with
    | enter => exact ⟨0, 0, rfl, rfl⟩
    | back => exact ⟨1, 6, rfl, rfl⟩
  region_phi := by
    intro n r h
    simp only [loopGraph] at h
    split at h
    · next hr =>
      obtain rfl := List.mem_singleton.1 h
      exact ⟨1, [some 0, some 6], hr ▸ rfl⟩
    · cases h
  general_instance _ := rfl
  unique_mem := nofun
  unique_input := nofun
  mem_writes := by
    rintro n idx isInstance m x h ⟨rfl, rfl⟩
    cases h
    rfl
  scMemProj_writes := by
    rintro n idx m x h ⟨rfl, -⟩
    cases h
  strInflatedCopy_writes := by
    rintro n idx m x h ⟨rfl, -⟩
    cases h
  mergeMem_writes := by
    rintro n base slices x h ⟨rfl, -⟩
    cases h
  allocate_writes := by
    rintro n m x h ⟨rfl, -⟩
    cases h
  call_writes := by
    rintro n m x h ⟨rfl, -⟩
    cases h
  initialize_writes := by
    rintro n allocation m x id h ⟨rfl, -⟩
    cases h
  memBar_writes := by
    rintro n m copy x h ⟨rfl, -⟩
    cases h
  clearArray_follows := nofun

/-- The search meets the `Phi` of the loop again at its back edge. -/
theorem findsInstance_loop : loopFlow.FindsInstance .initial 2 6 ∧
    loopFlow.WalksInstance ⟨2, true, false, 9, fun _ => false⟩ (fun n => n) 6 := by
  refine SliceFlow.findsInstance_walksInstance (fun n base slices a h => ?_) .initial rfl
    (.inr (.inr (.inr rfl))) (fun n base slices h _ => ?_) rfl rfl (.inr (.inr (.inr rfl)))
  · obtain ⟨-, h⟩ | ⟨-, h⟩ | ⟨-, h⟩ | ⟨-, h⟩ | ⟨-, h⟩ | h := node_loopGraph h <;> cases h
  · obtain ⟨-, h⟩ | ⟨-, h⟩ | ⟨-, h⟩ | ⟨-, h⟩ | ⟨-, h⟩ | h := node_loopGraph h <;> cases h

example : (loopGraph.findInstMem 2 20 (some 6) .initial).map
    (fun out => (out.1, out.2.phis.length)) =
    some (some 7, 1) := by decide +kernel

end StackAllocation
