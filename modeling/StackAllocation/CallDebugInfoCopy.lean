import StackAllocation.CallDebugInfo

/-!
# What the copy describes

The loop over the inputs keeps a map from the scalar objects that it has met to their clones,
which are new and different for different objects (`InputsCopied`). The JVM states are copies of
the old ones with all offsets shifted by the same amount, so each slot of the new call holds what
stands for the node in the old one (`copyCallDebugInfo_describesSame`).
-/

namespace StackAllocation

open LinkedCells

/-! ## The inputs

What the map has is complete for the inputs so far: each scalar object among them has one clone, all
clones are new nodes, and two objects never share one. An input that is no scalar object is taken as
it is. The next input either is in the map or adds a clone behind all others, so what was said of
the inputs before stays. -/

section

variable {L : NodeLibrary} {root : ℕ} {nodes : NodeStore} {newInputs done : List (Option ℕ)}

/-- The clone that the map has for a node. -/
def InputCopy.cloneOf (c : InputCopy L) (n : ℕ) : ℕ := (L.find c.sosnMap n).getD n

variable (root nodes newInputs done) in
/-- What the loop keeps. -/
structure InputsCopied (c : InputCopy L) : Prop where
  inputs : c.inputs = newInputs ++ done.map fun x => x.map (copyOf nodes c.cloneOf)
  found : ∀ n, some n ∈ done → (nodes.node n).scalarObject.isSome → ∃ k, L.find c.sosnMap n = some k
  clones : ∀ n k, L.find c.sosnMap n = some k → nodes.unique ≤ k ∧ k < c.nodes.unique ∧
    c.nodes.node k = { nodes.node n with inputs := (nodes.node n).inputs.set 0 (some root) }
  injective : ∀ n m k, L.find c.sosnMap n = some k → L.find c.sosnMap m = some k → n = m
  old : ∀ n, n < nodes.unique → c.nodes.node n = nodes.node n
  le : nodes.unique ≤ c.nodes.unique

theorem inputsCopied_empty :
    InputsCopied root nodes newInputs [] (⟨nodes, L.empty, newInputs⟩ : InputCopy L) where
  inputs := (List.append_nil _).symm
  found n h := absurd h List.not_mem_nil
  clones n k h := by
    rw [L.find_empty] at h
    cases h
  injective n m k h := by
    rw [L.find_empty] at h
    cases h
  old _ _ := rfl
  le := Nat.le_refl _

variable {c : InputCopy L}

/-- What stands for the inputs so far does not change when another object is cloned. -/
theorem InputsCopied.inputs_of_find (h : InputsCopied root nodes newInputs done c)
    {c' : InputCopy L} (hfind : ∀ n k, L.find c.sosnMap n = some k → L.find c'.sosnMap n = some k) :
    c.inputs = newInputs ++ done.map fun x => x.map (copyOf nodes c'.cloneOf) := by
  rw [h.inputs]
  congr 1
  refine List.map_congr_left fun x hx => ?_
  cases x with
  | none => rfl
  | some n =>
    simp only [Option.map_some, copyOf]
    split
    · next hscalar =>
      obtain ⟨k, hk⟩ := h.found n hx hscalar
      rw [InputCopy.cloneOf, InputCopy.cloneOf, hk, hfind n k hk]
    · rfl

/-- An input that is taken as it is, or whose clone is known. -/
theorem InputsCopied.append (h : InputsCopied root nodes newInputs done c) {x y : Option ℕ}
    (hy : y = x.map (copyOf nodes c.cloneOf))
    (hfound : ∀ n, x = some n → (nodes.node n).scalarObject.isSome →
      ∃ k, L.find c.sosnMap n = some k) :
    InputsCopied root nodes newInputs (done ++ [x]) ⟨c.nodes, c.sosnMap, c.inputs ++ [y]⟩ where
  inputs := by
    rw [List.map_append, ← List.append_assoc, hy]
    exact congrArg (· ++ _) h.inputs
  found n hn hscalar := by
    rcases List.mem_append.1 hn with hn | hn
    · exact h.found n hn hscalar
    · exact hfound n (List.mem_singleton.1 hn).symm hscalar
  clones := h.clones
  injective := h.injective
  old := h.old
  le := h.le

/-- An object that is met for the first time. -/
theorem InputsCopied.cloned (h : InputsCopied root nodes newInputs done c) {n : ℕ}
    (hn : n < nodes.unique) (hscalar : (nodes.node n).scalarObject.isSome)
    (hnone : L.find c.sosnMap n = none) :
    InputsCopied root nodes newInputs done
      ⟨(L.clone c.nodes n).2.setReq (L.clone c.nodes n).1 0 (some root),
        L.insert c.sosnMap n (L.clone c.nodes n).1, c.inputs⟩ := by
  obtain ⟨hnew, hunique⟩ := L.clone_new c.nodes n
  have hfind : ∀ m k, L.find c.sosnMap m = some k →
      L.find (L.insert c.sosnMap n (L.clone c.nodes n).1) m = some k := fun m k hk => by
    rw [L.find_insert, if_neg, hk]
    rintro rfl
    rw [hnone] at hk
    cases hk
  -- the nodes below the clone stay
  have hbelow : ∀ m, m < c.nodes.unique →
      ((L.clone c.nodes n).2.setReq (L.clone c.nodes n).1 0 (some root)).node m = c.nodes.node m :=
    fun m hm => by
      rw [NodeStore.setReq]
      simp only
      rw [Function.update_of_ne (by omega), L.clone_others _ _ _ hm]
  refine ⟨h.inputs_of_find hfind, fun m hm hms => ?_, fun m k hk => ?_, fun m m' k hk hk' => ?_,
    fun m hm => ?_, ?_⟩
  · obtain ⟨k, hk⟩ := h.found m hm hms
    exact ⟨k, hfind m k hk⟩
  · simp only [L.find_insert] at hk
    split at hk
    · next heq =>
      obtain rfl := Option.some.inj hk
      subst heq
      refine ⟨Nat.le_trans h.le hnew, hunique, ?_⟩
      rw [NodeStore.setReq]
      simp only [Function.update_self]
      rw [L.clone_node, h.old m hn]
    · obtain ⟨hle, hlt, hnode⟩ := h.clones m k hk
      refine ⟨hle, ?_, by rw [hbelow k hlt, hnode]⟩
      exact Nat.lt_trans (Nat.lt_of_lt_of_le hlt hnew) hunique
  · -- an old clone is below the new one
    have hne : ∀ m₀ k₀, L.find c.sosnMap m₀ = some k₀ → (L.clone c.nodes n).1 ≠ k₀ :=
      fun m₀ k₀ hk₀ heq => by
        have hlt := (h.clones m₀ k₀ hk₀).2.1
        omega
    simp only [L.find_insert] at hk hk'
    split at hk
    · next heq =>
      split at hk'
      · next heq' => rw [heq, heq']
      · exact absurd (Option.some.inj hk) (hne m' k hk')
    · split at hk'
      · exact absurd (Option.some.inj hk') (hne m k hk)
      · exact h.injective m m' k hk hk'
  · rw [hbelow m (Nat.lt_of_lt_of_le hm h.le), h.old m hm]
  · exact Nat.le_trans h.le (Nat.le_trans hnew (Nat.le_of_lt hunique))

/-- One input. -/
theorem InputsCopied.copyInput (h : InputsCopied root nodes newInputs done c) {x : Option ℕ}
    (hx : ∀ n, x = some n → n < nodes.unique) :
    InputsCopied root nodes newInputs (done ++ [x]) (copyInput L root c x) := by
  cases x with
  | none => exact h.append rfl nofun
  | some n =>
    have hn := hx n rfl
    have hsame := h.old n hn
    unfold StackAllocation.copyInput
    simp only [hsame]
    split
    · next hscalar =>
      unfold cloneScalarObject
      cases hfind : L.find c.sosnMap n with
      | some k =>
        simp only [ne_eq, not_true_eq_false, if_false]
        refine h.append ?_ fun m hm _ => ⟨k, ?_⟩
        · simp only [Option.map_some, copyOf, hscalar, if_true, InputCopy.cloneOf, hfind,
            Option.getD_some]
        · rw [← Option.some.inj hm, hfind]
      | none =>
        have hunique := L.clone_new c.nodes n
        have hchanged : c.nodes.unique ≠ (L.clone c.nodes n).2.unique := by omega
        simp only [if_pos hchanged]
        refine (h.cloned hn hscalar hfind).append ?_ fun m hm _ => ⟨(L.clone c.nodes n).1, ?_⟩
        · simp only [Option.map_some, copyOf, hscalar, if_true, InputCopy.cloneOf, L.find_insert,
            Option.getD_some]
        · rw [← Option.some.inj hm, L.find_insert, if_pos rfl]
    · next hscalar =>
      refine h.append ?_ fun m hm hms => absurd (Option.some.inj hm ▸ hms) hscalar
      simp only [Option.map_some, copyOf, hscalar, Bool.false_eq_true, if_false]

/-- The loop. -/
theorem InputsCopied.foldl_copyInput {xs : List (Option ℕ)}
    (h : InputsCopied root nodes newInputs done c) (hxs : ∀ n, some n ∈ xs → n < nodes.unique) :
    InputsCopied root nodes newInputs (done ++ xs)
      (xs.foldl (StackAllocation.copyInput L root) c) := by
  induction xs generalizing done c with
  | nil => rwa [List.append_nil]
  | cons x xs ih =>
    have hstep := h.copyInput fun n hn => hxs n (hn ▸ List.mem_cons_self)
    rw [List.append_cons]
    exact ih hstep fun n hn => hxs n (List.mem_cons_of_mem _ hn)

/-- The inputs of the new call, by those of the old. -/
theorem InputsCopied.input {old new : CallNode} {inputs : List (Option ℕ)}
    (h : InputsCopied root nodes new.inputs (old.inputs.drop old.domainCnt) c)
    (hnew : new.inputs.length = new.domainCnt) (hinputs : inputs = c.inputs) {i : ℕ}
    (hi : old.domainCnt ≤ i) (jvms : Option ℕ) :
    ({ new with inputs := inputs, jvms := jvms } : CallNode).input
      (i - old.domainCnt + new.domainCnt) = (old.input i).map (copyOf nodes c.cloneOf) := by
  have hget : (old.inputs.drop old.domainCnt)[i - old.domainCnt]? = old.inputs[i]? := by
    rw [List.getElem?_drop]
    congr 1
    omega
  simp only [CallNode.input, hinputs, h.inputs]
  rw [List.getD_eq_getElem?_getD, List.getElem?_append_right (by omega), List.getElem?_map,
    hnew, Nat.add_sub_cancel, hget, List.getD_eq_getElem?_getD]
  cases old.inputs[i]? with
  | none => rfl
  | some x => rfl

/-- Whether two inputs share a clone. -/
theorem InputsCopied.sharing (h : InputsCopied root nodes newInputs done c) {n m : ℕ}
    (hn : some n ∈ done) (hm : some m ∈ done) (hlt : m < nodes.unique)
    (hscalar : (nodes.node n).scalarObject.isSome) :
    copyOf nodes c.cloneOf n = copyOf nodes c.cloneOf m ↔ n = m := by
  refine ⟨fun heq => ?_, fun heq => heq ▸ rfl⟩
  obtain ⟨k, hk⟩ := h.found n hn hscalar
  simp only [copyOf, hscalar, if_true, InputCopy.cloneOf, hk, Option.getD_some] at heq
  split at heq
  · next hscalar' =>
    obtain ⟨k', hk'⟩ := h.found m hm hscalar'
    rw [hk', Option.getD_some] at heq
    exact h.injective n m k hk (heq ▸ hk')
  · -- a node that is no clone is older
    have hle := (h.clones n k hk).1
    omega

end

/-! ## The JVM states

The copy of a chain is a chain of new cells. Each has the offsets of the old one, moved by the same
number; the offsets lie behind the arguments, so no subtraction goes below zero. -/

namespace CallJvmState

variable {A : Store CallJvmState} {s : CallJvmState}

/-- A copy of a state differs in nothing. -/
theorem cloneShallow_eq {cells : ℕ → CallJvmState} (hdepth : s.depth = 1 + depthOf cells s.caller)
    (hroot : s.method = none → s.caller = none) : cloneShallow cells s = s := by
  unfold cloneShallow
  cases hmethod : s.method with
  | some method =>
    simp only [ofMethod, setBci]
    rw [← hdepth, ← hmethod]
  | none =>
    have hcaller := hroot hmethod
    rw [hcaller] at hdepth
    have hone : s.depth = 1 := hdepth
    simp only [ofStackSize, setBci]
    rw [← hone, ← hcaller, ← hmethod]

/-- The new offset, if the areas are behind the arguments. -/
theorem addInt_eq {off old new : ℕ} (hle : old ≤ off) (hlt : off - old + new < 2 ^ 32) :
    addInt off ((new : ℤ) - old) = off - old + new := by
  have hsum : (off : ℤ) + ((new : ℤ) - old) = ((off - old + new : ℕ) : ℤ) := by omega
  rw [addInt, hsum, Int.emod_eq_of_lt (Int.natCast_nonneg _) (by exact_mod_cast hlt),
    Int.toNat_natCast]

end CallJvmState

/-- A frame with the offsets for the new call. -/
theorem sameFrame_adjust {s s' : CallJvmState} {call old new len : ℕ} {l : Option ℕ}
    (hs : s' = { CallJvmState.adjust call ((new : ℤ) - old) s with caller := l })
    (hareas : old ≤ s.locoff ∧ s.locoff ≤ s.stkoff ∧ s.stkoff ≤ s.monoff ∧ s.monoff ≤ s.scloff ∧
      s.scloff ≤ s.endoff ∧ s.endoff ≤ len) (hlen : len - old + new < 2 ^ 32) :
    SameFrame s s' ∧ s'.map = some call ∧
      ∀ area, old ≤ s.areaStart area ∧ s'.areaStart area = s.areaStart area - old + new := by
  subst hs
  obtain ⟨hloc, hstk, hmon, hscl, hend, hle⟩ := hareas
  have hshift : ∀ off, old ≤ off → off ≤ len →
      CallJvmState.addInt off ((new : ℤ) - old) = off - old + new := fun off hold hoff =>
    CallJvmState.addInt_eq hold (by omega)
  refine ⟨⟨rfl, rfl, rfl, rfl, rfl, fun area => ?_⟩, rfl, fun area => ?_⟩
  · cases area <;> simp only [CallJvmState.areaSize, CallJvmState.adjust] <;>
      rw [hshift _ (by omega) (by omega), hshift _ (by omega) (by omega)] <;> omega
  · cases area <;> simp only [CallJvmState.areaStart, CallJvmState.adjust] <;>
      exact ⟨by omega, hshift _ (by omega) (by omega)⟩

/-- The JVM states of the new call: new cells, each a copy with shifted offsets; the old ones are as
they were. -/
theorem jvmStates_copied {A : Store CallJvmState} {p fuel call : ℕ} {adj : ℤ} {ps : List ℕ}
    (hchain : CallJvmState.links.Chain A.cell (some p) (p :: ps))
    (hlt : ∀ q ∈ p :: ps, q < A.next)
    (hdepth : ∀ q ∈ p :: ps, (A.cell q).depth = 1 + CallJvmState.depthOf A.cell (A.cell q).caller)
    (hroot : ∀ q ∈ p :: ps, (A.cell q).method = none → (A.cell q).caller = none)
    (hfuel : ps.length + 1 < fuel) :
    ∃ p' A₁ A' ps', CallJvmState.cloneDeep fuel A p = some (p', A₁) ∧
      CallJvmState.links.updateLinks (CallJvmState.adjust call adj) fuel A₁ (some p') = some A' ∧
      CallJvmState.links.Chain A'.cell (some p') (p' :: ps') ∧
      List.Forall₂ (fun q q' => ∃ l, A'.cell q' =
        { CallJvmState.adjust call adj (A.cell q) with caller := l }) (p :: ps) (p' :: ps') ∧
      ∀ q, q < A.next → A'.cell q = A.cell q := by
  obtain ⟨hp, hltps⟩ := List.forall_mem_cons.1 hlt
  obtain ⟨A₀, hA₀⟩ : ∃ A₀ : Store CallJvmState,
      A₀ = (A.alloc (CallJvmState.cloneShallow A.cell (A.cell p))).2 := ⟨_, rfl⟩
  have hclone : CallJvmState.cloneShallow A.cell (A.cell p) = A.cell p :=
    CallJvmState.cloneShallow_eq (hdepth p List.mem_cons_self) (hroot p List.mem_cons_self)
  have hself : A₀.cell A.next = A.cell p := by
    rw [hA₀, Store.alloc, hclone]
    exact Function.update_self _ _ _
  have hother : ∀ q, q < A.next → A₀.cell q = A.cell q := fun q hq => by
    rw [hA₀]
    exact Function.update_of_ne (Nat.ne_of_lt hq) _ _
  have hnext : A₀.next = A.next + 1 := by
    rw [hA₀]
    rfl
  have hps : ∀ q ∈ ps, A₀.cell q = A.cell q := fun q hq => hother q (hltps q hq)
  cases hchain with
  | cons hrest =>
  have hcopy : ∀ q ∈ ps, CallJvmState.cloneShallow A₀.cell (A₀.cell q) = A.cell q := fun q hq => by
    have hcongr : CallJvmState.cloneShallow A₀.cell (A.cell q) =
        CallJvmState.cloneShallow A.cell (A.cell q) :=
      CallJvmState.links.copy_congr _ _ _ fun r hr => hps r (hrest.link_mem hq hr)
    rw [hps q hq, hcongr]
    exact CallJvmState.cloneShallow_eq (hdepth q (List.mem_cons_of_mem _ hq))
      (hroot q (List.mem_cons_of_mem _ hq))
  obtain ⟨A₁, hrun, hnext₁, hkeep, ⟨l, hl⟩, hchain₁, hforall⟩ :=
    @Links.cloneLinks_spec CallJvmState CallJvmState.links fuel A.next A₀ ps
      (fun q hq => congrArg CallJvmState.caller ((hcopy q hq).trans (hps q hq).symm))
      (by rw [hself]; exact hrest.congr hps)
      (fun q hq => by rw [hnext]; exact Nat.lt_succ_of_lt (hltps q hq))
      (by rw [hnext]; exact Nat.lt_succ_self _) (fun hmem => Nat.lt_irrefl _ (hltps _ hmem))
      (by omega)
  have hnew : ∀ q ∈ A.next :: List.range' A₀.next ps.length, A.next ≤ q := fun q hq => by
    rcases List.mem_cons.1 hq with rfl | hq
    · exact Nat.le_refl _
    · have := List.mem_range'.1 hq
      omega
  have hnodup : (A.next :: List.range' A₀.next ps.length).Nodup := by
    refine List.nodup_cons.2 ⟨fun hmem => ?_, List.nodup_range'⟩
    have := List.mem_range'.1 hmem
    omega
  obtain ⟨A', hrun', -, hkeep', hupdate, hchain'⟩ :=
    @Links.updateLinks_spec CallJvmState CallJvmState.links (CallJvmState.adjust call adj)
      (fun _ => rfl) fuel A₁ _ _ hchain₁ hnodup
        (by rw [List.length_cons, List.length_range']; exact hfuel)
  refine ⟨A.next, A₁, A', List.range' A₀.next ps.length, ?_, hrun', hchain', .cons ⟨l, ?_⟩ ?_,
    fun q hq => ?_⟩
  · unfold CallJvmState.cloneDeep
    rw [hA₀] at hrun
    simp only [Store.alloc] at hrun ⊢
    rw [hrun]
    rfl
  · rw [hupdate _ List.mem_cons_self, hl, hself]
    rfl
  · refine List.forall₂_iff_get.2 ⟨hforall.length_eq, fun i hi hi' => ?_⟩
    obtain ⟨l, hl⟩ := (List.forall₂_iff_get.1 hforall).2 i hi hi'
    refine ⟨l, ?_⟩
    rw [hupdate _ (List.mem_cons_of_mem _ (List.get_mem _ ⟨i, hi'⟩)), hl]
    have hcell := hcopy _ (List.get_mem ps ⟨i, hi⟩)
    exact congrArg (fun s => CallJvmState.adjust call adj { s with caller := l }) hcell
  · rw [hkeep' q fun hmem => absurd (hnew q hmem) (Nat.not_le.2 hq),
      hkeep q (by omega) (Nat.ne_of_lt hq), hother q hq]

/-! ## The whole

A slot of a frame is an input at an offset. The new offset leads to the input that was taken over
for the old one, which is the same node or its clone; a field of the clone is found at the same
distance in the scalar area, as both ends have moved alike. -/

/-- An input behind the arguments is one of the inputs that are taken over. -/
theorem CallNode.mem_drop_of_input {call : CallNode} {d i n : ℕ} (hi : d ≤ i)
    (hn : call.input i = some n) : some n ∈ call.inputs.drop d := by
  rw [CallNode.input, List.getD_eq_getElem?_getD] at hn
  refine List.mem_iff_getElem?.2 ⟨i - d, ?_⟩
  rw [List.getElem?_drop, Nat.add_sub_cancel' hi]
  cases hget : call.inputs[i]? with
  | none =>
    rw [hget] at hn
    cases hn
  | some x =>
    rw [hget] at hn
    exact congrArg some hn

/-- The routine ends, with the frames copied one by one, and the old ones left alone. -/
theorem frames_copied (L : NodeLibrary) {fuel root : ℕ} {A : Store CallJvmState}
    {nodes : NodeStore} {oldcall newcall : CallNode} {frames : List ℕ} {c : InputCopy L}
    (h : CallFrames A nodes oldcall frames) (hfuel : frames.length < fuel)
    (hc : c = (oldcall.inputs.drop oldcall.domainCnt).foldl (copyInput L root)
      ⟨nodes, L.empty, newcall.inputs⟩) :
    ∃ jvms A' frames',
      copyCallDebugInfo L fuel root A nodes oldcall newcall =
        some ({ newcall with inputs := c.inputs, jvms := jvms }, A', c.nodes) ∧
      CallJvmState.links.Chain A'.cell jvms frames' ∧
      List.Forall₂ (fun q q' => ∃ l, A'.cell q' = { CallJvmState.adjust newcall.id
        ((newcall.domainCnt : ℤ) - oldcall.domainCnt) (A.cell q) with caller := l })
        frames frames' ∧
      ∀ q, q < A.next → A'.cell q = A.cell q := by
  have hchain := h.chain
  obtain ⟨jvms, hjvms⟩ : ∃ jvms, jvms = oldcall.jvms := ⟨_, rfl⟩
  rw [← hjvms] at hchain
  unfold copyCallDebugInfo
  simp only [← hc, ← hjvms]
  cases hchain with
  | nil =>
    cases fuel with
    | zero => exact absurd hfuel (Nat.not_lt_zero _)
    | succ fuel => exact ⟨none, A, [], rfl, .nil, .nil, fun _ _ => rfl⟩
  | @cons p ps hrest =>
    obtain ⟨p', A₁, A', ps', hclone, hupdate, hchain', hframes, hstates⟩ :=
      @jvmStates_copied A p fuel newcall.id ((newcall.domainCnt : ℤ) - oldcall.domainCnt) ps
        (.cons hrest) h.allocated h.depth h.root hfuel
    refine ⟨some p', A', p' :: ps', ?_, hchain', hframes, hstates⟩
    simp only [hclone, Option.map_some, hupdate]

/-- The new call describes the same state. -/
theorem copyCallDebugInfo_describesSame (L : NodeLibrary) {fuel root : ℕ} {A : Store CallJvmState}
    {nodes : NodeStore} {oldcall newcall : CallNode} {frames : List ℕ}
    (h : CallFrames A nodes oldcall frames) (hnew : newcall.inputs.length = newcall.domainCnt)
    (hlen : oldcall.inputs.length - oldcall.domainCnt + newcall.domainCnt < 2 ^ 32)
    (hfuel : frames.length < fuel) :
    ∃ newcall' A' nodes' frames' cloneOf,
      copyCallDebugInfo L fuel root A nodes oldcall newcall = some (newcall', A', nodes') ∧
      DescribesSame root A A' nodes nodes' oldcall newcall' frames frames' cloneOf := by
  have hlt : ∀ n, some n ∈ oldcall.inputs.drop oldcall.domainCnt → n < nodes.unique := fun n hn =>
    h.inputs_lt n (List.mem_of_mem_drop hn)
  obtain ⟨c, hc⟩ : ∃ c, c = (oldcall.inputs.drop oldcall.domainCnt).foldl (copyInput L root)
    ⟨nodes, L.empty, newcall.inputs⟩ := ⟨_, rfl⟩
  have hcopied : InputsCopied root nodes newcall.inputs
      (oldcall.inputs.drop oldcall.domainCnt) c := by
    rw [hc]
    exact inputsCopied_empty.foldl_copyInput hlt
  have hinput : ∀ i, oldcall.domainCnt ≤ i → ∀ jvms,
      ({ newcall with inputs := c.inputs, jvms := jvms } : CallNode).input
        (i - oldcall.domainCnt + newcall.domainCnt) =
      (oldcall.input i).map (copyOf nodes c.cloneOf) := fun i hi jvms =>
    hcopied.input hnew rfl hi jvms
  obtain ⟨jvms, A', frames', hrun, hchain, hframes, hstates⟩ := frames_copied L h hfuel hc
  have hsame : List.Forall₂ (fun p p' => SameFrame (A.cell p) (A'.cell p') ∧
      (A'.cell p').map = some newcall.id ∧ ∀ area,
        oldcall.domainCnt ≤ (A.cell p).areaStart area ∧ (A'.cell p').areaStart area =
          (A.cell p).areaStart area - oldcall.domainCnt + newcall.domainCnt) frames frames' := by
    refine List.forall₂_iff_get.2 ⟨hframes.length_eq, fun i hi hi' => ?_⟩
    obtain ⟨l, hl⟩ := (List.forall₂_iff_get.1 hframes).2 i hi hi'
    exact sameFrame_adjust hl (h.areas _ (List.get_mem frames ⟨i, hi⟩)) hlen
  refine ⟨_, A', c.nodes, frames', c.cloneOf, hrun, hchain, hsame.imp fun p p' hp => ⟨hp.1, hp.2.1⟩,
    hsame.imp fun p p' hp area k _ => ?_, fun n hn hscalar => ?_,
    fun i j n m hi hj hn hm hscalar => ?_, fun n o p p' ho hn hp hp' => ?_, hstates, hcopied.old⟩
  · obtain ⟨hstart, hstart'⟩ := hp.2.2 area
    rw [CallNode.slot, CallNode.slot, ← hinput _ (Nat.le_add_right_of_le hstart) jvms, hstart']
    congr 1
    omega
  · obtain ⟨k, hk⟩ := hcopied.found n hn hscalar
    rw [InputCopy.cloneOf, hk, Option.getD_some]
    exact hcopied.clones n k hk
  · rw [hinput i hi, hinput j hj, hn, hm, Option.map_some, Option.map_some, Option.some_inj]
    have hm' := CallNode.mem_drop_of_input hj hm
    exact hcopied.sharing (CallNode.mem_drop_of_input hi hn) hm' (hlt m hm') hscalar
  · have hscalar : (nodes.node n).scalarObject.isSome := by
      rw [ho]
      rfl
    obtain ⟨k, hk⟩ := hcopied.found n hn hscalar
    refine ⟨?_, ?_⟩
    · rw [InputCopy.cloneOf, hk, Option.getD_some, (hcopied.clones n k hk).2.2]
      exact ho
    · -- the youngest frames correspond
      obtain ⟨l, rfl⟩ := (hp ▸ h.chain).exists_cons
      have hchain' : CallJvmState.links.Chain A'.cell (some p') frames' := hp' ▸ hchain
      obtain ⟨l', rfl⟩ := hchain'.exists_cons
      obtain ⟨hyoungest, -⟩ := List.forall₂_cons.1 hsame
      obtain ⟨hstart, hstart'⟩ := hyoungest.2.2 .scalars
      replace hstart' : (A'.cell p').scloff =
        (A.cell p).scloff - oldcall.domainCnt + newcall.domainCnt := hstart'
      replace hstart : oldcall.domainCnt ≤ (A.cell p).scloff := hstart
      rw [CallNode.fieldInputs, CallNode.fieldInputs, List.map_map]
      refine List.map_congr_left fun k _ => ?_
      rw [Function.comp_apply, ← hinput _ (by omega) jvms, hstart']
      congr 1
      omega

/-! ### Two frames

The caller has a local; the inlined frame has a scalar object as a local and on the stack. One of
its two fields is a stack-allocated object. The new call has one argument more. -/

/-- A node is copied with the next number; the map is a list. -/
def simpleLibrary : NodeLibrary where
  clone s n := (s.unique, ⟨s.unique + 1, Function.update s.node s.unique (s.node n)⟩)
  clone_new _ _ := ⟨Nat.le_refl _, Nat.lt_succ_self _⟩
  clone_node _ _ := Function.update_self _ _ _
  clone_others _ _ _ h := Function.update_of_ne (Nat.ne_of_lt h) _ _
  Dict := List (ℕ × ℕ)
  empty := []
  find d k := d.lookup k
  insert d k v := (k, v) :: d
  find_empty _ := rfl
  find_insert d k v k' := by
    rw [List.lookup_cons]
    split
    · next h => rw [if_pos (beq_iff_eq.1 h)]
    · next h => rw [if_neg (beq_eq_false_iff_ne.1 h)]

/-- The method of the frames. -/
def frameMethod : JavaMethod := ⟨3, 1, 1⟩

/-- The JVM states. -/
def frameStates : Store CallJvmState where
  next := 2
  cell := fun p =>
    if p = 0 then ⟨none, 1, 2, 3, 3, 3, 3, 0, 5, .reexecuteFalse, some frameMethod, some 25⟩
    else ⟨some 0, 2, 3, 4, 5, 5, 7, 1, 9, .reexecuteTrue, some frameMethod, some 25⟩

/-- The nodes: 20 is the scalar object, 21 the other. -/
def frameNodes : NodeStore where
  unique := 30
  node := fun n => ⟨[some 1],
    if n = 20 then some ⟨7, 0, 2, false⟩ else if n = 21 then some ⟨8, 2, 0, true⟩ else none⟩

/-- The call. -/
def frameCall : CallNode where
  id := 25
  domainCnt := 2
  inputs := [some 2, some 3, some 10, some 20, some 20, some 11, some 21]
  jvms := some 1

/-- The new call. -/
def argumentCall : CallNode where
  id := 29
  domainCnt := 3
  inputs := [some 2, some 3, some 4]
  jvms := none

theorem frameCall_frames : CallFrames frameStates frameNodes frameCall [1, 0] where
  chain := .cons (.cons .nil)
  allocated := by decide
  areas := by decide
  depth := by decide
  root := by decide
  inputs_lt := by
    intro n hn
    simp [frameCall] at hn
    show n < 30
    omega

/-- The new call of the example describes the same state. -/
theorem describesSame_frameCall : ∃ newcall A nodes frames cloneOf,
    copyCallDebugInfo simpleLibrary 3 1 frameStates frameNodes frameCall argumentCall =
      some (newcall, A, nodes) ∧
    DescribesSame 1 frameStates A frameNodes nodes frameCall newcall [1, 0] frames cloneOf :=
  copyCallDebugInfo_describesSame simpleLibrary frameCall_frames rfl (by decide) (by decide)

end StackAllocation
