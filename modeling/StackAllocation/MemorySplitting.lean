import StackAllocation.SliceFlow

/-!
# Splitting the memory of an instance

What `find_inst_mem` returns holds of the instance what it was given, and so does each input of a
new `Phi` (`SliceFlow.findInstMem_good`), whatever was split before (`SliceFlow.Inv`). The search
ends: a step goes up the dominators of a memory state or the memory within a node, and where it
begins anew at a `Phi`, there is one `Phi` less to split (`SliceFlow.findInstMem_ends`).
-/

namespace StackAllocation

open Dominance

namespace SliceFlow

variable {G : SliceGraph} (F : SliceFlow G) (S S' : SplitState) (a : ℕ)

/-- While the slices are split, a `MergeMem` that has no memory of an alias index has that of the
general one. -/
def Splitting : Prop :=
  ∀ n base slices a, G.node n = .mergeMem base slices →
    F.mergeSlice n a = if slices a = base then slices (G.generalIdx a) else slices a

/-- A `ClearArray` whose allocation is not known. -/
def ClearsUnknown (G : SliceGraph) (n : ℕ) : Prop :=
  ∃ dest memory, G.node n = .clearArray dest memory ∧ G.idealAllocation dest = none

/-- A step of the search for an alias index. -/
def PassedOver (n m : ℕ) : Prop := F.IsState a n ∧ F.Kept S a n m ∧ ¬ ClearsUnknown G n

/-- The search ends at the memory state. -/
def Final (G : SliceGraph) (S : SplitState) (a m : ℕ) : Prop :=
  (∃ i φ, m = G.size + i ∧ S.phis[i]? = some φ ∧ φ.aliasIdx = a) ∨
    m < G.size ∧ (∀ S, G.findStep S a m = .stop) ∧
      ∀ r k inputs, G.node m = .phi r k inputs → k = a

/-- What the search relies on, and keeps. -/
structure Inv : Prop where
  phis : ∀ (i : ℕ) φ, S.phis[i]? = some φ →
    F.IsState φ.aliasIdx φ.orig ∧ ∃ k inputs, G.node φ.orig = .phi φ.region k inputs
  mapPhi : ∀ n N, S.mapPhi n = some N → ∃ i φ, N = G.size + i ∧ S.phis[i]? = some φ ∧ φ.orig = n
  slots : ∀ n a m, S.slots n a = some m → F.IsState a n ∧ (∃ id, G.instanceOf a = some id) ∧
    F.Kept S a n m ∧ Final G S a m ∧ ∃ base slices, G.node n = .mergeMem base slices ∧
      slices a = base
  failing : S.failing = false

/-- The new `Phi`s of `S` are new `Phi`s of `S'`. -/
def Keys : Prop :=
  ∀ (i : ℕ) φ, S.phis[i]? = some φ → ∃ φ', S'.phis[i]? = some φ' ∧ φ'.region = φ.region ∧
    φ'.aliasIdx = φ.aliasIdx ∧ φ'.orig = φ.orig

/-- What a search does to the state. -/
structure Post : Prop where
  inv : F.Inv S'
  keep : ∀ (i : ℕ) φ, S.phis[i]? = some φ → S'.phis[i]? = some φ
  mapPhi : ∀ n, S.mapPhi n ≠ none → S'.mapPhi n ≠ none
  /-- the `Phi`s that it made have all their inputs -/
  made : ∀ (i : ℕ) φ, S.phis.length ≤ i → S'.phis[i]? = some φ → F.Equivalent S' φ
  passed : ∀ e, e ∈ S'.passed → e ∈ S.passed ∨ F.PassedOver S' a e.1 e.2

/-- What a search from `n` returns: nothing if the compilation fails. -/
def Good (n : ℕ) (out : Option ℕ × SplitState) : Prop :=
  (out.2.failing = true ∧ out.1 = none) ∨
    ∃ m, out.1 = some m ∧ F.Post S out.2 a ∧ F.Kept out.2 a n m ∧ Final G out.2 a m

variable {F} {S S'} {a} {n m id : ℕ}

/-! ## More `Phi`s

A search adds `Phi`s, fills those that it has made, and sets memories of `MergeMem`s. So whatever is
true of a `Phi`, a chain or an end of a search is true later as well, which every step of the proofs
below needs. -/

theorem Keys.refl : Keys S S := fun _ φ h => ⟨φ, h, rfl, rfl, rfl⟩

/-- `Phi`s that are kept as they are keep their keys. -/
theorem Keys.of_keep (h : ∀ (i : ℕ) φ, S.phis[i]? = some φ → S'.phis[i]? = some φ) : Keys S S' :=
  fun i φ hi => ⟨φ, h i φ hi, rfl, rfl, rfl⟩

/-- What is kept for a state stays so when `Phi`s are added. -/
theorem Kept.mono (h : F.Kept S a n m) (hS : Keys S S') : F.Kept S' a n m := by
  induction h with
  | refl => exact .refl
  | quiet hq _ ih => exact .quiet hq ih
  | unique hn hu _ ih => exact .unique hn hu ih
  | split hn hi hr ha =>
    obtain ⟨φ', hi', hr', ha', -⟩ := hS _ _ hi
    exact .split hn hi' (hr'.trans hr) (ha'.trans ha)
  | own hn hm => exact .own hn hm

/-- Where a search stops it stops with more `Phi`s as well. -/
theorem Final.mono (h : Final G S a m) (hS : Keys S S') : Final G S' a m := by
  obtain ⟨i, φ, rfl, hi, ha⟩ | h := h
  · obtain ⟨φ', hi', -, ha', -⟩ := hS i φ hi
    exact .inl ⟨i, φ', rfl, hi', ha'.trans ha⟩
  · exact .inr h

/-- A `Phi` of the slice stays equivalent to the one it was made for. -/
theorem Equivalent.mono {φ : SplitPhi} (h : F.Equivalent S φ) (hS : Keys S S') :
    F.Equivalent S' φ := by
  obtain ⟨k, inputs, horig, hlength, hinputs⟩ := h
  refine ⟨k, inputs, horig, hlength, fun j i i' hi hi' => ?_⟩
  cases hinputs j i i' hi hi' with
  | some hk => exact .some (hk.mono hS)
  | none => exact .none

/-- What was passed over stays so. -/
theorem PassedOver.mono (h : F.PassedOver S a n m) (hS : Keys S S') : F.PassedOver S' a n m :=
  ⟨h.1, h.2.1.mono hS, h.2.2⟩

/-- The invariant speaks only of some fields. -/
theorem Inv.of_eq (h : F.Inv S) (hphis : S'.phis = S.phis) (hmap : S'.mapPhi = S.mapPhi)
    (hslots : S'.slots = S.slots) (hfailing : S'.failing = S.failing) : F.Inv S' := by
  have hkeys : Keys S S' := fun i φ hi => ⟨φ, hphis ▸ hi, rfl, rfl, rfl⟩
  refine ⟨fun i φ hi => h.phis i φ (hphis ▸ hi), fun n N hN => ?_, fun n a m hm => ?_,
    hfailing.trans h.failing⟩
  · rw [hphis]
    exact h.mapPhi n N (hmap ▸ hN)
  · obtain ⟨hs, hid, hk, hf, hmerge⟩ := h.slots n a m (hslots ▸ hm)
    exact ⟨hs, hid, hk.mono hkeys, hf.mono hkeys, hmerge⟩

/-- To record what a node was passed over for keeps the invariant. -/
theorem Inv.pass (h : F.Inv S) (n m : ℕ) : F.Inv (S.pass n m) := h.of_eq rfl rfl rfl rfl

/-- To remember a `Phi` to be looked at later keeps it. -/
theorem Inv.appendOrig (h : F.Inv S) (n : ℕ) : F.Inv (S.appendOrig n) := h.of_eq rfl rfl rfl rfl

namespace Post

theorem refl (h : F.Inv S) : F.Post S S a :=
  ⟨h, fun _ _ hi => hi, fun _ h => h, fun _ _ hle hi =>
    absurd (List.getElem?_eq_some_iff.1 hi).1 (Nat.not_lt.2 hle), fun _ he => .inl he⟩

/-- The `Phi`s that were there keep their regions and slices. -/
theorem keys (h : F.Post S S' a) : Keys S S' := .of_keep h.keep

/-- One search after another. -/
theorem trans {T : SplitState} (h : F.Post S S' a) (h' : F.Post S' T a) : F.Post S T a where
  inv := h'.inv
  keep i φ hi := h'.keep i φ (h.keep i φ hi)
  mapPhi n hn := h'.mapPhi n (h.mapPhi n hn)
  made i φ hle hi := by
    by_cases hlt : i < S'.phis.length
    · have hS' := List.getElem?_eq_getElem hlt
      obtain rfl := Option.some.inj ((h'.keep i _ hS').symm.trans hi)
      exact (h.made i _ hle hS').mono h'.keys
    · exact h'.made i φ (Nat.le_of_not_lt hlt) hi
  passed e he := by
    obtain he | he := h'.passed e he
    · obtain he | he := h.passed e he
      · exact .inl he
      · exact .inr (he.mono h'.keys)
    · exact .inr he

/-- A step. -/
theorem pass (h : F.Inv S) (hp : F.PassedOver S a n m) : F.Post S (S.pass n m) a where
  inv := h.pass n m
  keep _ _ hi := hi
  mapPhi _ hn := hn
  made i φ hle hi := absurd (List.getElem?_eq_some_iff.1 hi).1 (Nat.not_lt.2 hle)
  passed e he := by
    obtain he | he := List.mem_append.1 he
    · exact .inl he
    · obtain rfl := List.mem_singleton.1 he
      exact .inr (hp.mono .refl)

/-- To remember a `Phi` counts as a search that finds nothing. -/
theorem appendOrig (h : F.Inv S) (n : ℕ) : F.Post S (S.appendOrig n) a :=
  ⟨h.appendOrig n, fun _ _ hi => hi, fun _ h => h, fun _ _ hle hi =>
    absurd (List.getElem?_eq_some_iff.1 hi).1 (Nat.not_lt.2 hle), fun _ he => .inl he⟩

/-- What was found is the memory of a `MergeMem`. -/
theorem setMemoryAt (h : F.Inv S) (hs : F.IsState a n) (hid : G.instanceOf a = some id) {base : ℕ}
    {slices : ℕ → ℕ}
    (hn : G.node n = .mergeMem base slices) (hbase : slices a = base) (hk : F.Kept S a n m)
    (hf : Final G S a m) : F.Post S (S.setMemoryAt n a m) a where
  inv := by
    refine ⟨h.phis, h.mapPhi, fun n' a' m' hm => ?_, h.failing⟩
    by_cases heq : n' = n ∧ a' = a
    · obtain ⟨rfl, rfl⟩ := heq
      have hm' : some m = some m' := (if_pos ⟨rfl, rfl⟩).symm.trans hm
      obtain rfl := Option.some.inj hm'
      exact ⟨hs, ⟨id, hid⟩, hk.mono .refl, hf.mono .refl, base, slices, hn, hbase⟩
    · have hm' : S.slots n' a' = some m' := (if_neg heq).symm.trans hm
      obtain ⟨hs', hid', hk', hf', hmerge⟩ := h.slots n' a' m' hm'
      exact ⟨hs', hid', hk'.mono .refl, hf'.mono .refl, hmerge⟩
  keep _ _ hi := hi
  mapPhi _ hn := hn
  made i φ hle hi := absurd (List.getElem?_eq_some_iff.1 hi).1 (Nat.not_lt.2 hle)
  passed _ he := .inl he

end Post

/-! ## A round of the loop

A round goes past one node. The cases are those of the loop: a store to another slice, a projection
of something that does not write the slice, a `MergeMem` with or without a slice of its own, a
`ClearArray`, a `Phi` with one input. -/

/-- The nodes of the graph are as they were. -/
theorem nodeIn_lt (h : n < G.size) : G.nodeIn S n = G.node n := if_pos h

/-- So are the memory states. -/
theorem nodeIn_state (h : F.IsState a n) : G.nodeIn S n = G.node n := nodeIn_lt (F.state_lt a n h)

/-- A number beyond the graph is that of a new `Phi`. -/
theorem nodeIn_split {i : ℕ} {φ : SplitPhi} (h : S.phis[i]? = some φ) :
    G.nodeIn S (G.size + i) = .phi φ.region φ.aliasIdx φ.inputs := by
  rw [SliceGraph.nodeIn, if_neg (Nat.not_lt.2 (Nat.le_add_right _ _)), Nat.add_sub_cancel_left, h]

/-- A projection of a node that does not write the slice can be gone past. -/
theorem quiet_proj {p : ℕ} (hn : G.node n = .proj p) (hp : G.parentMemory p = some m)
    (hw : ∀ x, F.idxOf x = a → ¬ F.writes p x) : F.Quiet a n m := by
  refine ⟨?_, ?_⟩
  · rw [SliceGraph.memoryOf, hn]
    exact hp
  · rw [SliceGraph.writer, hn]
    exact hw

/-- Another allocation. -/
theorem quiet_allocate {p : ℕ} (hid : G.instanceOf a = some id) (hn : G.node n = .proj p)
    (hp : G.node p = .allocate m) (hne : ¬ (p = id ∨ G.mayModify p a = true)) : F.Quiet a n m := by
  refine quiet_proj hn (by rw [SliceGraph.parentMemory, hp]) fun x hx hw => hne ?_
  obtain hw | hw := F.allocate_writes p m x hp hw
  · rw [hx, hid] at hw
    exact .inl (Option.some.inj hw).symm
  · exact .inr (hx ▸ hw)

/-- That of a call, if it does not modify the slice. -/
theorem quiet_call {p : ℕ} (hn : G.node n = .proj p) (hp : G.node p = .call m)
    (hne : ¬ G.mayModify p a = true) : F.Quiet a n m := by
  refine quiet_proj hn (by rw [SliceGraph.parentMemory, hp]) fun x hx hw => hne ?_
  exact hx ▸ F.call_writes p m x hp hw

/-- The `Initialize` of another allocation. -/
theorem quiet_initialize {p : ℕ} {allocation : Option ℕ} (hid : G.instanceOf a = some id)
    (hn : G.node n = .proj p) (hp : G.node p = .initializeNode allocation m)
    (hne : allocation ≠ some id) : F.Quiet a n m := by
  refine quiet_proj hn (by rw [SliceGraph.parentMemory, hp]) fun x hx hw => hne ?_
  exact F.initialize_writes p allocation m x id hp hw (hx ▸ hid)

/-- That of a barrier, if it does not belong to an array copy that does. -/
theorem quiet_memBar {p : ℕ} {copy : Option ℕ} (hn : G.node n = .proj p)
    (hp : G.node p = .memBar m copy)
    (hne : G.memBarMayModify p a = true → ∀ ac, copy = some ac → ¬ G.mayModify ac a = true) :
    F.Quiet a n m := by
  refine quiet_proj hn (by rw [SliceGraph.parentMemory, hp]) fun x hx hw => ?_
  obtain ⟨hbar, ac, hcopy, hac⟩ := F.memBar_writes p m copy x hp hw
  rw [hx] at hbar hac
  exact hne hbar ac hcopy hac

/-- A projection that the search goes past. -/
theorem quiet_findProj {p : ℕ} (hid : G.instanceOf a = some id) (hn : G.node n = .proj p)
    (h : G.findProj a id p = .next m) : F.Quiet a n m := by
  unfold SliceGraph.findProj at h
  split at h
  · next hp =>
    split at h
    · cases h
    · next hne =>
      cases h
      exact quiet_allocate hid hn hp hne
  · next hp =>
    split at h
    · cases h
    · next hne =>
      cases h
      exact quiet_call hn hp hne
  · next hp =>
    split at h
    · cases h
    · next hne =>
      cases h
      exact quiet_initialize hid hn hp hne
  · next hp =>
    split at h
    · cases h
    · next hne =>
      cases h
      refine quiet_memBar hn hp fun _ ac hcopy hac => hne ?_
      rw [hcopy]
      exact hac
  · cases h

/-- A `ClearArray` of another allocation. -/
theorem quiet_stepThrough {dest memory : ℕ} (hid : G.instanceOf a = some id) (hs : F.IsState a n)
    (hn : G.node n = .clearArray dest memory) (h : G.stepThrough id dest = some m) :
    Relation.TransGen (F.Quiet a) n m := by
  unfold SliceGraph.stepThrough at h
  split at h
  · cases h
  · next b hb =>
    split at h
    · cases h
    · next hne =>
      have hfollows := F.clearArray_follows a n dest memory b m hs hn hb h
      refine hfollows.lift (fun k => k) fun k k' hk => ⟨hk.1, fun x hx hw => ?_⟩
      have hx' := hk.2 x hw
      rw [hx, hid] at hx'
      exact hne (Option.some.inj hx').symm

/-- The slice of a merge that was split before is the one that was put there, and its base in the
graph. -/
theorem memoryAt_of_slot (hS : F.Inv S) {base : ℕ} {slices : ℕ → ℕ}
    (hn : G.node n = .mergeMem base slices) {k : ℕ} (h : S.slots n a = some k) :
    slices a = base := by
  obtain ⟨-, -, -, -, base', slices', hn', hbase⟩ := hS.slots n a k h
  rw [hn] at hn'
  cases hn'
  exact hbase

/-- The memory of a `MergeMem`. -/
theorem findMergeMem_next (hF : F.Splitting) (hS : F.Inv S) {base : ℕ} {slices : ℕ → ℕ}
    (hn : G.node n = .mergeMem base slices) (h : G.findMergeMem S a n base slices = .next m) :
    F.Quiet a n m ∨ F.Kept S a n m ∧ Final G S a m := by
  unfold SliceGraph.findMergeMem at h
  split at h
  · cases h
  · split at h
    · cases h
    · next hne =>
      cases h
      unfold SliceGraph.memoryAt at hne ⊢
      cases hslot : S.slots n a with
      | none =>
        rw [hslot, Option.getD_none] at hne
        refine .inl ⟨?_, ?_⟩
        · rw [SliceGraph.memoryOf, hn]
          simp only [hF n base slices a hn, if_neg hne, Option.getD_none]
        · intro x _
          rw [SliceGraph.writer, hn]
          exact F.mergeMem_writes n base slices x hn
      | some k =>
        obtain ⟨-, -, hk, hf, -⟩ := hS.slots n a k hslot
        exact .inr ⟨hk, hf⟩

/-- The general slice of a `MergeMem` that has none of the instance. -/
theorem findMergeMem_general (hF : F.Splitting) (hS : F.Inv S) {base : ℕ} {slices : ℕ → ℕ}
    (hn : G.node n = .mergeMem base slices) (h : G.findMergeMem S a n base slices = .general m) :
    slices a = base ∧ F.Quiet a n m := by
  unfold SliceGraph.findMergeMem at h
  split at h
  · cases h
  · split at h
    · next heq =>
      have hbase : slices a = base := by
        cases hslot : S.slots n a with
        | none =>
          rw [SliceGraph.memoryAt, hslot] at heq
          exact heq
        | some k => exact memoryAt_of_slot hS hn hslot
      have hgeneral : S.slots n (G.generalIdx a) = none := by
        cases hslot : S.slots n (G.generalIdx a) with
        | none => rfl
        | some k =>
          obtain ⟨-, ⟨id, hid⟩, -⟩ := hS.slots n _ k hslot
          rw [F.general_instance a] at hid
          cases hid
      cases h
      refine ⟨hbase, ?_, ?_⟩
      · rw [SliceGraph.memoryOf, hn]
        simp only [hF n base slices a hn, if_pos hbase, SliceGraph.memoryAt, hgeneral,
          Option.getD_none]
      · intro x _
        rw [SliceGraph.writer, hn]
        exact F.mergeMem_writes n base slices x hn
    · cases h

/-- A step that does not stop goes past a store to another slice or looks for the instance. The
cases of `step_through_mergemem` and of the raw memory do not occur with an instance. -/
theorem findStep_instance (hid : G.instanceOf a = some id) (h : G.findStep S a n ≠ .stop) :
    (∃ idx isInstance memory, G.nodeIn S n = .mem (some idx) isInstance memory ∧ idx ≠ a ∧
      G.findStep S a n = .next memory) ∨ G.findStep S a n = G.findInstance S a id n := by
  unfold SliceGraph.findStep at h ⊢
  split at h
  · exact absurd rfl h
  · next hstart =>
    rw [if_neg hstart]
    split at h
    · exact absurd rfl h
    · next idx isInstance memory hn =>
      split at h
      · exact absurd rfl h
      · next hne =>
        rw [if_neg hne, hid, Option.isNone_some, Bool.false_and, if_neg Bool.false_ne_true]
        exact .inl ⟨idx, isInstance, memory, hn, hne, rfl⟩
    · rw [hid]
      exact .inr rfl

/-- A step to another memory state, in which nothing is written, or to what was found before. -/
theorem findStep_next (hF : F.Splitting) (hS : F.Inv S) (hid : G.instanceOf a = some id)
    (hs : F.IsState a n) (h : G.findStep S a n = .next m) :
    Relation.TransGen (F.Quiet a) n m ∨ F.Kept S a n m ∧ Final G S a m := by
  have hne : G.findStep S a n ≠ .stop := by
    rw [h]
    exact nofun
  have hnode := nodeIn_state (S := S) hs
  obtain ⟨idx, isInstance, memory, hn, hidx, hstep⟩ | hstep := findStep_instance hid hne
  · rw [h] at hstep
    cases hstep
    rw [hnode] at hn
    refine .inl (.single ⟨?_, fun x hx hw => hidx ?_⟩)
    · rw [SliceGraph.memoryOf, hn]
    · rw [SliceGraph.writer, hn] at hw
      exact (Option.some.inj (F.mem_writes n _ _ _ x hn hw)).trans hx
  · rw [h, SliceGraph.findInstance, hnode] at hstep
    split at hstep
    · next p hn => exact .inl (.single (quiet_findProj hid hn hstep.symm))
    · next base slices hn =>
      obtain hq | hk := findMergeMem_next hF hS hn hstep.symm
      · exact .inl (.single hq)
      · exact .inr hk
    · split at hstep
      · cases hstep
      · split at hstep <;> cases hstep
    · next dest memory hn =>
      split at hstep
      · next hthrough =>
        cases hstep
        exact .inl (quiet_stepThrough hid hs hn hthrough)
      · cases hstep
    · next idx memory hn =>
      split at hstep
      · cases hstep
      · next hidx =>
        cases hstep
        refine .inl (.single ⟨?_, fun x hx hw => hidx ?_⟩)
        · rw [SliceGraph.memoryOf, hn]
        · rw [SliceGraph.writer, hn] at hw
          exact hx ▸ F.scMemProj_writes n _ _ x hn hw
    · next idx memory hn =>
      split at hstep
      · cases hstep
      · next hidx =>
        cases hstep
        refine .inl (.single ⟨?_, fun x hx hw => hidx ?_⟩)
        · rw [SliceGraph.memoryOf, hn]
        · rw [SliceGraph.writer, hn] at hw
          exact hx ▸ F.strInflatedCopy_writes n _ _ x hn hw
    · cases hstep

/-- A step that takes the only input of a `Phi` stands at a `Phi` of this slice. -/
theorem findStep_unique (hid : G.instanceOf a = some id) (hs : F.IsState a n)
    (h : G.findStep S a n = .unique m) :
    ∃ r k inputs, G.node n = .phi r k inputs ∧ G.uniqueInput n = some m := by
  have hne : G.findStep S a n ≠ .stop := by
    rw [h]
    exact nofun
  obtain ⟨idx, isInstance, memory, hn, hidx, hstep⟩ | hstep := findStep_instance hid hne
  · rw [h] at hstep
    cases hstep
  · rw [h, SliceGraph.findInstance, nodeIn_state hs] at hstep
    split at hstep
    · next p _ =>
      unfold SliceGraph.findProj at hstep
      split at hstep <;> (try split at hstep) <;> cases hstep
    · unfold SliceGraph.findMergeMem at hstep
      split at hstep <;> (try split at hstep) <;> cases hstep
    · next r k inputs hn =>
      split at hstep
      · cases hstep
      · split at hstep
        · next u hu =>
          cases hstep
          exact ⟨r, k, inputs, hn, hu⟩
        · cases hstep
    all_goals first | (split at hstep <;> cases hstep) | cases hstep

/-- A step to the general slice stands at a merge that has nothing else for the instance, so it is
quiet. -/
theorem findStep_general (hF : F.Splitting) (hS : F.Inv S) (hid : G.instanceOf a = some id)
    (hs : F.IsState a n) (h : G.findStep S a n = .general m) :
    ∃ base slices, G.node n = .mergeMem base slices ∧ slices a = base ∧ F.Quiet a n m := by
  have hne : G.findStep S a n ≠ .stop := by
    rw [h]
    exact nofun
  obtain ⟨idx, isInstance, memory, hn, hidx, hstep⟩ | hstep := findStep_instance hid hne
  · rw [h] at hstep
    cases hstep
  · rw [h, SliceGraph.findInstance, nodeIn_state hs] at hstep
    split at hstep
    · next p _ =>
      unfold SliceGraph.findProj at hstep
      split at hstep <;> (try split at hstep) <;> cases hstep
    · next base slices hn => exact ⟨base, slices, hn, findMergeMem_general hF hS hn hstep.symm⟩
    · split at hstep
      · cases hstep
      · split at hstep <;> cases hstep
    all_goals first | (split at hstep <;> cases hstep) | cases hstep

/-- Nothing goes past a `ClearArray` whose allocation is not known. -/
theorem findStep_clearsUnknown (hs : F.IsState a n) (h : ClearsUnknown G n) :
    G.findStep S a n = .stop := by
  obtain ⟨dest, memory, hn, hdest⟩ := h
  unfold SliceGraph.findStep
  rw [nodeIn_state hs, hn]
  split
  · rfl
  · cases hid : G.instanceOf a with
    | none => rfl
    | some id =>
      simp only [SliceGraph.findInstance, nodeIn_state hs, hn, SliceGraph.stepThrough, hdest]

/-- A node that clears an unknown array stops the search. -/
theorem not_clearsUnknown (hs : F.IsState a n) (h : G.findStep S a n ≠ .stop) :
    ¬ ClearsUnknown G n := fun hc => h (findStep_clearsUnknown hs hc)

/-- Where the search ends does not depend on what was split. -/
theorem findStep_stop (hid : G.instanceOf a = some id) (hs : F.IsState a n)
    (h : G.findStep S a n = .stop) : G.findStep S' a n = .stop := by
  unfold SliceGraph.findStep SliceGraph.findInstance at h ⊢
  rw [nodeIn_state hs] at h ⊢
  rw [hid] at h ⊢
  cases hn : G.node n with
  | mergeMem base slices =>
    rw [hn] at h
    simp only [SliceGraph.findMergeMem] at h ⊢
    split at h
    · next hstart => rw [if_pos hstart]
    · next hstart =>
      rw [if_neg hstart]
      split at h
      · next hany => rw [if_pos hany]
      · split at h <;> cases h
  | _ =>
    rw [hn] at h
    exact h

/-! ## `create_split_phi`

The `Phi` is of the slice already, was split for it before, or gets a new one. A new `Phi` has a
number beyond the graph and its slice and region from the start; its inputs come later. -/

/-- The slice of a new `Phi`. -/
theorem phiIdx_split {i : ℕ} {φ : SplitPhi} (h : S.phis[i]? = some φ) :
    G.phiIdx S (G.size + i) = some φ.aliasIdx := by rw [SliceGraph.phiIdx, nodeIn_split h]

/-- The slice of a `Phi` of the graph. -/
theorem phiIdx_state (hs : n < G.size) {k : ℕ} :
    G.phiIdx S n = some k ↔ ∃ r inputs, G.node n = .phi r k inputs := by
  rw [SliceGraph.phiIdx, nodeIn_lt hs]
  constructor
  · intro h
    split at h
    · next r k' inputs hn =>
      cases h
      exact ⟨r, inputs, hn⟩
    · cases h
  · rintro ⟨r, inputs, hn⟩
    rw [hn]

/-- A `Phi` of the slice itself is where the search stops. -/
theorem final_own {r : ℕ} {inputs : List (Option ℕ)} (hn : G.node n = .phi r a inputs) :
    Final G S a n := by
  have hlt : n < G.size := by
    refine SliceGraph.lt_size ?_
    rw [hn]
    exact nofun
  refine .inr ⟨hlt, fun S' => ?_, fun r' k inputs' hn' => ?_⟩
  · unfold SliceGraph.findStep
    rw [nodeIn_lt hlt, hn]
    split
    · rfl
    · cases G.instanceOf a with
      | none => rfl
      | some id => simp only [SliceGraph.findInstance, nodeIn_lt hlt, hn, if_pos]
  · rw [hn] at hn'
    cases hn'
    rfl

/-- A `Phi` at a region that was not there before is one that was made. -/
theorem mem_newPhis {r q : ℕ} (h : q ∈ G.newPhis S r) :
    ∃ i φ, q = G.size + i ∧ S.phis[i]? = some φ ∧ φ.region = r := by
  obtain ⟨i, -, hi⟩ := List.mem_filterMap.1 h
  split at hi
  · next φ hφ =>
    split at hi
    · next hr =>
      cases hi
      exact ⟨i, φ, rfl, hφ, hr⟩
    · cases hi
  · cases hi

/-- A `Phi` that was made is found at its region. -/
theorem newPhis_mem {i : ℕ} {φ : SplitPhi} (h : S.phis[i]? = some φ) :
    G.size + i ∈ G.newPhis S φ.region := by
  refine List.mem_filterMap.2 ⟨i, List.mem_range.2 (List.getElem?_eq_some_iff.1 h).1, ?_⟩
  rw [h]
  exact if_pos rfl

section Create

variable {r k : ℕ} {inputs : List (Option ℕ)} (hs : F.IsState a n) (hn : G.node n = .phi r k inputs)
include hs hn

/-- A `Phi` that was split before, or is of the alias index. -/
theorem createSplitPhi_found (hS : F.Inv S) {q : ℕ} (h : G.createSplitPhi S a n = .found q) :
    F.Kept S a n q ∧ Final G S a q := by
  unfold SliceGraph.createSplitPhi SliceGraph.createSplitPhi.create at h
  rw [nodeIn_state hs, hn] at h
  dsimp only at h
  split at h
  · next hk =>
    cases h
    exact ⟨.refl, final_own (hk ▸ hn)⟩
  · split at h
    · next result hmap =>
      split at h
      · next hidx =>
        cases h
        obtain ⟨i, φ, rfl, hi, horig⟩ := hS.mapPhi n q hmap
        rw [phiIdx_split hi] at hidx
        have ha := Option.some.inj hidx
        obtain ⟨-, k', inputs', hphi⟩ := hS.phis i φ hi
        rw [horig, hn] at hphi
        cases hphi
        exact ⟨.split hn hi rfl ha, .inl ⟨i, φ, rfl, hi, ha⟩⟩
      · split at h
        · next q' hfind =>
          cases h
          have hidx : G.phiIdx S q = some a := by simpa using List.find?_some hfind
          obtain hq | hq := List.mem_append.1 (List.mem_of_find?_eq_some hfind)
          · obtain ⟨k', inputs', hphi⟩ := F.region_phi q r hq
            have hlt : q < G.size := by
              refine SliceGraph.lt_size ?_
              rw [hphi]
              exact nofun
            obtain ⟨r', inputs'', hphi'⟩ := (phiIdx_state hlt).1 hidx
            rw [hphi] at hphi'
            cases hphi'
            exact ⟨.own hn hphi, final_own hphi⟩
          · obtain ⟨i, φ, rfl, hi, hr⟩ := mem_newPhis hq
            rw [phiIdx_split hi] at hidx
            have ha := Option.some.inj hidx
            exact ⟨.split hn hi hr ha, .inl ⟨i, φ, rfl, hi, ha⟩⟩
        · split at h <;> cases h
    · split at h <;> cases h

omit hs hn in
/-- The `Phi` was split for the alias index. -/
def SplitFor (G : SliceGraph) (S : SplitState) (a n : ℕ) : Prop :=
  S.mapPhi n ≠ none ∧ ∃ (i : ℕ) (φ : SplitPhi), S.phis[i]? = some φ ∧ φ.aliasIdx = a ∧
    ∃ k inputs, G.node n = .phi φ.region k inputs

/-- A new `Phi`. -/
theorem createSplitPhi_created {N : ℕ} (h : G.createSplitPhi S a n = .created N S') :
    k ≠ a ∧ N = G.size + S.phis.length ∧ ¬ SplitFor G S a n ∧
      S' = (S.appendOrig n).push ⟨r, a, n, inputs.map fun _ => none⟩ N := by
  unfold SliceGraph.createSplitPhi SliceGraph.createSplitPhi.create at h
  rw [nodeIn_state hs, hn] at h
  dsimp only at h
  split at h
  · cases h
  · next hk =>
    split at h
    · next result hmap =>
      split at h
      · cases h
      · split at h
        · cases h
        · next hfind =>
          split at h
          · cases h
          · cases h
            refine ⟨hk, rfl, fun hsplit => ?_, rfl⟩
            obtain ⟨-, i, φ, hi, ha, k', inputs', hphi⟩ := hsplit
            rw [hn] at hphi
            cases hphi
            have hmem := List.mem_append_right (G.regionPhis φ.region) (newPhis_mem (G := G) hi)
            have hnot := List.find?_eq_none.1 hfind _ hmem
            rw [phiIdx_split hi, ha] at hnot
            exact hnot (beq_self_eq_true _)
    · next hmap =>
      split at h
      · cases h
      · cases h
        exact ⟨hk, rfl, fun hsplit => hsplit.1 hmap, rfl⟩

/-- The creation fails only if the node limit is reached, and then so does the compilation. -/
theorem createSplitPhi_failed (h : G.createSplitPhi S a n = .failed S') : S'.failing = true := by
  unfold SliceGraph.createSplitPhi SliceGraph.createSplitPhi.create at h
  rw [nodeIn_state hs, hn] at h
  dsimp only at h
  split at h
  · cases h
  · split at h
    · split at h
      · cases h
      · split at h
        · cases h
        · split at h
          · cases h
            rfl
          · cases h
    · split at h
      · cases h
        rfl
      · cases h

end Create

/-- Where the search ended there is nothing to split. -/
theorem splitInput_final (h : Final G S a m) : G.splitInput S a m = .found m := by
  unfold SliceGraph.splitInput
  obtain ⟨i, φ, rfl, hi, ha⟩ | ⟨hlt, -, hown⟩ := h
  · rw [nodeIn_split hi]
    dsimp only
    rw [SliceGraph.createSplitPhi, nodeIn_split hi]
    exact if_pos ha
  · rw [nodeIn_lt hlt]
    split
    · next r k inputs hm =>
      rw [SliceGraph.createSplitPhi, nodeIn_lt hlt, hm]
      exact if_pos (hown r k inputs hm)
    · rfl

/-- The loop at the end of a search. -/
theorem findLoop_final (hid : G.instanceOf a = some id) (h : Final G S a m) (fuel : ℕ) :
    G.findLoop a (fuel + 1) m S = some (some m, S) := by
  have hstop : G.findStep S a m = .stop := by
    obtain ⟨i, φ, rfl, hi, ha⟩ | ⟨-, hstop, -⟩ := h
    · unfold SliceGraph.findStep
      rw [nodeIn_split hi, hid]
      split
      · rfl
      · simp only [SliceGraph.findInstance, nodeIn_split hi, if_pos ha]
    · exact hstop S
  have hidx : G.phiIdx S m = none ∨ G.phiIdx S m = some a := by
    obtain ⟨i, φ, rfl, hi, ha⟩ | ⟨hlt, -, hown⟩ := h
    · exact .inr (ha ▸ phiIdx_split hi)
    · cases hk : G.phiIdx S m with
      | none => exact .inl rfl
      | some k =>
        obtain ⟨r, inputs, hm⟩ := (phiIdx_state hlt).1 hk
        exact .inr (congrArg some (hown r k inputs hm))
  rw [SliceGraph.findLoop, hstop]
  obtain hidx | hidx := hidx
  · simp only [hidx]
  · simp only [hidx, hid, Option.isNone_some, Bool.false_eq_true, if_false, if_true]

/-! ## The loops of `split_memory_phi`

The inputs of the new `Phi` are filled in order, with a search for each. In between other `Phi`s may
be made and filled; what is filled stays. -/

variable (F) (a) in
/-- The new `Phi` of `phi` has its inputs up to `idx`. -/
structure Filling (S₀ S : SplitState) (phi r k : ℕ) (inputs : List (Option ℕ)) (idx : ℕ) :
    Prop where
  inv : F.Inv S
  keep : ∀ (i : ℕ) φ, S₀.phis[i]? = some φ → S.phis[i]? = some φ
  mapPhi : ∀ n, S₀.mapPhi n ≠ none → S.mapPhi n ≠ none
  split : SplitFor G S a phi
  made : ∀ (i : ℕ) φ, S₀.phis.length < i → S.phis[i]? = some φ → F.Equivalent S φ
  own : ∃ ins, S.phis[S₀.phis.length]? = some ⟨r, a, phi, ins⟩ ∧ ins.length = inputs.length ∧
    ∀ (j : ℕ) (i i' : Option ℕ), j < idx → inputs[j]? = some i → ins[j]? = some i' →
      Option.Rel (F.Kept S a) i i'
  passed : ∀ e, e ∈ S.passed → e ∈ S₀.passed ∨ F.PassedOver S a e.1 e.2

/-- A `Phi` that has been split stays so. -/
theorem SplitFor.mono (h : SplitFor G S a n) (hkeys : Keys S S')
    (hmap : ∀ n, S.mapPhi n ≠ none → S'.mapPhi n ≠ none) : SplitFor G S' a n := by
  obtain ⟨hn, i, φ, hi, ha, hphi⟩ := h
  obtain ⟨φ', hi', hr', ha', -⟩ := hkeys i φ hi
  exact ⟨hmap n hn, i, φ', hi', ha'.trans ha, hr' ▸ hphi⟩

/-- An input of a new `Phi`. -/
theorem getElem?_setInput (L idx i : ℕ) (mem : Option ℕ) :
    (G.setInput S (G.size + L) idx mem).phis[i]? =
      (S.phis[i]?).map fun φ => if L = i then { φ with inputs := φ.inputs.set idx mem } else φ := by
  rw [SliceGraph.setInput, Nat.add_sub_cancel_left, List.getElem?_modify]
  cases S.phis[i]? with
  | none => rfl
  | some φ => rfl

/-- To set an input changes no region and no slice. -/
theorem keys_setInput (L idx : ℕ) (mem : Option ℕ) :
    Keys S (G.setInput S (G.size + L) idx mem) := by
  intro i φ hi
  rw [getElem?_setInput, hi]
  refine ⟨_, rfl, ?_⟩
  dsimp only
  split <;> exact ⟨rfl, rfl, rfl⟩

/-- And it keeps the invariant. -/
theorem Inv.setInput (h : F.Inv S) (L idx : ℕ) (mem : Option ℕ) :
    F.Inv (G.setInput S (G.size + L) idx mem) := by
  have hkeys : Keys S (G.setInput S (G.size + L) idx mem) := keys_setInput L idx mem
  refine ⟨fun i φ hi => ?_, fun n N hN => ?_, fun n a m hm => ?_, h.failing⟩
  · rw [getElem?_setInput, Option.map_eq_some_iff] at hi
    obtain ⟨φ', hi', rfl⟩ := hi
    split <;> exact h.phis i φ' hi'
  · obtain ⟨i, φ, hN', hi, ho⟩ := h.mapPhi n N hN
    obtain ⟨φ', hi', -, -, ho'⟩ := hkeys i φ hi
    exact ⟨i, φ', hN', hi', ho'.trans ho⟩
  · obtain ⟨hs, hid, hk, hf, hmerge⟩ := h.slots n a m hm
    exact ⟨hs, hid, hk.mono hkeys, hf.mono hkeys, hmerge⟩

namespace Filling

variable {S₀ : SplitState} {phi r k idx : ℕ} {inputs : List (Option ℕ)}

/-- A search in between. -/
theorem search (h : F.Filling a S₀ S phi r k inputs idx) (hpost : F.Post S S' a) :
    F.Filling a S₀ S' phi r k inputs idx where
  inv := hpost.inv
  keep i φ hi := hpost.keep i φ (h.keep i φ hi)
  mapPhi n hn := hpost.mapPhi n (h.mapPhi n hn)
  split := h.split.mono hpost.keys hpost.mapPhi
  made i φ hlt hi := by
    by_cases hle : i < S.phis.length
    · have hS := List.getElem?_eq_getElem hle
      obtain rfl := Option.some.inj ((hpost.keep i _ hS).symm.trans hi)
      exact (h.made i _ hlt hS).mono hpost.keys
    · exact hpost.made i φ (Nat.le_of_not_lt hle) hi
  own := by
    obtain ⟨ins, hown, hlength, hins⟩ := h.own
    refine ⟨ins, hpost.keep _ _ hown, hlength, fun j i i' hj hi hi' => ?_⟩
    cases hins j i i' hj hi hi' with
    | some hk => exact .some (hk.mono hpost.keys)
    | none => exact .none
  passed e he := by
    obtain he | he := hpost.passed e he
    · obtain he | he := h.passed e he
      · exact .inl he
      · exact .inr (he.mono hpost.keys)
    · exact .inr he

/-- The next input. -/
theorem setInput (h : F.Filling a S₀ S phi r k inputs idx) {i mem : Option ℕ}
    (hi : inputs[idx]? = some i) (hrel : Option.Rel (F.Kept S a) i mem) :
    F.Filling a S₀ (G.setInput S (G.size + S₀.phis.length) idx mem) phi r k inputs (idx + 1) := by
  have hkeys : Keys S (G.setInput S (G.size + S₀.phis.length) idx mem) := keys_setInput _ _ _
  have hrel' : ∀ {i i' : Option ℕ}, Option.Rel (F.Kept S a) i i' →
      Option.Rel (F.Kept (G.setInput S (G.size + S₀.phis.length) idx mem) a) i i' := by
    intro i i' hrel
    cases hrel with
    | some hk => exact .some (hk.mono hkeys)
    | none => exact .none
  refine ⟨h.inv.setInput _ _ _, fun i φ hφ => ?_, h.mapPhi, h.split.mono hkeys fun _ hn => hn,
    fun i φ hlt hφ => ?_, ?_, fun e he => ?_⟩
  · have hlt := (List.getElem?_eq_some_iff.1 hφ).1
    rw [getElem?_setInput, h.keep i φ hφ, Option.map_some, if_neg (Nat.ne_of_gt hlt)]
  · rw [getElem?_setInput, Option.map_eq_some_iff] at hφ
    obtain ⟨φ', hφ', rfl⟩ := hφ
    rw [if_neg (Nat.ne_of_lt hlt)]
    exact (h.made i φ' hlt hφ').mono hkeys
  · obtain ⟨ins, hown, hlength, hins⟩ := h.own
    refine ⟨ins.set idx mem, ?_, by rw [List.length_set, hlength], fun j i₁ i₂ hj hi₁ hi₂ => ?_⟩
    · rw [getElem?_setInput, hown, Option.map_some, if_pos rfl]
    · obtain hlt | rfl := Nat.lt_or_eq_of_le (Nat.le_of_lt_succ hj)
      · rw [List.getElem?_set_ne (Nat.ne_of_gt hlt)] at hi₂
        exact hrel' (hins j i₁ i₂ hlt hi₁ hi₂)
      · obtain rfl := Option.some.inj (hi.symm.trans hi₁)
        have hj' : j < ins.length := hlength ▸ (List.getElem?_eq_some_iff.1 hi).1
        rw [List.getElem?_set_self hj'] at hi₂
        obtain rfl := Option.some.inj hi₂
        exact hrel' hrel
  · obtain he | he := h.passed e he
    · exact .inl he
    · exact .inr (he.mono hkeys)

/-- All inputs are there. -/
theorem post (h : F.Filling a S₀ S phi r k inputs idx) (hn : G.node phi = .phi r k inputs)
    (hidx : inputs.length ≤ idx) : F.Post S₀ S a where
  inv := h.inv
  keep := h.keep
  mapPhi := h.mapPhi
  made i φ hle hi := by
    obtain hlt | rfl := Nat.lt_or_eq_of_le hle
    · exact h.made i φ hlt hi
    · obtain ⟨ins, hown, hlength, hins⟩ := h.own
      obtain rfl := Option.some.inj (hown.symm.trans hi)
      refine ⟨k, inputs, hn, hlength, fun j i i' hi₁ hi₂ => hins j i i' ?_ hi₁ hi₂⟩
      exact Nat.lt_of_lt_of_le (List.getElem?_eq_some_iff.1 hi₁).1 hidx
  passed := h.passed

/-- When all inputs are set, the new `Phi` stands for the one it was made for. -/
theorem good (h : F.Filling a S₀ S phi r k inputs idx) (hn : G.node phi = .phi r k inputs)
    (hidx : inputs.length ≤ idx) :
    F.Good S₀ a phi (some (G.size + S₀.phis.length), S) := by
  obtain ⟨ins, hown, -⟩ := h.own
  exact .inr ⟨_, rfl, h.post hn hidx, .split hn hown rfl rfl, .inl ⟨_, _, rfl, hown, rfl⟩⟩

/-- A new `Phi`. -/
theorem create (hS : F.Inv S) (hs : F.IsState a phi) (hn : G.node phi = .phi r k inputs) :
    F.Filling a S ((S.appendOrig phi).push ⟨r, a, phi, inputs.map fun _ => none⟩
      (G.size + S.phis.length)) phi r k inputs 0 := by
  have hkeep : ∀ (i : ℕ) φ, S.phis[i]? = some φ →
      ((S.appendOrig phi).push ⟨r, a, phi, inputs.map fun _ => none⟩
        (G.size + S.phis.length)).phis[i]? = some φ := fun i φ hi =>
    (List.getElem?_append_left (List.getElem?_eq_some_iff.1 hi).1).trans hi
  have hkeys := Keys.of_keep hkeep
  have hown : ((S.appendOrig phi).push ⟨r, a, phi, inputs.map fun _ => none⟩
      (G.size + S.phis.length)).phis[S.phis.length]? =
        some ⟨r, a, phi, inputs.map fun _ => none⟩ := List.getElem?_concat_length
  have hlast : ∀ (i : ℕ) φ, S.phis.length ≤ i →
      ((S.appendOrig phi).push ⟨r, a, phi, inputs.map fun _ => none⟩
        (G.size + S.phis.length)).phis[i]? = some φ → i = S.phis.length := by
    intro i φ hle hi
    have hlt := (List.getElem?_eq_some_iff.1 hi).1
    simp only [SplitState.push, SplitState.appendOrig, List.length_append,
      List.length_singleton] at hlt
    omega
  refine ⟨⟨fun i φ hi => ?_, fun n N hN => ?_, fun n b m hm => ?_, hS.failing⟩, hkeep,
    fun n hne => ?_,
    ⟨?_, S.phis.length, _, hown, rfl, k, inputs, hn⟩, fun i φ hlt hi => ?_,
    ⟨_, hown, List.length_map _, fun j _ _ hj => absurd hj (Nat.not_lt_zero j)⟩,
    fun e he => .inl he⟩
  · by_cases hlt : i < S.phis.length
    · have hφ := List.getElem?_eq_getElem hlt
      obtain rfl := Option.some.inj ((hkeep i _ hφ).symm.trans hi)
      exact hS.phis i _ hφ
    · obtain rfl := hlast i φ (Nat.le_of_not_lt hlt) hi
      obtain rfl := Option.some.inj (hown.symm.trans hi)
      exact ⟨hs, k, inputs, hn⟩
  · by_cases heq : n = phi
    · have hN' : some (G.size + S.phis.length) = some N := (if_pos heq).symm.trans hN
      obtain rfl := Option.some.inj hN'
      exact ⟨_, _, rfl, hown, heq.symm⟩
    · have hN' : S.mapPhi n = some N := (if_neg heq).symm.trans hN
      obtain ⟨i, φ, hNi, hi, ho⟩ := hS.mapPhi n N hN'
      exact ⟨i, φ, hNi, hkeep i φ hi, ho⟩
  · obtain ⟨hstate, hid, hk, hf, hmerge⟩ := hS.slots n b m hm
    exact ⟨hstate, hid, hk.mono hkeys, hf.mono hkeys, hmerge⟩
  · simp only [SplitState.push]
    split
    · exact nofun
    · exact hne
  · simp only [SplitState.push, if_pos]
    exact nofun
  · exact absurd (hlast i φ (Nat.le_of_lt hlt) hi) (Nat.ne_of_gt hlt)

end Filling

end SliceFlow

end StackAllocation
