import StackAllocation.ScanSoundness

/-!
# The search finds what the field holds

The inputs of a new `Phi` are what the field holds on the paths
(`FieldGraph.valueFromMemPhi_sound`), and what `value_from_mem` returns is what it holds in the
memory state (`SsaFlow.valueFromMem_sound`), if the search comes to no `ClearArray` of another
object. Such a one it takes for the start of the field's memory.
-/

namespace StackAllocation

open Dominance

namespace FieldGraph

variable {G : FieldGraph}

/-! ## The new `Phi`s

The search adds `Phi`s of values while it runs. A `Phi` that is begun is known before its inputs are
found, which is how a cycle ends. What is stated of it is then conditional, and holds once all
inputs are set. -/

/-- What a part of the search adds to the new `Phi`s is closed. -/
structure Grows (G : FieldGraph) (T T' : ValuePhis) : Prop where
  keys : ∀ k ∈ T.keys, k ∈ T'.keys
  lookup : ∀ k ∈ T.keys, T'.lookup k = T.lookup k
  closed : ∀ k ∈ T'.keys, k ∉ T.keys → ClosedAt G T' k.1 k.2

section Grows

variable {T T' T'' : ValuePhis} {n : ℕ} {o : ℤ}

/-- What a search has found stays right when it makes more `Phi`s. -/
theorem reads_mono {v : SearchValue} (hkeys : ∀ k ∈ T.keys, k ∈ T'.keys) (h : Reads G T n o v) :
    Reads G T' n o v := by
  induction h with
  | chain h _ ih => exact .chain h ih
  | sentinel h => exact .sentinel h
  | store hn h => exact .store hn h
  | captured hn h hx hv => exact .captured hn h hx hv
  | load hn h hcopy => exact .load hn h hcopy
  | selfCopy hn h hcopy hself hshift _ ih => exact .selfCopy hn h hcopy hself hshift ih
  | newPhi hn h => exact .newPhi hn (hkeys _ h)
  | samePhi hn h => exact .samePhi hn h
  | unique hn h hi _ ih => exact .unique hn h hi ih

/-- A `Phi` that has all its inputs keeps them. -/
theorem closedAt_mono (hkeys : ∀ k ∈ T.keys, k ∈ T'.keys)
    (hlookup : T'.lookup (n, o) = T.lookup (n, o)) (h : ClosedAt G T n o) : ClosedAt G T' n o := by
  obtain ⟨r, inputs, values, hn, hvalues, hreads⟩ := h
  refine ⟨r, inputs, values, hn, hlookup.trans hvalues, fun j i hi => ?_⟩
  obtain ⟨v, hv, hread⟩ := hreads j i hi
  exact ⟨v, hv, reads_mono hkeys hread⟩

theorem Grows.refl (T : ValuePhis) : Grows G T T :=
  ⟨fun _ h => h, fun _ _ => rfl, fun _ h hnot => absurd h hnot⟩

/-- A search that goes on makes more `Phi`s. -/
theorem Grows.trans (h : Grows G T T') (h' : Grows G T' T'') : Grows G T T'' := by
  refine ⟨fun k hk => h'.keys k (h.keys k hk), fun k hk => ?_, fun k hk hnot => ?_⟩
  · exact (h'.lookup k (h.keys k hk)).trans (h.lookup k hk)
  · by_cases hk' : k ∈ T'.keys
    · exact closedAt_mono h'.keys (h'.lookup k hk') (h.closed k hk' hnot)
    · exact h'.closed k hk hk'

/-- A new `Phi` is made, its inputs are found, and then they are set. -/
theorem Grows.setInputs {k : ℕ × ℤ} {values : List SearchValue} (hk : k ∉ T.keys)
    (h : Grows G ⟨k :: T.keys, T.inputs⟩ T')
    (hclosed : ClosedAt G ⟨T'.keys, (k, values) :: T'.inputs⟩ k.1 k.2) :
    Grows G T ⟨T'.keys, (k, values) :: T'.inputs⟩ := by
  have hother : ∀ k', k' ≠ k →
      ValuePhis.lookup ⟨T'.keys, (k, values) :: T'.inputs⟩ k' = T'.lookup k' := by
    intro k' hne
    rw [ValuePhis.lookup, ValuePhis.lookup, List.lookup_cons, beq_false_of_ne hne]
  refine ⟨fun k' hk' => h.keys k' (List.mem_cons_of_mem k hk'), fun k' hk' => ?_, ?_⟩
  · rw [hother k' fun heq => hk (heq ▸ hk')]
    exact h.lookup k' (List.mem_cons_of_mem k hk')
  · intro k' hk' hnot
    by_cases heq : k' = k
    · exact heq ▸ hclosed
    · refine closedAt_mono (T := T') (fun _ hk => hk) (hother k' heq) (h.closed k' hk' ?_)
      exact fun hmem => (List.mem_cons.1 hmem).elim heq hnot

end Grows

section Phis

variable (F : SsaFlow G) {n₀ : ℕ} {o₀ : ℤ} (hclears : G.OwnClears n₀ o₀) {fuel : ℕ} {o : ℤ} {n : ℕ}
  {T T' : ValuePhis} {v : SearchValue}

/-- What a part of the search finds for a memory state and an offset is what the field holds. -/
def FindsAt (G : FieldGraph) (n₀ : ℕ) (o₀ : ℤ) (n : ℕ) (o : ℤ)
    (find : ValuePhis → Option (SearchValue × ValuePhis)) : Prop :=
  Met G n₀ o₀ n o → G.IsOwn n → ∀ T v T', find T = some (v, T') → Grows G T T' ∧ Reads G T' n o v

variable {fromMem : ℕ → ℤ → ValuePhis → Option (SearchValue × ValuePhis)}
  (hfromMem : ∀ m o, FindsAt G n₀ o₀ m o (fromMem m o))

omit hfromMem in
/-- What `make_arraycopy_load` returns. -/
theorem makeArraycopyLoad_cases {ac : CopyNode} {m : ℕ}
    (h : makeArraycopyLoad fromMem n ac o m T = some (v, T')) :
    (ac.isClonebasic = true ∨ ac.mustModify o = true) ∧ ((v = .load n o m ∧ T' = T) ∨
      ∃ d, ac.sameArray = true ∧ ac.shift = some d ∧ fromMem ac.memory (d + o) T = some
        (v, T')) := by
  rw [makeArraycopyLoad] at h
  split at h
  · next hclone =>
    obtain ⟨rfl, rfl⟩ := Prod.mk.inj (Option.some.inj h)
    exact ⟨.inl hclone, .inl ⟨rfl, rfl⟩⟩
  split at h
  · next hmust =>
    refine ⟨.inr hmust, ?_⟩
    split at h
    · next d hshift =>
      split at h
      · next hself => exact .inr ⟨d, hself, hshift, h⟩
      · obtain ⟨rfl, rfl⟩ := Prod.mk.inj (Option.some.inj h)
        exact .inl ⟨rfl, rfl⟩
    · split at h
      · cases h
      · obtain ⟨rfl, rfl⟩ := Prod.mk.inj (Option.some.inj h)
        exact .inl ⟨rfl, rfl⟩
  · cases h

include F hfromMem

/-- The load for an `ArrayCopy`. -/
theorem makeArraycopyLoad_sound {ac : CopyNode} (hs : ¬ G.IsSentinel n)
    (hn : G.node n = .arrayCopy ac) (hmet : Met G n₀ o₀ n o)
    (h : makeArraycopyLoad fromMem n ac o ac.memory T = some (v, T')) :
    Grows G T T' ∧ Reads G T' n o v := by
  obtain ⟨hcopy, ⟨rfl, rfl⟩ | ⟨d, hself, hshift, hmem⟩⟩ := makeArraycopyLoad_cases h
  · exact ⟨.refl T', .load hs hn hcopy⟩
  · have hown := F.above_own n ac.memory (.copy hn hself) fun p hp =>
      ChainNode.noConfusion (hn.symm.trans hp)
    obtain ⟨hgrows, hreads⟩ := hfromMem _ _ (hmet.copy hn hself hshift) hown _ _ _ hmem
    exact ⟨hgrows, .selfCopy hs hn hcopy hself hshift hreads⟩

/-- The value of a node that a path leads to. -/
theorem pathValue_sound {fromPhi : ℕ → ValuePhis → Option (SearchValue × ValuePhis)} {phi : ℕ}
    (hkey : (phi, o) ∈ T.keys) (hfromPhi : ∀ m, ¬ G.IsSentinel m → FindsAt G n₀ o₀ m o (fromPhi m))
    (hs : ¬ G.IsSentinel n) (hstore : G.FieldStore o n) (hmet : Met G n₀ o₀ n o) (hown : G.IsOwn n)
    (h : G.pathValue fromMem fromPhi o phi n T = some (v, T')) :
    Grows G T T' ∧ Reads G T' n o v := by
  rw [pathValue] at h
  split at h
  · next heq =>
    subst heq
    obtain ⟨rfl, rfl⟩ := Prod.mk.inj (Option.some.inj h)
    exact ⟨.refl T, .newPhi hs hkey⟩
  split at h
  · next s off a w m hn =>
    obtain ⟨rfl, rfl⟩ := Prod.mk.inj (Option.some.inj h)
    obtain ⟨rfl, rfl, rfl⟩ := hstore hs s off a w m hn
    exact ⟨.refl T, .store hs hn⟩
  · next parent hn =>
    split at h
    · next hparent =>
      subst hparent
      obtain ⟨rfl, rfl⟩ := Prod.mk.inj (Option.some.inj h)
      have hchain : G.Chain o n G.allocMem :=
        .tail (.single ⟨hs, .proj hn⟩) ⟨F.parent_ne n _ hn, .call F.alloc_node⟩
      exact ⟨.refl T, .chain hchain (.sentinel (.inr rfl))⟩
    · cases h
  · exact hfromPhi n hs hmet hown T v T' h
  · next ac hn => exact makeArraycopyLoad_sound F hfromMem hs hn hmet h
  · cases h

omit hfromMem in
/-- What a path finds at the `Initialize` of the allocation. -/
theorem pathValue_initialize {fromPhi : ℕ → ValuePhis → Option (SearchValue × ValuePhis)}
    {phi r : ℕ}
    {inputs : List (Option ℕ)} (hphi : G.node phi = .phi r inputs) {m z y : ℕ} {c : Bool}
    {st : List CapturedInput} (hs : ¬ G.IsSentinel n)
    (hn : G.node n = .initializeNode (some G.alloc) m c st z)
    (hy : G.findCapturedStore c st z o = some y)
    (h : G.pathValue fromMem fromPhi o phi y T = some (v, T')) :
    Grows G T T' ∧ Reads G T' n o v := by
  rw [pathValue] at h
  obtain ⟨rfl, hx | ⟨rfl, hsame⟩⟩ := findCapturedStore_sound F hn hy
  · obtain ⟨-, s, off, a, w, m', hnode, hw⟩ := capturedNode F hn hx
    have hne : y ≠ phi := by
      rintro rfl
      cases hnode.symm.trans hphi
    rw [if_neg hne, hnode] at h
    obtain ⟨rfl, rfl⟩ := Prod.mk.inj (Option.some.inj h)
    exact ⟨.refl T, .captured hs hn hx hw⟩
  · -- zero memory is the memory projection of the allocation
    have hproj := F.zeroMemory_proj n _ m false st y hn
    have hne : y ≠ phi := by
      rintro rfl
      cases hproj.symm.trans hphi
    rw [if_neg hne, hproj] at h
    dsimp only at h
    rw [if_pos rfl] at h
    obtain ⟨rfl, rfl⟩ := Prod.mk.inj (Option.some.inj h)
    refine ⟨.refl T, .chain (.single ⟨hs, hsame⟩) ?_⟩
    by_cases hsy : G.IsSentinel y
    · exact .sentinel hsy
    · exact .chain (.tail (.single ⟨hsy, .proj hproj⟩)
        ⟨F.parent_ne y _ hproj, .call F.alloc_node⟩) (.sentinel (.inr rfl))

include hclears

/-- The value on a path of a `Phi`. -/
theorem phiInput_sound {fromPhi : ℕ → ValuePhis → Option (SearchValue × ValuePhis)} {phi i r : ℕ}
    {inputs : List (Option ℕ)} (hphi : G.node phi = .phi r inputs) (hkey : (phi, o) ∈ T.keys)
    (hfromPhi : ∀ m, ¬ G.IsSentinel m → FindsAt G n₀ o₀ m o (fromPhi m))
    (hmet : Met G n₀ o₀ i o) (hown : G.IsOwn i)
    (h : G.phiInput fuel fromMem fromPhi o phi i T = some (v, T')) :
    Grows G T T' ∧ Reads G T' i o v := by
  rw [phiInput] at h
  split at h
  · next n hscan =>
    obtain ⟨n', heq, hchain, hownn, hstore, hmetn⟩ := scan_sound F hclears hmet hown hscan
    obtain rfl := Option.some.inj heq
    suffices hn : Grows G T T' ∧ Reads G T' n o v from ⟨hn.1, .chain hchain hn.2⟩
    split at h
    · next hs =>
      obtain ⟨rfl, rfl⟩ := Prod.mk.inj (Option.some.inj h)
      exact ⟨.refl T, .sentinel hs⟩
    next hs =>
    split at h
    · cases h
    next val hval =>
    rw [resolveInitialize] at hval
    split at hval
    · next a m c st z hn =>
      obtain rfl := hownn a m c st z hn
      exact pathValue_initialize F hphi hs hn hval h
    · obtain rfl := Option.some.inj hval
      exact pathValue_sound F hfromMem hkey hfromPhi hs hstore hmetn hownn h
  · cases h

omit F hclears hfromMem in
/-- The values on all paths. -/
theorem phiInputs_sound {one : ℕ → ValuePhis → Option (SearchValue × ValuePhis)} {k : ℕ × ℤ}
    {rest : List (Option ℕ)} {values : List SearchValue}
    (hone : ∀ i, some i ∈ rest → ∀ T v T', k ∈ T.keys → one i T = some (v, T') →
      Grows G T T' ∧ Reads G T' i k.2 v)
    (hk : k ∈ T.keys) (h : phiInputs one rest T = some (values, T')) :
    Grows G T T' ∧ ∀ (j i : ℕ), rest[j]? = some (some i) →
      ∃ v, values[j]? = some v ∧ Reads G T' i k.2 v := by
  induction rest generalizing T values with
  | nil =>
    obtain ⟨rfl, rfl⟩ := Prod.mk.inj (Option.some.inj h)
    exact ⟨.refl T, nofun⟩
  | cons input rest ih =>
    have htail := fun i hi => hone i (List.mem_cons_of_mem input hi)
    cases input with
    | none =>
      rw [phiInputs] at h
      obtain ⟨⟨values', T₁⟩, hrest, heq⟩ := Option.map_eq_some_iff.1 h
      obtain ⟨rfl, rfl⟩ := Prod.mk.inj heq
      obtain ⟨hgrows, hreads⟩ := ih htail hk hrest
      refine ⟨hgrows, fun j i hi => ?_⟩
      cases j with
      | zero => cases hi
      | succ j => exact hreads j i hi
    | some i =>
      rw [phiInputs] at h
      split at h
      · cases h
      next v T₁ hv =>
      obtain ⟨⟨values', T₂⟩, hrest, heq⟩ := Option.map_eq_some_iff.1 h
      obtain ⟨rfl, rfl⟩ := Prod.mk.inj heq
      obtain ⟨hgrows, hread⟩ := hone i List.mem_cons_self T v T₁ hk hv
      obtain ⟨hgrows', hreads⟩ := ih htail (hgrows.keys k hk) hrest
      refine ⟨hgrows.trans hgrows', fun j i' hi => ?_⟩
      cases j with
      | zero =>
        obtain rfl := Option.some.inj (Option.some.inj hi)
        exact ⟨v, rfl, reads_mono hgrows'.keys hread⟩
      | succ j => exact hreads j i' hi

omit F hclears hfromMem in
/-- A `Phi` that is there already. -/
theorem existingPhi_sound (hs : ¬ G.IsSentinel n) (h : G.existingPhi o n T = some v) :
    Reads G T n o v := by
  rw [existingPhi] at h
  split at h
  · next p hp =>
    obtain rfl := Option.some.inj h
    exact .samePhi hs hp
  · split at h
    · next hkey =>
      obtain rfl := Option.some.inj h
      exact .newPhi hs hkey
    · cases h

omit F hclears hfromMem in
/-- There is no `Phi` yet, neither in the graph nor made by the search. -/
theorem existingPhi_eq_none (h : G.existingPhi o n T = none) :
    G.samePhi n o = none ∧ (n, o) ∉ T.keys := by
  rw [existingPhi] at h
  split at h
  · cases h
  · next hsame =>
    refine ⟨hsame, fun hkey => ?_⟩
    rw [if_pos hkey] at h
    cases h

/-- `value_from_mem_phi` makes `Phi`s of what the field holds. -/
theorem valueFromMemPhi_sound (level : ℕ) (hs : ¬ G.IsSentinel n) :
    FindsAt G n₀ o₀ n o (G.valueFromMemPhi fuel fromMem o level n) := by
  intro hmet hown T v T' h
  induction level generalizing n T v T' with
  | zero =>
    obtain ⟨w, hw, heq⟩ := Option.map_eq_some_iff.1 h
    obtain ⟨rfl, rfl⟩ := Prod.mk.inj heq
    exact ⟨.refl T, existingPhi_sound hs hw⟩
  | succ level ih =>
    rw [valueFromMemPhi] at h
    split at h
    · next w hw =>
      obtain ⟨rfl, rfl⟩ := Prod.mk.inj (Option.some.inj h)
      exact ⟨.refl T, existingPhi_sound hs hw⟩
    next hnone =>
    split at h
    · next r inputs hn =>
      obtain ⟨⟨values, T₁⟩, hinputs, heq⟩ := Option.map_eq_some_iff.1 h
      obtain ⟨rfl, rfl⟩ := Prod.mk.inj heq
      obtain ⟨hsame, hnew⟩ := existingPhi_eq_none hnone
      have hone : ∀ i, some i ∈ inputs → ∀ T v T', (n, o) ∈ T.keys →
          G.phiInput fuel fromMem (G.valueFromMemPhi fuel fromMem o level) o n i T = some (v, T') →
          Grows G T T' ∧ Reads G T' i o v := by
        intro i hi T v T' hkey hv
        refine phiInput_sound F hclears hfromMem hn hkey ?_ (hmet.phi hn (.inr ⟨hi, hsame⟩)) ?_ hv
        · exact fun m hm hmet hown T v T' => ih hm hmet hown T v T'
        · exact F.above_own n i (.phi hn hi) fun p hp => ChainNode.noConfusion (hn.symm.trans hp)
      obtain ⟨hgrows, hreads⟩ := phiInputs_sound (k := (n, o)) hone List.mem_cons_self hinputs
      have hself : (n, o) ∈ T₁.keys := hgrows.keys _ List.mem_cons_self
      refine ⟨hgrows.setInputs hnew ⟨r, inputs, values, hn, ?_, fun j i hi => ?_⟩, .newPhi hs hself⟩
      · rw [ValuePhis.lookup, List.lookup_cons_self]
      · obtain ⟨v, hv, hread⟩ := hreads j i hi
        exact ⟨v, hv, reads_mono (T := T₁) (fun _ hk => hk) hread⟩
    · cases h

end Phis

/-! ## `value_from_mem`

The loop ends at a node, and what is returned for this node is one of the cases of `Reads`. A load
for an uncommon trap is made from another memory, which is kept in `Pins`. -/

section Mem

/-- The memory states that the loads of an uncommon trap are pinned to. -/
inductive Pinned (G : FieldGraph) (n₀ : ℕ) (o₀ : ℤ) : ℕ → Prop
  | start : Pinned G n₀ o₀ n₀
  | copy {n o ac} (h : Met G n₀ o₀ n o) (hn : G.node n = .arrayCopy ac)
    (hself : ac.sameArray = true) : Pinned G n₀ o₀ ac.memory

/-- A value, but if it is loaded, from a memory state that it is pinned to. -/
inductive Pins (G : FieldGraph) (n₀ : ℕ) (o₀ : ℤ) : SearchValue → SearchValue → Prop
  | load {n o ac m} (h : Met G n₀ o₀ n o) (hn : G.node n = .arrayCopy ac)
    (hm : Pinned G n₀ o₀ m) : Pins G n₀ o₀ (.load n o m) (.load n o ac.memory)

variable (F : SsaFlow G) {n₀ : ℕ} {o₀ : ℤ} (hclears : G.OwnClears n₀ o₀) {fuel : ℕ} {o : ℤ} {n : ℕ}
  {T T' : ValuePhis} {v : SearchValue}

/-- A search that stands at its start. -/
theorem Leads.refl (hmet : Met G n₀ o₀ n o) (hown : G.IsOwn n) : Leads G n₀ o₀ o n n :=
  ⟨fun _ _ h => h, hmet, hown⟩

include F hclears

/-- The node that the loop of `value_from_mem` ends with. -/
theorem searchStart_sound {mem x : ℕ} (hmet : Met G n₀ o₀ mem o) (hown : G.IsOwn mem)
    (h : (if mem = G.allocMem then some (some mem) else G.searchMem fuel o fuel [] mem) =
      some (some x)) :
    ∃ y, Leads G n₀ o₀ o mem y ∧ G.FieldStore o y ∧ (x = y ∨ ¬ G.IsSentinel y ∧
      ∃ m st z, G.node y = .initializeNode (some G.alloc) m false st z ∧
        .store o G.fieldSize x ∈ st) := by
  split at h
  · next hmem =>
    obtain rfl := Option.some.inj (Option.some.inj h)
    exact ⟨mem, Leads.refl hmet hown, fun hs => absurd (.inr hmem) hs, .inl rfl⟩
  · exact searchMem_sound F hclears hmet hown h

/-- `value_from_mem` finds what the field holds, but for where its loads are pinned. -/
theorem valueFromMem_finds (depth : ℕ) (trap : Bool) {mem : ℕ}
    (hpinned : trap = true → Pinned G n₀ o₀ mem) (hmet : Met G n₀ o₀ mem o) (hown : G.IsOwn mem)
    (h : G.valueFromMem fuel depth trap mem o T = some (v, T')) :
    Grows G T T' ∧ ∃ v', Reads G T' mem o v' ∧ (v = v' ∨ trap = true ∧ Pins G n₀ o₀ v v') := by
  -- on how deep it calls itself
  induction depth generalizing trap mem o T T' v with
  | zero => cases h
  | succ depth ih =>
    have hfromMem : ∀ m o, FindsAt G n₀ o₀ m o (G.valueFromMem fuel depth false m o) := by
      intro m o hmet hown T v T' h
      obtain ⟨hgrows, v', hreads, rfl | ⟨htrap, -⟩⟩ := ih false nofun hmet hown h
      · exact ⟨hgrows, hreads⟩
      · cases htrap
    rw [valueFromMem] at h
    split at h
    · next x hsearch =>
      obtain ⟨y, hleads, hstore, rfl | ⟨hsy, m, st, z, hy, hx⟩⟩ :=
        searchStart_sound F hclears hmet hown hsearch
      · suffices hfound : Grows G T T' ∧
            ∃ v', Reads G T' x o v' ∧ (v = v' ∨ trap = true ∧ Pins G n₀ o₀ v v') by
          obtain ⟨hgrows, v', hreads, hv⟩ := hfound
          exact ⟨hgrows, v', hleads.reads T' v' hreads, hv⟩
        split at h
        · next hs =>
          obtain ⟨rfl, rfl⟩ := Prod.mk.inj (Option.some.inj h)
          exact ⟨.refl T, .zero, .sentinel hs, .inl rfl⟩
        next hs =>
        split at h
        · next s off a w m hx =>
          obtain ⟨rfl, rfl⟩ := Prod.mk.inj (Option.some.inj h)
          obtain ⟨rfl, rfl, rfl⟩ := hstore hs s off a w m hx
          exact ⟨.refl T, .node w, .store hs hx, .inl rfl⟩
        · obtain ⟨hgrows, hreads⟩ := valueFromMemPhi_sound F hclears hfromMem G.valueSearchLimit hs
            hleads.met hleads.own T v T' h
          exact ⟨hgrows, v, hreads, .inl rfl⟩
        · next ac hx =>
          obtain ⟨hcopy, ⟨rfl, rfl⟩ | ⟨d, hself, hshift, hmem⟩⟩ := makeArraycopyLoad_cases h
          · refine ⟨.refl T', .load x o ac.memory, .load hs hx hcopy, ?_⟩
            cases trap with
            | false => exact .inl rfl
            | true => exact .inr ⟨rfl, .load hleads.met hx (hpinned rfl)⟩
          · have hownm := F.above_own x ac.memory (.copy hx hself) fun p hp =>
              ChainNode.noConfusion (hx.symm.trans hp)
            obtain ⟨hgrows, v', hreads, hv⟩ := ih trap (fun _ => .copy hleads.met hx hself)
              (hleads.met.copy hx hself hshift) hownm hmem
            exact ⟨hgrows, v', .selfCopy hs hx hcopy hself hshift hreads, hv⟩
        · cases h
      · obtain ⟨hsx, s, off, a, w, m', hnode, hw⟩ := capturedNode F hy hx
        rw [if_neg hsx, hnode] at h
        obtain ⟨rfl, rfl⟩ := Prod.mk.inj (Option.some.inj h)
        exact ⟨.refl T, .node w, hleads.reads T _ (.captured hsy hy hx hw), .inl rfl⟩
    · cases h

end Mem

end FieldGraph

/-! ## In every execution

The value that is returned is what the field holds, in every execution that has come to the memory
state. Loads that are pinned have to find unchanged what was copied. -/

open FieldGraph

/-- Between a copy that a search for the field in `mem` comes to and where a load of what was copied
is pinned, the load's location is not written. -/
def FieldState.Unwritten (s : FieldState) (G : FieldGraph) (mem : ℕ) (o : ℤ) : Prop :=
  ∀ n off ac m, Met G mem o n off → G.node n = .arrayCopy ac → Pinned G mem o m →
    s.heap m (s.source n off).1 (s.source n off).2 =
      s.heap ac.memory (s.source n off).1 (s.source n off).2

/-- A load that is pinned loads what was copied. -/
theorem FieldState.value_pins {s : FieldState} {G : FieldGraph} {mem : ℕ} {o : ℤ}
    (h : s.Unwritten G mem o) {v v' : SearchValue} (hpins : Pins G mem o v v') :
    s.value v = s.value v' ∧ v ≠ .zero := by
  obtain ⟨hmet, hn, hm⟩ := hpins
  refine ⟨?_, nofun⟩
  rw [FieldState.value, FieldState.value, h _ _ _ _ hmet hn hm]

/-- In every execution that reaches a memory state with the allocation behind it, `value_from_mem`
has returned what the field holds there, and the zero constant only if nothing wrote the field. -/
theorem SsaFlow.valueFromMem_sound {G : FieldGraph} (F : SsaFlow G) {fuel depth mem : ℕ}
    {trap : Bool}
    {o : ℤ} {v : SearchValue} {T : ValuePhis} (hown : G.IsOwn mem) (hmem : F.Anchored mem)
    (hclears : G.OwnClears mem o)
    (h : G.valueFromMem fuel depth trap mem o .empty = some (v, T)) {p : ℕ} {l : List ℕ}
    {s : FieldState} (hexec : F.Exec T (p :: l) s) (hA : F.Available G.alloc p)
    (hp : F.Available mem p) (htrap : trap = true → s.Unwritten G mem o) :
    s.value v = (s.cell mem o).getD 0 ∧ (v = .zero → s.cell mem o = none) := by
  obtain ⟨hgrows, v', hreads, hv⟩ :=
    valueFromMem_finds F hclears depth trap (fun _ => .start) .start hown h
  have hclosed : ∀ k ∈ T.keys, ClosedAt G T k.1 k.2 :=
    fun k hk => hgrows.closed k hk List.not_mem_nil
  have hholds := reads_sound hclosed hreads hmem hexec hA hp
  obtain rfl | ⟨rfl, hpins⟩ := hv
  · exact hholds
  · obtain ⟨hvalue, hne⟩ := FieldState.value_pins (htrap rfl) hpins
    exact ⟨hvalue.trans hholds.1, fun heq => absurd heq hne⟩

/-! ## An object on the stack is cleared after the field is stored to

The memory of another allocation is cleared after the store, and the search takes the node for the
start of its own object. -/

/-- The allocation 1 and its `Initialize` 2, a store to its field, a call, and then a stack
allocated object is cleared, of which `Ideal_allocation` finds no allocation. -/
def clearedGraph : FieldGraph where
  node n :=
    match n with
    | 1 => .call 0
    | 2 => .initializeNode (some 1) 3 false [] 3
    | 3 => .proj 1
    | 4 => .store true 16 1 9 13
    | 5 => .call 4
    | 6 => .proj 5
    | 7 => .clearArray 10 6
    | 8 => .memBar 7 none
    | 11 => .proj 8
    | 13 => .proj 2
    | _ => .other
  alloc := 1
  startMem := 0
  allocMemory := fun _ => 0
  idealAllocation := fun _ => none
  initialization := fun _ => some 2
  fieldSize := 8
  fieldSize_pos := Nat.add_pos_right 7 Nat.one_pos
  minimumHeaderSize := 16
  tiLimit := 1000
  samePhi := fun _ _ => none
  valueSearchLimit := 8

/-- The nodes are made one after the other. -/
def clearedBlock (n : ℕ) : ℕ :=
  match n with
  | 1 | 3 => 1
  | 2 | 13 => 2
  | 4 => 3
  | 5 | 6 => 4
  | 7 | 8 | 11 => 5
  | _ => 0

/-- The memory that each memory state is made from. -/
def clearedMemories : List (ℕ × ℕ) :=
  [(1, 0), (2, 3), (3, 1), (4, 13), (5, 4), (6, 5), (7, 6), (8, 7), (11, 8), (13, 2)]

/-- The nodes of the graph. -/
theorem node_clearedGraph {n : ℕ} {x : ChainNode} (h : clearedGraph.node n = x) :
    x = .other ∨ (n = 2 ∧ x = .initializeNode (some 1) 3 false [] 3) ∨
      (n = 4 ∧ x = .store true 16 1 9 13) ∨ (n = 7 ∧ x = .clearArray 10 6) ∨
      ∃ m, ((n, m) ∈ clearedMemories ∧ n ≠ 4) ∧
        (x = .call m ∨ x = .proj m ∨ x = .memBar m none) := by
  subst h
  rw [clearedGraph]
  dsimp only
  split
  all_goals simp [clearedMemories]

/-- The states that have the field as the state before. -/
theorem same_clearedGraph {o : ℤ} {n m : ℕ} (h : clearedGraph.Same o n m) :
    (n, m) ∈ clearedMemories ∧ (n = 4 → o ≠ 16) := by
  have hpath : ∀ {k}, ((n, k) ∈ clearedMemories ∧ n ≠ 4) → (n, k) ∈ clearedMemories ∧
    (n = 4 → o ≠ 16) :=
    fun h => ⟨h.1, fun heq => absurd heq h.2⟩
  cases h with
  | proj hn | call hn | memBar hn =>
    obtain heq | ⟨-, heq⟩ | ⟨-, heq⟩ | ⟨-, heq⟩ | ⟨k, hk, heq | heq | heq⟩ := node_clearedGraph hn
    all_goals cases heq
    exact hpath hk
  | otherInitialize hn ha =>
    obtain heq | ⟨-, heq⟩ | ⟨-, heq⟩ | ⟨-, heq⟩ | ⟨k, hk, heq | heq | heq⟩ := node_clearedGraph hn
    all_goals cases heq
    exact absurd rfl ha
  | uncaptured hn _ =>
    obtain heq | ⟨rfl, heq⟩ | ⟨-, heq⟩ | ⟨-, heq⟩ | ⟨k, hk, heq | heq | heq⟩ := node_clearedGraph hn
    all_goals cases heq
    exact ⟨by decide, nofun⟩
  | store hn hne =>
    obtain heq | ⟨-, heq⟩ | ⟨rfl, heq⟩ | ⟨-, heq⟩ | ⟨k, hk, heq | heq | heq⟩ := node_clearedGraph hn
    all_goals cases heq
    exact ⟨by decide, fun _ ho => hne ⟨rfl, ho.symm, rfl⟩⟩
  | clearOther hn _ =>
    obtain heq | ⟨-, heq⟩ | ⟨-, heq⟩ | ⟨rfl, heq⟩ | ⟨k, hk, heq | heq | heq⟩ := node_clearedGraph hn
    all_goals cases heq
    exact ⟨by decide, nofun⟩
  | clearOwn _ ha => cases ha
  | clearOwn' _ ha => cases ha
  | mergeMem hn | arrayCopy hn | clone hn | scMemProj hn | strInflatedCopy hn =>
    obtain heq | ⟨-, heq⟩ | ⟨-, heq⟩ | ⟨-, heq⟩ | ⟨k, hk, heq | heq | heq⟩ := node_clearedGraph hn
    all_goals cases heq

/-- The states before a state. -/
theorem above_clearedGraph {n m : ℕ} (h : clearedGraph.Above n m) : (n, m) ∈ clearedMemories := by
  cases h with
  | same h => exact (same_clearedGraph h).1
  | phi hn | copy hn =>
    obtain heq | ⟨-, heq⟩ | ⟨-, heq⟩ | ⟨-, heq⟩ | ⟨k, hk, heq | heq | heq⟩ := node_clearedGraph hn
    all_goals cases heq

/-- Nothing else is on its runs. -/
theorem mem_run_line {n : ℕ} {l : List ℕ} (h : Run (fun b c => c = b + 1) 0 (n :: l)) {m : ℕ}
    (hm : m ≤ n) : m ∈ n :: l := by
  induction n generalizing l with
  | zero =>
    obtain rfl := Nat.le_zero.1 hm
    exact List.mem_cons_self
  | succ n ih =>
    obtain rfl | hlt := Nat.eq_or_lt_of_le hm
    · exact List.mem_cons_self
    · cases h with
      | step h hedge =>
        obtain rfl := Nat.succ.inj hedge
        exact List.mem_cons_of_mem _ (ih h (Nat.le_of_lt_succ hlt))

/-- A state depends on states of the same block or those before it. -/
theorem depends_clearedGraph {n m : ℕ} (h : clearedGraph.Depends n m) :
    clearedBlock m ≤ clearedBlock n := by
  have hmemories : ∀ q ∈ clearedMemories, clearedBlock q.2 ≤ clearedBlock q.1 := by decide
  cases h with
  | same h => exact hmemories _ (same_clearedGraph h).1
  | value hn =>
    obtain heq | ⟨-, heq⟩ | ⟨rfl, heq⟩ | ⟨-, heq⟩ | ⟨k, hk, heq | heq | heq⟩ := node_clearedGraph hn
    all_goals cases heq
    decide
  | captured hn hx =>
    obtain heq | ⟨-, heq⟩ | ⟨-, heq⟩ | ⟨-, heq⟩ | ⟨k, hk, heq | heq | heq⟩ := node_clearedGraph hn
    all_goals cases heq
    exact absurd hx List.not_mem_nil
  | copy hn =>
    obtain heq | ⟨-, heq⟩ | ⟨-, heq⟩ | ⟨-, heq⟩ | ⟨k, hk, heq | heq | heq⟩ := node_clearedGraph hn
    all_goals cases heq

/-- The initialization has no captured stores. -/
theorem initialize_clearedGraph {n m z : ℕ} {a : Option ℕ} {c : Bool} {st : List CapturedInput}
    (h : clearedGraph.node n = .initializeNode a m c st z) : a = some 1 ∧ st = [] ∧ z = 3 := by
  obtain heq | ⟨-, heq⟩ | ⟨-, heq⟩ | ⟨-, heq⟩ | ⟨k, hk, heq | heq | heq⟩ := node_clearedGraph h
  all_goals cases heq
  exact ⟨rfl, rfl, rfl⟩

/-- All states are of the object. -/
theorem own_clearedGraph (n : ℕ) : clearedGraph.IsOwn n :=
  fun _ _ _ _ _ h => (initialize_clearedGraph h).1

/-- It has no other memory states. -/
theorem node_clearedGraph_ne (n : ℕ) : (∀ r inputs, clearedGraph.node n ≠ .phi r inputs) ∧
    (∀ ac, clearedGraph.node n ≠ .arrayCopy ac) ∧ (∀ i m, clearedGraph.node n ≠ .scMemProj i m) ∧
    (∀ i m, clearedGraph.node n ≠ .strInflatedCopy i m) ∧
    (∀ m ac, clearedGraph.node n ≠ .memBar m (some ac)) ∧ clearedGraph.node n ≠ .top := by
  rw [clearedGraph]
  dsimp only
  split
  all_goals exact ⟨nofun, nofun, nofun, nofun, nofun, nofun⟩

/-- The control flow is one line. -/
def clearedFlow : SsaFlow clearedGraph where
  flow b c := c = b + 1
  start := 0
  defAt := clearedBlock
  preds := fun _ => []
  alloc_ne_start := by decide
  depends_dominates := fun _ _ h _ hrun => mem_run_line hrun (depends_clearedGraph h)
  defAt_phi := fun n r inputs h => absurd h ((node_clearedGraph_ne n).1 r inputs)
  phi_edge := fun n r inputs _ h => absurd h ((node_clearedGraph_ne n).1 r inputs)
  phi_dominates := fun n r inputs _ _ _ h => absurd h ((node_clearedGraph_ne n).1 r inputs)
  defAt_samePhi := nofun
  sentinel_dominates := by
    rintro n (rfl | rfl) l hrun
    · exact mem_run_line hrun (Nat.zero_le 1)
    · exact mem_run_line hrun (Nat.zero_le 1)
  passes := by
    intro n m habove hn _
    have hall : ∀ q ∈ clearedMemories, q.2 = 0 ∨ 1 ≤ clearedBlock q.2 := by decide
    obtain rfl | hm := hall _ (above_clearedGraph habove)
    · exact .inl (.inl rfl)
    · exact .inr fun l hrun => mem_run_line hrun hm
  parent_ne := by
    intro n p h hs
    obtain rfl : p = 0 := hs.elim id id
    revert h
    rw [clearedGraph]
    dsimp only
    split
    all_goals nofun
  above_own := fun _ m _ _ => own_clearedGraph m
  initialization_node := by
    intro i hi
    obtain rfl := Option.some.inj hi
    exact ⟨3, false, [], 3, rfl⟩
  clone_node := fun n m ac h => absurd h ((node_clearedGraph_ne n).2.2.2.2.1 m _)
  alloc_node := rfl
  scalar_replaceable := by
    intro n m
    obtain ⟨-, -, hsc, hstr, hbar, -⟩ := node_clearedGraph_ne n
    exact ⟨hsc true m, hstr true m, hbar m none⟩
  top_dead := fun n _ h => absurd h (node_clearedGraph_ne n).2.2.2.2.2
  zeroMemory_proj := by
    intro n a m c st z h
    obtain ⟨ha, -, rfl⟩ := initialize_clearedGraph h
    obtain rfl := Option.some.inj ha
    rfl
  captured_store := by
    intro n a m c st z off size x h hx
    obtain ⟨-, rfl, -⟩ := initialize_clearedGraph h
    exact absurd hx List.not_mem_nil
  captured_sorted := by
    intro n a m c st z h
    obtain ⟨-, rfl, -⟩ := initialize_clearedGraph h
    exact .nil

/-- The field holds 5 from the store on. -/
def clearedState (k : ℕ) : FieldState where
  env := fun _ => 5
  heap n _ o := if o = 16 ∧ 3 ≤ clearedBlock n ∧ clearedBlock n ≤ k then some 5 else none
  obj := 0
  source := fun _ _ => (0, 0)
  phis := fun _ _ => 0

/-- The field has the value that was stored, from the store on; the object that is cleared later is
another one. -/
theorem cell_clearedState {k n : ℕ} {o : ℤ} (h : clearedBlock n ≤ k) :
    (clearedState k).cell n o = if o = 16 ∧ 3 ≤ clearedBlock n then some 5 else none := by
  rw [FieldState.cell, clearedState]
  simp only [h, and_true]

/-- Each block takes the state to the next. -/
theorem step_clearedState (k : ℕ) :
    clearedFlow.Step .empty k (k + 1) (clearedState k) (clearedState (k + 1)) where
  env := fun _ _ => rfl
  heap := by
    intro n hn
    funext b o
    have hiff : clearedBlock n ≤ k + 1 ↔ clearedBlock n ≤ k :=
      ⟨fun h => Nat.le_of_lt_succ (Nat.lt_of_le_of_ne h hn), Nat.le_succ_of_le⟩
    rw [clearedState, clearedState]
    simp only [hiff]
  source := fun _ _ => rfl
  phis := fun _ _ => rfl
  obj := fun _ => rfl
  fresh := by
    intro hk n o
    obtain rfl : 0 = k := Nat.succ.inj hk
    exact if_neg fun h => absurd (Nat.le_trans h.2.1 h.2.2) (by decide)
  same := by
    intro o n m hn hsame
    obtain ⟨hmem, hfour⟩ := same_clearedGraph hsame
    have hall : ∀ q ∈ clearedMemories, clearedBlock q.2 ≤ clearedBlock q.1 ∧
        (q.1 ≠ 4 → (3 ≤ clearedBlock q.1 ↔ 3 ≤ clearedBlock q.2)) := by decide
    obtain ⟨hle, hiff⟩ := hall _ hmem
    have hnk : clearedBlock n ≤ k + 1 := Nat.le_of_eq hn
    rw [cell_clearedState hnk, cell_clearedState (Nat.le_trans hle hnk)]
    by_cases ho : o = 16
    · have hne : n ≠ 4 := fun heq => hfour heq ho
      simp only [hiff hne]
    · rw [if_neg fun h => ho h.1, if_neg fun h => ho h.1]
  store := by
    intro o n v m hn h
    obtain heq | ⟨-, heq⟩ | ⟨rfl, heq⟩ | ⟨-, heq⟩ | ⟨k, hk, heq | heq | heq⟩ := node_clearedGraph h
    all_goals cases heq
    have hk : clearedBlock 4 ≤ k + 1 := Nat.le_of_eq hn
    rw [cell_clearedState hk]
    rfl
  captured := by
    intro o n m st z x v _ h hx
    obtain ⟨-, rfl, -⟩ := initialize_clearedGraph h
    exact absurd hx List.not_mem_nil
  copy := fun _ n ac _ h => absurd h ((node_clearedGraph_ne n).2.1 ac)
  selfCopy := fun _ n ac _ _ h => absurd h ((node_clearedGraph_ne n).2.1 ac)
  samePhi := nofun
  phi := ⟨0, fun n inputs h => absurd h ((node_clearedGraph_ne n).1 _ inputs), nofun⟩

/-- So the five blocks are an execution. -/
theorem exec_clearedState : clearedFlow.Exec .empty [5, 4, 3, 2, 1, 0] (clearedState 5) := by
  have hstart : clearedFlow.Exec .empty [0] (clearedState 0) := .start trivial
  have h1 := hstart.step rfl (step_clearedState 0)
  have h2 := h1.step rfl (step_clearedState 1)
  have h3 := h2.step rfl (step_clearedState 2)
  have h4 := h3.step rfl (step_clearedState 3)
  exact h4.step rfl (step_clearedState 4)

/-- At its end all states have been made. -/
theorem available_clearedGraph {n : ℕ} (h : clearedBlock n ≤ 5) : clearedFlow.Available n 5 :=
  fun _ hrun => mem_run_line hrun h

/-- The store is found where no object has been cleared yet. -/
theorem valueFromMem_clearedGraph :
    clearedGraph.valueFromMem 20 1 true 6 16 .empty = some (.node 9, .empty) ∧
      (clearedState 5).value (.node 9) = ((clearedState 5).cell 6 16).getD 0 := by
  have hmet : ∀ n o, Met clearedGraph 6 16 n o → o = 16 ∧ (n = 6 ∨ n = 4) := by
    intro n o h
    induction h with
    | start => exact ⟨rfl, .inl rfl⟩
    | next _ hstep ih =>
      obtain ⟨rfl, rfl | rfl⟩ := ih
      · exact ⟨rfl, .inr (ScanStep.next.inj hstep).symm⟩
      · cases hstep
    | stop _ hstep ih =>
      obtain ⟨rfl, rfl | rfl⟩ := ih
      · cases hstep
      · exact ⟨rfl, .inr (Option.some.inj (ScanStep.stop.inj hstep)).symm⟩
    | captured _ hm ih =>
      obtain ⟨rfl, rfl | rfl⟩ := ih
      · exact ⟨rfl, .inl (Option.some.inj hm).symm⟩
      · exact ⟨rfl, .inr (Option.some.inj hm).symm⟩
    | phi _ hn => exact absurd hn ((node_clearedGraph_ne _).1 _ _)
    | copy _ hn => exact absurd hn ((node_clearedGraph_ne _).2.1 _)
  have hclears : clearedGraph.OwnClears 6 16 := by
    intro n o dest m h hn
    obtain ⟨-, rfl | rfl⟩ := hmet n o h
    · cases hn
    · cases hn
  have hfound : clearedGraph.valueFromMem 20 1 true 6 16 .empty = some (.node 9, .empty) := rfl
  refine ⟨hfound, ?_⟩
  refine (clearedFlow.valueFromMem_sound (own_clearedGraph 6) (.inr ?_) hclears hfound
    exec_clearedState ?_ ?_ ?_).1
  · exact fun l hrun => mem_run_line hrun (show 1 ≤ 4 by decide)
  · exact available_clearedGraph (show clearedBlock 1 ≤ 5 by decide)
  · exact available_clearedGraph (show clearedBlock 6 ≤ 5 by decide)
  · exact fun _ n _ ac _ _ h => absurd h ((node_clearedGraph_ne n).2.1 ac)

/-- After that it is taken for the start of the field's memory, and the search returns zero. -/
theorem not_valueFromMem_sound_clearedGraph :
    clearedGraph.valueFromMem 20 1 true 11 16 .empty = some (.zero, .empty) ∧
      clearedGraph.IsOwn 11 ∧ clearedFlow.Anchored 11 ∧
      clearedFlow.Exec .empty [5, 4, 3, 2, 1, 0] (clearedState 5) ∧ clearedFlow.Available 1 5 ∧
      clearedFlow.Available 11 5 ∧ (clearedState 5).Unwritten clearedGraph 11 16 ∧
      ¬ ((clearedState 5).value .zero = ((clearedState 5).cell 11 16).getD 0) ∧
      (clearedState 5).cell 11 16 = some 5 := by
  refine ⟨rfl, own_clearedGraph 11, .inr ?_, exec_clearedState, ?_, ?_, ?_, ?_, rfl⟩
  · exact available_clearedGraph (by decide)
  · exact available_clearedGraph (by decide)
  · exact available_clearedGraph (by decide)
  · exact fun n _ ac _ _ h => absurd h ((node_clearedGraph_ne n).2.1 ac)
  · decide

end StackAllocation
