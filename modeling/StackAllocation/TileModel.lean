import StackAllocation.StoreChains
import Mathlib.Data.List.ReduceOption
import Mathlib.Data.List.Pairwise

/-!
# The tile model

Pass A of `coalesce_subword_stores` keeps this invariant (`Modelled`): executing the stores it
leaves, on top of the tiles, is executing the stores it has been given; and no store that is
left overlaps a byte of the tiles that is not zero.
-/

namespace StackAllocation

section

variable (E : InitializeEnv)

/-- A store to the body of the object, at an offset that is tracked. -/
structure InitializeEnv.Placed (st : RawStore) : Prop where
  header : E.headerSize ≤ st.offset
  inside : st.offset + st.size ≤ E.sizeInBytes
  aligned : st.size ∣ st.offset
  tracked : st.offset < E.tiLimit

/-- The captured stores of one `Initialize` node. -/
structure Captured (stores : List RawStore) : Prop where
  placed : ∀ st ∈ stores, E.Placed st
  ascending : stores.Pairwise fun st st' => st.offset + st.size ≤ st'.offset

/-- The stores that are left. -/
def TileModel.kept (s : TileModel) : List RawStore := s.passed.reverse.reduceOption

/-- Fresh memory. -/
def zeroBlock : Bytes.Block := fun _ => 0

/-- What pass A has made of the stores it has taken. -/
structure Modelled (taken : List RawStore) (s : TileModel) : Prop where
  run : runStores s.kept s.tiles = runStores taken zeroBlock
  sublist : s.kept.Sublist taken
  tile : ∀ b, s.tiles b ≠ 0 →
    ∃ st ∈ taken, st.Covers b ∧ st.offset + st.size ≤ 8 * E.numTiles
  free : ∀ b, s.tiles b ≠ 0 → ∀ st ∈ s.kept, ¬ st.Covers b
  node : ∀ j st, s.nodes j = some st →
    st ∈ taken ∧ st.offset / 8 = j ∧ ∀ b, st.Covers b → s.tiles b = st.byte b
  last : ∀ l st, taken = l ++ [st] → s.nodes (st.offset / 8) = some st →
    ∃ rest, s.passed = none :: rest
  length : s.passed.length = taken.length
  count : (s.passed.count none : ℤ) = s.oldSubword + s.oldLong

end

section

variable {E : InitializeEnv} {taken : List RawStore} {s : TileModel} {st : RawStore}

theorem kept_cons_some {l : List (Option RawStore)} :
    (some st :: l).reverse.reduceOption = l.reverse.reduceOption ++ [st] := by
  rw [List.reverse_cons, List.reduceOption_append]
  rfl

theorem kept_cons_none {l : List (Option RawStore)} :
    ((none : Option RawStore) :: l).reverse.reduceOption = l.reverse.reduceOption := by
  rw [List.reverse_cons, List.reduceOption_append]
  exact List.append_nil _

theorem modelled_empty : Modelled E [] .empty where
  run := rfl
  sublist := List.Sublist.refl _
  tile := fun _ hb => absurd rfl hb
  free := fun _ hb => absurd rfl hb
  node := fun _ _ h => by cases h
  last := fun l st h =>
    absurd h.symm (List.append_ne_nil_of_right_ne_nil l (List.cons_ne_nil st []))
  length := rfl
  count := rfl

/-- No byte of the tiles is written yet after the stores taken. -/
theorem Modelled.tiles_eq_zero (h : Modelled E taken s) {b : ℕ}
    (hb : ∀ x ∈ taken, x.offset + x.size ≤ b) : s.tiles b = 0 := by
  by_contra hne
  obtain ⟨x, hx, hcov, -⟩ := h.tile b hne
  exact Nat.not_lt_of_le (hb x hx) hcov.2

/-- What is said of the touched bytes does not matter. -/
theorem Modelled.withInits (h : Modelled E taken s) (inits : Bytes.Block) :
    Modelled E taken { s with inits := inits } :=
  ⟨h.run, h.sublist, h.tile, h.free, h.node, h.last, h.length, h.count⟩

/-- A store is left. -/
theorem Modelled.keep (h : Modelled E taken s) (hnew : ∀ x ∈ taken, x.offset + x.size ≤ st.offset) :
    Modelled E (taken ++ [st]) (s.keep st) where
  run := by
    rw [TileModel.kept, TileModel.keep, kept_cons_some, runStores_append, runStores_append]
    exact congrArg (runStores [st]) h.run
  sublist := by
    rw [TileModel.kept, TileModel.keep, kept_cons_some]
    exact h.sublist.append (List.Sublist.refl [st])
  tile := by
    intro b hb
    obtain ⟨x, hx, hcov, hlim⟩ := h.tile b hb
    exact ⟨x, List.mem_append_left _ hx, hcov, hlim⟩
  free := by
    intro b hb x hx hcov
    rw [TileModel.kept, TileModel.keep, kept_cons_some] at hx
    obtain hx | hx := List.mem_append.1 hx
    · exact h.free b hb x hx hcov
    · obtain rfl := List.mem_singleton.1 hx
      obtain ⟨y, hy, hycov, -⟩ := h.tile b hb
      have hend := hnew y hy
      obtain ⟨-, hlt⟩ := hycov
      obtain ⟨hle, -⟩ := hcov
      omega
  node := by
    intro j x hx
    obtain ⟨hmem, hj, hbytes⟩ := h.node j x hx
    exact ⟨List.mem_append_left _ hmem, hj, hbytes⟩
  last := by
    intro l x hl hx
    obtain ⟨-, hx'⟩ := List.append_inj' hl rfl
    obtain rfl := List.singleton_inj.1 hx'
    have hend := hnew st (h.node _ st hx).1
    have hpos := st.size_pos
    omega
  length := by
    rw [TileModel.keep, List.length_cons, List.length_append, h.length]
    rfl
  count := by
    rw [TileModel.keep, List.count_cons_of_ne (by simp)]
    exact h.count

/-- Stores to different tiles write different bytes. -/
theorem not_covers_of_div_ne {x y : RawStore} {b : ℕ} (hx : x.size ∣ x.offset)
    (hy : y.size ∣ y.offset) (hne : x.offset / 8 ≠ y.offset / 8) (hb : x.Covers b) :
    ¬ y.Covers b := by
  intro hcov
  have h₁ := hb.div_eight hx
  have h₂ := hcov.div_eight hy
  omega

/-- A store is taken off. -/
theorem Modelled.subsume (h : Modelled E taken s)
    (hnew : ∀ x ∈ taken, x.offset + x.size ≤ st.offset)
    (ha : st.size ∣ st.offset) (haligned : ∀ x ∈ taken, x.size ∣ x.offset)
    (hlim : st.offset + st.size ≤ 8 * E.numTiles) :
    Modelled E (taken ++ [st]) (TileModel.subsume { s with tiles := st.exec s.tiles } st) := by
  have hkept : TileModel.kept (TileModel.subsume { s with tiles := st.exec s.tiles } st) = s.kept :=
    kept_cons_none
  have hbefore : ∀ x ∈ s.kept, x.offset + x.size ≤ st.offset :=
    fun x hx => hnew x (h.sublist.subset hx)
  refine ⟨?_, ?_, ?_, ?_, ?_, ?_, ?_, ?_⟩
  · rw [hkept, runStores_append, ← h.run]
    exact runStores_exec fun x hx => .inl (hbefore x hx)
  · rw [hkept]
    exact h.sublist.trans (List.sublist_append_left taken [st])
  · intro b hb
    by_cases hcov : st.Covers b
    · exact ⟨st, List.mem_append_right _ (List.mem_singleton_self st), hcov, hlim⟩
    · have hold : s.tiles b ≠ 0 := by
        have hb' : st.exec s.tiles b ≠ 0 := hb
        rwa [RawStore.exec_eq, if_neg hcov] at hb'
      obtain ⟨x, hx, hxcov, hxlim⟩ := h.tile b hold
      exact ⟨x, List.mem_append_left _ hx, hxcov, hxlim⟩
  · intro b hb x hx hxcov
    rw [hkept] at hx
    by_cases hcov : st.Covers b
    · have hend := hbefore x hx
      obtain ⟨hle, -⟩ := hcov
      obtain ⟨-, hlt⟩ := hxcov
      omega
    · refine h.free b ?_ x hx hxcov
      have hb' : st.exec s.tiles b ≠ 0 := hb
      rwa [RawStore.exec_eq, if_neg hcov] at hb'
  · intro j x hx
    have hx' : Function.update s.nodes (st.offset / 8) (some st) j = some x := hx
    by_cases hj : j = st.offset / 8
    · subst hj
      rw [Function.update_self] at hx'
      obtain rfl := Option.some.inj hx'
      refine ⟨List.mem_append_right _ (List.mem_singleton_self st), rfl, fun b hb => ?_⟩
      show st.exec s.tiles b = st.byte b
      rw [RawStore.exec_eq, if_pos hb]
    · rw [Function.update_of_ne hj] at hx'
      obtain ⟨hmem, hxj, hbytes⟩ := h.node j x hx'
      refine ⟨List.mem_append_left _ hmem, hxj, fun b hb => ?_⟩
      have hcov : ¬ st.Covers b :=
        not_covers_of_div_ne (haligned x hmem) ha (by omega) hb
      show st.exec s.tiles b = x.byte b
      rw [RawStore.exec_eq, if_neg hcov]
      exact hbytes b hb
  · exact fun _ _ _ _ => ⟨s.passed, rfl⟩
  · rw [TileModel.subsume, List.length_cons, List.length_append, h.length]
    rfl
  · rw [TileModel.subsume, List.count_cons_self]
    have hcount := h.count
    by_cases hsize : st.size < 8
    · simp only [hsize, if_true]
      omega
    · simp only [hsize, if_false]
      omega

/-- The store to the first half of a tile that comes before a store to the second half is the last
one taken. -/
theorem Modelled.eq_append (h : Modelled E taken s) (hplaced : ∀ x ∈ taken, x.size ∣ x.offset)
    (hasc : taken.Pairwise fun x y => x.offset + x.size ≤ y.offset)
    (hnew : ∀ x ∈ taken, x.offset + x.size ≤ st.offset) (hst : st.offset = 8 * (st.offset / 8) + 4)
    {prev : RawStore} (hprev : s.nodes (st.offset / 8) = some prev) (hsize : prev.size = 4) :
    prev.offset = 8 * (st.offset / 8) ∧ ∃ l, taken = l ++ [prev] ∧
      ∀ x ∈ l, x.offset + x.size ≤ prev.offset := by
  obtain ⟨hmem, hj, -⟩ := h.node _ prev hprev
  have hend := hnew prev hmem
  have hoffset : prev.offset = 8 * (st.offset / 8) := by
    have ha := hplaced prev hmem
    rw [hsize] at ha hend
    omega
  obtain ⟨l, rest, rfl⟩ := List.append_of_mem hmem
  obtain ⟨-, hrest, hl⟩ := List.pairwise_append.1 hasc
  refine ⟨hoffset, l, ?_, fun x hx => hl x hx prev List.mem_cons_self⟩
  cases rest with
  | nil => rfl
  | cons y rest =>
    have hy := (List.pairwise_cons.1 hrest).1 y List.mem_cons_self
    have hyend := hnew y (List.mem_append_right _ (List.mem_cons_of_mem _ List.mem_cons_self))
    have hpos := y.size_pos
    omega

/-- The tiles when the bytes of a store are cleared in them. -/
theorem clearTiles_eq (tiles : Bytes.Block) (prev : RawStore) (b : ℕ) :
    Bytes.put tiles prev.size prev.offset 0 b = if prev.Covers b then 0 else tiles b := by
  rw [Bytes.put_eq, Nat.zero_div]
  rfl

/-- A byte of the tiles that is not cleared is none of the store. -/
theorem clearTiles_ne_zero {tiles : Bytes.Block} {prev : RawStore} {b : ℕ}
    (hb : Bytes.put tiles prev.size prev.offset 0 b ≠ 0) : ¬ prev.Covers b ∧ tiles b ≠ 0 := by
  rw [clearTiles_eq] at hb
  split at hb
  · exact absurd rfl hb
  · next hcov => exact ⟨hcov, hb⟩

/-- To execute a store whose bytes were cleared brings them back. -/
theorem exec_clearTiles {tiles : Bytes.Block} {prev : RawStore}
    (h : ∀ b, prev.Covers b → tiles b = prev.byte b) :
    prev.exec (Bytes.put tiles prev.size prev.offset 0) = tiles := by
  funext b
  rw [RawStore.exec_eq, clearTiles_eq]
  split
  · next hcov => exact (h b hcov).symm
  · rfl

/-- The store before is put back. -/
theorem Modelled.putBack {l : List RawStore} {prev : RawStore} (h : Modelled E (l ++ [prev]) s)
    (hplaced : ∀ x ∈ l ++ [prev], x.size ∣ x.offset)
    (rest : List (Option RawStore)) (hrest : s.passed = none :: rest) (hsub : s.kept.Sublist l)
    (hl : ∀ x ∈ l, x.offset + x.size ≤ prev.offset)
    (hnew : ∀ x ∈ l ++ [prev], x.offset + x.size ≤ st.offset)
    (hprev : s.nodes (prev.offset / 8) = some prev) :
    Modelled E (l ++ [prev] ++ [st])
      { s with
        tiles := Bytes.put s.tiles prev.size prev.offset 0
        passed := some st :: some prev :: s.passed.tail
        nodes := Function.update s.nodes (prev.offset / 8) none
        oldSubword := s.oldSubword - 1 } := by
  have hback := exec_clearTiles (h.node _ prev hprev).2.2
  have hkept' : (some st :: some prev :: s.passed.tail).reverse.reduceOption =
      s.kept ++ [prev] ++ [st] := by
    rw [TileModel.kept, hrest, kept_cons_none, kept_cons_some, kept_cons_some]
    rfl
  refine ⟨?_, ?_, ?_, ?_, ?_, ?_, ?_, ?_⟩
  · rw [TileModel.kept, hkept', runStores_append, runStores_append, runStores_append, ← h.run]
    refine congrArg (runStores [st]) ?_
    rw [← hback]
    show prev.exec (runStores s.kept _) = _
    rw [runStores_exec fun x hx => .inl (hl x (hsub.subset hx)), hback]
  · rw [TileModel.kept, hkept']
    exact (hsub.append (List.Sublist.refl _)).append (List.Sublist.refl _)
  · intro b hb
    obtain ⟨x, hx, hcov, hlim⟩ := h.tile b (clearTiles_ne_zero hb).2
    exact ⟨x, List.mem_append_left _ hx, hcov, hlim⟩
  · intro b hb x hx hcov
    obtain ⟨hprevcov, htile⟩ := clearTiles_ne_zero hb
    rw [TileModel.kept, hkept'] at hx
    obtain hx | hx := List.mem_append.1 hx
    · obtain hx | hx := List.mem_append.1 hx
      · exact h.free b htile x hx hcov
      · obtain rfl := List.mem_singleton.1 hx
        exact hprevcov hcov
    · obtain rfl := List.mem_singleton.1 hx
      obtain ⟨y, hy, ⟨-, hlt⟩, -⟩ := h.tile b htile
      have hend := hnew y hy
      obtain ⟨hle, -⟩ := hcov
      omega
  · intro j x hx
    have hx' : Function.update s.nodes (prev.offset / 8) none j = some x := hx
    by_cases hj : j = prev.offset / 8
    · rw [hj, Function.update_self] at hx'
      cases hx'
    · rw [Function.update_of_ne hj] at hx'
      obtain ⟨hmem, hxj, hxbytes⟩ := h.node j x hx'
      refine ⟨List.mem_append_left _ hmem, hxj, fun b hb => ?_⟩
      have hcov : ¬ prev.Covers b := not_covers_of_div_ne (hplaced x hmem)
        (hplaced prev (List.mem_append_right _ List.mem_cons_self)) (by omega) hb
      show Bytes.put s.tiles prev.size prev.offset 0 b = x.byte b
      rw [clearTiles_eq, if_neg hcov]
      exact hxbytes b hb
  · intro l' x hl' hx
    obtain ⟨-, hx'⟩ := List.append_inj' hl' rfl
    obtain rfl := List.singleton_inj.1 hx'
    have hx' : Function.update s.nodes (prev.offset / 8) none (st.offset / 8) = some st := hx
    by_cases hj : st.offset / 8 = prev.offset / 8
    · rw [hj, Function.update_self] at hx'
      cases hx'
    · rw [Function.update_of_ne hj] at hx'
      have hend := hnew st (h.node _ st hx').1
      have hpos := st.size_pos
      omega
  · have hlength := h.length
    rw [hrest, List.length_cons, List.length_append] at hlength
    simp only [hrest, List.tail_cons, List.length_cons, List.length_append,
      List.length_nil] at hlength ⊢
    omega
  · have hcount := h.count
    rw [hrest, List.count_cons_self] at hcount
    rw [hrest, List.tail_cons, List.count_cons_of_ne (by simp), List.count_cons_of_ne (by simp)]
    show _ = s.oldSubword - 1 + s.oldLong
    omega

/-- An int store is left in the second half of a tile, and that in the first half is put back. -/
theorem Modelled.undo (h : Modelled E taken s) (hplaced : ∀ x ∈ taken, x.size ∣ x.offset)
    (hasc : taken.Pairwise fun x y => x.offset + x.size ≤ y.offset)
    (hnew : ∀ x ∈ taken, x.offset + x.size ≤ st.offset) (hsize : st.size = 4)
    (hst : st.offset % 8 = 4) :
    Modelled E (taken ++ [st]) (TileModel.undo { s with tiles := st.exec s.tiles } st) := by
  have hst' : st.offset = 8 * (st.offset / 8) + 4 := by omega
  -- The second half was zero before the store.
  have htiles : Bytes.put (st.exec s.tiles) 4 (8 * (st.offset / 8) + 4) 0 = s.tiles := by
    funext b
    rw [Bytes.put_eq, Nat.zero_div]
    by_cases hb : 8 * (st.offset / 8) + 4 ≤ b ∧ b < 8 * (st.offset / 8) + 4 + 4
    · rw [if_pos hb]
      exact (h.tiles_eq_zero fun x hx => (hnew x hx).trans (by omega)).symm
    · have hcov : ¬ st.Covers b := by
        rintro ⟨hle, hlt⟩
        omega
      rw [if_neg hb, RawStore.exec_eq, if_neg hcov]
  unfold TileModel.undo
  simp only [htiles]
  split
  · next prev hprev =>
    split
    · next hcon =>
      obtain ⟨hcon, hopcode⟩ := hcon
      have hpsize : prev.size = 4 := by rw [RawStore.size, hopcode]; rfl
      obtain ⟨hoffset, l, rfl, hl⟩ := h.eq_append hplaced hasc hnew hst' hprev hpsize
      have hpj : prev.offset / 8 = st.offset / 8 := by omega
      obtain ⟨rest, hrest⟩ := h.last l prev rfl (by rw [hpj]; exact hprev)
      -- The tile's first half is not zero, so the store was taken off.
      have hnotMem : prev ∉ s.kept := by
        intro hmem
        refine hcon (Bytes.get_eq_zero_iff.2 fun b hle hlt => ?_)
        by_contra hne
        refine h.free b hne prev hmem ⟨?_, ?_⟩
        · omega
        · omega
      have hsub : s.kept.Sublist l := by
        refine h.sublist.of_sublist_append_left fun x hx hx' => ?_
        obtain rfl := List.mem_singleton.1 hx'
        exact hnotMem hx
      have hback := h.putBack hplaced rest hrest hsub hl hnew (by rw [hpj]; exact hprev)
      rw [hpsize, hpj, hoffset] at hback
      exact hback
    · exact h.keep hnew
  · exact h.keep hnew

/-- One store of pass A. -/
theorem Modelled.fill (h : Modelled E taken s) (hplaced : ∀ x ∈ taken, x.size ∣ x.offset)
    (hasc : taken.Pairwise fun x y => x.offset + x.size ≤ y.offset)
    (hnew : ∀ x ∈ taken, x.offset + x.size ≤ st.offset) (ha : st.size ∣ st.offset)
    (hlim : st.offset + st.size ≤ 8 * E.numTiles) : Modelled E (taken ++ [st]) (s.fill E st) := by
  unfold TileModel.fill
  split
  · exact h.keep hnew
  have hinits := h.withInits (storeConstant s.inits st (2 ^ 64 - 1))
  split
  · exact hinits.keep hnew
  · exact hinits.keep hnew
  split
  · exact hinits.keep hnew
  dsimp only
  split
  · next hint => exact hinits.undo hplaced hasc hnew hint.2.1 hint.2.2.1
  · exact hinits.subsume hnew ha hplaced hlim

/-- The stores beyond the limit are left. -/
theorem Modelled.keepAll {rest : List RawStore} (h : Modelled E taken s)
    (hasc : (taken ++ rest).Pairwise fun x y => x.offset + x.size ≤ y.offset) :
    Modelled E (taken ++ rest) (rest.foldl TileModel.keep s) := by
  induction rest generalizing taken s with
  | nil =>
    rw [List.append_nil]
    exact h
  | cons st rest ih =>
    have hnew : ∀ x ∈ taken, x.offset + x.size ≤ st.offset := fun x hx =>
      (List.pairwise_append.1 hasc).2.2 x hx st List.mem_cons_self
    rw [List.append_cons] at hasc ⊢
    exact ih (h.keep hnew) hasc

/-- Pass A. -/
theorem Modelled.fillTiles {rest : List RawStore} (h : Modelled E taken s)
    (hc : Captured E (taken ++ rest)) : Modelled E (taken ++ rest) (fillTiles E rest s) := by
  induction rest generalizing taken s with
  | nil =>
    rw [List.append_nil]
    exact h
  | cons st rest ih =>
    have hasc := hc.ascending
    have hplaced : ∀ x ∈ taken, x.size ∣ x.offset := fun x hx =>
      (hc.placed x (List.mem_append_left _ hx)).aligned
    have ha := (hc.placed st (List.mem_append_right _ List.mem_cons_self)).aligned
    have hnew : ∀ x ∈ taken, x.offset + x.size ≤ st.offset := fun x hx =>
      (List.pairwise_append.1 hasc).2.2 x hx st List.mem_cons_self
    rw [StackAllocation.fillTiles]
    split
    · rw [List.append_cons] at hc ⊢
      exact ih (h.keep hnew) hc
    split
    · exact h.keepAll hasc
    · next hlim =>
      have hstep := h.fill hplaced (List.pairwise_append.1 hasc).1 hnew ha (Nat.le_of_not_lt hlim)
      rw [List.append_cons] at hc ⊢
      exact ih hstep hc

/-- When no store has been taken off, they are all left. -/
theorem Modelled.kept_eq (h : Modelled E taken s) (hcount : s.oldSubword + s.oldLong = 0) :
    s.kept = taken := by
  have hnone : s.passed.count none = 0 := by
    have := h.count
    omega
  have hlength : s.kept.length = s.passed.length := by
    rw [TileModel.kept, List.reduceOption_length_eq_iff.2, List.length_reverse]
    intro x hx
    rw [List.mem_reverse] at hx
    cases x with
    | some st => rfl
    | none => exact absurd hx (List.count_eq_zero.1 hnone)
  exact h.sublist.eq_of_length (hlength.trans h.length)

end

end StackAllocation
