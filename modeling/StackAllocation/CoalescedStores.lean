import StackAllocation.TileModel

/-!
# Coalesced stores

Pass B of `coalesce_subword_stores` puts the stores of the tiles back. Each is inserted before
the stores at its offset or beyond, and none of those before it reaches into it; so it may as
well be executed first. All of them together write the tiles, on which the other stores then
give what the captured stores give (`coalesceSubwordStores_eq`).
-/

namespace StackAllocation

section

variable {E : InitializeEnv} {l l' : List (Option RawStore)} {st : RawStore}

/-- To insert in a list is to put the new element between what comes before it and what comes
after. -/
theorem insertIdx_eq_append {α : Type} (a : α) (l : List α) {i : ℕ} (h : i ≤ l.length) :
    l.insertIdx i a = l.take i ++ a :: l.drop i := by
  induction l generalizing i with
  | nil =>
    obtain rfl := Nat.le_zero.1 h
    rfl
  | cons b l ih =>
    cases i with
    | zero => rfl
    | succ i => rw [List.insertIdx_succ_cons, ih (Nat.le_of_succ_le_succ h)]; rfl

/-- Where a store is inserted. -/
theorem insertStore_eq (hmin : E.minimumHeaderSize ≤ st.offset) (htracked : st.offset < E.tiLimit) :
    ∃ l' p q, insertStore E l st = some l' ∧ l.reduceOption = p ++ q ∧
      l'.reduceOption = p ++ st :: q ∧ ∀ x ∈ p, x.offset < st.offset := by
  let i := l.findIdx fun x => x.any fun x => decide (st.offset ≤ x.offset)
  have hi : i ≤ l.length := List.findIdx_le_length
  have hsplit : l.reduceOption = (l.take i).reduceOption ++ (l.drop i).reduceOption := by
    rw [← List.reduceOption_append, List.take_append_drop]
  have hbefore : ∀ x ∈ (l.take i).reduceOption, x.offset < st.offset := by
    intro x hx
    obtain ⟨k, hk, hget⟩ := List.mem_iff_getElem.1 (List.reduceOption_mem_iff.1 hx)
    have hki : k < i := Nat.lt_of_lt_of_le hk (by rw [List.length_take]; exact Nat.min_le_left _ _)
    have hnot := List.not_of_lt_findIdx hki
    rw [List.getElem_take] at hget
    rw [hget] at hnot
    simpa using hnot
  have hinsert : insertStore E l st =
      some (if 0 < i ∧ l[i - 1]? = some none then l.set (i - 1) (some st)
        else l.insertIdx i (some st)) := by
    rw [insertStore, capturedStoreInsertionPoint, if_neg (Nat.not_lt_of_le hmin),
      if_neg (Nat.not_le_of_lt htracked), Option.map_some]
  refine ⟨_, (l.take i).reduceOption, (l.drop i).reduceOption, hinsert, hsplit, ?_, hbefore⟩
  split
  · next hprev =>
    obtain ⟨hpos, hnone⟩ := hprev
    have hlt : i - 1 < l.length := by omega
    have hi' : i - 1 + 1 = i := by omega
    have htake : l.take i = l.take (i - 1) ++ [none] := by
      rw [← hi', List.take_add_one, hi', hnone]
      rfl
    rw [List.set_eq_take_append_cons_drop, if_pos hlt, hi', htake, List.reduceOption_append,
      List.reduceOption_append, List.reduceOption_cons_of_some]
    simp
  · rw [insertIdx_eq_append _ _ hi, List.reduceOption_append, List.reduceOption_cons_of_some]

/-- A store that no store before it reaches into may be executed first. -/
theorem insertStore_run (hmin : E.minimumHeaderSize ≤ st.offset) (htracked : st.offset < E.tiLimit)
    (hbefore : ∀ x ∈ l.reduceOption, x.offset < st.offset → x.offset + x.size ≤ st.offset) :
    ∃ l', insertStore E l st = some l' ∧
      (∀ x, x ∈ l'.reduceOption ↔ x = st ∨ x ∈ l.reduceOption) ∧
      ∀ m, runStores l'.reduceOption m = runStores l.reduceOption (st.exec m) := by
  obtain ⟨l', p, q, hinsert, hl, hl', hp⟩ := insertStore_eq (l := l) hmin htracked
  rw [hl] at hbefore ⊢
  refine ⟨l', hinsert, fun x => ?_, fun m => ?_⟩
  · rw [hl', List.mem_append, List.mem_cons, List.mem_append, or_left_comm]
  · have hfirst : runStores p (st.exec m) = st.exec (runStores p m) :=
      runStores_exec fun x hx => .inl (hbefore x (List.mem_append_left q hx) (hp x hx))
    rw [hl', runStores_append, runStores_append, hfirst]
    rfl

/-- The stores of one tile. -/
theorem insertStores_run {ts : List RawStore}
    (hts : ∀ st ∈ ts, E.minimumHeaderSize ≤ st.offset ∧ st.offset < E.tiLimit)
    (hasc : ts.Pairwise fun st st' => st.offset + st.size ≤ st'.offset)
    (hbefore : ∀ st ∈ ts, ∀ x ∈ l.reduceOption, x.offset < st.offset →
      x.offset + x.size ≤ st.offset) :
    ∃ l', insertStores E ts l = some l' ∧
      (∀ x, x ∈ l'.reduceOption ↔ x ∈ ts ∨ x ∈ l.reduceOption) ∧
      ∀ m, runStores l'.reduceOption m = runStores l.reduceOption (runStores ts m) := by
  induction ts with
  | nil => exact ⟨l, rfl, fun x => (or_iff_right List.not_mem_nil).symm, fun _ => rfl⟩
  | cons st ts ih =>
    obtain ⟨hfirst, hasc⟩ := List.pairwise_cons.1 hasc
    obtain ⟨l₁, h₁, hmem₁, hrun₁⟩ := ih (fun x hx => hts x (List.mem_cons_of_mem st hx)) hasc
      fun x hx => hbefore x (List.mem_cons_of_mem st hx)
    obtain ⟨hmin, htracked⟩ := hts st List.mem_cons_self
    have hbefore₁ : ∀ x ∈ l₁.reduceOption, x.offset < st.offset →
      x.offset + x.size ≤ st.offset := by
      intro x hx hlt
      obtain hx | hx := (hmem₁ x).1 hx
      · have := hfirst x hx
        omega
      · exact hbefore st List.mem_cons_self x hx hlt
    obtain ⟨l₂, h₂, hmem₂, hrun₂⟩ := insertStore_run hmin htracked hbefore₁
    refine ⟨l₂, ?_, fun x => ?_, fun m => ?_⟩
    · rw [insertStores, h₁, Option.bind_some, h₂]
    · rw [hmem₂, hmem₁, List.mem_cons, or_assoc]
    · rw [hrun₂, hrun₁, runStores_cons]

end

/-! ## The stores of a tile

A tile is a double word. What is put back for it is one store of eight bytes, or a store of four
bytes for each half that is not zero, so all stores of a tile are aligned and stay in it. They write
the bytes of the tile; where the tile is zero and the block was zero before, nothing needs to be
written. -/

section

variable {E : InitializeEnv} {tiles inits : Bytes.Block} {j : ℕ}

/-- What a store of a part of the tiles is. -/
structure IsTileStore (E : InitializeEnv) (tiles : Bytes.Block) (j : ℕ) (st : RawStore) : Prop where
  value : st.value = Bytes.get tiles st.size st.offset
  cases : (st.size = 8 ∧ st.offset = 8 * j ∧ E.headerSize ≤ 8 * j ∧ Bytes.get tiles 8 (8 * j) ≠ 0) ∨
    (st.size = 4 ∧ st.offset = 8 * j ∧ Bytes.get tiles 4 (8 * j) ≠ 0) ∨
    (st.size = 4 ∧ st.offset = 8 * j + 4 ∧ Bytes.get tiles 4 (8 * j + 4) ≠ 0)

/-- A store of a tile writes the bytes of the tile that it covers. -/
theorem IsTileStore.exec_eq {st : RawStore} (h : IsTileStore E tiles j st) (m : Bytes.Block)
    (b : ℕ) :
    st.exec m b = if st.Covers b then tiles b else m b := by
  unfold RawStore.exec
  rw [h.value]
  exact Bytes.put_get m tiles st.size st.offset b

/-- The stores of a tile. -/
structure TileStores (E : InitializeEnv) (tiles : Bytes.Block) (j : ℕ) (ts : List RawStore) :
    Prop where
  store : ∀ st ∈ ts, IsTileStore E tiles j st
  ascending : ts.Pairwise fun st st' => st.offset + st.size ≤ st'.offset
  covered : ∀ b, b / 8 = j → tiles b ≠ 0 → ∃ st ∈ ts, st.Covers b

variable (E tiles inits j) in
/-- The stores that the loop makes for a tile are of this form, whichever of the ways to write it is
taken. -/
theorem tileStores_tileStores : TileStores E tiles j (tileStores E tiles inits j) := by
  have hbyte : ∀ n off, Bytes.get tiles n off = 0 → ∀ b, off ≤ b → b < off + n → tiles b = 0 :=
    fun n off => Bytes.get_eq_zero_iff.1
  unfold tileStores
  dsimp only
  split
  · next hcon =>
    refine ⟨fun st hst => absurd hst List.not_mem_nil, List.Pairwise.nil, fun b hb hne => ?_⟩
    exact absurd (hbyte 8 (8 * j) hcon b (by omega) (by omega)) hne
  next hcon =>
  cases hsplit : splitsTile E tiles inits j with
  | false =>
    have hheader : E.headerSize ≤ 8 * j := by
      by_contra hlt
      simp [splitsTile, Nat.lt_of_not_le hlt] at hsplit
    refine ⟨fun st hst => ?_, List.pairwise_singleton _ _, fun b hb _ => ?_⟩
    · obtain rfl := List.mem_singleton.1 hst
      exact ⟨rfl, .inl ⟨rfl, rfl, hheader, hcon⟩⟩
    · refine ⟨_, List.mem_singleton_self _, ?_⟩
      show 8 * j ≤ b ∧ b < 8 * j + 8
      omega
  | true =>
    rw [if_pos rfl]
    refine ⟨?_, ?_, ?_⟩
    · intro st hst
      obtain hst | hst := List.mem_append.1 hst
      · split at hst
        · next hcon0 =>
          obtain rfl := List.mem_singleton.1 hst
          exact ⟨rfl, .inr (.inl ⟨rfl, rfl, hcon0⟩)⟩
        · exact absurd hst List.not_mem_nil
      · split at hst
        · next hcon1 =>
          obtain rfl := List.mem_singleton.1 hst
          exact ⟨rfl, .inr (.inr ⟨rfl, rfl, hcon1⟩)⟩
        · exact absurd hst List.not_mem_nil
    · split <;> split <;> simp [RawStore.size, StoreOpcode.memorySize]
    · intro b hb hne
      by_cases hhalf : b < 8 * j + 4
      · have hcon0 : Bytes.get tiles 4 (8 * j) ≠ 0 := fun h =>
          hne (hbyte 4 (8 * j) h b (by omega) (by omega))
        rw [if_pos hcon0]
        refine ⟨_, List.mem_append_left _ (List.mem_singleton_self _), ?_⟩
        show 8 * j ≤ b ∧ b < 8 * j + 4
        omega
      · have hcon1 : Bytes.get tiles 4 (8 * j + 4) ≠ 0 := fun h =>
          hne (hbyte 4 (8 * j + 4) h b (by omega) (by omega))
        rw [if_pos hcon1]
        refine ⟨_, List.mem_append_right _ (List.mem_singleton_self _), ?_⟩
        show 8 * j + 4 ≤ b ∧ b < 8 * j + 4 + 4
        omega

/-- They stay in their tile. -/
theorem IsTileStore.div_eight {st : RawStore} (h : IsTileStore E tiles j st) {b : ℕ}
    (hb : st.Covers b) : b / 8 = j := by
  obtain ⟨hle, hlt⟩ := hb
  obtain ⟨hsize, hoffset, -⟩ | ⟨hsize, hoffset, -⟩ | ⟨hsize, hoffset, -⟩ := h.cases
  · omega
  · omega
  · omega

/-- The stores of a tile write the tile over zeroes, and nothing else. -/
theorem runStores_isTileStore {ts : List RawStore} (hts : ∀ st ∈ ts, IsTileStore E tiles j st)
    (m : Bytes.Block) (b : ℕ) :
    runStores ts m b = if ∃ st ∈ ts, st.Covers b then tiles b else m b := by
  induction ts generalizing m with
  | nil =>
    rw [if_neg]
    · rfl
    · rintro ⟨st, hst, -⟩
      exact List.not_mem_nil hst
  | cons st ts ih =>
    rw [runStores_cons, ih (fun x hx => hts x (List.mem_cons_of_mem st hx)),
      (hts st List.mem_cons_self).exec_eq]
    by_cases hrest : ∃ x ∈ ts, x.Covers b
    · obtain ⟨x, hx, hcov⟩ := hrest
      rw [if_pos ⟨x, hx, hcov⟩, if_pos ⟨x, List.mem_cons_of_mem st hx, hcov⟩]
    · rw [if_neg hrest]
      by_cases hcov : st.Covers b
      · rw [if_pos hcov, if_pos ⟨st, List.mem_cons_self, hcov⟩]
      · rw [if_neg hcov, if_neg]
        rintro ⟨x, hx, hxcov⟩
        obtain rfl | hx := List.mem_cons.1 hx
        · exact hcov hxcov
        · exact hrest ⟨x, hx, hxcov⟩

end

/-! ## Pass B

The tiles are put back from the first to the last. Each store goes before the captured stores at its
offset or beyond, so it is executed before any store that overlaps it. Stores that are apart
commute, so all of them may be thought of as executed first, in one go. -/

/-- Sizes and limits as they are: object and header sizes are multiples of eight and four, a header
size and `TrackedInitializationLimit` have their ranges. -/
structure InitializeEnv.WellSized (E : InitializeEnv) : Prop where
  header_dvd : 4 ∣ E.headerSize
  minimum_le : E.minimumHeaderSize ≤ E.headerSize
  header_le : E.headerSize ≤ E.sizeInBytes
  size_dvd : 8 ∣ E.sizeInBytes
  header_lt : E.headerSize < 2 ^ 30
  limit_le : E.trackedInitializationLimit ≤ 65535

section

variable {E : InitializeEnv} {stores : List RawStore} {s : TileModel} {j : ℕ} {st : RawStore}

/-- A part of a tile that is not zero has a byte that is not. -/
theorem exists_of_get_ne_zero {m : Bytes.Block} {n off : ℕ} (h : Bytes.get m n off ≠ 0) :
    ∃ b, off ≤ b ∧ b < off + n ∧ m b ≠ 0 := by
  by_contra hnone
  refine h (Bytes.get_eq_zero_iff.2 fun b hle hlt => ?_)
  by_contra hne
  exact hnone ⟨b, hle, hlt, hne⟩

/-- There are no more tiles than bytes that are tracked. -/
theorem numTiles_le : E.numTiles ≤ E.trackedInitializationLimit := by
  have hmin : min (if E.sizeIsConstant then E.sizeInBytes else E.tiLimit) E.tiLimit ≤ E.tiLimit :=
    Nat.min_le_right _ _
  unfold InitializeEnv.numTiles
  unfold InitializeEnv.tiLimit at hmin ⊢
  dsimp only
  omega

/-- The stores of a tile are in the body of the object. -/
theorem Modelled.placed_of_isTileStore (h : Modelled E stores s) (hc : Captured E stores)
    (hE : E.WellSized) (hj : j < E.numTiles) (hst : IsTileStore E s.tiles j st) :
    E.Placed st := by
  have hbody : ∀ b, s.tiles b ≠ 0 → E.headerSize ≤ b ∧ b < E.sizeInBytes := by
    intro b hb
    obtain ⟨x, hx, ⟨hle, hlt⟩, -⟩ := h.tile b hb
    have hplaced := hc.placed x hx
    exact ⟨hplaced.header.trans hle, Nat.lt_of_lt_of_le hlt hplaced.inside⟩
  have htracked : 8 * j + 4 < E.tiLimit := by
    have := numTiles_le (E := E)
    unfold InitializeEnv.tiLimit
    omega
  have hheader := hE.header_dvd
  have hsize := hE.size_dvd
  obtain ⟨hst8, hoffset, hle, hne⟩ | ⟨hst4, hoffset, hne⟩ | ⟨hst4, hoffset, hne⟩ := hst.cases
  · obtain ⟨b, hb₁, hb₂, hb⟩ := exists_of_get_ne_zero hne
    have := (hbody b hb).2
    exact ⟨by omega, by omega, by rw [hst8, hoffset]; exact Nat.dvd_mul_right 8 j, by omega⟩
  · obtain ⟨b, hb₁, hb₂, hb⟩ := exists_of_get_ne_zero hne
    have := hbody b hb
    exact ⟨by omega, by omega, by rw [hst4, hoffset]; omega, by omega⟩
  · obtain ⟨b, hb₁, hb₂, hb⟩ := exists_of_get_ne_zero hne
    have := hbody b hb
    exact ⟨by omega, by omega, by rw [hst4, hoffset]; omega, by omega⟩

/-- No store that is left reaches into a store of a tile from before it. -/
theorem Modelled.before_isTileStore (h : Modelled E stores s) (hc : Captured E stores)
    (hst : IsTileStore E s.tiles j st) {x : RawStore} (hx : x ∈ s.kept)
    (hlt : x.offset < st.offset) :
    x.offset + x.size ≤ st.offset := by
  have ha := (hc.placed x (h.sublist.subset hx)).aligned
  obtain ⟨-, hoffset, -, -⟩ | ⟨-, hoffset, -⟩ | ⟨-, hoffset, hne⟩ := hst.cases
  · rw [hoffset] at hlt ⊢
    exact add_le_of_dvd ha (x.size_dvd_eight.mul_right j) hlt
  · rw [hoffset] at hlt ⊢
    exact add_le_of_dvd ha (x.size_dvd_eight.mul_right j) hlt
  · rw [hoffset] at hlt ⊢
    by_cases hx8 : x.size = 8
    · -- A long store covers the whole tile, in which some constant is.
      obtain ⟨b, hb₁, hb₂, hb⟩ := exists_of_get_ne_zero hne
      have hnot := h.free b hb x hx
      rw [RawStore.Covers] at hnot
      rw [hx8] at ha hnot ⊢
      omega
    · have h4 := x.size_dvd_four hx8
      exact add_le_of_dvd ha (Nat.dvd_add (x.size_dvd_eight.mul_right j) h4) hlt

/-- What the stores of some tiles make of memory. -/
def runTiles (E : InitializeEnv) (s : TileModel) (js : List ℕ) (m : Bytes.Block) : Bytes.Block :=
  js.foldr (fun j m => runStores (tileStores E s.tiles s.inits j) m) m

/-- The stores of one tile, and then those of the others. -/
theorem runTiles_cons (j : ℕ) (js : List ℕ) (m : Bytes.Block) : runTiles E s (j :: js) m =
    runStores (tileStores E s.tiles s.inits j) (runTiles E s js m) := List.foldr_cons

/-- What the stores of some tiles leave in a byte: the byte of its tile, if it is one of them and
was zero. -/
theorem runTiles_eq {js : List ℕ} (hjs : js.Nodup) (m : Bytes.Block) (b : ℕ) :
    (b / 8 ∉ js → runTiles E s js m b = m b) ∧
      (b / 8 ∈ js → m b = 0 → runTiles E s js m b = s.tiles b) := by
  induction js with
  | nil => exact ⟨fun _ => rfl, fun h => absurd h List.not_mem_nil⟩
  | cons j js ih =>
    obtain ⟨hj, hjs⟩ := List.nodup_cons.1 hjs
    obtain ⟨hout, hin⟩ := ih hjs
    have hts := tileStores_tileStores E s.tiles s.inits j
    have hrun := runStores_isTileStore hts.store (runTiles E s js m) b
    have hcov : (∃ st ∈ tileStores E s.tiles s.inits j, st.Covers b) → b / 8 = j := by
      rintro ⟨st, hst, hb⟩
      exact (hts.store st hst).div_eight hb
    rw [runTiles_cons, hrun]
    constructor
    · intro hb
      obtain ⟨hbj, hbjs⟩ := not_or.1 (fun h => hb (List.mem_cons.2 h))
      rw [if_neg fun h => hbj (hcov h), hout hbjs]
    · intro hb hm
      split
      · rfl
      · next hnot =>
        obtain hb | hb := List.mem_cons.1 hb
        · rw [hout (hb ▸ hj), hm]
          by_contra hne
          exact hnot (hts.covered b hb (Ne.symm hne))
        · exact hin hb hm

/-- The tiles of a list put back. -/
theorem Modelled.insertTiles (h : Modelled E stores s) (hc : Captured E stores) (hE : E.WellSized)
    {js : List ℕ} (hjs : js.Pairwise (· < ·)) (hlt : ∀ j ∈ js, j < E.numTiles)
    {l : List (Option RawStore)}
    (hl : ∀ x ∈ l.reduceOption, x ∈ s.kept ∨ ∀ j ∈ js, x.offset + x.size ≤ 8 * j) :
    ∃ l', insertTiles E s.tiles s.inits js l = some l' ∧
      (∀ x ∈ l'.reduceOption, x ∈ l.reduceOption ∨ E.Placed x) ∧
      ∀ m, runStores l'.reduceOption m = runStores l.reduceOption (runTiles E s js m) := by
  induction js generalizing l with
  | nil => exact ⟨l, rfl, fun x hx => .inl hx, fun _ => rfl⟩
  | cons j js ih =>
    obtain ⟨hfirst, hjs⟩ := List.pairwise_cons.1 hjs
    have hts := tileStores_tileStores E s.tiles s.inits j
    have hplaced : ∀ st ∈ tileStores E s.tiles s.inits j, E.Placed st := fun st hst =>
      h.placed_of_isTileStore hc hE (hlt j List.mem_cons_self) (hts.store st hst)
    have hbefore : ∀ st ∈ tileStores E s.tiles s.inits j, ∀ x ∈ l.reduceOption,
        x.offset < st.offset → x.offset + x.size ≤ st.offset := by
      intro st hst x hx hlt
      obtain hx | hx := hl x hx
      · exact h.before_isTileStore hc (hts.store st hst) hx hlt
      · have hend := hx j List.mem_cons_self
        obtain ⟨-, hoffset, -⟩ | ⟨-, hoffset, -⟩ | ⟨-, hoffset, -⟩ := (hts.store st hst).cases
        · omega
        · omega
        · omega
    obtain ⟨l₁, h₁, hmem₁, hrun₁⟩ := insertStores_run
      (fun st hst => ⟨hE.minimum_le.trans (hplaced st hst).header, (hplaced st hst).tracked⟩)
      hts.ascending hbefore
    have hl₁ : ∀ x ∈ l₁.reduceOption, x ∈ s.kept ∨ ∀ k ∈ js, x.offset + x.size ≤ 8 * k := by
      intro x hx
      obtain hx | hx := (hmem₁ x).1 hx
      · refine .inr fun k hk => ?_
        have hjk := hfirst k hk
        obtain ⟨hs, ho, -⟩ | ⟨hs, ho, -⟩ | ⟨hs, ho, -⟩ := (hts.store x hx).cases
        · omega
        · omega
        · omega
      · exact (hl x hx).imp_right fun hend k hk => hend k (List.mem_cons_of_mem j hk)
    obtain ⟨l₂, h₂, hmem₂, hrun₂⟩ := ih hjs (fun k hk => hlt k (List.mem_cons_of_mem j hk)) hl₁
    refine ⟨l₂, ?_, fun x hx => ?_, fun m => ?_⟩
    · rw [StackAllocation.insertTiles, h₁, Option.bind_some, h₂]
    · obtain hx | hx := hmem₂ x hx
      · exact ((hmem₁ x).1 hx).symm.imp_right (hplaced x)
      · exact .inr hx
    · rw [hrun₂, hrun₁, runTiles_cons]

/-- The coalesced stores are in the body of the object, and they write over zeroes what the captured
stores write. -/
theorem coalesceSubwordStores_eq (hc : Captured E stores) (hE : E.WellSized) :
    ∃ l, coalesceSubwordStores E stores = some l ∧ (∀ st ∈ l, E.Placed st) ∧
      runStores l zeroBlock = runStores stores zeroBlock := by
  have h : Modelled E stores (fillTiles E stores .empty) := modelled_empty.fillTiles hc
  unfold coalesceSubwordStores
  dsimp only
  split
  · next hcount =>
    refine ⟨stores, congrArg some (h.kept_eq hcount), hc.placed, rfl⟩
  · obtain ⟨l, hl, hmem, hrun⟩ := h.insertTiles hc hE (List.pairwise_lt_range)
      (fun j hj => List.mem_range.1 hj) (l := (fillTiles E stores .empty).passed.reverse)
      fun x hx => .inl hx
    refine ⟨l.reduceOption, by rw [hl]; rfl, fun st hst => ?_, ?_⟩
    · obtain hst | hst := hmem st hst
      · exact hc.placed st (h.sublist.subset hst)
      · exact hst
    · rw [hrun, ← h.run]
      refine congrArg (runStores _) ?_
      funext b
      obtain ⟨hout, hin⟩ := runTiles_eq (E := E) (s := fillTiles E stores .empty)
        (List.nodup_range (n := E.numTiles)) zeroBlock b
      by_cases hb : b / 8 ∈ List.range E.numTiles
      · exact hin hb rfl
      · rw [hout hb]
        by_contra hne
        obtain ⟨x, -, ⟨-, hlt⟩, hlim⟩ := h.tile b (Ne.symm hne)
        rw [List.mem_range] at hb
        omega

end

end StackAllocation
