import StackAllocation.ImmutableOopMaps

/-!
# Immutable oop maps are read as recorded

The second pass writes the pair of each map and the maps that are new, where the first pass has
put them, and touches nothing it has written before. So at each step the pairs up to the one just
written lead to their maps (`Filled`), the lookup of the map just written succeeds though later
pairs are garbage, and at the end every map is found with its entries.
-/

namespace StackAllocation

open ImmutableOopMapBuilder

/-! ## One entry of the mapping

An entry owns the eight bytes of its pair, and the bytes of its map if it is new. What is written
for one entry leaves the bytes of every other, since the first pass has put the places apart. -/

/-- Where a map is, of so many pairs. -/
def mapAddr (n : ℕ) (x : Mapping) : ℕ := 8 + 8 * n + x.offset.toNat

/-- The address is written for the entry. -/
def WrittenFor (n i : ℕ) (x : Mapping) (a : ℕ) : Prop :=
  (pairAddr i ≤ a ∧ a < pairAddr i + 8) ∨
    (x.kind = .oopmapNew ∧ mapAddr n x ≤ a ∧ a < mapAddr n x + (4 + x.map.stream.length))

/-- The pair of the entry is in memory. -/
def HoldsPair (m : Bytes.Block) (i : ℕ) (x : Mapping) : Prop :=
  pairPcOffset m i = x.map.pcOffset ∧ pairOopmapOffset m i = x.offset

/-- A map is in memory. -/
def HoldsMap (m : Bytes.Block) (addr : ℕ) (map : OopMap) : Prop :=
  getInt m addr = map.omvCount ∧ HoldsBytes m (addr + 4) map.stream

/-- The pairs stand behind the header, eight bytes each. -/
theorem pairAddr_eq (i : ℕ) : pairAddr i = 8 + 8 * i := by
  unfold pairAddr sizeofImmutableOopMapSet sizeofImmutableOopMapPair
  omega

section

variable {m m' : Bytes.Block} {n i : ℕ} {x : Mapping}

/-- The data stands behind the pairs. -/
theorem setData_eq (hn : getInt m 0 = n) : setData m = 8 + 8 * n := by
  unfold setData sizeofImmutableOopMapSet sizeofImmutableOopMapPair
  rw [hn]
  omega

/-- A pair depends on its own bytes only. -/
theorem HoldsPair.congr (h : HoldsPair m i x)
    (hsame : ∀ a, pairAddr i ≤ a → a < pairAddr i + 8 → m' a = m a) : HoldsPair m' i x := by
  refine ⟨(getInt_congr fun a hlow hhigh => ?_).trans h.1,
    (getInt_congr fun a hlow hhigh => ?_).trans h.2⟩
  · exact hsame a hlow (by omega)
  · exact hsame a (by omega) (by omega)

/-- So does a map. -/
theorem HoldsMap.congr {addr : ℕ} {map : OopMap} (h : HoldsMap m addr map)
    (hsame : ∀ a, addr ≤ a → a < addr + (4 + map.stream.length) → m' a = m a) :
    HoldsMap m' addr map := by
  refine ⟨(getInt_congr fun a hlow hhigh => ?_).trans h.1, h.2.congr fun a hlow hhigh => ?_⟩
  · exact hsame a hlow (by omega)
  · exact hsame a (by omega) (by omega)

/-- The numbers of the entry are `int`s. -/
structure Mapping.Fits (x : Mapping) : Prop where
  pcOffset : -2 ^ 31 ≤ x.map.pcOffset ∧ x.map.pcOffset < 2 ^ 31
  offset : 0 ≤ x.offset ∧ x.offset < 2 ^ 31
  omvCount : x.map.omvCount < 2 ^ 31

/-- To fill in a pair leaves the bytes of all others. -/
theorem fillPair_of_notMem {map : OopMap} {offset : ℤ} {a : ℕ}
    (h : ¬ (pairAddr i ≤ a ∧ a < pairAddr i + 8)) : fillPair m i map offset a = m a := by
  unfold fillPair
  rw [putInt_of_notMem (by omega), putInt_of_notMem (by omega)]

/-- The pair that was filled in is there. Both of its numbers have to fit in an int. -/
theorem holdsPair_fillPair (hfits : x.Fits) : HoldsPair (fillPair m i x.map x.offset) i x := by
  constructor
  · have hother : pairPcOffset (fillPair m i x.map x.offset) i =
        getInt (putInt m (pairAddr i) x.map.pcOffset) (pairAddr i) :=
      getInt_congr fun a hlow hhigh => putInt_of_notMem (by omega)
    exact hother.trans (getInt_putInt hfits.pcOffset.1 hfits.pcOffset.2)
  · have hoffset := hfits.offset
    exact getInt_putInt (by omega) hoffset.2

/-- The place that `fill_map` computes from the pair it has just written. -/
theorem getFrom_fillPair (hn : getInt m 0 = n) (hfits : x.Fits) :
    getFrom (fillPair m i x.map x.offset) i = mapAddr n x := by
  have hcount : getInt (fillPair m i x.map x.offset) 0 = n := by
    refine (getInt_congr fun a _ ha => fillPair_of_notMem ?_).trans hn
    rw [pairAddr_eq]
    omega
  rw [getFrom, setData_eq hcount, (holdsPair_fillPair hfits).2, mapAddr]

/-- To fill in a map leaves all bytes but those of its pair and its data. -/
theorem fillMap_of_notMem (hn : getInt m 0 = n) (hfits : x.Fits) {a : ℕ}
    (hpair : ¬ (pairAddr i ≤ a ∧ a < pairAddr i + 8))
    (hmap : ¬ (mapAddr n x ≤ a ∧ a < mapAddr n x + (4 + x.map.stream.length))) :
    fillMap m i x.map x.offset a = m a := by
  have haddr := getFrom_fillPair (i := i) hn hfits
  have hsize : sizeofImmutableOopMap.toNat = 4 := rfl
  unfold fillMap
  simp only [haddr, hsize]
  rw [copyBytes_of_notMem (by omega), putInt_of_notMem (by omega), fillPair_of_notMem hpair]

/-- The map that was filled in is there. -/
theorem holdsMap_fillMap (hn : getInt m 0 = n) (hfits : x.Fits) :
    HoldsMap (fillMap m i x.map x.offset) (mapAddr n x) x.map := by
  have haddr := getFrom_fillPair (i := i) hn hfits
  have hsize : sizeofImmutableOopMap.toNat = 4 := rfl
  unfold fillMap
  simp only [haddr, hsize]
  refine ⟨?_, holdsBytes_copyBytes _ _ _⟩
  have hcount := hfits.omvCount
  refine (getInt_congr fun a _ ha => copyBytes_of_notMem (by omega)).trans ?_
  exact getInt_putInt (by omega) (by omega)

/-- Nothing else is written. -/
theorem fillMapping_of_not (hn : getInt m 0 = n) (hfits : x.Fits) {a : ℕ}
    (h : ¬ WrittenFor n i x a) : fillMapping m i x a = m a := by
  obtain ⟨hpair, hmap⟩ := not_or.1 h
  unfold fillMapping
  cases hkind : x.kind with
  | oopmapUnknown => rfl
  | oopmapNew => exact fillMap_of_notMem hn hfits hpair fun hin => hmap ⟨hkind, hin⟩
  | oopmapEmpty => exact fillPair_of_notMem hpair
  | oopmapDuplicate => exact fillPair_of_notMem hpair

/-- An entry of any kind has its pair filled in. -/
theorem holdsPair_fillMapping (hn : getInt m 0 = n) (hi : i < n) (hfits : x.Fits)
    (hknown : x.kind ≠ .oopmapUnknown) : HoldsPair (fillMapping m i x) i x := by
  have hpair := holdsPair_fillPair (m := m) (i := i) hfits
  unfold fillMapping
  cases hkind : x.kind with
  | oopmapUnknown => exact absurd hkind hknown
  | oopmapEmpty => exact hpair
  | oopmapDuplicate => exact hpair
  | oopmapNew =>
    -- the map is behind the pairs
    refine hpair.congr fun a hlow hhigh => ?_
    have haddr := getFrom_fillPair (i := i) hn hfits
    have hsize : sizeofImmutableOopMap.toNat = 4 := rfl
    have hbelow : a < mapAddr n x := by
      rw [pairAddr_eq] at hhigh
      unfold mapAddr
      omega
    simp only [fillMap, haddr, hsize]
    rw [copyBytes_of_notMem (by omega), putInt_of_notMem (by omega)]

/-- A map that is new is copied to its place. -/
theorem holdsMap_fillMapping (hn : getInt m 0 = n) (hfits : x.Fits) (hnew : x.kind = .oopmapNew) :
    HoldsMap (fillMapping m i x) (mapAddr n x) x.map := by
  unfold fillMapping
  rw [hnew]
  exact holdsMap_fillMap hn hfits

end

/-! ## The table that is only partly filled

The loop of `fill` looks each map up just after it has written its pair. The search goes up the
pairs and stops at the offset that is asked for, so it never gets to a pair that is not written yet;
the offsets increase. -/

/-- The first entries of the mapping are in memory. -/
structure Filled (T : List Mapping) (k : ℕ) (m : Bytes.Block) : Prop where
  count : getInt m 0 = T.length
  pair : ∀ (i : ℕ) x, i < k → T[i]? = some x → HoldsPair m i x
  map : ∀ (i : ℕ) x, i < k → T[i]? = some x → x.kind = .oopmapNew →
    HoldsMap m (mapAddr T.length x) x.map

section

variable {T : List Mapping} {offset : ℤ} {k : ℕ} {m : Bytes.Block}

/-- Writing the next entry leaves the others alone. -/
theorem Filled.step (hT : PlacedTable T offset) (hfits : ∀ (i : ℕ) x, T[i]? = some x → x.Fits)
    (h : Filled T k m) {x : Mapping} (hx : T[k]? = some x) :
    Filled T (k + 1) (fillMapping m k x) := by
  have hk := lt_length_of_getElem? hx
  have hxFits := hfits k x hx
  have hpairAddr := pairAddr_eq k
  refine ⟨?_, fun i y hi hy => ?_, fun i y hi hy hyNew => ?_⟩
  · refine (getInt_congr fun a _ ha => fillMapping_of_not h.count hxFits ?_).trans h.count
    rintro (hpair | ⟨-, hmap⟩)
    · omega
    · unfold mapAddr at hmap
      omega
  · rcases Nat.lt_succ_iff_lt_or_eq.1 hi with hlt | rfl
    · refine (h.pair i y hlt hy).congr fun a hlow hhigh => fillMapping_of_not h.count hxFits ?_
      rw [pairAddr_eq] at hlow hhigh
      rintro (hpair | ⟨-, hmap⟩)
      · omega
      · unfold mapAddr at hmap
        omega
    · obtain rfl := Option.some.inj (hx.symm.trans hy)
      exact holdsPair_fillMapping h.count hk hxFits (hT.known _ _ hx)
  · rcases Nat.lt_succ_iff_lt_or_eq.1 hi with hlt | rfl
    · refine (h.map i y hlt hy hyNew).congr fun a hlow hhigh =>
        fillMapping_of_not h.count hxFits ?_
      have hyFits := hfits i y hy
      unfold mapAddr at hlow hhigh
      rintro (hpair | ⟨hxNew, hmap⟩)
      · omega
      · -- the places are apart
        have hapart := hT.apart i k y x hlt hy hx hyNew hxNew
        have hsize := sizeFor_ge y.map
        have hyOffset := hyFits.offset
        unfold mapAddr at hmap
        omega
    · obtain rfl := Option.some.inj (hx.symm.trans hy)
      exact holdsMap_fillMapping h.count hxFits hyNew

/-- With the pairs before it in memory an entry is found; the pairs after it do not matter. -/
theorem Filled.findMapAtOffset
    (hsorted : ∀ (i j : ℕ) x y, i < j → T[i]? = some x → T[j]? = some y →
      x.map.pcOffset < y.map.pcOffset)
    (h : Filled T k m) {i : ℕ} (hi : i < k) {x : Mapping} (hx : T[i]? = some x) :
    findMapAtOffset m x.map.pcOffset = some (mapAddr T.length x) := by
  have hpair := h.pair i x hi hx
  have hlen := lt_length_of_getElem? hx
  have hfind : (List.range (getInt m 0).toNat).find?
      (fun i => decide (x.map.pcOffset ≤ pairPcOffset m i)) = some i := by
    refine List.find?_range_eq_some.2 ⟨?_, ?_, fun j hj => ?_⟩
    · exact decide_eq_true (Int.le_of_eq hpair.1.symm)
    · rw [h.count, List.mem_range]
      exact hlen
    · have hjx : T[j]? = some (T.get ⟨j, Nat.lt_trans hj hlen⟩) :=
        List.getElem?_eq_getElem (Nat.lt_trans hj hlen)
      have hbefore := hsorted j i _ x hj hjx hx
      have hpc := (h.pair j _ (Nat.lt_trans hj hi) hjx).1
      rw [hpc, Bool.not_eq_true', decide_eq_false_iff_not]
      omega
  rw [StackAllocation.findMapAtOffset, hfind, Option.map_some, getFrom, setData_eq h.count,
    hpair.2, mapAddr]

/-- One turn of the loop over the mapping; the lookup by the assertion finds what was filled in. -/
theorem fill_cons {x : Mapping} {rest : List Mapping} {addr : ℕ}
    (h : findMapAtOffset (fillMapping m k x) x.map.pcOffset = some addr) :
    fill k (x :: rest) m = fill (k + 1) rest (fillMapping m k x) := by
  rw [fill, h, Option.bind_some]

/-- The loop of `fill` reaches the end. -/
theorem Filled.fill (hT : PlacedTable T offset)
    (hfits : ∀ (i : ℕ) x, T[i]? = some x → x.Fits)
    (hsorted : ∀ (i j : ℕ) x y, i < j → T[i]? = some x → T[j]? = some y →
      x.map.pcOffset < y.map.pcOffset)
    {rest : List Mapping} (hrest : T.drop k = rest) (h : Filled T k m) (hk : k ≤ T.length) :
    ∃ m', StackAllocation.fill k rest m = some m' ∧ Filled T T.length m' := by
  induction rest generalizing k m with
  | nil =>
    obtain rfl : k = T.length := Nat.le_antisymm hk (List.drop_eq_nil_iff.1 hrest)
    exact ⟨m, rfl, h⟩
  | cons x rest ih =>
    have hlt : k < T.length := by
      rcases Nat.lt_or_ge k T.length with hlt | hge
      · exact hlt
      · rw [List.drop_eq_nil_of_le hge] at hrest
        cases hrest
    have hcons : x :: rest = T[k] :: T.drop (k + 1) :=
      hrest.symm.trans (List.drop_eq_getElem_cons hlt)
    obtain ⟨hhead, htail⟩ := List.cons.inj hcons
    have hx : T[k]? = some x := (List.getElem?_eq_getElem hlt).trans (congrArg some hhead.symm)
    have hstep := h.step hT hfits hx
    have hfind := hstep.findMapAtOffset hsorted (Nat.lt_succ_self k) hx
    obtain ⟨m', hm', hfilled⟩ := ih htail.symm hstep hlt
    exact ⟨m', (fill_cons hfind).trans hm', hfilled⟩

/-- Every entry is at its address. -/
theorem Filled.holdsMap (hT : PlacedTable T offset) (h : Filled T T.length m) {i : ℕ} {x : Mapping}
    (hx : T[i]? = some x) : HoldsMap m (mapAddr T.length x) x.map := by
  obtain ⟨j, y, -, hy, hnew, heq, hcount, hstream⟩ := hT.home i x hx
  have haddr : mapAddr T.length y = mapAddr T.length x := by rw [mapAddr, mapAddr, heq]
  have hmap := h.map j y (lt_length_of_getElem? hy) hy hnew
  rwa [haddr, HoldsMap, hcount, hstream] at hmap

end

/-! ## What the collector finds

The collector has an offset and the block. It finds the pair and the map, and reads as many entries
as the map has; they are those that were recorded, in the same order. -/

/-- An oop map with what was recorded in it. -/
structure GcMap : Type where
  pcOffset : ℤ
  ops : List OopMapOp

/-- The map. -/
def GcMap.build (S : CompressedStream) (g : GcMap) : OopMap := OopMap.build S g.pcOffset g.ops

/-- Its entries, in the order they were recorded. -/
def GcMap.entries (g : GcMap) : List (OopMapValue ℤ) := g.ops.map OopMapOp.entry

/-- Its size in the block. -/
def GcMap.nrOfBytes (S : CompressedStream) (g : GcMap) : ℕ := 4 + (g.build S).stream.length

/-- The maps that are given to the builder: the registers are legal, the offsets increase, and
the offsets and the size are `int`s. -/
structure GcMapSet (S : CompressedStream) (gcMaps : List GcMap) : Prop where
  legal : ∀ g ∈ gcMaps, ∀ op ∈ g.ops, op.Legal
  sorted : gcMaps.Pairwise fun g g' => g.pcOffset < g'.pcOffset
  pcOffset : ∀ g ∈ gcMaps, -2 ^ 31 ≤ g.pcOffset ∧ g.pcOffset < 2 ^ 31
  size : heapSize (gcMaps.map (GcMap.build S)) < 2 ^ 31

/-- The block has each map where it is looked for, inside and apart, and only empty maps, or maps
with the same entries and none but such and empty ones between them, are at one place. -/
structure ReadsAsRecorded (S : CompressedStream) (gcMaps : List GcMap) (m : Bytes.Block) :
    Prop where
  entries : ∀ g ∈ gcMaps, ∃ addr, findMapAtOffset m g.pcOffset = some addr ∧
    ∀ fuel, g.ops.length < fuel → ∃ us,
      (OopMapStream.ofImmutable m addr).entries S m fuel = some us ∧
        us.map OopMapValueBits.entry = g.entries
  inside : ∀ g ∈ gcMaps, ∀ addr, findMapAtOffset m g.pcOffset = some addr →
    setData m ≤ addr ∧ (addr + g.nrOfBytes S : ℕ) ≤ heapSize (gcMaps.map (GcMap.build S))
  apart : ∀ g ∈ gcMaps, ∀ g' ∈ gcMaps, ∀ addr addr', findMapAtOffset m g.pcOffset = some addr →
    findMapAtOffset m g'.pcOffset = some addr' → addr ≠ addr' →
      addr + g.nrOfBytes S ≤ addr' ∨ addr' + g'.nrOfBytes S ≤ addr
  shared : ∀ (i j : ℕ) g g', i < j → gcMaps[i]? = some g → gcMaps[j]? = some g' →
    findMapAtOffset m g.pcOffset = findMapAtOffset m g'.pcOffset →
      (g.ops = [] ∧ g'.ops = []) ∨ (g'.entries = g.entries ∧
        ∀ (k : ℕ) v, i < k → k < j → gcMaps[k]? = some v → v.ops = [] ∨ v.entries = g.entries)

section

variable {S : CompressedStream} {m : Bytes.Block}

/-- A map that is in memory is read. -/
theorem entries_of_holdsMap {g : GcMap} (hlegal : ∀ op ∈ g.ops, op.Legal) {addr fuel : ℕ}
    (h : HoldsMap m addr (g.build S)) (hfuel : g.ops.length < fuel) : ∃ us,
      (OopMapStream.ofImmutable m addr).entries S m fuel = some us ∧
        us.map OopMapValueBits.entry = g.entries := by
  obtain ⟨hcount, hstream⟩ := h
  rw [GcMap.build, OopMap.build_eq] at hcount hstream
  have hvs : ∀ v ∈ g.ops.map fun op => op.entry.bits,
      toShort v.value = v.value ∧ toShort v.contentReg = v.contentReg := by
    intro v hv
    obtain ⟨op, -, rfl⟩ := List.mem_map.1 hv
    exact op.entry.bits_short
  obtain ⟨us, hus, hmap⟩ := OopMapStream.entries_ofData (S := S) (m := m) (p := addr + 4) hvs
    (by rwa [List.length_map]) (by rwa [List.flatMap_map])
  refine ⟨us, ?_, hmap.trans ?_⟩
  · rw [OopMapStream.ofImmutable, hcount]
    rwa [List.length_map] at hus
  · rw [List.map_map, GcMap.entries]
    exact List.map_congr_left fun op hop => (hlegal op hop).entry_bits

/-- The bytes of a map say what its entries are. -/
theorem SameMap.entries_eq {g g' : GcMap} (hlegal : ∀ op ∈ g.ops, op.Legal)
    (hlegal' : ∀ op ∈ g'.ops, op.Legal) (hlen : g.ops.length < 2 ^ 31)
    (h : SameMap (g.build S) (g'.build S)) : g.entries = g'.entries := by
  -- put them into any memory and read them
  let m := copyBytes (putInt (fun _ => 0) 0 (g.build S).omvCount) 4 (g.build S).stream
  have hcount : (g.build S).omvCount = g.ops.length := by rw [GcMap.build, OopMap.build_eq]
  have hcount' : (g'.build S).omvCount = g'.ops.length := by rw [GcMap.build, OopMap.build_eq]
  have hholds : HoldsMap m 0 (g.build S) := by
    refine ⟨?_, holdsBytes_copyBytes _ _ _⟩
    refine (getInt_congr fun a _ ha => copyBytes_of_notMem (by omega)).trans ?_
    exact getInt_putInt (by omega) (by omega)
  have hholds' : HoldsMap m 0 (g'.build S) := by rwa [HoldsMap, ← h.1, ← h.2]
  have hlen' : g'.ops.length < g.ops.length + 1 := by
    rw [← hcount, ← hcount', h.1]
    exact Nat.lt_succ_self _
  obtain ⟨us, hus, hentries⟩ := entries_of_holdsMap hlegal hholds (Nat.lt_succ_self _)
  obtain ⟨us', hus', hentries'⟩ := entries_of_holdsMap hlegal' hholds' hlen'
  obtain rfl := Option.some.inj (hus.symm.trans hus')
  exact hentries.symm.trans hentries'

/-- Every entry is at least a byte. -/
theorem GcMap.length_ops_le (S : CompressedStream) (g : GcMap) :
    g.ops.length ≤ (g.build S).stream.length := by
  rw [GcMap.build, OopMap.build_eq]
  simp only
  induction g.ops with
  | nil => exact Nat.le_refl 0
  | cons op ops ih =>
    have hpos := S.write_pos op.entry.bits.value
    rw [List.flatMap_cons, List.length_append, OopMapValueBits.writeOn, List.length_append,
      List.length_cons]
    omega

/-- A map has as many entries as were recorded. -/
theorem GcMap.build_omvCount (S : CompressedStream) (g : GcMap) :
    (g.build S).omvCount = g.ops.length := by
  rw [GcMap.build, OopMap.build_eq]

/-- It has the offset that it was recorded at. -/
theorem GcMap.build_pcOffset (S : CompressedStream) (g : GcMap) :
    (g.build S).pcOffset = g.pcOffset := rfl

/-! ### The two passes over recorded maps

The mapping of the first pass has one entry for each map that was recorded, in their order. With
this the places are known, and the second pass is the loop of the section before. -/

variable {gcMaps : List GcMap}

/-- The mapping that the first pass makes of the maps. -/
abbrev mappingOf (S : CompressedStream) (gcMaps : List GcMap) : List Mapping :=
  (placeAll (gcMaps.map (GcMap.build S))).mapping

/-- The pass over the recorded maps leaves a mapping with an entry for each of them. -/
theorem placedSoFar_gcMaps (S : CompressedStream) (gcMaps : List GcMap) :
    PlacedSoFar (placeAll (gcMaps.map (GcMap.build S))) ∧
      (mappingOf S gcMaps).map (·.map) = gcMaps.map (GcMap.build S) := by
  refine placedSoFar_placeAll fun map hmap hzero => ?_
  obtain ⟨g, -, rfl⟩ := List.mem_map.1 hmap
  rw [GcMap.build_omvCount, List.length_eq_zero_iff] at hzero
  rw [GcMap.build, OopMap.build_eq, hzero]
  rfl

/-- There is one entry for each map, shared data or not. -/
theorem length_mappingOf (S : CompressedStream) (gcMaps : List GcMap) :
    (mappingOf S gcMaps).length = gcMaps.length := by
  have hmaps := congrArg List.length (placedSoFar_gcMaps S gcMaps).2
  rwa [List.length_map, List.length_map] at hmaps

/-- The entries of the mapping are for the maps, in order. -/
theorem gcMap_of_mappingOf {i : ℕ} {x : Mapping} (hx : (mappingOf S gcMaps)[i]? = some x) :
    ∃ g, gcMaps[i]? = some g ∧ x.map = g.build S := by
  have hmaps := congrArg (·[i]?) (placedSoFar_gcMaps S gcMaps).2
  simp only [List.getElem?_map, hx, Option.map_some] at hmaps
  obtain ⟨g, hg, hbuild⟩ := Option.map_eq_some_iff.1 hmaps.symm
  exact ⟨g, hg, hbuild.symm⟩

/-- The entry of a map. -/
theorem mappingOf_of_gcMap {i : ℕ} {g : GcMap} (hg : gcMaps[i]? = some g) :
    ∃ x, (mappingOf S gcMaps)[i]? = some x ∧ x.map = g.build S := by
  have hmaps := congrArg (·[i]?) (placedSoFar_gcMaps S gcMaps).2
  simp only [List.getElem?_map, hg, Option.map_some] at hmaps
  exact Option.map_eq_some_iff.1 hmaps

/-- The size that is allocated: the header, the pairs and the data. -/
theorem heapSize_eq (maps : List OopMap) :
    heapSize maps = 8 + 8 * maps.length + (placeAll maps).offset := by
  unfold heapSize alignUp8 sizeofImmutableOopMapSet sizeofImmutableOopMapPair
  omega

variable (h : GcMapSet S gcMaps)
include h

/-- The numbers of an entry fit in its pair. -/
theorem GcMapSet.fits {i : ℕ} {x : Mapping} (hx : (mappingOf S gcMaps)[i]? = some x) :
    x.Fits := by
  obtain ⟨g, hg, hmap⟩ := gcMap_of_mappingOf hx
  have hsize := h.size
  rw [heapSize_eq] at hsize
  have hrange := (placedSoFar_gcMaps S gcMaps).1.table.offset_range hx
  have hsizeFor := sizeFor_ge x.map
  have hops := g.length_ops_le S
  have hcount := g.build_omvCount S
  rw [hmap] at hrange hsizeFor
  refine ⟨?_, ⟨hrange.1, by omega⟩, ?_⟩
  · rw [hmap]
    exact h.pcOffset g (List.mem_of_getElem? hg)
  · rw [hmap]
    omega

/-- The entries are in the order of their offsets, as the maps are recorded. -/
theorem GcMapSet.mapping_sorted {i j : ℕ} {x y : Mapping} (hlt : i < j)
    (hx : (mappingOf S gcMaps)[i]? = some x) (hy : (mappingOf S gcMaps)[j]? = some y) :
    x.map.pcOffset < y.map.pcOffset := by
  obtain ⟨g, hg, hmap⟩ := gcMap_of_mappingOf hx
  obtain ⟨g', hg', hmap'⟩ := gcMap_of_mappingOf hy
  obtain ⟨hi, rfl⟩ := List.getElem?_eq_some_iff.1 hg
  obtain ⟨hj, rfl⟩ := List.getElem?_eq_some_iff.1 hg'
  rw [hmap, hmap']
  exact List.pairwise_iff_getElem.1 h.sorted i j hi hj hlt

/-- The block is built, and everything is in it. -/
theorem GcMapSet.filled (buffer : Bytes.Block) :
    ∃ m, buildFrom buffer (gcMaps.map (GcMap.build S)) = some m ∧
      Filled (mappingOf S gcMaps) (mappingOf S gcMaps).length m := by
  have hsize := h.size
  have htable := (placedSoFar_gcMaps S gcMaps).1.table
  have hnonneg := htable.offset_nonneg
  rw [heapSize_eq, List.length_map] at hsize
  refine Filled.fill htable (fun i x => h.fits) (fun i j x y => h.mapping_sorted) List.drop_zero
    { count := ?_
      pair := fun i x hi => absurd hi (Nat.not_lt_zero i)
      map := fun i x hi => absurd hi (Nat.not_lt_zero i) } (Nat.zero_le _)
  rw [length_mappingOf, List.length_map]
  refine (getInt_congr fun a _ ha => putInt_of_notMem (by omega)).trans ?_
  exact getInt_putInt (by omega) (by omega)

/-- The lookup by an offset finds the entry of the map that was recorded at it: the offsets are
strictly increasing. -/
theorem GcMapSet.findMapAtOffset {m : Bytes.Block}
    (hm : Filled (mappingOf S gcMaps) (mappingOf S gcMaps).length m) {i : ℕ} {x : Mapping}
    (hx : (mappingOf S gcMaps)[i]? = some x) {g : GcMap} (hmap : x.map = g.build S) :
    StackAllocation.findMapAtOffset m g.pcOffset =
      some (mapAddr (mappingOf S gcMaps).length x) := by
  have hfind := hm.findMapAtOffset (fun i j x y => h.mapping_sorted) (lt_length_of_getElem? hx) hx
  rwa [hmap, GcMap.build_pcOffset] at hfind

omit h

end

/-- After `build_from` every map is read as it was recorded, the stored maps are apart, and maps
at one place are empty, or have the same entries with only such and empty ones between them. -/
theorem buildFrom_readsAsRecorded (S : CompressedStream) (buffer : Bytes.Block)
    (gcMaps : List GcMap) (h : GcMapSet S gcMaps) :
    ∃ m, buildFrom buffer (gcMaps.map (GcMap.build S)) = some m ∧ ReadsAsRecorded S gcMaps m := by
  obtain ⟨m, hm, hfilled⟩ := h.filled buffer
  have htable := (placedSoFar_gcMaps S gcMaps).1.table
  have hlen := length_mappingOf S gcMaps
  refine ⟨m, hm, ⟨fun g hg => ?_, fun g hg addr haddr => ?_, fun g hg g' hg' addr addr' haddr haddr'
    hne => ?_, fun i j g g' hlt hg hg' heq => ?_⟩⟩
  · obtain ⟨i, hi⟩ := List.getElem?_of_mem hg
    obtain ⟨x, hx, hmap⟩ := mappingOf_of_gcMap (S := S) hi
    have hholds := hfilled.holdsMap htable hx
    rw [hmap] at hholds
    exact ⟨_, h.findMapAtOffset hfilled hx hmap, fun fuel hfuel =>
      entries_of_holdsMap (h.legal g hg) hholds hfuel⟩
  · obtain ⟨i, hi⟩ := List.getElem?_of_mem hg
    obtain ⟨x, hx, hmap⟩ := mappingOf_of_gcMap (S := S) hi
    obtain rfl := Option.some.inj ((h.findMapAtOffset hfilled hx hmap).symm.trans haddr)
    have hrange := htable.offset_range hx
    have hsize := sizeFor_ge x.map
    rw [hmap] at hrange hsize
    rw [setData_eq hfilled.count, heapSize_eq, List.length_map, GcMap.nrOfBytes, mapAddr, hlen]
    omega
  · obtain ⟨i, hi⟩ := List.getElem?_of_mem hg
    obtain ⟨x, hx, hmap⟩ := mappingOf_of_gcMap (S := S) hi
    obtain ⟨i', hi'⟩ := List.getElem?_of_mem hg'
    obtain ⟨x', hx', hmap'⟩ := mappingOf_of_gcMap (S := S) hi'
    obtain rfl := Option.some.inj ((h.findMapAtOffset hfilled hx hmap).symm.trans haddr)
    obtain rfl := Option.some.inj ((h.findMapAtOffset hfilled hx' hmap').symm.trans haddr')
    have hoffset : x.offset ≠ x'.offset := fun heq => hne (by rw [mapAddr, mapAddr, heq])
    have hrange := htable.offset_range hx
    have hrange' := htable.offset_range hx'
    have hsize := sizeFor_ge x.map
    have hsize' := sizeFor_ge x'.map
    have hapart := htable.ranges_apart hx hx' hoffset
    rw [hmap] at hsize hapart
    rw [hmap'] at hsize' hapart
    rw [GcMap.nrOfBytes, GcMap.nrOfBytes, mapAddr, mapAddr]
    omega
  · obtain ⟨x, hx, hmap⟩ := mappingOf_of_gcMap (S := S) hg
    obtain ⟨x', hx', hmap'⟩ := mappingOf_of_gcMap (S := S) hg'
    rw [h.findMapAtOffset hfilled hx hmap, h.findMapAtOffset hfilled hx' hmap',
      Option.some_inj, mapAddr, mapAddr] at heq
    have hrange := htable.offset_range hx
    have hrange' := htable.offset_range hx'
    have hoffset : x.offset = x'.offset := by omega
    -- what the same bytes say
    have hentries : ∀ (k : ℕ) v (z : Mapping), gcMaps[k]? = some v → z.map = v.build S →
        SameMap z.map x.map → v.entries = g.entries := by
      intro k v z hv hz hsame
      rw [hz, hmap] at hsame
      have hcount := (h.fits hx).omvCount
      rw [hmap, ← hsame.1, GcMap.build_omvCount] at hcount
      exact hsame.entries_eq (h.legal v (List.mem_of_getElem? hv))
        (h.legal g (List.mem_of_getElem? hg)) hcount
    have hsame := hentries j g' x' hg' hmap' (htable.same_of_eq hx' hx hoffset.symm)
    cases hops : g.ops with
    | nil =>
      rw [GcMap.entries, GcMap.entries, hops, List.map_nil, List.map_eq_nil_iff] at hsame
      exact .inl ⟨rfl, hsame⟩
    | cons op ops =>
      refine .inr ⟨hsame, fun k v hik hkj hv => ?_⟩
      obtain ⟨z, hz, hzMap⟩ := mappingOf_of_gcMap (S := S) hv
      have hcount : x.map.omvCount ≠ 0 := by
        rw [hmap, GcMap.build_omvCount, hops]
        exact Nat.succ_ne_zero _
      rcases htable.between i k j x z x' hik hkj hx hz hx' hoffset hcount with hempty | hlike
      · rw [hzMap, GcMap.build_omvCount, List.length_eq_zero_iff] at hempty
        exact .inl hempty
      · exact .inr (hentries k v z hv hzMap hlike)

/-- A map, an empty one, and the first again. -/
def gcMapsAround : List GcMap :=
  [⟨10, [.setOop 4, .setDerivedOop 6 4]⟩, ⟨20, []⟩, ⟨30, [.setOop 4, .setDerivedOop 6 4]⟩]

/-- Two equal maps with an empty one between are a set that may be recorded. -/
theorem gcMapSet_around : GcMapSet unsigned5 gcMapsAround where
  legal := by
    simp [gcMapsAround, OopMapOp.Legal, LegalVmRegName]
  sorted := by decide
  pcOffset := by decide
  size := by decide +kernel

/-- They are read as they were recorded, although the second one is not shared with the first. -/
theorem buildFrom_around :
    ∃ m, buildFrom (fun _ => 255) (gcMapsAround.map (GcMap.build unsigned5)) = some m ∧
      ReadsAsRecorded unsigned5 gcMapsAround m :=
  buildFrom_readsAsRecorded unsigned5 (fun _ => 255) gcMapsAround gcMapSet_around

/-- Only empty maps share a place, and maps of a row of neighbours with the same entries. -/
def OnlyNeighboursShare (gcMaps : List GcMap) (m : Bytes.Block) : Prop :=
  ∀ (i j : ℕ) g g', i < j → gcMaps[i]? = some g → gcMaps[j]? = some g' →
    findMapAtOffset m g.pcOffset = findMapAtOffset m g'.pcOffset →
      (g.ops = [] ∧ g'.ops = []) ∨
        ∀ (k : ℕ) v, i < k → k ≤ j → gcMaps[k]? = some v → v.entries = g.entries

/-- The last of the three is where the first is. -/
theorem not_onlyNeighboursShare_around :
    ∃ m, buildFrom (fun _ => 255) (gcMapsAround.map (GcMap.build unsigned5)) = some m ∧
      ¬ OnlyNeighboursShare gcMapsAround m := by
  have hplaces : ((buildFrom (fun _ => 255) (gcMapsAround.map (GcMap.build unsigned5))).map fun m =>
      decide (findMapAtOffset m 10 = findMapAtOffset m 30)) = some true := by
    decide +kernel
  obtain ⟨m, hm, hplace⟩ := Option.map_eq_some_iff.1 hplaces
  refine ⟨m, hm, fun h => ?_⟩
  rcases h 0 2 _ _ (by decide) rfl rfl (of_decide_eq_true hplace) with ⟨hempty, -⟩ | hlike
  · exact List.cons_ne_nil _ _ hempty
  · exact List.cons_ne_nil _ _ (hlike 1 _ (by decide) (by decide) rfl).symm

end StackAllocation
