import StackAllocation.OopMapStreams

/-!
# The immutable set of oop maps

The oop maps of a method are put into one block: a header, a pair of the pc offset and the place
of the map for each, and the maps. A first pass computes where each map goes and how large the
block is (`heap_size`): an empty map is stored once, and a map that is the same as the last that
was not empty goes where that one is. A second pass writes the pairs and the maps (`fill`) and
looks each map up at once, in a table of which only the first part is written.
-/

namespace StackAllocation

/-! ## Places

The builder knows the place of the empty map, if there was one, and of the last map that was not
empty. A new map goes behind all others, with its size rounded up to eight bytes. -/

/-- `align_up(x, 8)` -/
def alignUp8 (x : ℤ) : ℤ := (x + 7) / 8 * 8

/-- `sizeof(ImmutableOopMap)` -/
def sizeofImmutableOopMap : ℤ := 4

/-- `sizeof(ImmutableOopMapPair)` -/
def sizeofImmutableOopMapPair : ℤ := 8

/-- `sizeof(ImmutableOopMapSet)` -/
def sizeofImmutableOopMapSet : ℤ := 8

/-- `Mapping::kind_t` -/
inductive MappingKind : Type where
  | oopmapUnknown | oopmapNew | oopmapEmpty | oopmapDuplicate
  deriving DecidableEq, Repr

/-- `ImmutableOopMapBuilder::Mapping` -/
structure Mapping : Type where
  kind : MappingKind
  offset : ℤ
  size : ℤ
  map : OopMap
  other : Option OopMap
  deriving DecidableEq

/-- `OopMap::equals` -/
def OopMap.equals (map other : OopMap) : Bool :=
  decide (other.omvCount = map.omvCount) && decide (other.stream.length = map.stream.length) &&
    decide (other.stream = map.stream)

/-- The fields of an `ImmutableOopMapBuilder` that `heap_size` uses. -/
structure ImmutableOopMapBuilder : Type where
  empty : Option OopMap
  last : Option OopMap
  emptyOffset : ℤ
  lastOffset : ℤ
  offset : ℤ
  mapping : List Mapping

namespace ImmutableOopMapBuilder

/-- A new builder. -/
def new : ImmutableOopMapBuilder := ⟨none, none, -1, -1, 0, []⟩

variable (b : ImmutableOopMapBuilder)

/-- `is_empty` -/
def isEmpty (map : OopMap) : Bool := decide (map.omvCount = 0)

/-- `is_last_duplicate` -/
def isLastDuplicate (map : OopMap) : Bool :=
  match b.last with
  | none => false
  | some last => decide (0 < last.omvCount) && last.equals map

/-- `has_empty` -/
def hasEmpty : Bool := decide (b.emptyOffset ≠ -1)

/-- `size_for` -/
def sizeFor (map : OopMap) : ℤ := alignUp8 (sizeofImmutableOopMap + map.stream.length)

/-- One turn of the loop of `heap_size`. -/
def place (map : OopMap) : ImmutableOopMapBuilder :=
  if isEmpty map then
    -- only keep a single empty map in the set
    if b.hasEmpty then
      { b with mapping := b.mapping ++ [⟨.oopmapEmpty, b.emptyOffset, 0, map, b.empty⟩] }
    else
      { b with
        emptyOffset := b.offset
        empty := some map
        mapping := b.mapping ++ [⟨.oopmapNew, b.offset, sizeFor map, map, none⟩]
        offset := b.offset + sizeFor map }
  else if b.isLastDuplicate map then
    -- identical to the previous one: point it there
    { b with mapping := b.mapping ++ [⟨.oopmapDuplicate, b.lastOffset, 0, map, b.last⟩] }
  else
    { b with
      lastOffset := b.offset
      last := some map
      mapping := b.mapping ++ [⟨.oopmapNew, b.offset, sizeFor map, map, none⟩]
      offset := b.offset + sizeFor map }

end ImmutableOopMapBuilder

open ImmutableOopMapBuilder

/-- The builder after the loop of `heap_size`. -/
def placeAll (maps : List OopMap) : ImmutableOopMapBuilder := maps.foldl place new

/-- `heap_size` -/
def heapSize (maps : List OopMap) : ℤ :=
  alignUp8 sizeofImmutableOopMapSet + alignUp8 (maps.length * sizeofImmutableOopMapPair) +
    (placeAll maps).offset

/-! ## The block

The numbers in the block are bytes in memory. What is in them when they are read is what was written
before, so the buffer may have any content at the start. -/

/-- The address of a pair. -/
def pairAddr (i : ℕ) : ℕ := (sizeofImmutableOopMapSet + i * sizeofImmutableOopMapPair).toNat

section

variable (m : Bytes.Block)

/-- `ImmutableOopMapSet::data` -/
def setData : ℕ := (sizeofImmutableOopMapSet + sizeofImmutableOopMapPair * getInt m 0).toNat

/-- `pc_offset` of a pair -/
def pairPcOffset (i : ℕ) : ℤ := getInt m (pairAddr i)

/-- `oopmap_offset` of a pair -/
def pairOopmapOffset (i : ℕ) : ℤ := getInt m (pairAddr i + 4)

/-- `ImmutableOopMapPair::get_from` -/
def getFrom (i : ℕ) : ℕ := setData m + (pairOopmapOffset m i).toNat

/-- `find_map_at_offset`: the address of the map. Without a pair a guarantee fails. -/
def findMapAtOffset (pcOffset : ℤ) : Option ℕ :=
  ((List.range (getInt m 0).toNat).find? fun i => decide (pcOffset ≤ pairPcOffset m i)).map
    (getFrom m)

/-- `fill_pair` -/
def fillPair (i : ℕ) (map : OopMap) (offset : ℤ) : Bytes.Block :=
  putInt (putInt m (pairAddr i) map.pcOffset) (pairAddr i + 4) offset

/-- `fill_map`, with the constructor of `ImmutableOopMap`. -/
def fillMap (i : ℕ) (map : OopMap) (offset : ℤ) : Bytes.Block :=
  let m := fillPair m i map offset
  let addr := getFrom m i
  copyBytes (putInt m addr map.omvCount) (addr + sizeofImmutableOopMap.toNat) map.stream

/-- What the loop of `fill` writes for an entry of the mapping. -/
def fillMapping (i : ℕ) (x : Mapping) : Bytes.Block :=
  match x.kind with
  | .oopmapNew => fillMap m i x.map x.offset
  | .oopmapEmpty => fillPair m i x.map x.offset
  | .oopmapDuplicate => fillPair m i x.map x.offset
  | .oopmapUnknown => m

end

/-- `fill`, from an index on: each map is looked up when it is written. -/
def fill : ℕ → List Mapping → Bytes.Block → Option Bytes.Block
  | _, [], m => some m
  | i, x :: rest, m =>
    (findMapAtOffset (fillMapping m i x) x.map.pcOffset).bind fun _ =>
      fill (i + 1) rest (fillMapping m i x)

/-- `build_from`, into a buffer with any content. -/
def buildFrom (buffer : Bytes.Block) (maps : List OopMap) : Option Bytes.Block :=
  let set := putInt (putInt buffer 0 maps.length) 4 (heapSize maps)
  fill 0 (placeAll maps).mapping set

/-- `OopMapStream(const ImmutableOopMap*)` -/
def OopMapStream.ofImmutable (m : Bytes.Block) (addr : ℕ) : OopMapStream :=
  .ofData (getInt m addr) (addr + sizeofImmutableOopMap.toNat)

/-! ## The first pass

The invariant says of each entry where its map is: at the place of an entry that was new and has the
same bytes. New maps have places of their own, one above the other, below the size so far. -/

/-- The maps are stored as the same bytes. -/
def SameMap (a b : OopMap) : Prop := a.omvCount = b.omvCount ∧ a.stream = b.stream

/-- Maps are compared by their data, not by their offsets. -/
theorem equals_iff {a b : OopMap} : a.equals b = true ↔ SameMap b a := by
  simp only [OopMap.equals, Bool.and_eq_true, decide_eq_true_eq, SameMap]
  constructor
  · exact fun h => ⟨h.1.1, h.2⟩
  · exact fun h => ⟨⟨h.1, congrArg List.length h.2⟩, h.2⟩

/-- The comparison does not depend on which map comes first. -/
theorem SameMap.symm {a b : OopMap} (h : SameMap a b) : SameMap b a := ⟨h.1.symm, h.2.symm⟩

/-- So maps that are shared with the last one are shared with all before it. -/
theorem SameMap.trans {a b c : OopMap} (h : SameMap a b) (h' : SameMap b c) : SameMap a c :=
  ⟨h.1.trans h'.1, h.2.trans h'.2⟩

/-- A map has room for its header and its data. -/
theorem sizeFor_ge (map : OopMap) : 4 + (map.stream.length : ℤ) ≤ sizeFor map := by
  unfold ImmutableOopMapBuilder.sizeFor alignUp8 sizeofImmutableOopMap
  omega

/-- What has been placed: every entry is at the place of a new one with the same bytes, the new
ones are apart, and non-empty maps that share a place have only the like and empty ones between. -/
structure PlacedTable (T : List Mapping) (offset : ℤ) : Prop where
  offset_nonneg : 0 ≤ offset
  known : ∀ (i : ℕ) x, T[i]? = some x → x.kind ≠ .oopmapUnknown
  home : ∀ (i : ℕ) x, T[i]? = some x → ∃ (j : ℕ) (y : Mapping), j ≤ i ∧ T[j]? = some y ∧
    y.kind = .oopmapNew ∧ y.offset = x.offset ∧ SameMap y.map x.map
  new_le : ∀ (i : ℕ) x, T[i]? = some x → x.kind = .oopmapNew →
    0 ≤ x.offset ∧ x.offset + sizeFor x.map ≤ offset
  apart : ∀ (i j : ℕ) x y, i < j → T[i]? = some x → T[j]? = some y → x.kind = .oopmapNew →
    y.kind = .oopmapNew → x.offset + sizeFor x.map ≤ y.offset
  between : ∀ (i j k : ℕ) x y z, i < j → j < k → T[i]? = some x → T[j]? = some y →
    T[k]? = some z → x.offset = z.offset → x.map.omvCount ≠ 0 →
    y.map.omvCount = 0 ∨ SameMap y.map x.map

/-- A mapping to which one entry is appended. -/
theorem getElem?_concat {α : Type} {T : List α} {a x : α} {i : ℕ} :
    (T ++ [a])[i]? = some x ↔ T[i]? = some x ∨ i = T.length ∧ x = a := by
  rcases Nat.lt_trichotomy i T.length with hlt | heq | hgt
  · rw [List.getElem?_append_left hlt]
    refine ⟨.inl, fun h => h.elim id fun h => absurd h.1 (Nat.ne_of_lt hlt)⟩
  · subst heq
    rw [List.getElem?_concat_length, List.getElem?_eq_none (Nat.le_refl _)]
    simp [eq_comm]
  · rw [List.getElem?_eq_none (by rw [List.length_append, List.length_singleton]; omega),
      List.getElem?_eq_none (Nat.le_of_lt hgt)]
    refine ⟨nofun, fun h => h.elim nofun fun h => absurd h.1 (Nat.ne_of_gt hgt)⟩

/-- An entry that is there has an index below the length. -/
theorem lt_length_of_getElem? {α : Type} {T : List α} {x : α} {i : ℕ} (h : T[i]? = some x) :
    i < T.length := (List.getElem?_eq_some_iff.1 h).1

/-- Nothing is placed at the start. -/
theorem PlacedTable.nil : PlacedTable [] 0 where
  offset_nonneg := Int.le_refl 0
  known _ _ hx := absurd (lt_length_of_getElem? hx) (Nat.not_lt_zero _)
  home _ _ hx := absurd (lt_length_of_getElem? hx) (Nat.not_lt_zero _)
  new_le _ _ hx := absurd (lt_length_of_getElem? hx) (Nat.not_lt_zero _)
  apart _ _ _ _ _ hx := absurd (lt_length_of_getElem? hx) (Nat.not_lt_zero _)
  between _ _ _ _ _ _ _ _ hx := absurd (lt_length_of_getElem? hx) (Nat.not_lt_zero _)

namespace PlacedTable

variable {T : List Mapping} {offset : ℤ} (h : PlacedTable T offset)
include h

/-- New maps at one place are one. -/
theorem new_inj {i j : ℕ} {x y : Mapping} (hx : T[i]? = some x) (hy : T[j]? = some y)
    (hxNew : x.kind = .oopmapNew) (hyNew : y.kind = .oopmapNew) (heq : x.offset = y.offset) :
    i = j := by
  have hxSize := sizeFor_ge x.map
  have hySize := sizeFor_ge y.map
  rcases Nat.lt_trichotomy i j with hlt | rfl | hgt
  · have hapart := h.apart i j x y hlt hx hy hxNew hyNew
    omega
  · rfl
  · have hapart := h.apart j i y x hgt hy hx hyNew hxNew
    omega

/-- An entry at the place of a new map is a later one with the same bytes. -/
theorem same_of_offset {i j : ℕ} {x y : Mapping} (hx : T[i]? = some x) (hy : T[j]? = some y)
    (hyNew : y.kind = .oopmapNew) (heq : x.offset = y.offset) : j ≤ i ∧ SameMap y.map x.map := by
  obtain ⟨j', y', hle, hy', hyNew', heq', hsame⟩ := h.home i x hx
  obtain rfl := h.new_inj hy' hy hyNew' hyNew (heq'.trans heq)
  obtain rfl := Option.some.inj (hy'.symm.trans hy)
  exact ⟨hle, hsame⟩

/-- Entries at one place have the same bytes. -/
theorem same_of_eq {i j : ℕ} {x y : Mapping} (hx : T[i]? = some x) (hy : T[j]? = some y)
    (heq : x.offset = y.offset) : SameMap x.map y.map := by
  obtain ⟨k, z, -, hz, hnew, hzEq, hsame⟩ := h.home j y hy
  exact (h.same_of_offset hx hz hnew (heq.trans hzEq.symm)).2.symm.trans hsame

/-- Every entry is inside. -/
theorem offset_range {i : ℕ} {x : Mapping} (hx : T[i]? = some x) :
    0 ≤ x.offset ∧ x.offset + sizeFor x.map ≤ offset := by
  obtain ⟨j, y, -, hy, hyNew, heq, hsame⟩ := h.home i x hx
  have hrange := h.new_le j y hy hyNew
  rwa [heq, ImmutableOopMapBuilder.sizeFor, hsame.2] at hrange

/-- Entries at different places are apart. -/
theorem ranges_apart {i j : ℕ} {x y : Mapping} (hx : T[i]? = some x) (hy : T[j]? = some y)
    (hne : x.offset ≠ y.offset) :
    x.offset + sizeFor x.map ≤ y.offset ∨ y.offset + sizeFor y.map ≤ x.offset := by
  obtain ⟨i', x', -, hx', hxNew, hxEq, -, hxStream⟩ := h.home i x hx
  obtain ⟨j', y', -, hy', hyNew, hyEq, -, hyStream⟩ := h.home j y hy
  have hxSize : sizeFor x'.map = sizeFor x.map := by
    rw [ImmutableOopMapBuilder.sizeFor, ImmutableOopMapBuilder.sizeFor, hxStream]
  have hySize : sizeFor y'.map = sizeFor y.map := by
    rw [ImmutableOopMapBuilder.sizeFor, ImmutableOopMapBuilder.sizeFor, hyStream]
  rcases Nat.lt_trichotomy i' j' with hlt | rfl | hgt
  · have hapart := h.apart i' j' x' y' hlt hx' hy' hxNew hyNew
    omega
  · obtain rfl := Option.some.inj (hx'.symm.trans hy')
    exact absurd (hxEq.symm.trans hyEq) hne
  · have hapart := h.apart j' i' y' x' hgt hy' hx' hyNew hxNew
    omega

/-- A new map behind the others. -/
theorem new {map : OopMap} : PlacedTable (T ++ [⟨.oopmapNew, offset, sizeFor map, map, none⟩])
    (offset + sizeFor map) where
  offset_nonneg := by
    have hsize := sizeFor_ge map
    have hnonneg := h.offset_nonneg
    omega
  known i x hx := by
    rcases getElem?_concat.1 hx with hx | ⟨-, rfl⟩
    · exact h.known i x hx
    · exact nofun
  home i x hx := by
    rcases getElem?_concat.1 hx with hx | ⟨rfl, rfl⟩
    · obtain ⟨j, y, hle, hy, hrest⟩ := h.home i x hx
      exact ⟨j, y, hle, getElem?_concat.2 (.inl hy), hrest⟩
    · exact ⟨T.length, _, Nat.le_refl _, getElem?_concat.2 (.inr ⟨rfl, rfl⟩), rfl, rfl, rfl, rfl⟩
  new_le i x hx hnew := by
    have hsize := sizeFor_ge map
    rcases getElem?_concat.1 hx with hx | ⟨-, rfl⟩
    · have hrange := h.new_le i x hx hnew
      exact ⟨hrange.1, by omega⟩
    · exact ⟨h.offset_nonneg, Int.le_refl _⟩
  apart i j x y hlt hx hy hxNew hyNew := by
    rcases getElem?_concat.1 hy with hy | ⟨rfl, rfl⟩
    · rcases getElem?_concat.1 hx with hx | ⟨rfl, -⟩
      · exact h.apart i j x y hlt hx hy hxNew hyNew
      · exact absurd (lt_length_of_getElem? hy) (by omega)
    · rcases getElem?_concat.1 hx with hx | ⟨rfl, -⟩
      · exact (h.new_le i x hx hxNew).2
      · exact absurd hlt (Nat.lt_irrefl _)
  between i j k x y z hij hjk hx hy hz heq hcount := by
    rcases getElem?_concat.1 hx with hx | ⟨rfl, -⟩
    swap
    · have hlt := lt_length_of_getElem? hz
      rw [List.length_append, List.length_singleton] at hlt
      omega
    rcases getElem?_concat.1 hz with hz | ⟨-, rfl⟩
    · rcases getElem?_concat.1 hy with hy | ⟨rfl, -⟩
      · exact h.between i j k x y z hij hjk hx hy hz heq hcount
      · exact absurd (lt_length_of_getElem? hz) (by omega)
    · have hsize := sizeFor_ge x.map
      have hrange := h.offset_range hx
      simp only at heq
      omega

/-- An entry at the place of a map that is there. -/
theorem share {x : Mapping} {j : ℕ} {y : Mapping} (hy : T[j]? = some y)
    (hyNew : y.kind = .oopmapNew) (heq : y.offset = x.offset) (hsame : SameMap y.map x.map)
    (hknown : x.kind ≠ .oopmapUnknown) (hold : x.kind ≠ .oopmapNew)
    (hlater : x.map.omvCount = 0 ∨
      ∀ (k : ℕ) z, j < k → T[k]? = some z → z.map.omvCount = 0 ∨ SameMap z.map y.map) :
    PlacedTable (T ++ [x]) offset where
  offset_nonneg := h.offset_nonneg
  known i w hw := by
    rcases getElem?_concat.1 hw with hw | ⟨-, rfl⟩
    · exact h.known i w hw
    · exact hknown
  home i w hw := by
    rcases getElem?_concat.1 hw with hw | ⟨rfl, rfl⟩
    · obtain ⟨j, y, hle, hy, hrest⟩ := h.home i w hw
      exact ⟨j, y, hle, getElem?_concat.2 (.inl hy), hrest⟩
    · exact ⟨j, y, Nat.le_of_lt (lt_length_of_getElem? hy), getElem?_concat.2 (.inl hy), hyNew, heq,
        hsame⟩
  new_le i w hw hnew := by
    rcases getElem?_concat.1 hw with hw | ⟨-, rfl⟩
    · exact h.new_le i w hw hnew
    · exact absurd hnew hold
  apart i k w z hlt hw hz hwNew hzNew := by
    rcases getElem?_concat.1 hz with hz | ⟨-, rfl⟩
    · rcases getElem?_concat.1 hw with hw | ⟨-, rfl⟩
      · exact h.apart i k w z hlt hw hz hwNew hzNew
      · exact absurd hwNew hold
    · exact absurd hzNew hold
  between i k l w z v hik hkl hw hz hv hoff hcount := by
    have hend := lt_length_of_getElem? hv
    rw [List.length_append, List.length_singleton] at hend
    have hw' : T[i]? = some w := by rwa [List.getElem?_append_left (by omega)] at hw
    have hz' : T[k]? = some z := by rwa [List.getElem?_append_left (by omega)] at hz
    rcases getElem?_concat.1 hv with hv' | ⟨-, rfl⟩
    · exact h.between i k l w z v hik hkl hw' hz' hv' hoff hcount
    · -- the first one shares the place of the stored map too
      obtain ⟨hle, hsame'⟩ := h.same_of_offset hw' hy hyNew (hoff.trans heq.symm)
      rcases hlater with hzero | hlater
      · exact absurd (hsame'.1.symm.trans (hsame.1.trans hzero)) hcount
      · exact (hlater k z (Nat.lt_of_le_of_lt hle hik) hz').imp_right fun hz => hz.trans hsame'

end PlacedTable

/-- What is known of a builder in the loop of `heap_size`. -/
structure PlacedSoFar (b : ImmutableOopMapBuilder) : Prop where
  table : PlacedTable b.mapping b.offset
  empty : b.emptyOffset = -1 ∨ ∃ (j : ℕ) (y : Mapping), b.mapping[j]? = some y ∧
    y.kind = .oopmapNew ∧ y.offset = b.emptyOffset ∧ y.map.omvCount = 0 ∧ y.map.stream = []
  last : ∀ l, b.last = some l → ∃ (j : ℕ) (y : Mapping), b.mapping[j]? = some y ∧
    y.kind = .oopmapNew ∧ y.offset = b.lastOffset ∧ y.map = l ∧
    ∀ (k : ℕ) z, j < k → b.mapping[k]? = some z → z.map.omvCount = 0 ∨ SameMap z.map l

namespace PlacedSoFar

/-- The invariant holds before the first map. -/
theorem new : PlacedSoFar ImmutableOopMapBuilder.new where
  table := .nil
  empty := .inl rfl
  last _ hl := absurd hl.symm (Option.some_ne_none _)

variable {b : ImmutableOopMapBuilder} (h : PlacedSoFar b)
include h

/-- The last map that was not empty is still that after an empty one or a copy. -/
theorem last_concat {x : Mapping}
    (hx : x.map.omvCount = 0 ∨ ∀ l, b.last = some l → SameMap x.map l) :
    ∀ l, b.last = some l → ∃ (j : ℕ) (y : Mapping), (b.mapping ++ [x])[j]? = some y ∧
      y.kind = .oopmapNew ∧ y.offset = b.lastOffset ∧ y.map = l ∧
      ∀ (k : ℕ) z, j < k → (b.mapping ++ [x])[k]? = some z →
        z.map.omvCount = 0 ∨ SameMap z.map l := by
  intro l hl
  obtain ⟨j, y, hy, hnew, heq, hmap, hlater⟩ := h.last l hl
  refine ⟨j, y, getElem?_concat.2 (.inl hy), hnew, heq, hmap, fun k z hlt hz => ?_⟩
  rcases getElem?_concat.1 hz with hz | ⟨-, rfl⟩
  · exact hlater k z hlt hz
  · exact hx.imp_right fun hx => hx l hl

/-- The place of the empty map, if there is one, is that of an entry that was new. -/
theorem empty_concat (x : Mapping) :
    b.emptyOffset = -1 ∨ ∃ (j : ℕ) (y : Mapping), (b.mapping ++ [x])[j]? = some y ∧
      y.kind = .oopmapNew ∧ y.offset = b.emptyOffset ∧ y.map.omvCount = 0 ∧ y.map.stream = [] := by
  rcases h.empty with hnone | ⟨j, y, hy, hrest⟩
  · exact .inl hnone
  · exact .inr ⟨j, y, getElem?_concat.2 (.inl hy), hrest⟩

/-- One turn of the loop. -/
theorem place {map : OopMap} (hdata : map.omvCount = 0 → map.stream = []) :
    PlacedSoFar (b.place map) := by
  rw [ImmutableOopMapBuilder.place]
  split
  · next hempty =>
    have hzero : map.omvCount = 0 := of_decide_eq_true hempty
    split
    · next hhas =>
      obtain hnone | ⟨j, y, hy, hnew, heq, hcount, hstream⟩ := h.empty
      · exact absurd hnone (of_decide_eq_true hhas)
      · have hsame : SameMap y.map map :=
          ⟨hcount.trans hzero.symm, hstream.trans (hdata hzero).symm⟩
        exact
          { table := h.table.share hy hnew heq hsame nofun nofun (.inl hzero)
            empty := h.empty_concat _
            last := h.last_concat (.inl hzero) }
    · exact
        { table := h.table.new
          empty := .inr ⟨_, _, getElem?_concat.2 (.inr ⟨rfl, rfl⟩), rfl, rfl, hzero, hdata hzero⟩
          last := h.last_concat (.inl hzero) }
  · split
    · next hdup =>
      obtain ⟨l, hl⟩ : ∃ l, b.last = some l := by
        cases hl : b.last with
        | none => simp only [ImmutableOopMapBuilder.isLastDuplicate, hl, Bool.false_eq_true] at hdup
        | some l => exact ⟨l, rfl⟩
      simp only [ImmutableOopMapBuilder.isLastDuplicate, hl, Bool.and_eq_true] at hdup
      obtain ⟨j, y, hy, hnew, heq, rfl, hlater⟩ := h.last _ hl
      have hsame : SameMap map y.map := equals_iff.1 hdup.2
      exact
        { table := h.table.share hy hnew heq hsame.symm nofun nofun (.inr hlater)
          empty := h.empty_concat _
          last := h.last_concat (.inr fun l' hl' => Option.some.inj (hl.symm.trans hl') ▸ hsame) }
    · refine
        { table := h.table.new
          empty := h.empty_concat _
          last := ?_ }
      rintro _ ⟨⟩
      refine ⟨_, _, getElem?_concat.2 (.inr ⟨rfl, rfl⟩), rfl, rfl, rfl, fun k z hlt hz => ?_⟩
      have hk := lt_length_of_getElem? hz
      rw [List.length_append, List.length_singleton] at hk
      omega

end PlacedSoFar

/-- To place a map appends it to the mapping, whatever its place is. -/
theorem place_mapping (b : ImmutableOopMapBuilder) (map : OopMap) :
    (b.place map).mapping.map (·.map) = b.mapping.map (·.map) ++ [map] := by
  rw [place]
  split
  · split <;> exact List.map_append
  · split <;> exact List.map_append

/-- The loop of `heap_size` places every map. -/
theorem placedSoFar_placeAll {maps : List OopMap}
    (hdata : ∀ map ∈ maps, map.omvCount = 0 → map.stream = []) :
    PlacedSoFar (placeAll maps) ∧ (placeAll maps).mapping.map (·.map) = maps := by
  have hfold : ∀ maps : List OopMap, (∀ map ∈ maps, map.omvCount = 0 → map.stream = []) →
      ∀ b, PlacedSoFar b → PlacedSoFar (maps.foldl place b) ∧
        (maps.foldl place b).mapping.map (·.map) = b.mapping.map (·.map) ++ maps := by
    intro maps
    induction maps with
    | nil => exact fun _ b hb => ⟨hb, (List.append_nil _).symm⟩
    | cons map maps ih =>
      intro hdata b hb
      obtain ⟨hmap, hdata⟩ := List.forall_mem_cons.1 hdata
      obtain ⟨hplaced, hmaps⟩ := ih hdata _ (hb.place hmap)
      refine ⟨hplaced, ?_⟩
      rw [List.foldl_cons, hmaps, place_mapping, List.append_assoc, List.singleton_append]
  exact hfold maps hdata _ .new

end StackAllocation
