import StackAllocation.Bytes
import Mathlib.Data.Int.Notation
import Mathlib.Data.Nat.Notation

/-!
# The stores of an initialization

`InitializeNode::complete_stores` puts the captured stores of an allocation in a chain and
zeroes what they leave out. Constants are first gathered in eight-byte tiles
(`coalesce_subword_stores`): each is taken off the list, and each tile that is not zero comes
back as one long store or as up to two int stores, ahead of the stores that overlap it.

An offset is a number of bytes from the start of the object, a value the number that is stored,
of which a store takes as many low bytes as it writes. An input of the `Initialize` node is a
store, or `none` where the sources have the memory of the allocation.
-/

namespace StackAllocation

/-- The stores that initialize a field or an element. -/
inductive StoreOpcode : Type where
  | storeB | storeC | storeI | storeL | storeF | storeD | storeP | storeN
  deriving DecidableEq, Repr

/-- `memory_size`. -/
def StoreOpcode.memorySize : StoreOpcode → ℕ
  | .storeB => 1
  | .storeC => 2
  | .storeI | .storeF | .storeN => 4
  | .storeL | .storeD | .storeP => 8

/-- The type of a constant, where `coalesce_subword_stores` tells them apart. -/
inductive ConType : Type where
  | int | long | float | double
  /-- a pointer constant -/
  | odd
  deriving DecidableEq, Repr

/-- A captured store, on the memory of the allocation. -/
structure RawStore : Type where
  opcode : StoreOpcode
  /-- `get_store_offset` -/
  offset : ℕ
  /-- the type of the value if the value is a constant -/
  con : Option ConType
  /-- the value, when the store is executed -/
  value : ℕ
  deriving DecidableEq, Repr

/-- The number of bytes written. -/
def RawStore.size (st : RawStore) : ℕ := st.opcode.memorySize

/-- Execute a store. -/
def RawStore.exec (st : RawStore) (m : Bytes.Block) : Bytes.Block :=
  Bytes.put m st.size st.offset st.value

/-- Execute a chain of stores, the first one first. -/
def runStores (l : List RawStore) (m : Bytes.Block) : Bytes.Block :=
  l.foldl (fun m st => st.exec m) m

/-- What the completion of an initialization depends on. -/
structure InitializeEnv : Type where
  headerSize : ℕ
  /-- `allocation()->minimum_header_size()` -/
  minimumHeaderSize : ℕ
  /-- the size when the allocation is executed -/
  sizeInBytes : ℕ
  /-- the size is a constant -/
  sizeIsConstant : Bool
  /-- `alloc->Opcode() == Op_Allocate` -/
  isInstance : Bool
  /-- the `layout_helper()` of the class -/
  layoutHelper : ℕ
  /-- `TrackedInitializationLimit`, in words -/
  trackedInitializationLimit : ℕ
  /-- `Matcher::isSimpleConstant64` -/
  isSimpleConstant64 : ℕ → Bool
  /-- `Matcher::init_array_count_is_in_bytes` -/
  initArrayCountIsInBytes : Bool
  initArrayShortSize : ℕ
  reduceFieldZeroing : Bool
  reduceBulkZeroing : Bool
  /-- `UseTLAB && ZeroTLAB` -/
  isZeroed : Bool

/-! ## Coalescing constants

Pass A goes through the stores from the last one back and enters those of constants into tiles, up
to a limit. A store that is covered by later ones is dropped; a tile that a store of a variable
overlaps is not stored as a whole. Pass B puts the tiles back as stores. -/

section

variable (E : InitializeEnv)

/-- The limit on tracking, in bytes. -/
def InitializeEnv.tiLimit : ℕ := E.trackedInitializationLimit * 8

/-- `size_limit` and `num_tiles`. -/
def InitializeEnv.numTiles : ℕ :=
  let sizeLimit := if E.sizeIsConstant then E.sizeInBytes else E.tiLimit
  let sizeLimit := min sizeLimit E.tiLimit
  (sizeLimit + 7) / 8

/-- The state of pass A: the inputs passed, the last one first, the tile model, and the counts of
the stores taken off. -/
structure TileModel : Type where
  passed : List (Option RawStore)
  /-- exact bitwise model of all primitive constants -/
  tiles : Bytes.Block
  /-- which bytes are touched by any initializations -/
  inits : Bytes.Block
  /-- last constant-storing node subsumed into a tile -/
  nodes : ℕ → Option RawStore
  oldSubword : ℤ
  oldLong : ℤ

/-- The empty model. -/
def TileModel.empty : TileModel := ⟨[], fun _ => 0, fun _ => 0, fun _ => none, 0, 0⟩

/-- The store stays. -/
def TileModel.keep (s : TileModel) (st : RawStore) : TileModel :=
  { s with passed := some st :: s.passed }

/-- The store is not needed. -/
def TileModel.subsume (s : TileModel) (st : RawStore) : TileModel :=
  { s with
    passed := none :: s.passed
    nodes := Function.update s.nodes (st.offset / 8) (some st)
    oldSubword := if st.size < 8 then s.oldSubword + 1 else s.oldSubword
    oldLong := if st.size < 8 then s.oldLong else s.oldLong + 1 }

/-- `store_constant`, for an aligned store. -/
def storeConstant (tiles : Bytes.Block) (st : RawStore) (con : ℕ) : Bytes.Block :=
  Bytes.put tiles st.size st.offset con

/-- An int store in the second half of a tile is optimal by itself: its effect on the model is
undone, and that of an int store in the first half as well. -/
def TileModel.undo (s : TileModel) (st : RawStore) : TileModel :=
  let j := st.offset / 8
  let s := { s with tiles := Bytes.put s.tiles 4 (8 * j + 4) 0 }
  let con := Bytes.get s.tiles 4 (8 * j)
  match s.nodes j with
  | some prev =>
    if con ≠ 0 ∧ prev.opcode = .storeI then
      { s with
        tiles := Bytes.put s.tiles 4 (8 * j) 0
        passed := some st :: some prev :: s.passed.tail
        nodes := Function.update s.nodes j none
        oldSubword := s.oldSubword - 1 }
    else s.keep st
  | none => s.keep st

/-- One store within the limits, in pass A. -/
def TileModel.fill (s : TileModel) (st : RawStore) : TileModel :=
  if st.offset % st.size ≠ 0 then s.keep st -- strange store offset
  else
    -- Record which bytes are touched, whether by constant or not.
    let s := { s with inits := storeConstant s.inits st (2 ^ 64 - 1) }
    match st.con with
    | none | some .odd => s.keep st
    | some type =>
      if type = .long ∧ E.isSimpleConstant64 st.value = true ∧ st.opcode = .storeL then s.keep st
      else
        let s := { s with tiles := storeConstant s.tiles st st.value }
        if type = .int ∧ st.size = 4 ∧ st.offset % 8 = 4 ∧
            E.isSimpleConstant64 (Bytes.get s.tiles 8 (8 * (st.offset / 8))) = false ∧
            st.opcode = .storeI then s.undo st
        else s.subsume st

/-- Pass A: fill in the tile model with any relevant stores. -/
def fillTiles : List RawStore → TileModel → TileModel
  | [], s => s
  | st :: rest, s =>
    if st.offset < E.headerSize then fillTiles rest (s.keep st) -- ignore header
    else if 8 * E.numTiles < st.offset + st.size then (st :: rest).foldl TileModel.keep s
    else fillTiles rest (s.fill E st)

/-- `captured_store_insertion_point` for a size of zero, up to its sign, as a position in the
list of the inputs; `none` is a failure. -/
def capturedStoreInsertionPoint (l : List (Option RawStore)) (start : ℕ) : Option ℕ :=
  if start < E.minimumHeaderSize then none
  else if E.tiLimit ≤ start then none
  else some (l.findIdx fun st => st.any fun st => decide (start ≤ st.offset))

/-- Insert a store; `none` is a failed guarantee. -/
def insertStore (l : List (Option RawStore)) (st : RawStore) : Option (List (Option RawStore)) :=
  (capturedStoreInsertionPoint E l st.offset).map fun i =>
    if 0 < i ∧ l[i - 1]? = some none then l.set (i - 1) (some st) else l.insertIdx i (some st)

/-- Whether a tile is stored as two words. -/
def splitsTile (tiles inits : Bytes.Block) (j : ℕ) : Bool :=
  let con0 := Bytes.get tiles 4 (8 * j)
  let con1 := Bytes.get tiles 4 (8 * j + 4)
  let init0 := Bytes.get inits 4 (8 * j)
  let init1 := Bytes.get inits 4 (8 * j + 4)
  !E.isSimpleConstant64 (Bytes.get tiles 8 (8 * j)) ||
    decide (8 * j < E.headerSize) || -- only the second word counts
    decide (con0 = 0 ∧ init0 = 2 ^ 32 - 1) || -- first word is covered by full inits
    decide (con1 = 0 ∧ init1 = 2 ^ 32 - 1) -- second word is covered by full inits

/-- The stores of a tile: one long store, or an int store for each half that is not zero. -/
def tileStores (tiles inits : Bytes.Block) (j : ℕ) : List RawStore :=
  let con := Bytes.get tiles 8 (8 * j)
  let con0 := Bytes.get tiles 4 (8 * j)
  let con1 := Bytes.get tiles 4 (8 * j + 4)
  if con = 0 then []
  else if splitsTile E tiles inits j then
    (if con0 ≠ 0 then [⟨.storeI, 8 * j, some .int, con0⟩] else []) ++
    (if con1 ≠ 0 then [⟨.storeI, 8 * j + 4, some .int, con1⟩] else [])
  else [⟨.storeL, 8 * j, some .long, con⟩]

/-- Insert the stores of a tile, the second one first. -/
def insertStores : List RawStore → List (Option RawStore) → Option (List (Option RawStore))
  | [], l => some l
  | st :: rest, l => (insertStores rest l).bind fun l => insertStore E l st

/-- Pass B: convert any non-zero tiles into optimal constant stores. -/
def insertTiles (tiles inits : Bytes.Block) :
    List ℕ → List (Option RawStore) → Option (List (Option RawStore))
  | [], l => some l
  | j :: rest, l =>
    (insertStores E (tileStores E tiles inits j) l).bind (insertTiles tiles inits rest)

/-- `coalesce_subword_stores`; what is left of the inputs when the extra zeroes are removed. -/
def coalesceSubwordStores (stores : List RawStore) : Option (List RawStore) :=
  let s := fillTiles E stores .empty
  if s.oldSubword + s.oldLong = 0 then some s.passed.reverse.reduceOption
  else (insertTiles E s.tiles s.inits (List.range E.numTiles) s.passed.reverse).map
    List.reduceOption

end

/-! ## Zeroing

The loop of `complete_stores` goes through the stores in the order of their offsets and clears the
words before each that no store fills. Words that several small stores fill are cleared at once, and
the rest behind the last store at the end. -/

/-- A node of the zeroing chain. -/
inductive ZeroOp : Type where
  /-- an int store of zero -/
  | storeI (offset : ℕ)
  /-- a `ClearArray` from an offset, with its count -/
  | clearArray (offset count : ℕ)
  deriving DecidableEq, Repr

section

variable (E : InitializeEnv)

/-- Execute a node of the zeroing chain. -/
def ZeroOp.exec (op : ZeroOp) (m : Bytes.Block) : Bytes.Block :=
  match op with
  | .storeI offset => Bytes.put m 4 offset 0
  | .clearArray offset count =>
    let bytes := if E.initArrayCountIsInBytes then count else 8 * count
    fun b => if offset ≤ b ∧ b < offset + bytes then 0 else m b

/-- Execute the zeroing chain. -/
def runZeroing (l : List ZeroOp) (m : Bytes.Block) : Bytes.Block :=
  l.foldl (fun m op => op.exec E m) m

/-- `clear_memory` from an aligned offset. -/
def clearWords (startOffset endOffset : ℕ) : List ZeroOp :=
  if startOffset = endOffset then []
  else
    let zbase := if E.initArrayCountIsInBytes then startOffset else startOffset / 8
    let zend := if E.initArrayCountIsInBytes then endOffset else endOffset / 8
    [.clearArray startOffset (zend - zbase)]

/-- `clear_memory` up to an offset that need not be a constant. -/
def clearMemoryTo (startOffset endOffset : ℕ) : List ZeroOp :=
  if startOffset % 8 ≠ 0 then .storeI startOffset :: clearWords E (startOffset + 4) endOffset
  else clearWords E startOffset endOffset

/-- `clear_memory` between constants. -/
def clearMemory (startOffset endOffset : ℕ) : List ZeroOp :=
  if startOffset = endOffset then []
  else
    let doneOffset := if endOffset % 8 ≠ 0 then endOffset - 4 else endOffset
    (if startOffset < doneOffset then clearMemoryTo E startOffset doneOffset else []) ++
    (if doneOffset < endOffset then [.storeI doneOffset] else [])

/-- The bytes of a store's word known to be initialized, in `find_next_fullword_store`; the map so
far is for the word at `intMapOff`. -/
def updateIntMap (st : RawStore) (intMap intMapOff : ℕ) : ℕ :=
  let thisIntOff := st.offset / 4 * 4
  let intMap := if thisIntOff ≠ intMapOff then 0 else intMap
  intMap ||| (2 ^ st.size - 1) <<< (st.offset - thisIntOff)

/-- The loop of `find_next_fullword_store`; `none` is a negative result. -/
def findNextFullwordStore : List RawStore → ℕ → ℕ → Option ℕ
  | [], _, _ => none
  | st :: rest, intMap, intMapOff =>
    let thisIntOff := st.offset / 4 * 4
    let nextIntOff := (st.offset + st.size) / 4 * 4
    let intMap := updateIntMap st intMap intMapOff
    if 4 ≤ st.size ∧ st.offset % 4 = 0 then some st.offset -- a complete word init
    else if intMap &&& (2 ^ 4 - 1) = 2 ^ 4 - 1 then some thisIntOff
    -- Did this store hit or cross the word boundary?
    else if nextIntOff = thisIntOff + 4 then findNextFullwordStore rest (intMap >>> 4) nextIntOff
    else if thisIntOff + 4 < nextIntOff then some (thisIntOff + 4)
    else findNextFullwordStore rest intMap thisIntOff

/-- The state of the loop of `complete_stores`. -/
structure Zeroing : Type where
  /-- the zeroing chain -/
  rawmem : List ZeroOp
  zeroesDone : ℕ
  doZeroing : Bool
  bigInitGaps : ℕ

/-- The zeroes that a store needs before it or under it; `rest` are the stores after it. -/
def zeroesNeeded (st : RawStore) (rest : List RawStore) : ℕ :=
  if st.size < 4 then
    match findNextFullwordStore (st :: rest) 0 0 with
    | none => (st.offset + 3) / 4 * 4 -- Zero to end of current word.
    | some nextFullStore => nextFullStore
  else st.offset

/-- Do some incremental zeroing. -/
def Zeroing.clear (z : Zeroing) (needed : ℕ) : Zeroing :=
  if z.zeroesDone < needed then
    let zsize := needed - z.zeroesDone
    let isBig := decide (E.initArrayShortSize < zsize)
    { rawmem := z.rawmem ++ clearMemory E (z.zeroesDone / 4 * 4) needed
      zeroesDone := needed
      bigInitGaps := if isBig then z.bigInitGaps + 1 else z.bigInitGaps
      -- leave the hole, next time
      doZeroing := if isBig && decide (2 < z.bigInitGaps + 1) then false else z.doZeroing }
  else z

/-- One store, in `complete_stores`. -/
def Zeroing.step (z : Zeroing) (st : RawStore) (rest : List RawStore) : Zeroing :=
  let nextInitOff := st.offset + st.size
  let z := if z.doZeroing ∧ z.zeroesDone < nextInitOff then z.clear E (zeroesNeeded st rest) else z
  if z.zeroesDone = st.offset then { z with zeroesDone := nextInitOff } else z

/-- The loop of `complete_stores`. -/
def Zeroing.loop : List RawStore → Zeroing → Zeroing
  | [], z => z
  | st :: rest, z => Zeroing.loop rest (z.step E st rest)

/-- The constant size, or `max_jint`. -/
def InitializeEnv.sizeLimit : ℕ := if E.sizeIsConstant then E.sizeInBytes else 2 ^ 31 - 1

/-- If anything remains to be zeroed, zero it all now. -/
def Zeroing.finish (z : Zeroing) : List ZeroOp :=
  let zeroesDone := z.zeroesDone / 4 * 4
  -- if it is the last unused 4 bytes of an instance, forget about it
  let zeroesDone :=
    if E.sizeLimit ≤ zeroesDone + 8 ∧ E.isInstance = true ∧ zeroesDone = E.layoutHelper then
      E.sizeLimit
    else zeroesDone
  if zeroesDone < E.sizeLimit then z.rawmem ++ clearMemoryTo E zeroesDone E.sizeInBytes
  else z.rawmem

/-- `complete_stores`: the zeroing chain and the chain of stores; `none` is a failed
guarantee. -/
def completeStores (stores : List RawStore) : Option (List ZeroOp × List RawStore) :=
  (if E.reduceFieldZeroing || E.reduceBulkZeroing then coalesceSubwordStores E stores
    else some stores).map fun inits =>
      let doZeroing := !E.isZeroed && (E.reduceFieldZeroing || E.reduceBulkZeroing)
      let z := Zeroing.loop E inits ⟨[], E.headerSize, doZeroing, 0⟩
      (if E.isZeroed then z.rawmem else z.finish E, inits)

end

end StackAllocation
