import Mathlib.Data.Int.Notation
import Mathlib.Data.List.Basic
import Mathlib.Data.List.Induction
import Mathlib.Data.Nat.Notation

/-!
# The list of captured stores

An `Initialize` keeps the stores that it captures in the order of their offsets. One search finds
both the store to a range and the place where a new one belongs (`captured_store_insertion_point`).
It takes no store to be longer than a long, so it goes past what a longer one writes. As long as
none is captured the stores are disjoint and the search is right, and once one is captured it is
wrong (`InitializeInputs.runOk_iff`).
-/

namespace StackAllocation

/-- A store that is captured. -/
structure InitStore : Type where
  /-- `get_store_offset` -/
  offset : ℤ
  /-- `memory_size()` -/
  size : ℕ
  size_pos : 0 < size
  node : ℕ
  deriving DecidableEq

/-- An input of an `Initialize`, from `RawStores` on. -/
inductive InitInput : Type where
  /-- `zero_memory()` -/
  | zeroMemory
  | top
  /-- a node that is no store any more, or a store to a dead address -/
  | dead (n : ℕ)
  | store (st : InitStore)
  deriving DecidableEq

/-- What `captured_store_insertion_point` returns, by the index from `RawStores` on. -/
inductive InsertionPoint : Type where
  | fail
  /-- there is none, and one would be inserted here -/
  | insertAt (i : ℕ)
  | found (i : ℕ)
  deriving DecidableEq

/-- What becomes of a new store when it is transformed. -/
inductive Transformed : Type where
  | store
  /-- what the memory before has there already -/
  | previous
  /-- it stores zero to fresh memory -/
  | zero

/-- The limits of the stores that are tracked. -/
structure TrackedRange : Type where
  /-- `allocation()->minimum_header_size()` -/
  minimumHeaderSize : ℤ
  minimumHeaderSize_nonneg : 0 ≤ minimumHeaderSize
  /-- in words -/
  trackedInitializationLimit : ℕ

/-- `ti_limit` -/
def TrackedRange.tiLimit (E : TrackedRange) : ℤ := E.trackedInitializationLimit * 8

/-- The store covers a part of a range. -/
def InitStore.Overlaps (st : InitStore) (start : ℤ) (size : ℕ) : Prop :=
  st.offset < start + size ∧ start < st.offset + st.size

/-- It covers exactly that. -/
def InitStore.Covers (st : InitStore) (start : ℤ) (size : ℕ) : Prop :=
  st.offset = start ∧ st.size = size

/-- It ends before another one starts. -/
def InitStore.Before (a b : InitStore) : Prop := a.offset + a.size ≤ b.offset

/-- The stores among the inputs. -/
def liveStores (l : List InitInput) : List InitStore :=
  l.filterMap fun input => match input with
    | .store st => some st
    | _ => none

/-- The loop of `captured_store_insertion_point`, from an index on; `MAX_STORE` is 8. -/
def insertionLoop (start : ℤ) (size : ℕ) : ℕ → List InitInput → InsertionPoint
  | i, [] => .insertAt i
  | i, .zeroMemory :: rest => insertionLoop start size (i + 1) rest
  | _, .top :: _ => .fail
  | _, .dead _ :: _ => .fail
  | i, .store st :: rest =>
    if start < st.offset then
      if st.offset < start + size then .fail -- the next store overlaps
      else .insertAt i
    else if st.offset < start then
      if size ≠ 0 ∧ start < st.offset + 8 ∧ start < st.offset + st.size then .fail
      else insertionLoop start size (i + 1) rest
    else if size ≠ 0 ∧ st.size ≠ size then .fail -- mismatched store size
    else .found i

/-- An `Initialize`, as far as it captures stores. -/
structure InitializeInputs : Type where
  isComplete : Bool
  inputs : List InitInput

namespace InitializeInputs

variable (E : TrackedRange) (init : InitializeInputs)

/-- `captured_store_insertion_point` -/
def capturedStoreInsertionPoint (start : ℤ) (size : ℕ) : InsertionPoint :=
  if init.isComplete then .fail
  else if start < E.minimumHeaderSize then .fail
  else if E.tiLimit ≤ start then .fail
  else insertionLoop start size 0 init.inputs

/-- `find_captured_store` -/
def findCapturedStore (start : ℤ) (size : ℕ) : Option InitInput :=
  match init.capturedStoreInsertionPoint E start size with
  | .fail => none
  | .insertAt _ => some .zeroMemory
  | .found i => init.inputs[i]?

/-- What is wired in for a new store. -/
def wiredIn (st : InitStore) (prev : InitInput) : Transformed → InitInput
  | .store => .store st
  | .previous => prev
  | .zero => .zeroMemory

/-- `capture_store` of a store whose `memory_size` and offset are those of `st`: what it returns,
and the node afterwards. -/
def captureStore (st : InitStore) (t : Transformed) : Option InitInput × InitializeInputs :=
  if st.offset < 0 then (none, init)
  else
    match init.capturedStoreInsertionPoint E st.offset st.size with
    | .fail => (none, init)
    | .found i =>
      let input := wiredIn st (init.inputs.getD i .top) t
      (some input, { init with inputs := init.inputs.set i input })
    | .insertAt i =>
      let input := wiredIn st .zeroMemory t
      if 0 < i ∧ init.inputs[i - 1]? = some .zeroMemory then
        -- this edge has been folded away
        (some input, { init with inputs := init.inputs.set (i - 1) input })
      else (some input, { init with inputs := init.inputs.insertIdx i input })

/-- `remove_extra_zeroes` -/
def removeExtraZeroes : InitializeInputs :=
  { init with
    inputs := init.inputs.filter fun input => decide (input ≠ .top ∧ input ≠ .zeroMemory) }

end InitializeInputs

/-- What happens to an `Initialize`. -/
inductive InitOp : Type where
  | capture (st : InitStore) (t : Transformed)
  | removeExtraZeroes

namespace InitializeInputs

variable (E : TrackedRange)

/-- One operation. -/
def step (init : InitializeInputs) : InitOp → InitializeInputs
  | .capture st t => (init.captureStore E st t).2
  | .removeExtraZeroes => init.removeExtraZeroes

/-- The operations, one after the other. -/
def run (init : InitializeInputs) (ops : List InitOp) : InitializeInputs := ops.foldl (step E) init

/-! ## What is promised

`captured_store_insertion_point` is asked for a range of bytes. It is to find the store that covers
exactly this range, or the place where one belongs, or to give up because a store overlaps the
range. The rest of the code relies on the list being in order and free of overlaps, and so does the
search itself. -/

/-- Ascending by offset, and disjoint. -/
def Ordered (init : InitializeInputs) : Prop :=
  (liveStores init.inputs).Pairwise InitStore.Before

/-- No input is dead. -/
def NoDead (init : InitializeInputs) : Prop :=
  .top ∉ init.inputs ∧ ∀ n, .dead n ∉ init.inputs

/-- The search for a range finds the store that covers it, or that no store overlaps it. -/
def FindsExact (init : InitializeInputs) : Prop :=
  ∀ (start : ℤ) (size : ℕ), 0 < size → E.minimumHeaderSize ≤ start → start < E.tiLimit →
    (∀ st, init.findCapturedStore E start size = some (.store st) ↔
      st ∈ liveStores init.inputs ∧ st.Covers start size) ∧
    (init.findCapturedStore E start size = some .zeroMemory ↔
      ∀ st ∈ liveStores init.inputs, ¬ st.Overlaps start size) ∧
    (init.findCapturedStore E start size = none ↔
      ∃ st ∈ liveStores init.inputs, st.Overlaps start size ∧ ¬ st.Covers start size)

/-- A refused capture leaves the list as it is. -/
def RefusalsKeep (init : InitializeInputs) : Prop :=
  ∀ st t, (init.captureStore E st t).1 = none → (init.captureStore E st t).2 = init

/-- What is promised of a list. -/
structure ListOk (init : InitializeInputs) : Prop where
  ordered : init.Ordered
  refusals : RefusalsKeep E init
  finds : init.NoDead → init.FindsExact E

/-- What is promised of every list that comes up. -/
def RunOk (init : InitializeInputs) (ops : List InitOp) : Prop :=
  ∀ done, done <+: ops → ListOk E (run E init done)

/-- A store that is wired in is not longer than a long, or too close to the limit to matter, or
some store of the list overlaps it. -/
def NarrowStep (init : InitializeInputs) : InitOp → Prop
  | .capture st .store => st.size ≤ 8 ∨ E.tiLimit ≤ st.offset + 8 ∨
      st.offset < E.minimumHeaderSize ∨ ∃ s ∈ liveStores init.inputs, s.Overlaps st.offset st.size
  | _ => True

/-- Each operation is one like that. -/
def NarrowRun (init : InitializeInputs) (ops : List InitOp) : Prop :=
  ∀ done op, done ++ [op] <+: ops → NarrowStep E (run E init done) op

end InitializeInputs

/-! ## The search

The search goes past a store that starts before the range, if the store ends before the range or
starts at least `MAX_STORE` bytes before it. What it has passed (`Passed`) is taken for being out of
the way. For stores of at most eight bytes that is right, and the induction over the inputs gives
what each way to end says of the whole list. -/

/-- What the search takes the store for does not reach past a range that starts later. -/
def InitStore.MissedBy (st : InitStore) (start : ℤ) : Prop :=
  st.offset < start ∧ ¬ (start < st.offset + 8 ∧ start < st.offset + st.size)

/-- What the search passes. -/
def Passed (start : ℤ) (pre : List InitInput) : Prop :=
  ∀ input ∈ pre, input = .zeroMemory ∨ ∃ st : InitStore, input = .store st ∧ st.MissedBy start

/-- The stores of two lists of inputs. -/
theorem liveStores_append (l l' : List InitInput) :
    liveStores (l ++ l') = liveStores l ++ liveStores l' := List.filterMap_append

/-- A store that is an input and not dead. -/
theorem mem_liveStores {l : List InitInput} {st : InitStore} :
    st ∈ liveStores l ↔ .store st ∈ l := by
  rw [liveStores, List.mem_filterMap]
  constructor
  · rintro ⟨input, hinput, heq⟩
    split at heq
    · obtain rfl := Option.some.inj heq
      exact hinput
    · cases heq
  · exact fun h => ⟨.store st, h, rfl⟩

/-- The stores that the search has gone past end before the one that is looked for. -/
theorem Passed.missed {start : ℤ} {pre : List InitInput} (h : Passed start pre) {st : InitStore}
    (hst : st ∈ liveStores pre) : st.MissedBy start := by
  obtain heq | ⟨st', heq, hmissed⟩ := h _ (mem_liveStores.1 hst)
  · cases heq
  · cases heq
    exact hmissed

/-- What a search that ends in some way says of the inputs. -/
def InsertionPoint.Says (start : ℤ) (size k : ℕ) (l : List InitInput) : InsertionPoint → Prop
  | .found i => ∃ pre st post, l = pre ++ .store st :: post ∧ i = k + pre.length ∧
      Passed start pre ∧ st.Covers start size
  | .insertAt i => ∃ pre post, l = pre ++ post ∧ i = k + pre.length ∧ Passed start pre ∧
      (post = [] ∨ ∃ st rest, post = .store st :: rest ∧ start + size ≤ st.offset)
  | .fail => (.top ∈ l ∨ ∃ n, .dead n ∈ l) ∨
      ∃ st ∈ liveStores l, st.Overlaps start size ∧ ¬ st.Covers start size

/-- What it says of the rest it says with what it has passed. -/
theorem InsertionPoint.Says.cons {start : ℤ} {size k : ℕ} {l : List InitInput} {p : InsertionPoint}
    {input : InitInput}
    (hinput : input = .zeroMemory ∨ ∃ st : InitStore, input = .store st ∧ st.MissedBy start)
    (h : p.Says start size (k + 1) l) : p.Says start size k (input :: l) := by
  cases p with
  | found i =>
    obtain ⟨pre, st, post, rfl, rfl, hpre, hcovers⟩ := h
    refine ⟨input :: pre, st, post, rfl, ?_, List.forall_mem_cons.2 ⟨hinput, hpre⟩, hcovers⟩
    rw [List.length_cons]
    omega
  | insertAt i =>
    obtain ⟨pre, post, rfl, rfl, hpre, hpost⟩ := h
    refine ⟨input :: pre, post, rfl, ?_, List.forall_mem_cons.2 ⟨hinput, hpre⟩, hpost⟩
    rw [List.length_cons]
    omega
  | fail =>
    obtain (htop | ⟨n, hdead⟩) | ⟨st, hst, hover⟩ := h
    · exact .inl (.inl (List.mem_cons_of_mem _ htop))
    · exact .inl (.inr ⟨n, List.mem_cons_of_mem _ hdead⟩)
    · refine .inr ⟨st, mem_liveStores.2 (List.mem_cons_of_mem _ ?_), hover⟩
      exact mem_liveStores.1 hst

/-- What the search returns, by induction on the inputs: a place to insert, the store that is found,
or that it gives up. -/
theorem insertionLoop_says {start : ℤ} {size : ℕ} (hsize : 0 < size) (k : ℕ) (l : List InitInput) :
    (insertionLoop start size k l).Says start size k l := by
  induction l generalizing k with
  | nil => exact ⟨[], [], rfl, rfl, fun _ h => absurd h List.not_mem_nil, .inl rfl⟩
  | cons input l ih =>
    cases input with
    | zeroMemory => exact (ih (k + 1)).cons (.inl rfl)
    | top => exact .inl (.inl List.mem_cons_self)
    | dead n => exact .inl (.inr ⟨n, List.mem_cons_self⟩)
    | store st =>
      have hst : st ∈ liveStores (.store st :: l) := mem_liveStores.2 List.mem_cons_self
      have hpos := st.size_pos
      rw [insertionLoop]
      split
      · next hlt =>
        split
        · next hover =>
          refine .inr ⟨st, hst, ⟨hover, by omega⟩, fun hcovers => ?_⟩
          exact Int.ne_of_gt hlt hcovers.1
        · next hover =>
          refine ⟨[], .store st :: l, rfl, rfl, fun _ h => absurd h List.not_mem_nil, .inr ?_⟩
          exact ⟨st, l, rfl, Int.not_lt.1 hover⟩
      · next hge =>
        split
        · next hlt =>
          split
          · next hover =>
            refine .inr ⟨st, hst, ⟨by omega, hover.2.2⟩, fun hcovers => ?_⟩
            exact Int.ne_of_lt hlt hcovers.1
          · next hover =>
            refine (ih (k + 1)).cons (.inr ⟨st, rfl, hlt, fun h => hover ?_⟩)
            exact ⟨Nat.ne_of_gt hsize, h⟩
        · next hle =>
          have heq : st.offset = start := by omega
          split
          · next hne => exact .inr ⟨st, hst, ⟨by omega, by omega⟩, fun hcovers => hne.2 hcovers.2⟩
          · next hne =>
            refine ⟨[], st, l, rfl, rfl, fun _ h => absurd h List.not_mem_nil, heq, ?_⟩
            by_contra hsz
            exact hne ⟨Nat.ne_of_gt hsize, hsz⟩

/-- A store that covers the bytes overlaps them. -/
theorem InitStore.Covers.overlaps {st : InitStore} {start : ℤ} {size : ℕ}
    (h : st.Covers start size) : st.Overlaps start size := by
  have hpos := st.size_pos
  obtain ⟨rfl, rfl⟩ := h
  exact ⟨by omega, by omega⟩

/-- Of two stores of an ordered list one ends before the other starts. -/
theorem eq_or_before {l : List InitStore} (h : l.Pairwise InitStore.Before) {a b : InitStore}
    (ha : a ∈ l) (hb : b ∈ l) : a = b ∨ a.Before b ∨ b.Before a := by
  induction l with
  | nil => exact absurd ha List.not_mem_nil
  | cons c l ih =>
    obtain ⟨hc, hl⟩ := List.pairwise_cons.1 h
    obtain rfl | ha' := List.mem_cons.1 ha
    · obtain rfl | hb := List.mem_cons.1 hb
      · exact .inl rfl
      · exact .inr (.inl (hc b hb))
    · obtain rfl | hb := List.mem_cons.1 hb
      · exact .inr (.inr (hc a ha'))
      · exact ih hl ha' hb

namespace InitializeInputs

variable {E : TrackedRange} {init : InitializeInputs}

/-- The stores that the search misjudges where it may be asked: none of more than eight bytes. -/
def Narrow (E : TrackedRange) (init : InitializeInputs) : Prop :=
  ∀ st ∈ liveStores init.inputs, st.size ≤ 8 ∨ E.tiLimit ≤ st.offset + 8

/-- Where the search is asked it says what it finds. -/
theorem says_insertionPoint (hincomplete : init.isComplete = false) {start : ℤ} {size : ℕ}
    (hsize : 0 < size) (hmin : E.minimumHeaderSize ≤ start) (hlimit : start < E.tiLimit) :
    (init.capturedStoreInsertionPoint E start size).Says start size 0 init.inputs := by
  rw [capturedStoreInsertionPoint, hincomplete, if_neg Bool.false_ne_true,
    if_neg (Int.not_lt.2 hmin), if_neg (Int.not_le.2 hlimit)]
  exact insertionLoop_says hsize 0 init.inputs

/-- A store that is missed ends before the range starts, if it is not too long. -/
theorem before_of_missedBy {st : InitStore} {start : ℤ} (h : st.MissedBy start)
    (hnarrow : st.size ≤ 8 ∨ E.tiLimit ≤ st.offset + 8) (hlimit : start < E.tiLimit) :
    st.offset + st.size ≤ start := by
  obtain ⟨hlt, hmissed⟩ := h
  by_contra hover
  refine hmissed ⟨?_, by omega⟩
  obtain hsize | hend := hnarrow
  · omega
  · omega

/-- Nothing else overlaps the range that a store covers. -/
theorem Ordered.eq_of_covers (h : init.Ordered) {start : ℤ} {size : ℕ} {a b : InitStore}
    (ha : a ∈ liveStores init.inputs) (hb : b ∈ liveStores init.inputs)
    (hcovers : a.Covers start size)
    (hover : b.Overlaps start size) : b = a := by
  obtain ⟨rfl, rfl⟩ := hcovers
  obtain ⟨hlt, hgt⟩ := hover
  obtain rfl | hbefore | hbefore := eq_or_before h ha hb
  · rfl
  · rw [InitStore.Before] at hbefore
    omega
  · rw [InitStore.Before] at hbefore
    omega

/-- Around the place where a store is found or would be inserted. -/
theorem apart_of_passed {start : ℤ} {size : ℕ} {pre post : List InitInput}
    (hinputs : init.inputs = pre ++ post) (hordered : init.Ordered) (hnarrow : init.Narrow E)
    (hlimit : start < E.tiLimit) (hpre : Passed start pre)
    (hpost : post = [] ∨ ∃ st rest, post = .store st :: rest ∧ start + size ≤ st.offset) :
    (∀ st ∈ liveStores pre, st.offset + st.size ≤ start) ∧
      ∀ st ∈ liveStores post, start + size ≤ st.offset := by
  rw [Ordered, hinputs, liveStores_append, List.pairwise_append] at hordered
  constructor
  · intro st hst
    refine before_of_missedBy (hpre.missed hst) (hnarrow st ?_) hlimit
    rw [hinputs, liveStores_append]
    exact List.mem_append_left _ hst
  · intro st hst
    obtain rfl | ⟨st', rest, rfl, hle⟩ := hpost
    · exact absurd hst List.not_mem_nil
    · obtain ⟨hfirst, -⟩ := List.pairwise_cons.1 hordered.2.1
      obtain rfl | hst := List.mem_cons.1 (show st ∈ st' :: liveStores rest from hst)
      · exact hle
      · have hbefore := hfirst st hst
        rw [InitStore.Before] at hbefore
        omega

/-- With inputs in order, no dead ones and stores of at most eight bytes, the store that is found is
exactly the last one of these bytes. -/
theorem findsExact_of_ordered (hincomplete : init.isComplete = false) (hordered : init.Ordered)
    (hnarrow : init.Narrow E) (hdead : init.NoDead) : init.FindsExact E := by
  intro start size hsize hmin hlimit
  have hsays := says_insertionPoint hincomplete hsize hmin hlimit
  rw [findCapturedStore]
  split
  · next hpoint =>
    rw [hpoint] at hsays
    obtain hmem | ⟨st, hst, hover, hnot⟩ := hsays
    · exact absurd hmem (not_or.2 ⟨hdead.1, not_exists.2 hdead.2⟩)
    · refine ⟨fun st' => ⟨nofun, fun ⟨hst', hcovers⟩ => ?_⟩, ⟨nofun, fun h => ?_⟩, fun _ => ?_,
        fun _ => rfl⟩
      · obtain rfl := hordered.eq_of_covers hst' hst hcovers hover
        exact absurd hcovers hnot
      · exact absurd hover (h st hst)
      · exact ⟨st, hst, hover, hnot⟩
  · next i hpoint =>
    rw [hpoint] at hsays
    obtain ⟨pre, post, hinputs, -, hpre, hpost⟩ := hsays
    obtain ⟨hbefore, hafter⟩ := apart_of_passed hinputs hordered hnarrow hlimit hpre hpost
    have hnone : ∀ st ∈ liveStores init.inputs, ¬ st.Overlaps start size := by
      intro st hst hover
      rw [hinputs, liveStores_append] at hst
      obtain hst | hst := List.mem_append.1 hst
      · exact Int.not_lt.2 (hbefore st hst) hover.2
      · exact Int.not_lt.2 (hafter st hst) hover.1
    refine ⟨fun st' => ⟨nofun, fun ⟨hst', hcovers⟩ => ?_⟩, ⟨fun _ => hnone, fun _ => rfl⟩, nofun,
      ?_⟩
    · exact absurd hcovers.overlaps (hnone st' hst')
    · rintro ⟨st', hst', hover, -⟩
      exact absurd hover (hnone st' hst')
  · next i hpoint =>
    rw [hpoint] at hsays
    obtain ⟨pre, st, post, hinputs, rfl, -, hcovers⟩ := hsays
    have hst : st ∈ liveStores init.inputs := by
      rw [mem_liveStores, hinputs]
      exact List.mem_append_right pre List.mem_cons_self
    have hget : init.inputs[0 + pre.length]? = some (.store st) := by
      rw [hinputs, Nat.zero_add, List.getElem?_append_right (Nat.le_refl _), Nat.sub_self]
      rfl
    rw [hget]
    refine ⟨fun st' => ⟨fun heq => ?_, fun ⟨hst', hcovers'⟩ => ?_⟩, ⟨nofun, fun h => ?_⟩, nofun, ?_⟩
    · obtain rfl := InitInput.store.inj (Option.some.inj heq)
      exact ⟨hst, hcovers⟩
    · rw [hordered.eq_of_covers hst hst' hcovers hcovers'.overlaps]
    · exact absurd hcovers.overlaps (h st hst)
    · rintro ⟨st', hst', hover, hnot⟩
      obtain rfl := hordered.eq_of_covers hst hst' hcovers hover
      exact absurd hcovers hnot

/-! ## A capture

A captured store takes the place of one that covers the same bytes, or goes between two inputs. In
both cases the inputs before and after it are the old ones, so order and disjointness need to be
shown at this place only. -/

/-- A store is wired in between `pre` and `post`, in the place of `mid`. -/
structure WiredBetween (init init' : InitializeInputs) (st : InitStore) (t : Transformed)
    (pre mid post : List InitInput) (prev : InitInput) : Prop where
  inputs : init.inputs = pre ++ (mid ++ post)
  inputs' : init'.inputs = pre ++ wiredIn st prev t :: post
  passed : Passed st.offset pre
  place : (∃ old : InitStore, mid = [.store old] ∧ prev = .store old ∧
      old.Covers st.offset st.size) ∨
    prev = .zeroMemory ∧ (mid = [] ∨ mid = [.zeroMemory]) ∧
      (post = [] ∨ ∃ s rest, post = .store s :: rest ∧ st.offset + st.size ≤ s.offset)

/-- To insert behind the first inputs. -/
theorem insertIdx_append_length (pre post : List InitInput) (x : InitInput) :
    (pre ++ post).insertIdx pre.length x = pre ++ x :: post := by
  induction pre with
  | nil => rfl
  | cons y pre ih => exact congrArg (y :: ·) ih

/-- What a capture does. -/
theorem captureStore_cases (st : InitStore) (t : Transformed) :
    init.captureStore E st t = (none, init) ∨
    E.minimumHeaderSize ≤ st.offset ∧ st.offset < E.tiLimit ∧ ∃ input init', ∃ pre mid post prev,
      init.captureStore E st t = (some input, init') ∧ init'.isComplete = init.isComplete ∧
        WiredBetween init init' st t pre mid post prev := by
  rw [captureStore]
  split
  · exact .inl rfl
  by_cases hcomplete : init.isComplete = true
  · rw [capturedStoreInsertionPoint, if_pos hcomplete]
    exact .inl rfl
  by_cases hmin : st.offset < E.minimumHeaderSize
  · rw [capturedStoreInsertionPoint, if_neg hcomplete, if_pos hmin]
    exact .inl rfl
  by_cases hlimit : E.tiLimit ≤ st.offset
  · rw [capturedStoreInsertionPoint, if_neg hcomplete, if_neg hmin, if_pos hlimit]
    exact .inl rfl
  rw [Int.not_lt] at hmin
  rw [Int.not_le] at hlimit
  have hsays := says_insertionPoint (E := E)
    (Bool.not_eq_true _ ▸ hcomplete) st.size_pos hmin hlimit
  split
  · exact .inl rfl
  · next i hpoint =>
    rw [hpoint] at hsays
    obtain ⟨pre, old, post, hinputs, rfl, hpre, hcovers⟩ := hsays
    have hget : init.inputs.getD (0 + pre.length) .top = .store old := by
      rw [hinputs]
      simp
    refine .inr ⟨hmin, hlimit, _, _, pre, [.store old], post, .store old, rfl, rfl, hinputs, ?_,
      hpre, ?_⟩
    · rw [hget, hinputs]
      simp
    · exact .inl ⟨old, rfl, rfl, hcovers⟩
  · next i hpoint =>
    rw [hpoint] at hsays
    obtain ⟨pre, post, hinputs, rfl, hpre, hpost⟩ := hsays
    refine .inr ⟨hmin, hlimit, ?_⟩
    dsimp only
    split
    · next hfolded =>
      obtain rfl | ⟨pre, last, rfl⟩ := pre.eq_nil_or_concat
      · exact absurd hfolded.1 (by simp)
      have hlast : last = .zeroMemory := by
        have hget := hfolded.2
        rw [hinputs] at hget
        simp at hget
        exact hget
      subst hlast
      refine ⟨_, _, pre, [.zeroMemory], post, .zeroMemory, rfl, rfl, ?_, ?_, ?_,
        .inr ⟨rfl, .inr rfl, hpost⟩⟩
      · rw [hinputs]
        simp
      · rw [hinputs]
        simp
      · exact fun input hinput => hpre input (by simp [hinput])
    · refine ⟨_, _, pre, [], post, .zeroMemory, rfl, rfl, hinputs, ?_, hpre,
        .inr ⟨rfl, .inl rfl, hpost⟩⟩
      rw [hinputs, Nat.zero_add]
      exact insertIdx_append_length pre post _

section Wired

variable {init' : InitializeInputs} {st : InitStore} {t : Transformed}
  {pre mid post : List InitInput}
  {prev : InitInput}

/-- What is wired in is a store to the range, or none. -/
theorem WiredBetween.wiredIn_covers (h : WiredBetween init init' st t pre mid post prev)
    {s : InitStore} (hs : wiredIn st prev t = .store s) :
    s.Covers st.offset st.size ∧ (s = st ∧ t = .store ∨ s ∈ liveStores init.inputs) := by
  have hprev : prev = .store s → s.Covers st.offset st.size ∧ s ∈ liveStores init.inputs := by
    intro heq
    obtain ⟨old, hmid, hold, hcovers⟩ | ⟨hzero, -⟩ := h.place
    · obtain rfl := InitInput.store.inj (heq.symm.trans hold)
      refine ⟨hcovers, ?_⟩
      rw [h.inputs, hmid, mem_liveStores]
      exact List.mem_append_right pre List.mem_cons_self
    · cases heq.symm.trans hzero
  cases t with
  | store =>
    obtain rfl := InitInput.store.inj hs
    exact ⟨⟨rfl, rfl⟩, .inl ⟨rfl, rfl⟩⟩
  | previous =>
    obtain ⟨hcovers, hmem⟩ := hprev hs
    exact ⟨hcovers, .inr hmem⟩
  | zero => cases hs

/-- The stores around the place. -/
theorem WiredBetween.apart (h : WiredBetween init init' st t pre mid post prev)
    (hordered : init.Ordered) (hnarrow : init.Narrow E) (hlimit : st.offset < E.tiLimit) :
    (∀ s ∈ liveStores pre, s.offset + s.size ≤ st.offset) ∧
      ∀ s ∈ liveStores post, st.offset + st.size ≤ s.offset := by
  rw [Ordered, h.inputs, liveStores_append, liveStores_append, List.pairwise_append,
    List.pairwise_append] at hordered
  obtain ⟨-, ⟨-, hpost, hmid⟩, -⟩ := hordered
  constructor
  · intro s hs
    refine before_of_missedBy (h.passed.missed hs) (hnarrow s ?_) hlimit
    rw [h.inputs, liveStores_append]
    exact List.mem_append_left _ hs
  · intro s hs
    obtain ⟨old, rfl, -, hoff, hsize⟩ | ⟨-, -, rfl | ⟨first, rest, rfl, hle⟩⟩ := h.place
    · have hold := hmid old (mem_liveStores.2 List.mem_cons_self) s hs
      rw [InitStore.Before, hoff, hsize] at hold
      exact hold
    · exact absurd hs List.not_mem_nil
    · obtain ⟨hfirst, -⟩ := List.pairwise_cons.1 hpost
      obtain rfl | hs := List.mem_cons.1 (show s ∈ first :: liveStores rest from hs)
      · exact hle
      · have hrest := hfirst s hs
        rw [InitStore.Before] at hrest
        omega

/-- What is wired in is ordered with the stores around it. -/
theorem WiredBetween.ordered (h : WiredBetween init init' st t pre mid post prev)
    (hordered : init.Ordered) (hnarrow : init.Narrow E) (hlimit : st.offset < E.tiLimit) :
    init'.Ordered := by
  obtain ⟨hbefore, hafter⟩ := h.apart hordered hnarrow hlimit
  rw [Ordered, h.inputs, liveStores_append, liveStores_append, List.pairwise_append,
    List.pairwise_append] at hordered
  obtain ⟨hpre, ⟨-, hpost, -⟩, -⟩ := hordered
  have hnew : ∀ s ∈ liveStores [wiredIn st prev t], s.Covers st.offset st.size := by
    intro s hs
    have hmem := mem_liveStores.1 hs
    exact (h.wiredIn_covers (List.mem_singleton.1 hmem).symm).1
  rw [Ordered, h.inputs', ← List.singleton_append, liveStores_append, liveStores_append,
    List.pairwise_append, List.pairwise_append]
  refine ⟨hpre, ⟨?_, hpost, fun a ha b hb => ?_⟩, fun a ha b hb => ?_⟩
  · cases wiredIn st prev t with
    | store s => exact List.pairwise_singleton _ s
    | _ => exact .nil
  · obtain ⟨hoff, hsize⟩ := hnew a ha
    rw [InitStore.Before, hoff, hsize]
    exact hafter b hb
  · obtain hb | hb := List.mem_append.1 hb
    · obtain ⟨hoff, -⟩ := hnew b hb
      rw [InitStore.Before, hoff]
      exact hbefore a ha
    · have hle := hbefore a ha
      have hle' := hafter b hb
      rw [InitStore.Before]
      omega

/-- After a capture the stores are those that were there, and the new one. -/
theorem WiredBetween.mem_liveStores (h : WiredBetween init init' st t pre mid post prev)
    {s : InitStore} (hs : s ∈ liveStores init'.inputs) :
    s ∈ liveStores init.inputs ∨ s = st ∧ t = .store := by
  rw [StackAllocation.mem_liveStores, h.inputs'] at hs
  obtain hs | hs := List.mem_append.1 hs
  · refine .inl ?_
    rw [StackAllocation.mem_liveStores, h.inputs]
    exact List.mem_append_left _ hs
  · obtain hs | hs := List.mem_cons.1 hs
    · exact (h.wiredIn_covers hs.symm).2.symm
    · refine .inl ?_
      rw [StackAllocation.mem_liveStores, h.inputs]
      exact List.mem_append_right _ (List.mem_append_right _ hs)

/-- What is wired in is not too long if the step is one like that. -/
theorem WiredBetween.narrow (h : WiredBetween init init' st t pre mid post prev)
    (hordered : init.Ordered) (hnarrow : init.Narrow E) (hmin : E.minimumHeaderSize ≤ st.offset)
    (hlimit : st.offset < E.tiLimit) (hstep : init.NarrowStep E (.capture st t)) :
    init'.Narrow E := by
  intro s hs
  obtain hs | ⟨rfl, rfl⟩ := h.mem_liveStores hs
  · exact hnarrow s hs
  · obtain hsize | hend | hlow | ⟨old, hold, hover⟩ := hstep
    · exact .inl hsize
    · exact .inr hend
    · omega
    · obtain ⟨old', hmid, -, hcovers⟩ | ⟨-, hmid, hpost⟩ := h.place
      · have hmem : old' ∈ liveStores init.inputs := by
          rw [StackAllocation.mem_liveStores, h.inputs, hmid]
          exact List.mem_append_right pre List.mem_cons_self
        have hold' := hnarrow old' hmem
        rw [hcovers.1, hcovers.2] at hold'
        exact hold'
      · obtain ⟨hbefore, hafter⟩ := h.apart hordered hnarrow hlimit
        rw [h.inputs, liveStores_append, liveStores_append] at hold
        obtain hpre | hold := List.mem_append.1 hold
        · exact absurd hover.2 (Int.not_lt.2 (hbefore old hpre))
        obtain hold | hpost := List.mem_append.1 hold
        · obtain rfl | rfl := hmid
          · exact absurd hold List.not_mem_nil
          · exact absurd hold List.not_mem_nil
        · exact absurd hover.1 (Int.not_lt.2 (hafter old hpost))

/-- A capture leaves no dead input. -/
theorem WiredBetween.noDead (h : WiredBetween init init' st t pre mid post prev)
    (hdead : init.NoDead) : init'.NoDead := by
  have hinput : ∀ input ∈ init'.inputs,
      input ∈ init.inputs ∨ input = .zeroMemory ∨ ∃ s, input = .store s := by
    intro input hmem
    rw [h.inputs'] at hmem
    rw [h.inputs]
    obtain hmem | hmem := List.mem_append.1 hmem
    · exact .inl (List.mem_append_left _ hmem)
    obtain rfl | hmem := List.mem_cons.1 hmem
    · refine .inr ?_
      cases t with
      | store => exact .inr ⟨st, rfl⟩
      | zero => exact .inl rfl
      | previous =>
        obtain ⟨old, -, hold, -⟩ | ⟨hzero, -⟩ := h.place
        · exact .inr ⟨old, hold⟩
        · exact .inl hzero
    · exact .inl (List.mem_append_right _ (List.mem_append_right _ hmem))
  refine ⟨fun htop => ?_, fun n hn => ?_⟩
  · obtain hmem | hzero | ⟨s, hs⟩ := hinput _ htop
    · exact hdead.1 hmem
    · cases hzero
    · cases hs
  · obtain hmem | hzero | ⟨s, hs⟩ := hinput _ hn
    · exact hdead.2 n hmem
    · cases hzero
    · cases hs

end Wired

/-! ## Runs

The list is good when it is in order, without dead inputs, and all its stores are narrow. Captures
and the removal of dead inputs keep it so, for any number of them in any order, as long as no long
store is wired in. -/

/-- A list in which the search is right. -/
structure Good (E : TrackedRange) (init : InitializeInputs) : Prop where
  incomplete : init.isComplete = false
  ordered : init.Ordered
  narrow : init.Narrow E

/-- To remove the dead inputs leaves the stores. -/
theorem liveStores_removeExtraZeroes :
    liveStores init.removeExtraZeroes.inputs = liveStores init.inputs := by
  rw [removeExtraZeroes, liveStores, liveStores, List.filterMap_filter]
  refine List.filterMap_congr fun input _ => ?_
  cases input with
  | zeroMemory => rfl
  | top => rfl
  | dead n => rfl
  | store st => rfl

/-- The invariant says what the search asks for. -/
theorem Good.listOk (h : init.Good E) : init.ListOk E where
  ordered := h.ordered
  refusals := by
    intro st t hnone
    obtain heq | ⟨-, -, input, init', -, -, -, -, heq, -⟩ := captureStore_cases (E := E) st t
    · rw [heq]
    · rw [heq] at hnone
      cases hnone
  finds := fun hdead => findsExact_of_ordered h.incomplete h.ordered h.narrow hdead

/-- A step keeps the list good. -/
theorem Good.step (h : init.Good E) {op : InitOp} (hop : init.NarrowStep E op) :
    (init.step E op).Good E := by
  cases op with
  | removeExtraZeroes =>
    refine ⟨h.incomplete, ?_, ?_⟩
    · rw [Ordered, InitializeInputs.step, liveStores_removeExtraZeroes]
      exact h.ordered
    · rw [Narrow, InitializeInputs.step, liveStores_removeExtraZeroes]
      exact h.narrow
  | capture st t =>
    rw [InitializeInputs.step]
    obtain heq | ⟨hmin, hlimit, input, init', pre, mid, post, prev, heq, hcomplete, hwired⟩ :=
      @captureStore_cases E init st t
    · rw [heq]
      exact h
    · rw [heq]
      refine ⟨hcomplete.trans h.incomplete, ?_, ?_⟩
      · exact hwired.ordered h.ordered h.narrow hlimit
      · exact hwired.narrow h.ordered h.narrow hmin hlimit hop

/-- No step leaves a dead input. -/
theorem NoDead.step (h : init.NoDead) (op : InitOp) : (init.step E op).NoDead := by
  cases op with
  | removeExtraZeroes =>
    refine ⟨fun hmem => h.1 ?_, fun n hmem => h.2 n ?_⟩
    · exact (List.mem_filter.1 hmem).1
    · exact (List.mem_filter.1 hmem).1
  | capture st t =>
    rw [InitializeInputs.step]
    obtain heq | ⟨-, -, input, init', pre, mid, post, prev, heq, -, hwired⟩ :=
      @captureStore_cases E init st t
    · rw [heq]
      exact h
    · rw [heq]
      exact hwired.noDead h

/-- A run that goes on for one step. -/
theorem run_concat (ops : List InitOp) (op : InitOp) :
    run E init (ops ++ [op]) = (run E init ops).step E op := List.foldl_concat _ _ _ _

/-- While each operation is one like that, the list is good. -/
theorem Good.run (h : init.Good E) {ops : List InitOp} (hops : NarrowRun E init ops) :
    ∀ done, done <+: ops → (run E init done).Good E := by
  intro done
  induction done using List.reverseRecOn with
  | nil => exact fun _ => h
  | append_singleton done op ih =>
    intro hprefix
    rw [run_concat]
    have hdone : done <+: ops := (List.prefix_append done [op]).trans hprefix
    exact (ih hdone).step (hops done op hprefix)

/-! ## What a long store does

The converse. When a store of more than eight bytes is wired in, there is a range inside it for
which the search goes past it, so what is promised of the list is broken by that very step, and the
condition is not only sufficient. -/

/-- The search goes past what it misses, and ends before what starts later. -/
theorem insertionLoop_insertAt {start : ℤ} {size : ℕ} {l : List InitInput} (k : ℕ)
    (h : ∀ input ∈ l, input = .zeroMemory ∨ ∃ st : InitStore, input = .store st ∧
      (st.MissedBy start ∨ start < st.offset ∧ start + size ≤ st.offset)) :
    ∃ i, insertionLoop start size k l = .insertAt i := by
  induction l generalizing k with
  | nil => exact ⟨k, rfl⟩
  | cons input l ih =>
    have hrest := fun k => ih k fun input hinput => h input (List.mem_cons_of_mem _ hinput)
    obtain rfl | ⟨st, rfl, ⟨hlt, hmissed⟩ | ⟨hlt, hle⟩⟩ := h input List.mem_cons_self
    · exact hrest (k + 1)
    · rw [insertionLoop, if_neg (Int.not_lt.2 (Int.le_of_lt hlt)), if_pos hlt,
        if_neg fun hover => hmissed hover.2]
      exact hrest (k + 1)
    · rw [insertionLoop, if_pos hlt, if_neg (Int.not_lt.2 hle)]
      exact ⟨k, rfl⟩

/-- A store that nothing overlaps is captured. -/
theorem captureStore_ne_none (h : init.Good E) (hdead : init.NoDead) {st : InitStore}
    {t : Transformed}
    (hmin : E.minimumHeaderSize ≤ st.offset) (hlimit : st.offset < E.tiLimit)
    (hover : ∀ s ∈ liveStores init.inputs, ¬ s.Overlaps st.offset st.size) :
    init.captureStore E st t ≠ (none, init) := by
  have hsays := says_insertionPoint (E := E) h.incomplete st.size_pos hmin hlimit
  have hnonneg := E.minimumHeaderSize_nonneg
  rw [captureStore, if_neg (by omega)]
  split
  · next hpoint =>
    rw [hpoint] at hsays
    obtain hmem | ⟨s, hs, hs', -⟩ := hsays
    · exact absurd hmem (not_or.2 ⟨hdead.1, not_exists.2 hdead.2⟩)
    · exact absurd hs' (hover s hs)
  · exact fun heq => by cases heq
  · dsimp only
    split
    · exact fun heq => by cases heq
    · exact fun heq => by cases heq

/-- If the list is right afterwards, the step was one like that. -/
theorem Good.narrowStep (h : init.Good E) (hdead : init.NoDead) {op : InitOp}
    (hok : (init.step E op).ListOk E) : init.NarrowStep E op := by
  cases op with
  | removeExtraZeroes => trivial
  | capture st t =>
    cases t with
    | previous => trivial
    | zero => trivial
    | store =>
      by_contra hwide
      rw [NarrowStep, not_or, not_or, not_or, not_exists] at hwide
      obtain ⟨hsize, hend, hmin, hover⟩ := hwide
      have hover' : ∀ s ∈ liveStores init.inputs, ¬ s.Overlaps st.offset st.size :=
        fun s hs ho => hover s ⟨hs, ho⟩
      obtain heq | ⟨-, hlimit, input, init', pre, mid, post, prev, heq, hcomplete, hwired⟩ :=
        @captureStore_cases E init st .store
      · exact captureStore_ne_none h hdead (by omega) (by omega) hover' heq
      have hstep : init.step E (.capture st .store) = init' := by
        rw [InitializeInputs.step, heq]
      rw [hstep] at hok
      have hdead' := hwired.noDead hdead
      obtain ⟨hbefore, hafter⟩ := hwired.apart h.ordered h.narrow hlimit
      have hst : st ∈ liveStores init'.inputs := by
        rw [mem_liveStores, hwired.inputs']
        exact List.mem_append_right pre List.mem_cons_self
      -- eight bytes on, the search goes past the store
      have hpassed : ∀ input ∈ init'.inputs, input = .zeroMemory ∨ ∃ s : InitStore,
        input = .store s ∧
          (s.MissedBy (st.offset + 8) ∨
            st.offset + 8 < s.offset ∧ st.offset + 8 + (1 : ℕ) ≤ s.offset) := by
        intro input hmem
        cases input with
        | zeroMemory => exact .inl rfl
        | top => exact absurd hmem hdead'.1
        | dead n => exact absurd hmem (hdead'.2 n)
        | store s =>
          refine .inr ⟨s, rfl, ?_⟩
          rw [hwired.inputs'] at hmem
          obtain hmem | hmem := List.mem_append.1 hmem
          · have hle := hbefore s (mem_liveStores.2 hmem)
            have hpos := s.size_pos
            exact .inl ⟨by omega, fun hs => by omega⟩
          obtain hs | hmem := List.mem_cons.1 hmem
          · obtain rfl := InitInput.store.inj hs
            exact .inl ⟨by omega, fun hs => by omega⟩
          · have hle := hafter s (mem_liveStores.2 hmem)
            exact .inr ⟨by omega, by omega⟩
      obtain ⟨i, hi⟩ := insertionLoop_insertAt 0 hpassed
      have hfind : init'.findCapturedStore E (st.offset + 8) 1 = some .zeroMemory := by
        rw [findCapturedStore, capturedStoreInsertionPoint, hcomplete, h.incomplete,
          if_neg Bool.false_ne_true, if_neg (by omega), if_neg (by omega), hi]
      obtain ⟨-, hzero, -⟩ := hok.finds hdead' (st.offset + 8) 1 Nat.one_pos (by omega) (by omega)
      exact hzero.1 hfind st hst ⟨by omega, by omega⟩

/-- From a list that is in order, with no store that is too long: in every run in which no store of
more than eight bytes is wired in, all is as promised; and if no input is dead, in no other run. -/
theorem runOk_iff (h : init.Good E) (ops : List InitOp) :
    (NarrowRun E init ops → RunOk E init ops) ∧
      (init.NoDead → RunOk E init ops → NarrowRun E init ops) := by
  constructor
  · exact fun hops done hdone => (h.run hops done hdone).listOk
  · intro hdead hok
    have hgood : ∀ done, done <+: ops → (run E init done).Good E ∧ (run E init done).NoDead := by
      intro done
      induction done using List.reverseRecOn with
      | nil => exact fun _ => ⟨h, hdead⟩
      | append_singleton done op ih =>
        intro hprefix
        obtain ⟨hg, hd⟩ := ih ((List.prefix_append done [op]).trans hprefix)
        have hokStep := hok _ hprefix
        rw [run_concat] at hokStep ⊢
        exact ⟨hg.step (hg.narrowStep hd hokStep), hd.step op⟩
    intro done op hprefix
    obtain ⟨hg, hd⟩ := hgood done ((List.prefix_append done [op]).trans hprefix)
    have hokStep := hok _ hprefix
    rw [run_concat] at hokStep
    exact hg.narrowStep hd hokStep

/-! ## A failing run

A store of thirty-two bytes is captured, and then one of eight bytes that it covers. The second
search goes past the first store, so both are in the list, although they overlap. -/

/-- A header of 16 bytes, and 50 words that are tracked. -/
def trackedWords : TrackedRange := ⟨16, by decide, 50⟩

/-- An `Initialize` that has captured nothing. -/
def fresh : InitializeInputs := ⟨false, []⟩

/-- The invariant holds before the first capture. -/
theorem good_fresh : fresh.Good trackedWords :=
  ⟨rfl, .nil, fun _ h => absurd h List.not_mem_nil⟩

/-- Stores of up to eight bytes, one of them into a place that has been folded away. -/
def longStores : List InitOp :=
  [.capture ⟨16, 8, by decide, 1⟩ .store, .capture ⟨24, 4, by decide, 2⟩ .zero,
    .capture ⟨28, 4, by decide, 3⟩ .store, .removeExtraZeroes]

/-- The run meets what is asked of the stores. -/
theorem runOk_longStores : RunOk trackedWords fresh longStores := by
  refine (runOk_iff good_fresh longStores).1 ?_
  intro done op hprefix
  have hop : op ∈ longStores :=
    hprefix.subset (List.mem_append_right done (List.mem_singleton_self op))
  simp only [longStores, List.mem_cons, List.not_mem_nil, or_false] at hop
  obtain rfl | rfl | rfl | rfl := hop
  · exact .inl (by decide)
  · trivial
  · exact .inl (by decide)
  · trivial

/-- A store of thirty-two bytes, and then one of eight into the middle of what it writes. -/
def vectorStores : List InitOp :=
  [.capture ⟨32, 32, by decide, 1⟩ .store, .capture ⟨48, 8, by decide, 2⟩ .store]

/-- Both are captured, and they overlap. -/
theorem not_runOk_vectorStores : ¬ RunOk trackedWords fresh vectorStores := by
  intro hok
  have hordered := (hok vectorStores (List.prefix_refl _)).ordered
  have hlive : liveStores (run trackedWords fresh vectorStores).inputs =
      [⟨32, 32, by decide, 1⟩, ⟨48, 8, by decide, 2⟩] := by decide
  rw [Ordered, hlive] at hordered
  have hbefore := (List.pairwise_cons.1 hordered).1 _ List.mem_cons_self
  exact absurd (show (32 : ℤ) + (32 : ℕ) ≤ 48 from hbefore) (by decide)

end InitializeInputs

end StackAllocation
