import StackAllocation.CoalescedStores

/-!
# Zeroing around the stores

The loop of `complete_stores` keeps this (`Zeroed`): the body up to `zeroes_done` is zeroed or
covered by the stores passed. Zeroing more than needed does no harm, since the stores come after
all of it. At the end the rest of the body is zeroed; together with what the coalesced stores
write, every byte of the body is the captured store's or zero (`completeStores_exact`).
-/

namespace StackAllocation

/-! ## Clearing

Code that clears memory is a list of operations on words. Whether a byte is zero afterwards is
decided by the ranges, and ranges that meet are one. -/

section

variable {E : InitializeEnv} {l l' : List ZeroOp} {m : Bytes.Block} {b : ℕ}

/-- Two pieces of zeroing code, one after the other. -/
theorem runZeroing_append : runZeroing E (l ++ l') m = runZeroing E l' (runZeroing E l m) :=
  List.foldl_append

/-- The bytes from `start` to `stop` are zero, and the others are kept. -/
def Clears (E : InitializeEnv) (l : List ZeroOp) (start stop : ℕ) : Prop :=
  ∀ m b, runZeroing E l m b = if start ≤ b ∧ b < stop then 0 else m b

/-- Nothing is cleared by no code. -/
theorem clears_nil (E : InitializeEnv) (start : ℕ) : Clears E [] start start := by
  intro m b
  rw [if_neg (by omega)]
  rfl

/-- Ranges that meet are cleared together. -/
theorem Clears.append {start mid stop : ℕ} (h : Clears E l start mid) (h' : Clears E l' mid stop)
    (hle : start ≤ mid) (hle' : mid ≤ stop) : Clears E (l ++ l') start stop := by
  intro m b
  rw [runZeroing_append, h', h]
  by_cases hmid : mid ≤ b ∧ b < stop
  · rw [if_pos hmid, if_pos ⟨hle.trans hmid.1, hmid.2⟩]
  · rw [if_neg hmid]
    by_cases hstart : start ≤ b ∧ b < mid
    · rw [if_pos hstart, if_pos ⟨hstart.1, by omega⟩]
    · rw [if_neg hstart, if_neg (by omega)]

/-- A store of an int zero clears four bytes. -/
theorem clears_storeI (E : InitializeEnv) (start : ℕ) : Clears E [.storeI start] start
    (start + 4) := by
  intro m b
  show Bytes.put m 4 start 0 b = _
  rw [Bytes.put_eq, Nat.zero_div]
  rfl

/-- A loop over double words clears a range that is aligned at both ends. -/
theorem clears_clearWords {start stop : ℕ} (hstart : 8 ∣ start) (hstop : 8 ∣ stop)
    (hle : start ≤ stop) : Clears E (clearWords E start stop) start stop := by
  unfold clearWords
  split
  · next heq =>
    subst heq
    exact clears_nil E start
  · intro m b
    obtain ⟨i, rfl⟩ := hstart
    obtain ⟨j, rfl⟩ := hstop
    show (if 8 * i ≤ b ∧ b < 8 * i +
      (if E.initArrayCountIsInBytes = true then _ else _) then _ else _) = _
    have hbytes : 8 * i + (if E.initArrayCountIsInBytes = true then
        (if E.initArrayCountIsInBytes = true then 8 * j else 8 * j / 8) -
          (if E.initArrayCountIsInBytes = true then 8 * i else 8 * i / 8)
        else 8 * ((if E.initArrayCountIsInBytes = true then 8 * j else 8 * j / 8) -
          (if E.initArrayCountIsInBytes = true then 8 * i else 8 * i / 8))) = 8 * j := by
      cases E.initArrayCountIsInBytes with
      | true => simp only [if_true]; omega
      | false => simp only [Bool.false_eq_true, if_false]; omega
    rw [hbytes]

/-- From a word on: the odd word first, then double words. -/
theorem clears_clearMemoryTo {start stop : ℕ} (hstart : 4 ∣ start) (hstop : 8 ∣ stop)
    (hle : start ≤ stop) : Clears E (clearMemoryTo E start stop) start stop := by
  unfold clearMemoryTo
  split
  · have hwords : Clears E (clearWords E (start + 4) stop) (start + 4) stop :=
      clears_clearWords (by omega) hstop (by omega)
    exact (clears_storeI E start).append hwords (by omega) (by omega)
  · exact clears_clearWords (by omega) hstop hle

/-- And with an odd word at the end. The offsets of a Java object are aligned so. -/
theorem clears_clearMemory {start stop : ℕ} (hstart : 4 ∣ start) (hstop : 4 ∣ stop)
    (hle : start ≤ stop) : Clears E (clearMemory E start stop) start stop := by
  unfold clearMemory
  dsimp only
  split
  · next heq =>
    subst heq
    exact clears_nil E start
  · split
    · -- The final int store.
      have hdone : stop - 4 + 4 = stop := by omega
      have hlast := clears_storeI E (stop - 4)
      rw [hdone] at hlast
      rw [if_pos (by omega : stop - 4 < stop)]
      refine Clears.append ?_ hlast (by omega) (by omega)
      split
      · exact clears_clearMemoryTo hstart (by omega) (by omega)
      · have heq : start = stop - 4 := by omega
        rw [heq]
        exact clears_nil E _
    · rw [if_pos (by omega), if_neg (Nat.lt_irrefl _), List.append_nil]
      exact clears_clearMemoryTo hstart (by omega) hle

end

/-! ## The zeroes needed

Before a store the words up to its own are cleared. If several small stores make up a whole word,
that word is not; the routine looks ahead for this. -/

section

variable {E : InitializeEnv} {st : RawStore} {rest : List RawStore}

/-- The next word initialized as a whole starts at a multiple of four, at the offset of a store
or before it. -/
theorem findNextFullwordStore_eq {l : List RawStore} {intMap intMapOff r : ℕ}
    (ha : ∀ st ∈ l, st.size ∣ st.offset) (h : findNextFullwordStore l intMap intMapOff = some r) :
    4 ∣ r ∧ ∃ st ∈ l, r ≤ st.offset := by
  induction l generalizing intMap intMapOff with
  | nil => cases h
  | cons st l ih =>
    have hrest : ∀ {i o : ℕ}, findNextFullwordStore l i o = some r →
        4 ∣ r ∧ ∃ x ∈ st :: l, r ≤ x.offset := by
      intro i o h
      obtain ⟨hr, x, hx, hle⟩ := ih (fun x hx => ha x (List.mem_cons_of_mem st hx)) h
      exact ⟨hr, x, List.mem_cons_of_mem st hx, hle⟩
    rw [findNextFullwordStore] at h
    split at h
    · next hword =>
      obtain rfl := Option.some.inj h
      exact ⟨Nat.dvd_of_mod_eq_zero hword.2, st, List.mem_cons_self, Nat.le_refl _⟩
    next hword =>
    split at h
    · obtain rfl := Option.some.inj h
      exact ⟨Nat.dvd_mul_left 4 _, st, List.mem_cons_self, Nat.div_mul_le_self _ _⟩
    split at h
    · exact hrest h
    split at h
    · next hcross =>
      -- An aligned store does not reach beyond the next word.
      have hsize : st.size ∣ 4 := st.size_dvd_four fun h8 => hword (by
        have := ha st List.mem_cons_self
        rw [h8] at this ⊢
        omega)
      have hlt : st.offset < 4 * (st.offset / 4 + 1) := by omega
      have hend := add_le_of_dvd (ha st List.mem_cons_self) (hsize.mul_right _) hlt
      omega
    · exact hrest h

/-- The zeroes needed end at a multiple of four, within every such limit on the stores. -/
theorem zeroesNeeded_le (ha : ∀ x ∈ st :: rest, x.size ∣ x.offset) {limit : ℕ} (hlimit : 4 ∣ limit)
    (hlt : ∀ x ∈ st :: rest, x.offset < limit) :
    4 ∣ zeroesNeeded st rest ∧ zeroesNeeded st rest ≤ limit := by
  have hst := hlt st List.mem_cons_self
  unfold zeroesNeeded
  split
  · split
    · exact ⟨Nat.dvd_mul_left 4 _, by omega⟩
    · next r hr =>
      obtain ⟨hdvd, x, hx, hle⟩ := findNextFullwordStore_eq ha hr
      exact ⟨hdvd, hle.trans (Nat.le_of_lt (hlt x hx))⟩
  · next hsize =>
    refine ⟨?_, Nat.le_of_lt hst⟩
    have hdvd := ha st List.mem_cons_self
    by_cases h8 : st.size = 8
    · rw [h8] at hdvd
      omega
    · have h4 := st.size_dvd_four h8
      obtain ⟨k, hk⟩ := h4
      have hpos := st.size_pos
      have : st.size = 4 := by
        have := Nat.le_of_dvd (by decide) (st.size_dvd_four h8)
        omega
      rw [this] at hdvd
      exact hdvd

end

/-! ## The loop

The invariant has an offset up to which all bytes are either zero or to be stored to. A step clears
up to the next store, if need be, and moves the offset. -/

section

variable {E : InitializeEnv} {passed : List RawStore} {z : Zeroing} {st : RawStore}
  {rest : List RawStore}

/-- What the loop keeps, once it has passed some stores. -/
structure Zeroed (E : InitializeEnv) (passed : List RawStore) (z : Zeroing) : Prop where
  body : ∀ m b, b < E.headerSize ∨ E.sizeInBytes ≤ b → runZeroing E z.rawmem m b = m b
  done : ∀ b, E.headerSize ≤ b → b < z.zeroesDone →
    (∃ st ∈ passed, st.Covers b) ∨ ∀ m, runZeroing E z.rawmem m b = 0
  header_le : E.headerSize ≤ z.zeroesDone
  le_size : z.zeroesDone ≤ E.sizeInBytes
  le_limit : z.zeroesDone ≤ max E.headerSize E.tiLimit

/-- Incremental zeroing. -/
theorem Zeroed.clear (h : Zeroed E passed z) (hE : E.WellSized) {needed : ℕ} (hdvd : 4 ∣ needed)
    (hsize : needed ≤ E.sizeInBytes) (hlimit : needed ≤ E.tiLimit) :
    Zeroed E passed (z.clear E needed) := by
  have hheader := hE.header_dvd
  have hle := h.header_le
  unfold Zeroing.clear
  split
  · next hlt =>
    have hclear : Clears E (clearMemory E (z.zeroesDone / 4 * 4) needed) (z.zeroesDone / 4 * 4)
        needed := clears_clearMemory (Nat.dvd_mul_left 4 _) hdvd (by omega)
    refine ⟨fun m b hb => ?_, fun b hb hbn => ?_, hle.trans (Nat.le_of_lt hlt), hsize,
      hlimit.trans (Nat.le_max_right _ _)⟩
    · rw [runZeroing_append, hclear, if_neg (by omega), h.body m b hb]
    · by_cases hnew : z.zeroesDone / 4 * 4 ≤ b
      · refine .inr fun m => ?_
        rw [runZeroing_append, hclear, if_pos ⟨hnew, hbn⟩]
      · refine (h.done b hb (by omega)).imp_right fun hzero m => ?_
        rw [runZeroing_append, hclear, if_neg (by omega), hzero]
  · exact h

/-- One store. -/
theorem Zeroed.step (h : Zeroed E passed z) (hE : E.WellSized)
    (hplaced : ∀ x ∈ st :: rest, E.Placed x) :
    Zeroed E (passed ++ [st]) (z.step E st rest) := by
  have hst := hplaced st List.mem_cons_self
  have ha : ∀ x ∈ st :: rest, x.size ∣ x.offset := fun x hx => (hplaced x hx).aligned
  have hsize := hE.size_dvd
  have hlimit : 8 ∣ E.tiLimit := Nat.dvd_mul_left 8 _
  have hbody : ∀ x ∈ st :: rest, x.offset < E.sizeInBytes := fun x hx => by
    have hinside := (hplaced x hx).inside
    have hpos := x.size_pos
    omega
  have hclear : Zeroed E passed (if z.doZeroing ∧ z.zeroesDone < st.offset + st.size then
      z.clear E (zeroesNeeded st rest) else z) := by
    split
    · obtain ⟨hdvd, hle⟩ := zeroesNeeded_le ha (by omega : 4 ∣ E.sizeInBytes) hbody
      obtain ⟨-, hle'⟩ := zeroesNeeded_le ha (by omega : 4 ∣ E.tiLimit)
        fun x hx => (hplaced x hx).tracked
      exact h.clear hE hdvd hle hle'
    · exact h
  unfold Zeroing.step
  dsimp only
  generalize (if z.doZeroing ∧ z.zeroesDone < st.offset + st.size then
      z.clear E (zeroesNeeded st rest) else z) = z' at hclear ⊢
  have hmore : ∀ b, E.headerSize ≤ b → b < z'.zeroesDone →
      (∃ x ∈ passed ++ [st], x.Covers b) ∨ ∀ m, runZeroing E z'.rawmem m b = 0 := by
    intro b hb hlt
    refine (hclear.done b hb hlt).imp_left ?_
    rintro ⟨x, hx, hcov⟩
    exact ⟨x, List.mem_append_left _ hx, hcov⟩
  split
  · next heq =>
    refine ⟨hclear.body, fun b hb hlt => ?_, ?_, hst.inside, ?_⟩
    · by_cases hold : b < z'.zeroesDone
      · exact hmore b hb hold
      · exact .inl ⟨st, List.mem_append_right _ (List.mem_singleton_self st), by omega, hlt⟩
    · exact hst.header.trans (Nat.le_add_right _ _)
    · exact (add_le_of_dvd hst.aligned (st.size_dvd_eight.trans hlimit) hst.tracked).trans
        (Nat.le_max_right _ _)
  · exact ⟨hclear.body, hmore, hclear.header_le, hclear.le_size, hclear.le_limit⟩

/-- All stores. -/
theorem Zeroed.loop (h : Zeroed E passed z) (hE : E.WellSized) (hplaced : ∀ x ∈ rest, E.Placed x) :
    Zeroed E (passed ++ rest) (Zeroing.loop E rest z) := by
  induction rest generalizing passed z with
  | nil =>
    rw [List.append_nil]
    exact h
  | cons st rest ih =>
    rw [List.append_cons]
    exact ih (h.step hE hplaced) fun x hx => hplaced x (List.mem_cons_of_mem st hx)

/-- The trailing bytes of an instance that no field uses. -/
def InitializeEnv.Padding (E : InitializeEnv) (b : ℕ) : Prop :=
  E.sizeIsConstant = true ∧ E.isInstance = true ∧ E.layoutHelper ≤ b ∧
    E.sizeInBytes ≤ E.layoutHelper + 8

/-- The zeroing chain leaves the header alone, and what is neither covered nor padding is zero. -/
theorem Zeroed.finish (h : Zeroed E passed z) (hE : E.WellSized) :
    (∀ m b, b < E.headerSize ∨ E.sizeInBytes ≤ b → runZeroing E (z.finish E) m b = m b) ∧
      ∀ b, E.headerSize ≤ b → b < E.sizeInBytes → (∃ st ∈ passed, st.Covers b) ∨ E.Padding b ∨
        ∀ m, runZeroing E (z.finish E) m b = 0 := by
  obtain ⟨hbody, hdone, hheader_le, hle_size, hle_limit⟩ := h
  have hheader := hE.header_dvd
  have hsize := hE.size_dvd
  have hlimit : max E.headerSize E.tiLimit < 2 ^ 30 + 2 ^ 20 := by
    have h₁ := hE.header_lt
    have h₂ := hE.limit_le
    unfold InitializeEnv.tiLimit
    omega
  have hstart : 4 ∣ z.zeroesDone / 4 * 4 := Nat.dvd_mul_left 4 _
  have hclear : Clears E (clearMemoryTo E (z.zeroesDone / 4 * 4) E.sizeInBytes)
      (z.zeroesDone / 4 * 4) E.sizeInBytes := clears_clearMemoryTo hstart hsize (by omega)
  have hrest : ∀ b, E.headerSize ≤ b → b < z.zeroesDone → (∃ st ∈ passed, st.Covers b) ∨
      E.Padding b ∨ ∀ m, runZeroing E z.rawmem m b = 0 :=
    fun b hb hlt => (hdone b hb hlt).imp_right .inr
  -- The limit is the size, or beyond everything tracked.
  have hsizeLimit : (E.sizeIsConstant = true ∧ E.sizeLimit = E.sizeInBytes) ∨
      z.zeroesDone / 4 * 4 + 8 < E.sizeLimit := by
    unfold InitializeEnv.sizeLimit
    cases hcon : E.sizeIsConstant with
    | true => exact .inl ⟨rfl, rfl⟩
    | false =>
      rw [if_neg Bool.false_ne_true]
      omega
  unfold Zeroing.finish
  dsimp only
  by_cases hpadding : E.sizeLimit ≤ z.zeroesDone / 4 * 4 + 8 ∧ E.isInstance = true ∧
      z.zeroesDone / 4 * 4 = E.layoutHelper
  · rw [if_pos hpadding, if_neg (Nat.lt_irrefl _)]
    refine ⟨hbody, fun b hb hlt => ?_⟩
    obtain ⟨hle, hinstance, hlayout⟩ := hpadding
    by_cases hold : b < z.zeroesDone
    · exact hrest b hb hold
    · obtain ⟨hcon, hlim⟩ | hlim := hsizeLimit
      · exact .inr (.inl ⟨hcon, hinstance, by omega, by omega⟩)
      · omega
  · rw [if_neg hpadding]
    split
    · refine ⟨fun m b hb => ?_, fun b hb hlt => ?_⟩
      · rw [runZeroing_append, hclear, if_neg (by omega), hbody m b hb]
      · by_cases hnew : z.zeroesDone / 4 * 4 ≤ b
        · refine .inr (.inr fun m => ?_)
          rw [runZeroing_append, hclear, if_pos ⟨hnew, hlt⟩]
        · refine (hrest b hb (by omega)).imp_right (Or.imp_right fun hzero m => ?_)
          rw [runZeroing_append, hclear, if_neg (by omega), hzero]
    · next hnot =>
      refine ⟨hbody, fun b hb hlt => hrest b hb ?_⟩
      obtain ⟨-, hlim⟩ | hlim := hsizeLimit
      · omega
      · omega

end

/-! ## The completed object

After all zeroes the stores are executed. They are disjoint, so each byte is that of its store, or
zero. -/

/-- Executing the zeroing chain and then the chain of stores, whatever is in memory, gives each
byte of the body the value of the captured store that covers it, or zero if none does, the
padding apart, and leaves all other bytes alone. -/
def InitializesExactly (E : InitializeEnv) (stores : List RawStore) (zeroing : List ZeroOp)
    (inits : List RawStore) : Prop :=
  ∀ m b, (E.headerSize ≤ b → b < E.sizeInBytes → ¬ E.Padding b →
      (∀ st ∈ stores, st.Covers b → runStores inits (runZeroing E zeroing m) b = st.byte b) ∧
      ((∀ st ∈ stores, ¬ st.Covers b) → runStores inits (runZeroing E zeroing m) b = 0)) ∧
    (b < E.headerSize ∨ E.sizeInBytes ≤ b → runStores inits (runZeroing E zeroing m) b = m b)

section

variable {E : InitializeEnv} {stores : List RawStore}

/-- The byte of the store that covers it, the stores being disjoint. -/
theorem Captured.runStores_eq (hc : Captured E stores) {st : RawStore} (hst : st ∈ stores) {b : ℕ}
    (hb : st.Covers b) (m : Bytes.Block) : runStores stores m b = st.byte b := by
  obtain ⟨l, l', rfl⟩ := List.append_of_mem hst
  obtain ⟨-, hrest, -⟩ := List.pairwise_append.1 hc.ascending
  have hnot : ∀ x ∈ l', ¬ x.Covers b := by
    rintro x hx ⟨hle, -⟩
    have hend := (List.pairwise_cons.1 hrest).1 x hx
    have hlt := hb.2
    omega
  rw [runStores_append, runStores_cons, runStores_of_not_covers hnot, RawStore.exec_eq, if_pos hb]

end

/-- What `complete_stores` leaves in the body is what the stores alone would leave in zeroed memory,
and outside of the body it writes nothing. -/
theorem completeStores_spec (E : InitializeEnv) (stores : List RawStore) (hE : E.WellSized)
    (hc : Captured E stores) (hzeroed : E.isZeroed = false) :
    ∃ zeroing inits, completeStores E stores = some (zeroing, inits) ∧
      (∀ m b, E.headerSize ≤ b → b < E.sizeInBytes → ¬ E.Padding b →
        runStores inits (runZeroing E zeroing m) b = runStores stores zeroBlock b) ∧
      ∀ m b, b < E.headerSize ∨ E.sizeInBytes ≤ b →
        runStores inits (runZeroing E zeroing m) b = m b := by
  obtain ⟨inits, hinits, hplaced, hrun⟩ : ∃ inits,
      (if E.reduceFieldZeroing || E.reduceBulkZeroing then coalesceSubwordStores E stores
        else some stores) = some inits ∧ (∀ st ∈ inits, E.Placed st) ∧
      runStores inits zeroBlock = runStores stores zeroBlock := by
    split
    · exact coalesceSubwordStores_eq hc hE
    · exact ⟨stores, rfl, hc.placed, rfl⟩
  have hstart : Zeroed E [] ⟨[], E.headerSize, !E.isZeroed && (E.reduceFieldZeroing ||
      E.reduceBulkZeroing), 0⟩ :=
    ⟨fun _ _ _ => rfl, fun b hb hlt => absurd hlt (Nat.not_lt_of_le hb), Nat.le_refl _,
      hE.header_le, Nat.le_max_left _ _⟩
  obtain ⟨hbody, hzeroes⟩ := (hstart.loop hE hplaced).finish hE
  let zeroing := (Zeroing.loop E inits ⟨[], E.headerSize, !E.isZeroed && (E.reduceFieldZeroing ||
    E.reduceBulkZeroing), 0⟩).finish E
  have hresult : completeStores E stores = some (zeroing, inits) := by
    rw [completeStores, hinits]
    simp [zeroing, hzeroed]
  refine ⟨zeroing, inits, hresult, fun m b hb hlt hpad => ?_, fun m b hout => ?_⟩
  · obtain hcov | hpad' | hzero := hzeroes b hb hlt
    · rw [← hrun]
      exact runStores_of_covers hcov
    · exact absurd hpad' hpad
    · rw [← hrun]
      exact runStores_congr (hzero m)
  · have hnot : ∀ st ∈ inits, ¬ st.Covers b := by
      rintro st hst ⟨hle, hlt⟩
      have hheader := (hplaced st hst).header
      have hinside := (hplaced st hst).inside
      omega
    rw [runStores_of_not_covers hnot, hbody m b hout]

/-- `complete_stores` initializes every byte exactly. -/
theorem completeStores_exact (E : InitializeEnv) (stores : List RawStore) (hE : E.WellSized)
    (hc : Captured E stores) (hzeroed : E.isZeroed = false) :
    ∃ zeroing inits, completeStores E stores = some (zeroing, inits) ∧
      InitializesExactly E stores zeroing inits := by
  obtain ⟨zeroing, inits, heq, hbody, hout⟩ := completeStores_spec E stores hE hc hzeroed
  refine ⟨zeroing, inits, heq, fun m b => ⟨fun hb hlt hpad => ?_, hout m b⟩⟩
  rw [hbody m b hb hlt hpad]
  exact ⟨fun st hst hcov => hc.runStores_eq hst hcov zeroBlock, runStores_of_not_covers⟩

/-! ### An example

A byte array with the elements 1, 0, x, 0, then the int constant 42 and a long y. -/

/-- A byte array of 16 elements. -/
def byteArrayEnv : InitializeEnv where
  headerSize := 16
  minimumHeaderSize := 12
  sizeInBytes := 40
  sizeIsConstant := true
  isInstance := false
  layoutHelper := 0
  trackedInitializationLimit := 50
  isSimpleConstant64 := fun _ => true
  initArrayCountIsInBytes := false
  initArrayShortSize := 64
  reduceFieldZeroing := true
  reduceBulkZeroing := true
  isZeroed := false

/-- Its stores, for given x and y. -/
def byteArrayStores (x y : ℕ) : List RawStore :=
  [⟨.storeB, 16, some .int, 1⟩, ⟨.storeB, 18, none, x⟩, ⟨.storeI, 20, some .int, 42⟩,
    ⟨.storeL, 24, none, y⟩]

/-- The constants become one long store, which needs no zeroes under it. -/
example : completeStores byteArrayEnv (byteArrayStores 7 9) =
    some ([.clearArray 32 1],
      [⟨.storeL, 16, some .long, 42 * 2 ^ 32 + 1⟩, ⟨.storeB, 18, none, 7⟩,
        ⟨.storeL, 24, none, 9⟩]) := by
  decide +kernel

/-- Every byte of the array is initialized exactly. -/
theorem completeStores_exact_byteArray :
    ∃ zeroing inits, completeStores byteArrayEnv (byteArrayStores 7 9) = some (zeroing, inits) ∧
      InitializesExactly byteArrayEnv (byteArrayStores 7 9) zeroing inits := by
  refine completeStores_exact byteArrayEnv (byteArrayStores 7 9) ?_ ⟨?_, ?_⟩ rfl
  · exact ⟨by decide, by decide, by decide, by decide, by decide, by decide⟩
  · have hall : ∀ st ∈ byteArrayStores 7 9, 16 ≤ st.offset ∧ st.offset + st.size ≤ 40 ∧
        st.size ∣ st.offset ∧ st.offset < 400 := by decide
    intro st hst
    obtain ⟨hheader, hinside, haligned, htracked⟩ := hall st hst
    exact ⟨hheader, hinside, haligned, htracked⟩
  · decide

end StackAllocation
