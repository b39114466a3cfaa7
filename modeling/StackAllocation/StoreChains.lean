import StackAllocation.InitializeStores

/-!
# Chains of stores

What a chain of stores leaves in a byte: the byte of the last store that covers it, or what was
there before. Stores that do not overlap can be executed in any order.
-/

namespace StackAllocation

namespace StoreOpcode

/-- Every store writes at least one byte. -/
theorem memorySize_pos (o : StoreOpcode) : 0 < o.memorySize := by
  cases o <;> decide

/-- The sizes are powers of two up to eight, so a store that is aligned at its size lies in one
double word. -/
theorem memorySize_dvd_eight (o : StoreOpcode) : o.memorySize ∣ 8 := by
  cases o <;> decide

/-- A store of less than eight bytes, aligned at its size, lies in one word. -/
theorem memorySize_dvd_four (o : StoreOpcode) (h : o.memorySize ≠ 8) : o.memorySize ∣ 4 := by
  cases o <;> first | decide | exact absurd rfl h

end StoreOpcode

namespace RawStore

/-- The store writes the byte. -/
def Covers (st : RawStore) (b : ℕ) : Prop := st.offset ≤ b ∧ b < st.offset + st.size

/-- What it writes there. -/
def byte (st : RawStore) (b : ℕ) : UInt8 := UInt8.ofNat (st.value / 256 ^ (b - st.offset))

instance (st : RawStore) (b : ℕ) : Decidable (st.Covers b) := inferInstanceAs (Decidable (_ ∧ _))

variable {st st' : RawStore} {m m' : Bytes.Block} {b : ℕ}

/-- What a store leaves in a byte: its own, if it covers it. -/
theorem exec_eq (st : RawStore) (m : Bytes.Block) (b : ℕ) :
    st.exec m b = if st.Covers b then st.byte b else m b :=
  Bytes.put_eq m st.size st.offset st.value b

/-- Stores to bytes that are apart commute. -/
theorem exec_comm (h : st.offset + st.size ≤ st'.offset ∨ st'.offset + st'.size ≤ st.offset) :
    st'.exec (st.exec m) = st.exec (st'.exec m) :=
  Bytes.put_comm m h

theorem size_pos (st : RawStore) : 0 < st.size := st.opcode.memorySize_pos

theorem size_dvd_eight (st : RawStore) : st.size ∣ 8 := st.opcode.memorySize_dvd_eight

theorem size_dvd_four (st : RawStore) (h : st.size ≠ 8) : st.size ∣ 4 :=
  st.opcode.memorySize_dvd_four h

end RawStore

/-- An aligned range that starts before a boundary ends there at the latest. -/
theorem add_le_of_dvd {size offset limit : ℕ} (ho : size ∣ offset) (hl : size ∣ limit)
    (h : offset < limit) : offset + size ≤ limit := by
  obtain ⟨k, rfl⟩ := ho
  obtain ⟨n, rfl⟩ := hl
  have hk : k + 1 ≤ n := Nat.lt_of_mul_lt_mul_left h
  calc size * k + size = size * (k + 1) := rfl
    _ ≤ size * n := Nat.mul_le_mul_left size hk

/-- The bytes of an aligned store are in one tile. -/
theorem RawStore.Covers.div_eight {st : RawStore} {b : ℕ} (h : st.Covers b)
    (ha : st.size ∣ st.offset) : b / 8 = st.offset / 8 := by
  have hlt : st.offset < 8 * (st.offset / 8 + 1) := by omega
  have hend := add_le_of_dvd ha ((st.size_dvd_eight).mul_right _) hlt
  obtain ⟨h₁, h₂⟩ := h
  omega

section

variable {l l' : List RawStore} {st : RawStore} {m m' : Bytes.Block} {b : ℕ}

theorem runStores_cons : runStores (st :: l) m = runStores l (st.exec m) := rfl

/-- Chains one after the other. -/
theorem runStores_append : runStores (l ++ l') m = runStores l' (runStores l m) :=
  List.foldl_append

/-- A byte depends on what was there before, or not at all. -/
theorem runStores_congr (h : m b = m' b) : runStores l m b = runStores l m' b := by
  induction l generalizing m m' with
  | nil => exact h
  | cons st l ih =>
    rw [runStores_cons, runStores_cons]
    apply ih
    rw [RawStore.exec_eq, RawStore.exec_eq, h]

/-- A byte that no store of a chain covers keeps its value. -/
theorem runStores_of_not_covers (h : ∀ st ∈ l, ¬ st.Covers b) : runStores l m b = m b := by
  induction l generalizing m with
  | nil => rfl
  | cons st l ih =>
    rw [runStores_cons, ih fun x hx => h x (List.mem_cons_of_mem st hx), RawStore.exec_eq,
      if_neg (h st List.mem_cons_self)]

/-- A byte that some store of a chain covers does not depend on what was there before. -/
theorem runStores_of_covers (h : ∃ st ∈ l, st.Covers b) : runStores l m b = runStores l m' b := by
  induction l generalizing m m' with
  | nil =>
    obtain ⟨st, hst, -⟩ := h
    exact absurd hst List.not_mem_nil
  | cons x l ih =>
    by_cases hl : ∃ st ∈ l, st.Covers b
    · exact ih hl
    · obtain ⟨st, hst, hb⟩ := h
      obtain rfl | hst := List.mem_cons.1 hst
      · rw [runStores_cons, runStores_cons]
        apply runStores_congr
        rw [RawStore.exec_eq, RawStore.exec_eq, if_pos hb, if_pos hb]
      · exact absurd ⟨st, hst, hb⟩ hl

/-- A store may be executed first if it overlaps no other. -/
theorem runStores_exec (h : ∀ x ∈ l, x.offset + x.size ≤ st.offset ∨
    st.offset + st.size ≤ x.offset) :
    runStores l (st.exec m) = st.exec (runStores l m) := by
  induction l generalizing m with
  | nil => rfl
  | cons x l ih =>
    rw [runStores_cons, runStores_cons, RawStore.exec_comm (h x List.mem_cons_self).symm,
      ih fun y hy => h y (List.mem_cons_of_mem x hy)]

end

end StackAllocation
