import Mathlib.Data.Nat.Basic
import Mathlib.Logic.Function.Basic
import Mathlib.Tactic.Ring

/-!
# Byte-addressed storage

A block of storage is a function from offsets to bytes. `get m n off` is the
little-endian number in the `n` bytes from `off`, `put m n off v` stores the low
`n` bytes of `v` there. The laws: a load after a store at the same place gives the
number modulo `256 ^ n`, a load from bytes the store does not touch is not
affected, and a load of `a + b` bytes is made of a load of `a` and one of `b`.
-/

namespace Bytes

/-- A block of storage. -/
abbrev Block := ℕ → UInt8

/-- The number in the `n` bytes from `off`, least significant byte first. -/
def get (m : Block) : ℕ → ℕ → ℕ
  | 0, _ => 0
  | n + 1, off => (m off).toNat + 256 * get m n (off + 1)

/-- Store the low `n` bytes of `v` from `off` on. -/
def put (m : Block) : ℕ → ℕ → ℕ → Block
  | 0, _, _ => m
  | n + 1, off, v => put (Function.update m off (UInt8.ofNat v)) n (off + 1) (v / 256)

theorem put_of_lt (m : Block) {n off v i : ℕ} (h : i < off) : put m n off v i = m i := by
  induction n generalizing m off v with
  | zero => rfl
  | succ n ih => rw [put, ih _ (by omega), Function.update_of_ne (by omega)]

theorem put_of_le (m : Block) {n off v i : ℕ} (h : off + n ≤ i) : put m n off v i = m i := by
  induction n generalizing m off v with
  | zero => rfl
  | succ n ih => rw [put, ih _ (by omega), Function.update_of_ne (by omega)]

/-- A store leaves the bytes outside its range alone. -/
theorem put_of_notMem (m : Block) {n off v i : ℕ} (h : ¬ (off ≤ i ∧ i < off + n)) :
    put m n off v i = m i := by
  rcases Nat.lt_or_ge i off with hlt | hge
  · exact put_of_lt m hlt
  · exact put_of_le m (by omega)

/-- A load depends on the bytes of its range only. -/
theorem get_congr {m m' : Block} {n off : ℕ} (h : ∀ i, off ≤ i → i < off + n → m i = m' i) :
    get m n off = get m' n off := by
  induction n generalizing off with
  | zero => rfl
  | succ n ih =>
    rw [get, get, h off (le_refl off) (by omega), ih fun i hi hlt => h i (by omega) (by omega)]

theorem get_lt (m : Block) (n off : ℕ) : get m n off < 256 ^ n := by
  induction n generalizing off with
  | zero => exact Nat.one_pos
  | succ n ih =>
    have hbyte := (m off).toNat_lt
    have hrest := ih (off + 1)
    rw [get, pow_succ]
    omega

/-- A load of a stored number. -/
theorem get_put_self (m : Block) (n off v : ℕ) : get (put m n off v) n off = v % 256 ^ n := by
  induction n generalizing m off v with
  | zero => rw [get, pow_zero, Nat.mod_one]
  | succ n ih =>
    have hbyte : (UInt8.ofNat v).toNat = v % 256 := UInt8.toNat_ofNat'
    rw [get, put, ih, put_of_lt _ (Nat.lt_succ_self off), Function.update_self, hbyte,
      pow_succ', Nat.mod_mul]

/-- The bytes of a stored number. -/
theorem put_apply (m : Block) {n off v j : ℕ} (h : j < n) :
    put m n off v (off + j) = UInt8.ofNat (v / 256 ^ j) := by
  induction n generalizing m off v j with
  | zero => omega
  | succ n ih =>
    rw [put]
    cases j with
    | zero =>
      rw [put_of_lt _ (by omega : off + 0 < off + 1), Nat.add_zero, Function.update_self,
        pow_zero, Nat.div_one]
    | succ j =>
      rw [show off + (j + 1) = off + 1 + j by omega, ih _ (by omega), Nat.div_div_eq_div_mul,
        ← pow_succ']

/-- A loaded number fits. -/
theorem get_mod_self (m : Block) (n off : ℕ) : get m n off % 256 ^ n = get m n off :=
  Nat.mod_eq_of_lt (get_lt m n off)

/-- A load in two parts. -/
theorem get_add (m : Block) (a b off : ℕ) :
    get m (a + b) off = get m a off + 256 ^ a * get m b (off + a) := by
  induction a generalizing off with
  | zero => simp [get]
  | succ a ih =>
    rw [Nat.succ_add, get, ih, get, pow_succ, show off + 1 + a = off + (a + 1) by omega]
    ring

/-- The low part of a load. -/
theorem get_mod (m : Block) (a b off : ℕ) :
    get m (a + b) off % 256 ^ a = get m a off := by
  rw [get_add, Nat.add_mul_mod_self_left, get_mod_self]

/-- The high part of a load. -/
theorem get_div (m : Block) (a b off : ℕ) :
    get m (a + b) off / 256 ^ a = get m b (off + a) := by
  rw [get_add, Nat.add_mul_div_left _ _ (Nat.pow_pos (by decide)),
    Nat.div_eq_of_lt (get_lt m a off), Nat.zero_add]

/-- The bytes after a store. -/
theorem put_eq (m : Block) (n off v i : ℕ) :
    put m n off v i = if off ≤ i ∧ i < off + n then UInt8.ofNat (v / 256 ^ (i - off)) else m i := by
  split
  · next h =>
    obtain ⟨j, rfl⟩ := Nat.exists_eq_add_of_le h.1
    rw [put_apply m (by omega), Nat.add_sub_cancel_left]
  · next h => exact put_of_notMem m h

/-- A byte of a loaded number. -/
theorem ofNat_get_div (m : Block) {n off j : ℕ} (h : j < n) :
    UInt8.ofNat (get m n off / 256 ^ j) = m (off + j) := by
  obtain ⟨k, rfl⟩ := Nat.exists_eq_add_of_lt h
  rw [show j + k + 1 = j + (k + 1) by omega, get_div, get]
  apply UInt8.toNat_inj.1
  rw [UInt8.toNat_ofNat', Nat.add_mul_mod_self_left]
  exact Nat.mod_eq_of_lt (m (off + j)).toNat_lt

/-- A store of what was loaded from the same place. -/
theorem put_get (m m' : Block) (n off i : ℕ) :
    put m n off (get m' n off) i = if off ≤ i ∧ i < off + n then m' i else m i := by
  rw [put_eq]
  split
  · next h => rw [ofNat_get_div m' (by omega), Nat.add_sub_cancel' h.1]
  · rfl

/-- A number whose bytes are all zero. -/
theorem get_eq_zero_iff {m : Block} {n off : ℕ} :
    get m n off = 0 ↔ ∀ i, off ≤ i → i < off + n → m i = 0 := by
  constructor
  · intro h i hle hlt
    have hbyte := put_get m m n off i
    rw [h, put_eq, if_pos ⟨hle, hlt⟩, if_pos ⟨hle, hlt⟩, Nat.zero_div] at hbyte
    exact hbyte.symm
  · intro h
    induction n generalizing off with
    | zero => rfl
    | succ n ih =>
      rw [get, h off (le_refl off) (by omega), ih fun i hi hlt => h i (by omega) (by omega)]
      rfl

/-- A store takes the low bytes of a number only. -/
theorem put_mod (m : Block) (n off v : ℕ) : put m n off (v % 256 ^ n) = put m n off v := by
  induction n generalizing m off v with
  | zero => rfl
  | succ n ih =>
    have hbyte : UInt8.ofNat (v % 256 ^ (n + 1)) = UInt8.ofNat v := by
      apply UInt8.toNat_inj.1
      rw [UInt8.toNat_ofNat', UInt8.toNat_ofNat', pow_succ']
      exact Nat.mod_mul_right_mod v 256 (256 ^ n)
    have hrest : v % 256 ^ (n + 1) / 256 = v / 256 % 256 ^ n := by
      rw [pow_succ']
      exact Nat.mod_mul_right_div_self v 256 (256 ^ n)
    rw [put, put, hbyte, hrest, ih]

/-- Stores to different places commute. -/
theorem put_comm (m : Block) {n off v n' off' v' : ℕ} (h : off + n ≤ off' ∨ off' + n' ≤ off) :
    put (put m n off v) n' off' v' = put (put m n' off' v') n off v := by
  funext i
  simp only [put_eq]
  split
  · rw [if_neg (by omega)]
  · rfl

end Bytes
