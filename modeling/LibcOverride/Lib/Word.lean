import Mathlib.Data.Nat.ModEq
import Mathlib.Tactic.Common

/-!
# Machine words and byte memories

Unsigned 64-bit arithmetic on naturals, and byte arrays as functions of the
index with the three bulk operations of C (`memcpy`, `memset`, a little-endian
store of one word).
-/

namespace LibcOverride.Word

abbrev sizeMax : ℕ := 2 ^ 64 - 1

def add (a b : ℕ) : ℕ := (a + b) % 2 ^ 64
def sub (a b : ℕ) : ℕ := (a + (2 ^ 64 - b % 2 ^ 64)) % 2 ^ 64
def mul (a b : ℕ) : ℕ := a * b % 2 ^ 64

/-- The counter holds a total modulo `2 ^ 64`. -/
def Counts (counter total : ℕ) : Prop := counter = total % 2 ^ 64

theorem counts_add {c n : ℕ} (h : Counts c n) (k : ℕ) : Counts (add c k) (n + k) := by
  unfold Counts add at *
  omega

theorem counts_sub {c n : ℕ} (k : ℕ) (h : Counts c (n + k)) : Counts (sub c k) n := by
  unfold Counts sub at *
  omega

abbrev Bytes := ℕ → UInt8

/-- `memcpy(dst, src, n)` inside one array. -/
def copy (m : Bytes) (dst src n : ℕ) : Bytes :=
  fun i => if dst ≤ i ∧ i < dst + n then m (src + (i - dst)) else m i

/-- `memset(dst, v, n)`. -/
def fill (m : Bytes) (dst : ℕ) (v : UInt8) (n : ℕ) : Bytes :=
  fun i => if dst ≤ i ∧ i < dst + n then v else m i

/-- Little-endian store of an `n`-byte integer. -/
def store (m : Bytes) (at' : ℕ) (v n : ℕ) : Bytes :=
  fun i => if at' ≤ i ∧ i < at' + n then UInt8.ofNat (v / 256 ^ (i - at')) else m i

/-- Little-endian load of an `n`-byte integer. -/
def load (m : Bytes) (at' : ℕ) : ℕ → ℕ
  | 0 => 0
  | n + 1 => (m at').toNat + 256 * load m (at' + 1) n

theorem copy_outside (m : Bytes) {dst src n i : ℕ} (hi : i < dst ∨ dst + n ≤ i) :
    copy m dst src n i = m i := by
  unfold copy
  rw [if_neg (by omega)]

theorem copy_inside (m : Bytes) {dst src n i : ℕ} (hi : i < n) :
    copy m dst src n (dst + i) = m (src + i) := by
  unfold copy
  rw [if_pos (by omega), Nat.add_sub_cancel_left]

theorem store_outside (m : Bytes) {at' v n i : ℕ} (hi : i < at' ∨ at' + n ≤ i) :
    store m at' v n i = m i := by
  unfold store
  rw [if_neg (by omega)]

theorem store_inside (m : Bytes) {at' v n i : ℕ} (hi : i < n) :
    store m at' v n (at' + i) = UInt8.ofNat (v / 256 ^ i) := by
  unfold store
  rw [if_pos (by omega), Nat.add_sub_cancel_left]

/-- A load depends on the bytes it reads and no others. -/
theorem load_congr {m m' : Bytes} {at' n : ℕ} (h : ∀ i < n, m' (at' + i) = m (at' + i)) :
    load m' at' n = load m at' n := by
  induction n generalizing at' with
  | zero => rfl
  | succ n ih =>
    have hfirst : m' at' = m at' := h 0 n.succ_pos
    have hrest : load m' (at' + 1) n = load m (at' + 1) n := by
      apply ih
      intro i hi
      have hnext := h (i + 1) (by omega)
      rwa [← Nat.add_assoc, Nat.add_right_comm] at hnext
    unfold load
    rw [hfirst, hrest]

/-- Bytes that are the digits of `v` in base 256 load as `v`. -/
theorem load_digits {m : Bytes} {at' v n : ℕ} (h : ∀ i < n, m (at' + i) = UInt8.ofNat (v / 256 ^ i)) :
    load m at' n = v % 256 ^ n := by
  induction n generalizing at' v with
  | zero => exact (Nat.mod_one v).symm
  | succ n ih =>
    have hfirst : (m at').toNat = v % 256 := by
      have hbyte := h 0 n.succ_pos
      rw [Nat.add_zero, Nat.pow_zero, Nat.div_one] at hbyte
      rw [hbyte]
      exact UInt8.toNat_ofNat'
    have hrest : load m (at' + 1) n = v / 256 % 256 ^ n := by
      apply ih
      intro i hi
      have hnext := h (i + 1) (by omega)
      rwa [← Nat.add_assoc, Nat.add_right_comm, Nat.pow_succ', ← Nat.div_div_eq_div_mul] at hnext
    unfold load
    rw [hfirst, hrest, Nat.pow_succ', Nat.mod_mul]

theorem load_store (m : Bytes) (at' : ℕ) {v n : ℕ} (hv : v < 256 ^ n) :
    load (store m at' v n) at' n = v := by
  rw [load_digits fun i hi => store_inside m hi, Nat.mod_eq_of_lt hv]

end LibcOverride.Word
