import Mathlib.Data.Nat.Bitwise

/-!
# The zero-byte test of a word

`(v - 0x01…01) & ~v & 0x80…80` is non-zero exactly when one of the bytes of
the word `v` is zero.  Below the lowest zero byte no byte borrows, so that
byte becomes `0xFF` and keeps its top bit; a word without a zero byte borrows
nowhere, and each byte `b` gives `(b - 1) & ~b`, whose top bit is clear.
-/

namespace Xqemu.ZeroByte

/-- `0x01…01`, the word of `n` bytes that are each 1. -/
def ones : Nat → Nat
  | 0 => 0
  | n + 1 => 1 + 256 * ones n

/-- The test on a word of `n` bytes, with the subtraction and the complement
taken modulo `256 ^ n`. -/
def hasZeroByte (n v : Nat) : Nat :=
  (v + 256 ^ n - ones n) % 256 ^ n &&& (256 ^ n - 1 - v) &&& 128 * ones n

theorem ones_lt (n : Nat) : ones n < 256 ^ n := by
  induction n with
  | zero => simp [ones]
  | succ n ih =>
      rw [ones, pow_succ]
      omega

/-- Words split at bit `k` are anded half by half. -/
theorem two_pow_mul_add_and (k : Nat) {a c : Nat} (b d : Nat) (ha : a < 2 ^ k) (hc : c < 2 ^ k) :
    (2 ^ k * b + a) &&& (2 ^ k * d + c) = 2 ^ k * (b &&& d) + (a &&& c) := by
  have hac : a &&& c < 2 ^ k := Nat.lt_of_le_of_lt Nat.and_le_left ha
  apply Nat.eq_of_testBit_eq
  intro j
  rw [Nat.testBit_and, Nat.testBit_two_pow_mul_add _ ha, Nat.testBit_two_pow_mul_add _ hc,
    Nat.testBit_two_pow_mul_add _ hac]
  split_ifs <;> simp [Nat.testBit_and]

/-- A value below `256` added to `256` times anything is taken modulo `256 * m`
in its upper part alone. -/
theorem add_mul_mod_mul {x y m : Nat} (hx : x < 256) (hm : 0 < m) :
    (x + 256 * y) % (256 * m) = x + 256 * (y % m) := by
  have hy := Nat.mod_add_div y m
  have hlt : y % m < m := Nat.mod_lt y hm
  have hsplit : x + 256 * y = x + 256 * (y % m) + 256 * m * (y / m) := by
    rw [Nat.mul_assoc]
    omega
  rw [hsplit, Nat.add_mul_mod_self_left, Nat.mod_eq_of_lt]
  have : 256 * (y % m) + 256 ≤ 256 * m := by omega
  omega

set_option maxRecDepth 4000 in
/-- The low byte of the test: for a byte that is not zero its top bit stays
clear. -/
theorem low_byte_of_ne_zero : ∀ b < 256, b ≠ 0 → (b - 1) &&& (255 - b) &&& 128 = 0 := by
  decide

/-- One byte more: a non-zero low byte leaves the test to the bytes above. -/
theorem hasZeroByte_succ_of_ne {n b v : Nat} (hb : b < 256) (hb0 : b ≠ 0) (hv : v < 256 ^ n) :
    hasZeroByte (n + 1) (b + 256 * v) = 2 ^ 8 * hasZeroByte n v := by
  have hpos : 0 < 256 ^ n := Nat.pow_pos (by omega)
  have hones := ones_lt n
  have hsub : (b + 256 * v + 256 ^ (n + 1) - ones (n + 1)) % 256 ^ (n + 1) =
      2 ^ 8 * ((v + 256 ^ n - ones n) % 256 ^ n) + (b - 1) := by
    have : b + 256 * v + 256 ^ (n + 1) - ones (n + 1) = (b - 1) + 256 * (v + 256 ^ n - ones n) := by
      rw [ones, pow_succ]
      omega
    rw [this, pow_succ, Nat.mul_comm (256 ^ n), add_mul_mod_mul (by omega) hpos]
    omega
  have hnot : 256 ^ (n + 1) - 1 - (b + 256 * v) = 2 ^ 8 * (256 ^ n - 1 - v) + (255 - b) := by
    rw [pow_succ]
    omega
  have hmask : 128 * ones (n + 1) = 2 ^ 8 * (128 * ones n) + 128 := by
    rw [ones]
    omega
  unfold hasZeroByte
  rw [hsub, hnot, hmask, two_pow_mul_add_and 8 _ _ (by omega) (by omega),
    two_pow_mul_add_and 8 _ _ (Nat.lt_of_le_of_lt Nat.and_le_left (by omega)) (by omega),
    low_byte_of_ne_zero b hb hb0, Nat.add_zero]

/-- One byte more: a zero low byte sets the top bit of the test's low byte. -/
theorem hasZeroByte_succ_of_eq {n v : Nat} (hv : v < 256 ^ n) :
    hasZeroByte (n + 1) (256 * v) % 256 = 128 := by
  have hpos : 0 < 256 ^ n := Nat.pow_pos (by omega)
  have hones := ones_lt n
  have hsub : (256 * v + 256 ^ (n + 1) - ones (n + 1)) % 256 ^ (n + 1) =
      2 ^ 8 * ((v + 256 ^ n - ones n - 1) % 256 ^ n) + 255 := by
    have : 256 * v + 256 ^ (n + 1) - ones (n + 1) = 255 + 256 * (v + 256 ^ n - ones n - 1) := by
      rw [ones, pow_succ]
      omega
    rw [this, pow_succ, Nat.mul_comm (256 ^ n), add_mul_mod_mul (by omega) hpos]
    omega
  have hnot : 256 ^ (n + 1) - 1 - 256 * v = 2 ^ 8 * (256 ^ n - 1 - v) + 255 := by
    rw [pow_succ]
    omega
  have hmask : 128 * ones (n + 1) = 2 ^ 8 * (128 * ones n) + 128 := by
    rw [ones]
    omega
  unfold hasZeroByte
  rw [hsub, hnot, hmask, two_pow_mul_add_and 8 _ _ (by omega) (by omega),
    two_pow_mul_add_and 8 _ _ (by decide) (by omega), show (255 &&& 255 &&& 128 : Nat) = 128 from rfl]
  omega

/-- The test is exact: it is non-zero just when some byte of the word is zero. -/
theorem hasZeroByte_ne_zero_iff {n v : Nat} (hv : v < 256 ^ n) :
    hasZeroByte n v ≠ 0 ↔ ∃ k < n, v / 256 ^ k % 256 = 0 := by
  induction n generalizing v with
  | zero =>
      have : v = 0 := by simpa using hv
      subst this
      simp [hasZeroByte, ones]
  | succ n ih =>
      -- split off the low byte
      have hsplit : v = v % 256 + 256 * (v / 256) := (Nat.mod_add_div v 256).symm
      have hhi : v / 256 < 256 ^ n := by
        rw [pow_succ] at hv
        omega
      by_cases hb0 : v % 256 = 0
      · have hlow := hasZeroByte_succ_of_eq hhi
        rw [hb0, Nat.zero_add] at hsplit
        rw [← hsplit] at hlow
        refine ⟨fun _ => ⟨0, by omega, by simpa using hb0⟩, fun _ h => ?_⟩
        rw [h] at hlow
        simp at hlow
      · rw [hsplit, hasZeroByte_succ_of_ne (Nat.mod_lt v (by omega)) hb0 hhi, ← hsplit]
        rw [Ne, Nat.mul_eq_zero, not_or, ← Ne, ← Ne, ih hhi]
        constructor
        · rintro ⟨-, k, hk, hbyte⟩
          refine ⟨k + 1, by omega, ?_⟩
          rw [pow_succ, Nat.mul_comm, ← Nat.div_div_eq_div_mul]
          exact hbyte
        · rintro ⟨k, hk, hbyte⟩
          refine ⟨by decide, ?_⟩
          cases k with
          | zero => exact absurd (by simpa using hbyte) hb0
          | succ k =>
              refine ⟨k, by omega, ?_⟩
              rw [pow_succ, Nat.mul_comm, ← Nat.div_div_eq_div_mul] at hbyte
              exact hbyte

/-- A byte of an exclusive or is zero just when the two bytes are equal. -/
theorem xor_byte_eq_zero_iff (a b k : Nat) :
    (a ^^^ b) / 256 ^ k % 256 = 0 ↔ a / 256 ^ k % 256 = b / 256 ^ k % 256 := by
  have hpow : (256 : Nat) ^ k = 2 ^ (8 * k) := by rw [Nat.pow_mul]
  rw [hpow, show (256 : Nat) = 2 ^ 8 from rfl, Nat.xor_div_two_pow, Nat.xor_mod_two_pow,
    Nat.xor_eq_zero_iff]

end Xqemu.ZeroByte
