import Mathlib.Data.Nat.Bitwise

/-!
# Reversing a field of bits

`reverse k x` holds bits `k - 1, …, 0` of `x` at positions `0, …, k - 1`
(`testBit_reverse`).  The top `m` bits of a `k`-bit reversal are the reversal of
the low `m` bits (`reverse_div_two_pow`), and its low `m` bits the reversal of
the top `m` (`reverse_mod_two_pow`).

Reverse-carry addition over a field of `k` bits adds the reversed operands and
reverses the sum: the carry runs from the top bit of the field down.  Adding
the field's top bit is adding one to the reversal (`reverseAdd_top`).
-/

namespace Xqemu.Bits

/-- The low `k` bits of `x` in reverse order. -/
def reverse : Nat → Nat → Nat
  | 0, _ => 0
  | k + 1, x => x % 2 * 2 ^ k + reverse k (x / 2)

theorem reverse_lt : ∀ k x, reverse k x < 2 ^ k
  | 0, _ => by simp [reverse]
  | k + 1, x => by
    have hrest := reverse_lt k (x / 2)
    rw [reverse, Nat.pow_succ]
    rcases Nat.mod_two_eq_zero_or_one x with h | h <;> rw [h] <;> omega

theorem testBit_reverse : ∀ k x i, (reverse k x).testBit i = (decide (i < k) && x.testBit (k - 1 - i))
  | 0, _, i => by simp [reverse]
  | k + 1, x, i => by
    rw [reverse, Nat.mul_comm, Nat.testBit_two_pow_mul_add _ (reverse_lt k _)]
    by_cases hik : i < k
    · -- below the top bit: the reversal of `x / 2`
      rw [if_pos hik, testBit_reverse k, Nat.testBit_div_two, decide_eq_true hik,
        decide_eq_true (by omega), show k - 1 - i + 1 = k + 1 - 1 - i by omega]
    · -- the top bit is bit 0 of `x`, and nothing lies above it
      rw [if_neg hik]
      by_cases hki : i = k
      · subst hki
        rw [Nat.sub_self, Nat.testBit_zero, Nat.mod_mod, decide_eq_true (by omega : i < i + 1),
          show i + 1 - 1 - i = 0 by omega, Nat.testBit_zero, Bool.true_and]
      · rw [Nat.testBit_lt_two_pow (lt_of_lt_of_le (Nat.mod_lt x (by omega))
          (Nat.le_self_pow (by omega) 2)), decide_eq_false (by omega), Bool.false_and]

/-- A reversal of `k` bits reads the low `k` bits only. -/
theorem reverse_mod_self (k x : Nat) : reverse k (x % 2 ^ k) = reverse k x := by
  apply Nat.eq_of_testBit_eq
  intro i
  rw [testBit_reverse, testBit_reverse, Nat.testBit_mod_two_pow]
  by_cases hik : i < k
  · rw [decide_eq_true hik, decide_eq_true (by omega), Bool.true_and, Bool.true_and]
  · rw [decide_eq_false hik, Bool.false_and, Bool.false_and]

/-- The top `m` bits of a reversal of `n` bits reverse the low `m` bits. -/
theorem reverse_div_two_pow {m n : Nat} (hmn : m ≤ n) (x : Nat) :
    reverse n x / 2 ^ (n - m) = reverse m (x % 2 ^ m) := by
  apply Nat.eq_of_testBit_eq
  intro i
  rw [Nat.testBit_div_two_pow, testBit_reverse, testBit_reverse, Nat.testBit_mod_two_pow]
  by_cases him : i < m
  · rw [decide_eq_true (by omega), decide_eq_true him, decide_eq_true (by omega), Bool.true_and, Bool.true_and,
      Bool.true_and, show n - 1 - (i + (n - m)) = m - 1 - i by omega]
  · rw [decide_eq_false (by omega), decide_eq_false him, Bool.false_and, Bool.false_and]

/-- The low `m` bits of a reversal of `n` bits reverse the top `m` bits. -/
theorem reverse_mod_two_pow {m n : Nat} (hmn : m ≤ n) (y : Nat) :
    reverse n y % 2 ^ m = reverse m (y / 2 ^ (n - m)) := by
  apply Nat.eq_of_testBit_eq
  intro i
  rw [Nat.testBit_mod_two_pow, testBit_reverse, testBit_reverse, Nat.testBit_div_two_pow]
  by_cases him : i < m
  · rw [decide_eq_true him, decide_eq_true (by omega), Bool.true_and,
      show m - 1 - i + (n - m) = n - 1 - i by omega]
  · rw [decide_eq_false him, Bool.false_and, Bool.false_and]

theorem reverse_two_pow {k i : Nat} (hi : i < k) : reverse k (2 ^ i) = 2 ^ (k - 1 - i) := by
  apply Nat.eq_of_testBit_eq
  intro b
  rw [testBit_reverse, Nat.testBit_two_pow, Nat.testBit_two_pow]
  by_cases hb : b < k
  · rw [decide_eq_true hb, Bool.true_and]
    exact decide_eq_decide.mpr (by omega)
  · rw [decide_eq_false hb, Bool.false_and, decide_eq_false (by omega)]

/-- Reverse-carry addition of `b` to `a` over a field of `k` bits. -/
def reverseAdd (k a b : Nat) : Nat := reverse k ((reverse k a + reverse k b) % 2 ^ k)

/-- Adding the top bit of the field in reverse carry adds one to the reversed field. -/
theorem reverseAdd_top (k a : Nat) :
    reverseAdd (k + 1) a (2 ^ k) = reverse (k + 1) ((reverse (k + 1) a + 1) % 2 ^ (k + 1)) := by
  rw [reverseAdd, reverse_two_pow (by omega : k < k + 1), show k + 1 - 1 - k = 0 by omega, Nat.pow_zero]

/-- Bit `m` added in reverse carry over `n` bits carries only into bits `m - 1 … 0`: the low
`m + 1` bits of the sum are the sum over a field of `m + 1` bits. -/
theorem reverseAdd_mod_two_pow {m n : Nat} (hmn : m + 1 ≤ n) (a : Nat) :
    reverseAdd n a (2 ^ m) % 2 ^ (m + 1) = reverseAdd (m + 1) a (2 ^ m) := by
  have hsplit : 2 ^ n = 2 ^ (n - (m + 1)) * 2 ^ (m + 1) := by
    rw [← Nat.pow_add, Nat.sub_add_cancel hmn]
  -- the field sits at the top of the reversal, and the added bit at the bottom of the field
  have hfield : (reverse n a + 2 ^ (n - (m + 1))) % 2 ^ n / 2 ^ (n - (m + 1)) =
      (reverse (m + 1) (a % 2 ^ (m + 1)) + 1) % 2 ^ (m + 1) := by
    rw [hsplit, Nat.mod_mul_right_div_self, Nat.add_div_right _ (Nat.two_pow_pos _), reverse_div_two_pow hmn]
  rw [reverseAdd, reverse_two_pow (by omega : m < n), show n - 1 - m = n - (m + 1) by omega,
    reverse_mod_two_pow hmn, hfield, reverseAdd_top, reverse_mod_self (m + 1) a]

end Xqemu.Bits
