import Mathlib.Data.Int.Basic
import Mathlib.Algebra.Group.Nat.Defs
import Mathlib.Algebra.Group.Int.Defs

/-!
# Two's complement words

A word of `w + 1` bits read as a signed number, its sign bit, and the signed
overflow of an addition or subtraction of two words.  Overflow is defined by
the signed values and then characterised by sign bits, the test an ALU makes.
-/

namespace Xqemu.TwosComplement

/-- The signed value of a word of `w + 1` bits. -/
def toSigned (w v : Nat) : Int :=
  if v < 2 ^ w then (v : Int) else (v : Int) - 2 ^ (w + 1)

/-- The sign bit of a word of `w + 1` bits. -/
def signBit (w v : Nat) : Bool := decide (2 ^ w ≤ v)

/-- The signed sum of two words does not fit in a word. -/
def AddOverflows (w a b : Nat) : Prop :=
  ¬(-(2 ^ w : Int) ≤ toSigned w a + toSigned w b ∧ toSigned w a + toSigned w b < 2 ^ w)

/-- The signed difference of two words does not fit in a word. -/
def SubOverflows (w a b : Nat) : Prop :=
  ¬(-(2 ^ w : Int) ≤ toSigned w a - toSigned w b ∧ toSigned w a - toSigned w b < 2 ^ w)

instance (w a b : Nat) : Decidable (AddOverflows w a b) :=
  inferInstanceAs (Decidable (¬_))

instance (w a b : Nat) : Decidable (SubOverflows w a b) :=
  inferInstanceAs (Decidable (¬_))

variable {w a b : Nat}

theorem toSigned_of_lt (h : a < 2 ^ w) : toSigned w a = a := if_pos h

theorem toSigned_of_le (h : 2 ^ w ≤ a) : toSigned w a = a - 2 ^ (w + 1) := if_neg (Nat.not_lt.mpr h)

theorem two_pow_succ_eq (w : Nat) : 2 ^ (w + 1) = 2 * 2 ^ w := by
  rw [Nat.pow_succ, Nat.mul_comm]

/-- The word sizes as integers, in the form `omega` reads. -/
theorem int_two_pow (w : Nat) :
    ((2 ^ w : Nat) : Int) = 2 ^ w ∧ (2 : Int) ^ (w + 1) = 2 * 2 ^ w := by
  refine ⟨by norm_cast, ?_⟩
  rw [Int.pow_succ, Int.mul_comm]

/-- A sum of two words, reduced modulo the word size. -/
theorem add_mod_eq (ha : a < 2 ^ (w + 1)) (hb : b < 2 ^ (w + 1)) :
    ((a + b) % 2 ^ (w + 1) : Nat) = if a + b < 2 ^ (w + 1) then a + b else a + b - 2 ^ (w + 1) := by
  split_ifs with h
  · exact Nat.mod_eq_of_lt h
  · rw [Nat.mod_eq_sub_mod (Nat.le_of_not_lt h), Nat.mod_eq_of_lt (by omega)]

/-- One less than a nonzero word, taken modulo the word size: `x - 1` does not wrap. -/
theorem add_two_pow_sub_one_mod {n x : Nat} (h0 : 0 < x) (h : x ≤ 2 ^ n) :
    (x + 2 ^ n - 1) % 2 ^ n = x - 1 := by
  rw [show x + 2 ^ n - 1 = x - 1 + 2 ^ n by omega, Nat.add_mod_right, Nat.mod_eq_of_lt (by omega)]

/-- A difference of two words, taken modulo the word size. -/
theorem sub_mod_eq (ha : a < 2 ^ (w + 1)) (hb : b < 2 ^ (w + 1)) :
    ((a + 2 ^ (w + 1) - b) % 2 ^ (w + 1) : Nat) = if b ≤ a then a - b else a + 2 ^ (w + 1) - b := by
  split_ifs with h
  · rw [Nat.mod_eq_sub_mod (by omega), Nat.mod_eq_of_lt (by omega)]
    omega
  · exact Nat.mod_eq_of_lt (by omega)

/-- Signed overflow of a sum is the sum of two words of one sign having the
other sign. -/
theorem addOverflows_iff (ha : a < 2 ^ (w + 1)) (hb : b < 2 ^ (w + 1)) :
    AddOverflows w a b ↔
      signBit w a = signBit w b ∧ signBit w ((a + b) % 2 ^ (w + 1)) ≠ signBit w a := by
  have hP := two_pow_succ_eq w
  obtain ⟨hc, hI⟩ := int_two_pow w
  rw [add_mod_eq ha hb]
  unfold AddOverflows toSigned signBit
  split_ifs <;> simp only [decide_eq_decide, ne_eq] <;> omega

/-- Signed overflow of a difference is a difference of words of two signs
having the sign of the subtrahend. -/
theorem subOverflows_iff (ha : a < 2 ^ (w + 1)) (hb : b < 2 ^ (w + 1)) :
    SubOverflows w a b ↔
      signBit w a ≠ signBit w b ∧ signBit w ((a + 2 ^ (w + 1) - b) % 2 ^ (w + 1)) ≠ signBit w a := by
  have hP := two_pow_succ_eq w
  obtain ⟨hc, hI⟩ := int_two_pow w
  rw [sub_mod_eq ha hb]
  unfold SubOverflows toSigned signBit
  split_ifs <;> simp only [decide_eq_decide, ne_eq] <;> omega

/-- Without overflow, the word of a sum has the signed value of the sum. -/
theorem toSigned_add (ha : a < 2 ^ (w + 1)) (hb : b < 2 ^ (w + 1)) (h : ¬AddOverflows w a b) :
    toSigned w ((a + b) % 2 ^ (w + 1)) = toSigned w a + toSigned w b := by
  have hP := two_pow_succ_eq w
  obtain ⟨hc, hI⟩ := int_two_pow w
  rw [add_mod_eq ha hb]
  unfold AddOverflows toSigned at *
  split_ifs at * <;> omega

/-- Without overflow, the word of a difference has the signed value of the
difference. -/
theorem toSigned_sub (ha : a < 2 ^ (w + 1)) (hb : b < 2 ^ (w + 1)) (h : ¬SubOverflows w a b) :
    toSigned w ((a + 2 ^ (w + 1) - b) % 2 ^ (w + 1)) = toSigned w a - toSigned w b := by
  have hP := two_pow_succ_eq w
  obtain ⟨hc, hI⟩ := int_two_pow w
  rw [sub_mod_eq ha hb]
  unfold SubOverflows toSigned at *
  split_ifs at * <;> omega

theorem toSigned_lt (ha : a < 2 ^ (w + 1)) : toSigned w a < 2 ^ w := by
  have hP := two_pow_succ_eq w
  obtain ⟨hc, hI⟩ := int_two_pow w
  unfold toSigned
  split_ifs <;> omega

theorem neg_le_toSigned (ha : a < 2 ^ (w + 1)) : -(2 ^ w : Int) ≤ toSigned w a := by
  have hP := two_pow_succ_eq w
  obtain ⟨hc, hI⟩ := int_two_pow w
  unfold toSigned
  split_ifs <;> omega

/-- The sign bit says whether the signed value is negative. -/
theorem signBit_eq_false_iff (ha : a < 2 ^ (w + 1)) : signBit w a = false ↔ 0 ≤ toSigned w a := by
  have hP := two_pow_succ_eq w
  obtain ⟨hc, hI⟩ := int_two_pow w
  unfold signBit toSigned
  split_ifs <;> simp only [decide_eq_false_iff_not] <;> omega

theorem toSigned_neg_iff (ha : a < 2 ^ (w + 1)) : toSigned w a < 0 ↔ 2 ^ w ≤ a := by
  rw [← Int.not_le, ← signBit_eq_false_iff ha, signBit]
  simp

end Xqemu.TwosComplement
