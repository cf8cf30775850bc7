import Mathlib.Data.Nat.Bitwise
import Mathlib.Data.Finset.Card
import Mathlib.Data.Finset.Range
import Xqemu.Lib.Scan

/-!
# Words of `n` bits as sets of bit positions

What bitmap code does with a word `w` of `n` bits, read on its bits: the scan
`firstFrom w.testBit n 0` finds the lowest set bit, `w &&& (w - 1)` clears it,
`x ^^^ (2^n - 1)` complements, a difference of powers of two selects a range of
positions, and the count of set bits is the size of the set they form.
-/

namespace Xqemu.Words

open Xqemu.Scan

variable {n w : Nat}

/-- A word of `n` bits has no bit at `n` or above. -/
theorem testBit_eq_false_of_le (hw : w < 2 ^ n) {b : Nat} (hb : n ≤ b) : w.testBit b = false :=
  Nat.testBit_lt_two_pow (lt_of_lt_of_le hw (Nat.pow_le_pow_right (by omega) hb))

theorem lt_of_testBit (hw : w < 2 ^ n) {b : Nat} (hb : w.testBit b = true) : b < n := by
  by_contra hle
  rw [testBit_eq_false_of_le hw (Nat.le_of_not_lt hle)] at hb
  exact Bool.noConfusion hb

theorem exists_testBit_lt (hw : w ≠ 0) (hlt : w < 2 ^ n) : ∃ b < n, w.testBit b = true := by
  obtain ⟨b, hb⟩ := Nat.exists_testBit_of_ne_zero hw
  exact ⟨b, lt_of_testBit hlt hb, hb⟩

/-! ## The lowest set bit -/

/-- The scan finds the lowest set bit of a nonzero word. -/
theorem isFirst_lowest (hw : w ≠ 0) (hlt : w < 2 ^ n) :
    firstFrom w.testBit n 0 < n ∧ w.testBit (firstFrom w.testBit n 0) = true ∧
      ∀ b < firstFrom w.testBit n 0, w.testBit b = false := by
  have hfirst := firstFrom_isFirst (p := w.testBit) (Nat.zero_le n)
  obtain ⟨b, hbn, hb⟩ := exists_testBit_lt hw hlt
  have hle := firstFrom_le_of_holds (p := w.testBit) (Nat.zero_le b) hbn hb
  have hlow : firstFrom w.testBit n 0 < n := by omega
  exact ⟨hlow, hfirst.holds hlow, fun b' hb' => hfirst.before b' (Nat.zero_le b') hb'⟩

/-- Below its lowest set bit `c` and at `c`, a nonzero word splits as
`2^(c+1) * q + 2^c`. -/
theorem eq_of_lowest {c : Nat} (hc : w.testBit c = true) (hbelow : ∀ b < c, w.testBit b = false) :
    w = 2 ^ (c + 1) * (w / 2 ^ (c + 1)) + 2 ^ c := by
  have hmod : w % 2 ^ (c + 1) = 2 ^ c := by
    apply Nat.eq_of_testBit_eq
    intro b
    rw [Nat.testBit_mod_two_pow, Nat.testBit_two_pow]
    rcases Nat.lt_trichotomy b c with hb | rfl | hb
    · simp [hbelow b hb, Nat.ne_of_gt hb]
    · simp [hc]
    · simp [show ¬b < c + 1 by omega, Nat.ne_of_lt hb]
  conv_lhs => rw [← Nat.div_add_mod w (2 ^ (c + 1)), hmod]

/-- `w &&& (w - 1)` is `w` without its lowest set bit `c`. -/
theorem testBit_and_sub_one {c : Nat} (hc : w.testBit c = true) (hbelow : ∀ b < c, w.testBit b = false)
    (b : Nat) : (w &&& (w - 1)).testBit b = (w.testBit b && decide (b ≠ c)) := by
  have hsplit := eq_of_lowest hc hbelow
  have hpred : w - 1 = 2 ^ (c + 1) * (w / 2 ^ (c + 1)) + (2 ^ c - 1) := by
    have := Nat.one_le_two_pow (n := c)
    omega
  have hlow : 2 ^ c - 1 < 2 ^ (c + 1) := by
    have := Nat.pow_lt_pow_right (a := 2) (by omega) (Nat.lt_succ_self c)
    omega
  rw [Nat.testBit_and, hpred, Nat.testBit_two_pow_mul_add _ hlow, Nat.testBit_two_pow_sub_one]
  rcases Nat.lt_trichotomy b c with hb | rfl | hb
  · simp [hbelow b hb]
  · simp
  · have hw : w.testBit b = (w / 2 ^ (c + 1)).testBit (b - (c + 1)) := by
      rw [Nat.testBit_div_two_pow, Nat.sub_add_cancel hb]
    simp [show ¬b < c + 1 by omega, Nat.ne_of_gt hb, hw]

/-- Clearing the lowest set bit, with the scan that finds it. -/
theorem testBit_and_sub_one_firstFrom (hw : w ≠ 0) (hlt : w < 2 ^ n) (b : Nat) :
    (w &&& (w - 1)).testBit b = (w.testBit b && decide (b ≠ firstFrom w.testBit n 0)) := by
  obtain ⟨-, hc, hbelow⟩ := isFirst_lowest hw hlt
  exact testBit_and_sub_one hc hbelow b

/-- The bits left by `w &&& (w - 1)` are those above the lowest set bit `c`. -/
theorem testBit_and_sub_one_iff {c : Nat} (hc : w.testBit c = true) (hbelow : ∀ b < c, w.testBit b = false)
    (b : Nat) : (w &&& (w - 1)).testBit b = true ↔ w.testBit b = true ∧ c < b := by
  rw [testBit_and_sub_one hc hbelow, Bool.and_eq_true, decide_eq_true_eq]
  constructor
  · rintro ⟨hb, hne⟩
    refine ⟨hb, Nat.lt_of_le_of_ne (Nat.le_of_not_lt fun hlt => ?_) (Ne.symm hne)⟩
    rw [hbelow b hlt] at hb
    exact Bool.noConfusion hb
  · rintro ⟨hb, hlt⟩
    exact ⟨hb, Nat.ne_of_gt hlt⟩

theorem and_sub_one_lt (hlt : w < 2 ^ n) : w &&& (w - 1) < 2 ^ n :=
  lt_of_le_of_lt Nat.and_le_left hlt

/-! ## Masks -/

theorem testBit_one_shiftLeft_sub_one (b j : Nat) : ((1 <<< b) - 1).testBit j = decide (j < b) := by
  rw [Nat.one_shiftLeft, Nat.testBit_two_pow_sub_one]

/-- The complement of a word of `n` bits. -/
theorem testBit_xor_ones {x : Nat} (hx : x < 2 ^ n) (j : Nat) :
    (x ^^^ (2 ^ n - 1)).testBit j = (decide (j < n) && !x.testBit j) := by
  rw [Nat.testBit_xor, Nat.testBit_two_pow_sub_one]
  by_cases hj : j < n
  · simp [hj]
  · simp [hj, testBit_eq_false_of_le hx (Nat.le_of_not_lt hj)]

theorem xor_ones_lt {x : Nat} (hx : x < 2 ^ n) : x ^^^ (2 ^ n - 1) < 2 ^ n := by
  apply Nat.lt_pow_two_of_testBit
  intro j hj
  rw [testBit_xor_ones hx]
  simp [Nat.not_lt.mpr hj]

/-- The complement of a word of `n` bits is its distance to all ones. -/
theorem xor_ones_eq_sub {x : Nat} (hx : x < 2 ^ n) : x ^^^ (2 ^ n - 1) = 2 ^ n - 1 - x := by
  have h := BitVec.toNat_not (x := BitVec.ofNat n x)
  rw [← BitVec.xor_allOnes, BitVec.toNat_xor, BitVec.toNat_allOnes, BitVec.toNat_ofNat,
    Nat.mod_eq_of_lt hx] at h
  exact h

/-- `2^(l+1) - 2^s`, taken modulo `2^n`, holds the positions `s` to `l`. -/
theorem testBit_range_mask {s l : Nat} (hsl : s ≤ l) (hl : l < n) (j : Nat) :
    ((2 ^ (l + 1) % 2 ^ n + 2 ^ n - 2 ^ s) % 2 ^ n).testBit j = decide (s ≤ j ∧ j ≤ l) := by
  have hs : 2 ^ s ≤ 2 ^ (l + 1) := Nat.pow_le_pow_right (by omega) (by omega)
  have hmask : (2 ^ (l + 1) % 2 ^ n + 2 ^ n - 2 ^ s) % 2 ^ n = 2 ^ (l + 1) - 2 ^ s := by
    have hsn : 2 ^ s < 2 ^ n := Nat.pow_lt_pow_right (by omega) (by omega)
    rcases Nat.lt_or_ge (l + 1) n with hl' | hl'
    · have hlt : 2 ^ (l + 1) < 2 ^ n := Nat.pow_lt_pow_right (by omega) hl'
      rw [Nat.mod_eq_of_lt hlt]
      generalize 2 ^ (l + 1) = A at hs hlt ⊢
      generalize 2 ^ s = S at hs hsn ⊢
      generalize 2 ^ n = N at hsn hlt ⊢
      rw [show A + N - S = (A - S) + N by omega, Nat.add_mod_right, Nat.mod_eq_of_lt (by omega)]
    · have hn : n = l + 1 := by omega
      subst hn
      have := Nat.two_pow_pos s
      rw [Nat.mod_self, Nat.zero_add, Nat.mod_eq_of_lt (by omega)]
  have hdiff : 2 ^ (l + 1) - 2 ^ s = 2 ^ s * (2 ^ (l + 1 - s) - 1) := by
    rw [Nat.mul_sub, Nat.mul_one, ← Nat.pow_add, Nat.add_sub_cancel' (by omega)]
  rw [hmask, hdiff, Nat.testBit_two_pow_mul, Nat.testBit_two_pow_sub_one]
  by_cases hj : s ≤ j
  · simp only [hj, decide_true, Bool.true_and, true_and, decide_eq_decide]
    omega
  · simp [hj]

/-! ## Counting set bits -/

/-- The number of set bits of `w` below `n`. -/
theorem countP_range_testBit (w n : Nat) :
    (List.range n).countP w.testBit = ((Finset.range n).filter fun b => w.testBit b = true).card := by
  induction n with
  | zero => simp
  | succ n ih =>
    rw [List.range_succ, List.countP_append, ih, Finset.range_add_one, Finset.filter_insert]
    by_cases hb : w.testBit n
    · rw [if_pos hb, Finset.card_insert_of_notMem (by simp)]
      simp [hb]
    · simp [hb]

end Xqemu.Words
