import Xqemu.Dsp.Alu
import Mathlib.Tactic.Ring

/-!
# The fractional multiply of the DSP (dsp_mul56)

`dsp_mul56` multiplies two 24-bit words as signed fractions: it replaces each
operand by its magnitude, flipping the sign flag for each negative one,
multiplies the magnitudes from four 12 × 12-bit partial products whose carries
it passes into the limbs above, shifts the product left once to drop the
second sign bit, and negates it through `dsp_sub56` from zero when the sign
flag is set.

For every pair of 24-bit words and either sign flag the limbs hold
`±2 · sx(s1) · sx(s2)` modulo `2 ^ 56`, `sx` being the 24-bit sign extension,
`-1.0 × -1.0` included.
-/

namespace Xqemu.Dsp

open Xqemu.TwosComplement

/-- `SIGN_PLUS` and `SIGN_MINUS`, the values of the sign flag. -/
def signPlus : Nat := 0
def signMinus : Nat := 1

/-- `uint32_t` multiplication. -/
def mul32 (a b : Nat) : Nat := a * b % 2 ^ 32

/-- The operand step of `dsp_mul56`: a word with bit 23 set is replaced by
`(1<<24) - source` and flips `signe`. -/
def mul56Magnitude (source signe : Nat) : Nat × Nat :=
  if source &&& 1 <<< 23 ≠ 0 then (signe ^^^ 1, sub32 (1 <<< 24) source) else (signe, source)

/-- The carries of `dsp_mul56`: bits 24 and up of `dest[2]` added into
`dest[1]`, then those of `dest[1]` into `dest[0]`. -/
def mul56AddCarries (d1 d2 : Nat) : Limbs56 :=
  let value := (d2 >>> 24) &&& bitmask 8
  let (d1, d2) := if value ≠ 0 then (add32 d1 value, d2 &&& bitmask 24) else (d1, d2)
  let value := (d1 >>> 24) &&& bitmask 8
  let (d0, d1) := if value ≠ 0 then (add32 0 value, d1 &&& bitmask 24) else (0, d1)
  ⟨d0, d1, d2⟩

/-- The product of two magnitudes in `dsp_mul56`: the four partial products
summed into `dest[2]` and `dest[1]`, then the carries. -/
def mul56Product (source1 source2 : Nat) : Limbs56 :=
  -- bits 0-11 * bits 0-11, 12-23 * 0-11, 0-11 * 12-23, 12-23 * 12-23
  let part0 := mul32 (source1 &&& bitmask 12) (source2 &&& bitmask 12)
  let part1 := mul32 ((source1 >>> 12) &&& bitmask 12) (source2 &&& bitmask 12)
  let part2 := mul32 (source1 &&& bitmask 12) ((source2 >>> 12) &&& bitmask 12)
  let part3 := mul32 ((source1 >>> 12) &&& bitmask 12) ((source2 >>> 12) &&& bitmask 12)
  let d2 := add32 (add32 part0 (((part1 &&& bitmask 12) <<< 12) % 2 ^ 32))
    (((part2 &&& bitmask 12) <<< 12) % 2 ^ 32)
  let d1 := add32 (add32 ((part1 >>> 12) &&& bitmask 12) ((part2 >>> 12) &&& bitmask 12)) part3
  mul56AddCarries d1 d2

/-- `dsp_mul56(source1, source2, dest, signe)`: the limbs it leaves in `dest`. -/
def dspMul56 (source1 source2 signe : Nat) : Limbs56 :=
  let (signe, source1) := mul56Magnitude source1 signe
  let (signe, source2) := mul56Magnitude source2 signe
  -- get rid of the extra sign bit
  let dest := (dspAsl56 (mul56Product source1 source2) 1).1
  if signe ≠ 0 then (dspSub56 dest ⟨0, 0, 0⟩).1 else dest

/-! ## The magnitudes -/

theorem and_bit23_ne_zero_iff {s : Nat} (hs : s < 2 ^ 24) : s &&& 1 <<< 23 ≠ 0 ↔ 2 ^ 23 ≤ s := by
  rw [Nat.one_shiftLeft, Nat.and_two_pow, Nat.testBit_eq_decide_div_mod_eq]
  constructor
  · intro h
    by_contra hlt
    rw [Nat.div_eq_of_lt (by omega)] at h
    simp at h
  · intro h
    simp only [ne_eq, mul_eq_zero, Bool.toNat_eq_zero, decide_eq_false_iff_not, not_or,
      Decidable.not_not]
    omega

/-- An operand with bit 23 set becomes `2 ^ 24 - s` and flips the flag. -/
theorem mul56Magnitude_eq {s : Nat} (signe : Nat) (hs : s < 2 ^ 24) :
    mul56Magnitude s signe =
      (if 2 ^ 23 ≤ s then signe ^^^ 1 else signe, if 2 ^ 23 ≤ s then 2 ^ 24 - s else s) := by
  unfold mul56Magnitude
  by_cases hneg : 2 ^ 23 ≤ s
  · rw [if_pos ((and_bit23_ne_zero_iff hs).mpr hneg), if_pos hneg, if_pos hneg]
    simp only [Nat.one_shiftLeft, sub32, Prod.mk.injEq, true_and]
    omega
  · rw [if_neg (fun h => hneg ((and_bit23_ne_zero_iff hs).mp h)), if_neg hneg, if_neg hneg]

/-- The sign extension of a 24-bit word, by its magnitude. -/
theorem toSigned_of_lt {s : Nat} (hs : s < 2 ^ 24) :
    toSigned 23 s = if 2 ^ 23 ≤ s then -((2 ^ 24 - s : Nat) : Int) else s := by
  unfold toSigned
  by_cases hneg : 2 ^ 23 ≤ s
  · rw [if_neg (by omega), if_pos hneg]
    omega
  · rw [if_pos (by omega), if_neg hneg]

/-! ## The product of the magnitudes -/

/-- The partial products of `a = a₁·2¹² + a₀` and `b = b₁·2¹² + b₀` sum to
their product. -/
theorem partial_products (a b : Nat) :
    a * b = a / 2 ^ 12 * (b / 2 ^ 12) * 2 ^ 24 +
      (a / 2 ^ 12 * (b % 2 ^ 12) + a % 2 ^ 12 * (b / 2 ^ 12)) * 2 ^ 12 + a % 2 ^ 12 * (b % 2 ^ 12) := by
  conv_lhs => rw [← Nat.div_add_mod a (2 ^ 12), ← Nat.div_add_mod b (2 ^ 12)]
  ring

theorem mul_lt_of_lt {a b : Nat} (ha : a < 2 ^ 12) (hb : b < 2 ^ 12) : a * b < 2 ^ 24 :=
  calc a * b < 2 ^ 12 * 2 ^ 12 := Nat.mul_lt_mul'' ha hb
    _ = 2 ^ 24 := by norm_num

/-- The carries leave the limbs in range and the value of the two sums. -/
theorem mul56AddCarries_spec (d1 d2 : Nat) (h1 : d1 < 2 ^ 25) (h2 : d2 < 2 ^ 26) :
    (mul56AddCarries d1 d2).InRange ∧ (mul56AddCarries d1 d2).value = d1 * 2 ^ 24 + d2 := by
  unfold mul56AddCarries
  simp only [add32, and_bitmask, Nat.shiftRight_eq_div_pow]
  split_ifs <;> refine ⟨⟨?_, ?_, ?_⟩, ?_⟩ <;> simp only [Limbs56.value] <;> omega

/-- The limbs of the product of two 24-bit magnitudes are in range and hold
their product. -/
theorem mul56Product_spec {a b : Nat} (ha : a < 2 ^ 24) (hb : b < 2 ^ 24) :
    (mul56Product a b).InRange ∧ (mul56Product a b).value = a * b := by
  have hprod := partial_products a b
  have ha1 : a / 2 ^ 12 % 2 ^ 12 = a / 2 ^ 12 := Nat.mod_eq_of_lt (by omega)
  have hb1 : b / 2 ^ 12 % 2 ^ 12 = b / 2 ^ 12 := Nat.mod_eq_of_lt (by omega)
  have h3 := mul_lt_of_lt (a := a / 2 ^ 12) (b := b / 2 ^ 12) (by omega) (by omega)
  have h2 := mul_lt_of_lt (a := a % 2 ^ 12) (b := b / 2 ^ 12) (by omega) (by omega)
  have h1 := mul_lt_of_lt (a := a / 2 ^ 12) (b := b % 2 ^ 12) (by omega) (by omega)
  have h0 := mul_lt_of_lt (a := a % 2 ^ 12) (b := b % 2 ^ 12) (by omega) (by omega)
  -- the sums into `dest[2]` and `dest[1]`, which do not wrap
  set d1 := a / 2 ^ 12 * (b % 2 ^ 12) / 2 ^ 12 + a % 2 ^ 12 * (b / 2 ^ 12) / 2 ^ 12 +
    a / 2 ^ 12 * (b / 2 ^ 12) with hd1
  set d2 := a % 2 ^ 12 * (b % 2 ^ 12) + a / 2 ^ 12 * (b % 2 ^ 12) % 2 ^ 12 * 2 ^ 12 +
    a % 2 ^ 12 * (b / 2 ^ 12) % 2 ^ 12 * 2 ^ 12 with hd2
  have hsum : mul56Product a b = mul56AddCarries d1 d2 := by
    unfold mul56Product
    simp only [mul32, add32, and_bitmask, Nat.shiftRight_eq_div_pow, Nat.shiftLeft_eq, ha1, hb1]
    congr 1 <;> omega
  obtain ⟨hin, hval⟩ := mul56AddCarries_spec d1 d2 (by omega) (by omega)
  rw [hsum]
  refine ⟨hin, ?_⟩
  rw [hval, hprod]
  omega

/-! ## The signed product -/

theorem mul_le_two_pow_46 {a b : Nat} (ha : a ≤ 2 ^ 23) (hb : b ≤ 2 ^ 23) : a * b ≤ 2 ^ 46 :=
  calc a * b ≤ 2 ^ 23 * 2 ^ 23 := Nat.mul_le_mul ha hb
    _ = 2 ^ 46 := by norm_num

/-- The end of `dsp_mul56` on two magnitudes: the doubled product, negated
through `dsp_sub56` from zero when the flag is `SIGN_MINUS`. -/
theorem mul56_shift_negate {m1 m2 signe : Nat} (hm1 : m1 ≤ 2 ^ 23) (hm2 : m2 ≤ 2 ^ 23)
    (hsigne : signe = signPlus ∨ signe = signMinus) :
    let dest := (dspAsl56 (mul56Product m1 m2) 1).1
    let r := if signe ≠ 0 then (dspSub56 dest ⟨0, 0, 0⟩).1 else dest
    r.InRange ∧ (r.value : Int) = ((if signe = signMinus then -1 else 1) * (2 * ((m1 * m2 : Nat) : Int))) % 2 ^ 56 := by
  intro dest r
  obtain ⟨hin, hval⟩ := mul56Product_spec (a := m1) (b := m2) (by omega) (by omega)
  have hX := mul_le_two_pow_46 hm1 hm2
  have hdest : dest = Limbs56.ofValue (m1 * m2 * 2 ^ 1) := by
    simp only [dest, dspAsl56_fst hin, hval]
  have hshift : dest.value = 2 * (m1 * m2) := by
    rw [hdest, Limbs56.value_ofValue]
    omega
  simp only [signPlus, signMinus] at hsigne
  rcases hsigne with rfl | rfl
  · -- SIGN_PLUS: the shifted product as it is
    have hr : r = dest := if_neg (by decide)
    rw [hr, hshift, hdest]
    refine ⟨Limbs56.ofValue_inRange _, ?_⟩
    simp only [signMinus, Nat.zero_ne_one, if_false]
    omega
  · -- SIGN_MINUS: subtracted from zero
    have hr : r = (dspSub56 dest ⟨0, 0, 0⟩).1 := if_pos (by decide)
    have hsub := dspSub56_eq (hdest ▸ Limbs56.ofValue_inRange _ : dest.InRange)
      (⟨by decide, by decide, by decide⟩ : (⟨0, 0, 0⟩ : Limbs56).InRange)
    rw [hr, hsub]
    refine ⟨Limbs56.ofValue_inRange _, ?_⟩
    rw [Limbs56.value_ofValue, hshift]
    simp only [Limbs56.value, signMinus, if_true]
    omega

/-- The flag `dsp_mul56` ends with, times the doubled product of the
magnitudes, is the doubled product of the sign extensions with the sign the
flag started with. -/
theorem mul56_sign {s1 s2 signe : Nat} (h1 : s1 < 2 ^ 24) (h2 : s2 < 2 ^ 24)
    (hsigne : signe = signPlus ∨ signe = signMinus) :
    let f1 := if 2 ^ 23 ≤ s1 then signe ^^^ 1 else signe
    let f2 := if 2 ^ 23 ≤ s2 then f1 ^^^ 1 else f1
    ((if signe = signMinus then -1 else 1) * 2 * toSigned 23 s1 * toSigned 23 s2 : Int) =
      (if f2 = signMinus then -1 else 1) *
        (2 * (((if 2 ^ 23 ≤ s1 then 2 ^ 24 - s1 else s1) *
          (if 2 ^ 23 ≤ s2 then 2 ^ 24 - s2 else s2) : Nat) : Int)) ∧
      (f2 = signPlus ∨ f2 = signMinus) := by
  intro f1 f2
  rw [toSigned_of_lt h1, toSigned_of_lt h2]
  simp only [f1, f2, signPlus, signMinus] at hsigne ⊢
  -- eight cases: the flag and the two operand signs
  rcases hsigne with rfl | rfl <;> by_cases hn1 : 2 ^ 23 ≤ s1 <;> by_cases hn2 : 2 ^ 23 ≤ s2 <;>
    simp only [hn1, hn2, if_true, if_false] <;> push_cast <;> refine ⟨by ring, by decide⟩

/-- `dsp_mul56` on two 24-bit words: the limbs are in range and hold twice the
product of the operands' sign extensions, negated for `SIGN_MINUS`, modulo
`2 ^ 56`, for every pair of operands, `0x800000 × 0x800000` included. -/
theorem dspMul56_spec (s1 s2 signe : Nat) (h1 : s1 < 2 ^ 24) (h2 : s2 < 2 ^ 24)
    (hsigne : signe = signPlus ∨ signe = signMinus) :
    (dspMul56 s1 s2 signe).InRange ∧ ((dspMul56 s1 s2 signe).value : Int) =
      ((if signe = signMinus then -1 else 1) * 2 * toSigned 23 s1 * toSigned 23 s2) % 2 ^ 56 := by
  obtain ⟨hsign, hf⟩ := mul56_sign h1 h2 hsigne
  rw [hsign]
  have hm1 : (if 2 ^ 23 ≤ s1 then 2 ^ 24 - s1 else s1) ≤ 2 ^ 23 := by split_ifs <;> omega
  have hm2 : (if 2 ^ 23 ≤ s2 then 2 ^ 24 - s2 else s2) ≤ 2 ^ 23 := by split_ifs <;> omega
  simp only [dspMul56, mul56Magnitude_eq _ h1, mul56Magnitude_eq _ h2]
  exact mul56_shift_negate hm1 hm2 hf

/-- `-1.0 × -1.0`: the product `2 ^ 47`, a positive fraction just below one
in the accumulator. -/
theorem dspMul56_most_negative :
    ((0x800000 : Nat) < 2 ^ 24 ∧ (0x800000 : Nat) < 2 ^ 24 ∧ (signPlus = signPlus ∨ signPlus = signMinus)) ∧
      (dspMul56 0x800000 0x800000 signPlus).InRange ∧ ((dspMul56 0x800000 0x800000 signPlus).value : Int) =
        ((if signPlus = signMinus then -1 else 1) * 2 * toSigned 23 0x800000 * toSigned 23 0x800000) % 2 ^ 56 :=
  ⟨⟨by decide, by decide, .inl rfl⟩, dspMul56_spec _ _ _ (by decide) (by decide) (.inl rfl)⟩

example : dspMul56 0x800000 0x800000 signPlus = ⟨0, 0x800000, 0⟩ := by decide

end Xqemu.Dsp
