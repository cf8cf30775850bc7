import Xqemu.Dsp.Alu

/-! # The 56-bit shifts of the DSP (dsp_asr56, and the bits of dsp_asl56)

Both shifts repack the three limbs into a `uint64_t`.  That word holds the
accumulator zero-extended, not sign-extended, so `dsp_asr56` shifts zeros in
at bit 55: on a negative accumulator it is a logical shift, and its result
reads as a non-negative value.

`dsp_asl56` computes V by comparing bit 55 before and after the whole shift,
and L from whether any of the bits shifted out is set; neither is the signed
overflow of a shift by more than one bit, and L is also set by shifting a
negative accumulator that does not overflow.
-/

namespace Xqemu.Dsp

open Xqemu.TwosComplement

/-- `dsp_asr56(dest, n)`: the limbs of `dest_v >> n` and the bit C.  For
`n = 0` the carry is read with a shift count of -1, which C leaves undefined;
the count is taken modulo 64, as the x86 shift instructions take it. -/
def dspAsr56 (dest : Limbs56) (n : Nat) : Limbs56 × Nat :=
  let destV := dest.l2 ||| (dest.l1 <<< 24) % 2 ^ 64 ||| (dest.l0 <<< 48) % 2 ^ 64
  let carry := (destV >>> (((n : Int) - 1) % 64).toNat) &&& 1
  let destV := destV >>> n
  (⟨(destV >>> 48) &&& bitmask 8, (destV >>> 24) &&& bitmask 24, destV &&& bitmask 24⟩,
    carry <<< dspSrC)

section Shifts

variable {dest : Limbs56}

/-- `dsp_asr56` on in-range limbs divides their unsigned value. -/
theorem dspAsr56_fst (hd : dest.InRange) (n : Nat) :
    (dspAsr56 dest n).1 = Limbs56.ofValue (dest.value / 2 ^ n) := by
  simp only [dspAsr56, asl56_word hd, and_bitmask, Nat.shiftRight_eq_div_pow, Limbs56.ofValue]

/-- Its C bit is bit `n - 1` of the value, and clear for `n = 0`. -/
theorem dspAsr56_snd (hd : dest.InRange) {n : Nat} (hn : n ≤ 64) :
    (dspAsr56 dest n).2 = if n = 0 then 0 else dest.value / 2 ^ (n - 1) % 2 := by
  have hv := Limbs56.value_lt hd
  simp only [dspAsr56, asl56_word hd, Nat.shiftRight_eq_div_pow, Nat.and_one_is_mod]
  rw [dspSrC, Nat.shiftLeft_zero]
  split_ifs with h0
  · -- the count wraps to 63, above every bit of the value
    have hcount : (((n : Int) - 1) % 64).toNat = 63 := by omega
    rw [hcount, Nat.div_eq_of_lt (Nat.lt_of_lt_of_le hv (Nat.pow_le_pow_right (by decide) (by decide)))]
  · have hcount : (((n : Int) - 1) % 64).toNat = n - 1 := by omega
    rw [hcount]

/-- The bits `dsp_asl56` returns for a shift by `n ≤ 56`: C is bit `56 - n` of
the value, V compares bit 55 before and after the shift, and L says that one of
the top `n` bits was set. -/
theorem dspAsl56_snd (hd : dest.InRange) (n : Nat) :
    (dspAsl56 dest n).2 =
      ccrBits (decide (dest.value / 2 ^ (56 - n) ≠ 0)).toNat
        (decide (signBit 55 dest.value ≠ signBit 55 (dest.value * 2 ^ n % 2 ^ 56))).toNat
        (dest.value / 2 ^ (56 - n) % 2) := by
  have hv := Limbs56.value_lt hd
  simp only [dspAsl56, asl56_word hd]
  simp only [Nat.shiftRight_eq_div_pow, Nat.shiftLeft_eq, Nat.and_one_is_mod]
  have hbefore : dest.value / 2 ^ 55 % 2 = (signBit 55 dest.value).toNat := by
    unfold signBit
    by_cases h : 2 ^ 55 ≤ dest.value <;>
      simp only [h, decide_true, decide_false, Bool.toNat_true, Bool.toNat_false] <;> omega
  have hafter : dest.value * 2 ^ n % 2 ^ 64 / 2 ^ 55 % 2 =
      (signBit 55 (dest.value * 2 ^ n % 2 ^ 56)).toNat := by
    unfold signBit
    generalize dest.value * 2 ^ n = z
    by_cases h : 2 ^ 55 ≤ z % 2 ^ 56 <;>
      simp only [h, decide_true, decide_false, Bool.toNat_true, Bool.toNat_false] <;> omega
  rw [hbefore, hafter]
  congr 1
  · by_cases h : dest.value / 2 ^ (56 - n) = 0 <;> simp [h]
  · cases signBit 55 dest.value <;> cases signBit 55 (dest.value * 2 ^ n % 2 ^ 56) <;> decide

end Shifts

-- `-1 << 1` does not overflow, yet L is set beside C
example : (dspAsl56 ⟨0xff, 0xffffff, 0xffffff⟩ 1).2 = ccrBits 1 0 1 := by decide

-- `-3 * 2 ^ 53` shifted by two overflows, and V stays clear: bit 53 equals bit 55
example : (dspAsl56 ⟨0xa0, 0, 0⟩ 2).2 = ccrBits 1 0 0 := by decide

/-- `dsp_asr56` is not an arithmetic shift: on a negative accumulator and a
count of at least one it shifts zeros in at bit 55, so the result is the
unsigned quotient and reads as non-negative, while the floor of the signed
value by `2 ^ n` is negative. -/
theorem dspAsr56_shifts_in_zeros (dest : Limbs56) (n : Nat) (hd : dest.InRange) (hn : 0 < n)
    (hneg : toSigned 55 dest.value < 0) :
    (dspAsr56 dest n).1 = Limbs56.ofValue (dest.value / 2 ^ n) ∧
      0 ≤ toSigned 55 (dspAsr56 dest n).1.value ∧ toSigned 55 dest.value / 2 ^ n < 0 := by
  have hv := Limbs56.value_lt hd
  have h2 : 2 ^ 1 ≤ 2 ^ n := Nat.pow_le_pow_right (by decide) hn
  have hsmall : dest.value / 2 ^ n < 2 ^ 55 := Nat.div_lt_of_lt_mul (by omega)
  refine ⟨dspAsr56_fst hd n, ?_, Int.ediv_neg_of_neg_of_pos hneg
    (by exact_mod_cast Nat.two_pow_pos n)⟩
  rw [dspAsr56_fst hd n, Limbs56.value_ofValue, Nat.mod_eq_of_lt (by omega)]
  unfold toSigned
  rw [if_pos hsmall]
  exact Int.natCast_nonneg _

/-- The most negative accumulator shifted right by one: `0x80:000000:000000`
becomes `0x40:000000:000000`, where the arithmetic shift gives `0xc0:…`. -/
theorem dspAsr56_most_negative :
    dspAsr56 ⟨0x80, 0, 0⟩ 1 = (⟨0x40, 0, 0⟩, 0) ∧
      ((dspAsr56 ⟨0x80, 0, 0⟩ 1).1 = Limbs56.ofValue ((⟨0x80, 0, 0⟩ : Limbs56).value / 2 ^ 1) ∧
        0 ≤ toSigned 55 (dspAsr56 ⟨0x80, 0, 0⟩ 1).1.value ∧
        toSigned 55 (⟨0x80, 0, 0⟩ : Limbs56).value / 2 ^ 1 < 0) :=
  ⟨by decide, dspAsr56_shifts_in_zeros ⟨0x80, 0, 0⟩ 1 ⟨by decide, by decide, by decide⟩ (by decide)
    (by decide)⟩

end Xqemu.Dsp
