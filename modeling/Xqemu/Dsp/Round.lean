import Xqemu.Dsp.Alu
import Xqemu.Lib.Rounding

/-! # Convergent rounding of an accumulator (dsp_rnd56)

`dsp_rnd56` rounds a 56-bit accumulator at the bit the scaling mode of SR
selects: bit 24 with no scaling, bit 25 when S0 scales down and bit 23 when S1
scales up, S0 taking precedence.  Each mode adds half a step through
`dsp_add56`, truncates by masking limbs, and recognises a tie by the bits the
addition left clear, where it clears the rounding bit as well.

Each branch is shown to compute the limbs of `truncEven p` of the sum, which the
rounding library proves to be round-half-even.
-/

namespace Xqemu.Dsp

open Xqemu.Bits Xqemu.Rounding

def dspSrS0 : Nat := 0x0a
def dspSrS1 : Nat := 0x0b

/-- `dsp_rnd56(dsp, dest)`, given `dsp->registers[DSP_REG_SR]`. -/
def dspRnd56 (sr : Nat) (dest : Limbs56) : Limbs56 :=
  -- Scaling mode S0
  if sr &&& 1 <<< dspSrS0 ≠ 0 then
    let dest := (dspAdd56 ⟨0, 1, 0⟩ dest).1
    let l1 := if dest.l2 = 0 ∧ dest.l1 &&& 1 = 0 then dest.l1 &&& (0xffffff - 0x3) else dest.l1
    ⟨dest.l0, l1 &&& 0xfffffe, 0⟩
  -- Scaling mode S1
  else if sr &&& 1 <<< dspSrS1 ≠ 0 then
    let dest := (dspAdd56 ⟨0, 0, 1 <<< 22⟩ dest).1
    let l2 := if dest.l2 &&& 0x7fffff = 0 then 0 else dest.l2
    ⟨dest.l0, dest.l1, l2 &&& 0x800000⟩
  -- No Scaling
  else
    let dest := (dspAdd56 ⟨0, 0, 1 <<< 23⟩ dest).1
    let l1 := if dest.l2 = 0 then dest.l1 &&& 0xfffffe else dest.l1
    ⟨dest.l0, l1, 0⟩

/-- The bit `dsp_rnd56` rounds at in the scaling mode of `sr`. -/
def rnd56Position (sr : Nat) : Nat :=
  if sr &&& 1 <<< dspSrS0 ≠ 0 then 25 else if sr &&& 1 <<< dspSrS1 ≠ 0 then 23 else 24

/-! ## The masks of the three branches, as contiguous fields -/

theorem and_fffffe (x : Nat) : x &&& 0xfffffe = x / 2 % 2 ^ 23 * 2 :=
  Field.and_mask_eq_mul ⟨1, 23⟩ x

theorem and_fffffc (x : Nat) : x &&& (0xffffff - 0x3) = x / 4 % 2 ^ 22 * 4 :=
  Field.and_mask_eq_mul ⟨2, 22⟩ x

theorem and_7fffff (x : Nat) : x &&& 0x7fffff = x % 2 ^ 23 :=
  and_bitmask x 23

theorem and_800000 (x : Nat) : x &&& 0x800000 = x / 2 ^ 23 % 2 * 2 ^ 23 :=
  Field.and_mask_eq_mul ⟨23, 1⟩ x

/-! ## The three branches -/

section Branches

variable {sr : Nat} {dest : Limbs56}

/-- Scaling mode S0: add `2 ^ 24`, clear bit 24 and below, and bit 25 on a tie. -/
theorem dspRnd56_of_s0 (h0 : sr &&& 1 <<< dspSrS0 ≠ 0) (hd : dest.InRange) :
    dspRnd56 sr dest = Limbs56.ofValue (truncEven 25 (dest.value + 2 ^ 24)) := by
  have hc : Limbs56.InRange ⟨0, 1, 0⟩ := ⟨by decide, by decide, by decide⟩
  unfold dspRnd56
  rw [if_pos h0]
  dsimp only
  rw [dspAdd56_eq hc hd]
  have hcv : (⟨0, 1, 0⟩ : Limbs56).value = 2 ^ 24 := rfl
  simp only [hcv, Limbs56.ofValue, truncEven, Limbs56.mk.injEq, Nat.and_one_is_mod, and_fffffe,
    and_fffffc]
  generalize dest.value + 2 ^ 24 = y
  split_ifs <;> omega

/-- Scaling mode S1: add `2 ^ 22`, clear bit 22 and below, and bit 23 on a tie. -/
theorem dspRnd56_of_s1 (h0 : ¬sr &&& 1 <<< dspSrS0 ≠ 0) (h1 : sr &&& 1 <<< dspSrS1 ≠ 0)
    (hd : dest.InRange) :
    dspRnd56 sr dest = Limbs56.ofValue (truncEven 23 (dest.value + 2 ^ 22)) := by
  have hc : Limbs56.InRange ⟨0, 0, 1 <<< 22⟩ := ⟨by decide, by decide, by decide⟩
  unfold dspRnd56
  rw [if_neg h0, if_pos h1]
  dsimp only
  rw [dspAdd56_eq hc hd]
  have hcv : (⟨0, 0, 1 <<< 22⟩ : Limbs56).value = 2 ^ 22 := rfl
  simp only [hcv, Limbs56.ofValue, truncEven, Limbs56.mk.injEq, and_7fffff, and_800000]
  generalize dest.value + 2 ^ 22 = y
  split_ifs <;> omega

/-- No scaling: add `2 ^ 23`, clear limb `[2]`, and bit 24 on a tie. -/
theorem dspRnd56_of_no_scaling (h0 : ¬sr &&& 1 <<< dspSrS0 ≠ 0) (h1 : ¬sr &&& 1 <<< dspSrS1 ≠ 0)
    (hd : dest.InRange) :
    dspRnd56 sr dest = Limbs56.ofValue (truncEven 24 (dest.value + 2 ^ 23)) := by
  have hc : Limbs56.InRange ⟨0, 0, 1 <<< 23⟩ := ⟨by decide, by decide, by decide⟩
  unfold dspRnd56
  rw [if_neg h0, if_neg h1]
  dsimp only
  rw [dspAdd56_eq hc hd]
  have hcv : (⟨0, 0, 1 <<< 23⟩ : Limbs56).value = 2 ^ 23 := rfl
  simp only [hcv, Limbs56.ofValue, truncEven, Limbs56.mk.injEq, and_fffffe]
  generalize dest.value + 2 ^ 23 = y
  split_ifs <;> omega

/-- All three modes: half a step at the position of the mode added, then
truncated with the tie rule. -/
theorem dspRnd56_eq (hd : dest.InRange) :
    dspRnd56 sr dest =
      Limbs56.ofValue (truncEven (rnd56Position sr) (dest.value + 2 ^ (rnd56Position sr - 1))) := by
  by_cases h0 : sr &&& 1 <<< dspSrS0 ≠ 0
  · rw [dspRnd56_of_s0 h0 hd, rnd56Position, if_pos h0]
  · by_cases h1 : sr &&& 1 <<< dspSrS1 ≠ 0
    · rw [dspRnd56_of_s1 h0 h1 hd, rnd56Position, if_neg h0, if_pos h1]
    · rw [dspRnd56_of_no_scaling h0 h1 hd, rnd56Position, if_neg h0, if_neg h1]

end Branches

theorem rnd56Position_pos (sr : Nat) : 0 < rnd56Position sr := by
  unfold rnd56Position
  split_ifs <;> decide

theorem rnd56Position_le (sr : Nat) : rnd56Position sr ≤ 56 := by
  unfold rnd56Position
  split_ifs <;> decide

/-- `dsp_rnd56` on an accumulator `D` leaves, modulo `2 ^ 56`, the multiple of
`2 ^ p` nearest to `D` at the position `p` of the scaling mode, a tie going to
the multiple whose bit `p` is clear; the bits below `p` of the result are clear. -/
theorem dspRnd56_convergent (sr : Nat) (dest : Limbs56) (hd : dest.InRange) :
    (dspRnd56 sr dest).InRange ∧ 2 ^ rnd56Position sr ∣ (dspRnd56 sr dest).value ∧
      ∃ m, IsRoundHalfEven (rnd56Position sr) dest.value m ∧ (dspRnd56 sr dest).value = m % 2 ^ 56 := by
  have hp := rnd56Position_pos sr
  have hvalue : (dspRnd56 sr dest).value = roundHalfEven (rnd56Position sr) dest.value % 2 ^ 56 := by
    rw [dspRnd56_eq hd, Limbs56.value_ofValue, roundHalfEven_eq_truncEven hp]
  have hspec := roundHalfEven_spec hp dest.value
  have h56 : 2 ^ rnd56Position sr ∣ 2 ^ 56 := Nat.pow_dvd_pow 2 (rnd56Position_le sr)
  refine ⟨dspRnd56_eq hd ▸ Limbs56.ofValue_inRange _, ?_, _, hspec, hvalue⟩
  rw [hvalue]
  exact (Nat.dvd_mod_iff h56).mpr hspec.dvd

/-- A tie in the no-scaling mode: `0x800000` lies halfway between 0 and
`2 ^ 24` and rounds to the even 0. -/
theorem dspRnd56_no_scaling_ties :
    Limbs56.InRange ⟨0, 0, 0x800000⟩ ∧ dspRnd56 0 ⟨0, 0, 0x800000⟩ = ⟨0, 0, 0⟩ ∧
      ((dspRnd56 0 ⟨0, 0, 0x800000⟩).InRange ∧
        2 ^ rnd56Position 0 ∣ (dspRnd56 0 ⟨0, 0, 0x800000⟩).value ∧
        ∃ m, IsRoundHalfEven (rnd56Position 0) (Limbs56.value ⟨0, 0, 0x800000⟩) m ∧
          (dspRnd56 0 ⟨0, 0, 0x800000⟩).value = m % 2 ^ 56) :=
  ⟨⟨by decide, by decide, by decide⟩, by decide,
    dspRnd56_convergent 0 ⟨0, 0, 0x800000⟩ ⟨by decide, by decide, by decide⟩⟩

-- the tie above `2 ^ 24` goes up, to the even `2 ^ 25`
example : dspRnd56 0 ⟨0, 1, 0x800000⟩ = ⟨0, 2, 0⟩ := by decide

end Xqemu.Dsp
