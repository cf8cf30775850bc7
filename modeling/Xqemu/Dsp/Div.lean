import Xqemu.Dsp.Alu
import Xqemu.Lib.NonRestoring
import Mathlib.Tactic.Ring

/-!
# DIV (emu_div)

`DIV S,D` is one step of non-restoring division on the register file
`dsp->registers`.  The accumulator D is shifted left by `dsp_asl56`; the source
register S, sign-extended and aligned at bits 47..24, is added by `dsp_add56`
when D and S differ in sign and subtracted by `dsp_sub56` otherwise; the carry
of the previous step is OR-ed into bit 0, and C becomes the complement of the
new sign.

Twenty-four steps on a positive divisor `S < 2 ^ 23` and a dividend `A1:A0`
with `A1 < S` leave the quotient in A0 (its upper bits) and C (its lowest
bit).  One step is read on the value of A (`readA_emuDiv`); the invariant of
`NonRestoring` goes through it (`DivProgress.step`) and through a whole run
(`DivProgress.run`).
-/

namespace Xqemu.Dsp

open Xqemu.TwosComplement Xqemu.NonRestoring

/-! ## The register file (DSP_REG_* of dsp_cpu.h) -/

def dspRegX0 : Nat := 0x04
def dspRegX1 : Nat := 0x05
def dspRegY0 : Nat := 0x06
def dspRegY1 : Nat := 0x07
def dspRegA0 : Nat := 0x08
def dspRegB0 : Nat := 0x09
def dspRegA2 : Nat := 0x0a
def dspRegB2 : Nat := 0x0b
def dspRegA1 : Nat := 0x0c
def dspRegB1 : Nat := 0x0d
def dspRegA : Nat := 0x0e
def dspRegSr : Nat := 0x39

/-- The source register of `DIV`, from bits 5..4 of the instruction. -/
def divSrcReg (curInst : Nat) : Nat :=
  match (curInst >>> 4) &&& bitmask 2 with
  | 0 => dspRegX0
  | 1 => dspRegY0
  | 2 => dspRegX1
  | _ => dspRegY1

/-- The limbs `dest[0]`, `dest[1]`, `dest[2]` of accumulator A: A2, A1, A0. -/
def readA (regs : Nat → Nat) : Limbs56 := ⟨regs dspRegA2, regs dspRegA1, regs dspRegA0⟩

/-- The limbs of accumulator B. -/
def readB (regs : Nat → Nat) : Limbs56 := ⟨regs dspRegB2, regs dspRegB1, regs dspRegB0⟩

/-- Writing the limbs back into A2, A1, A0. -/
def writeA (regs : Nat → Nat) (dest : Limbs56) : Nat → Nat :=
  Function.update (Function.update (Function.update regs dspRegA2 dest.l0) dspRegA1 dest.l1)
    dspRegA0 dest.l2

/-- Writing the limbs back into B2, B1, B0. -/
def writeB (regs : Nat → Nat) (dest : Limbs56) : Nat → Nat :=
  Function.update (Function.update (Function.update regs dspRegB2 dest.l0) dspRegB1 dest.l1)
    dspRegB0 dest.l2

/-- The limbs `emu_div` computes for D, and the flags of its shift. -/
def divDest (curInst : Nat) (regs : Nat → Nat) : Limbs56 × Nat :=
  let s1 := regs (divSrcReg curInst)
  let source : Limbs56 := ⟨if s1 &&& 1 <<< 23 ≠ 0 then 0xff else 0, s1, 0⟩
  let destreg := dspRegA + ((curInst >>> 3) &&& 1)
  let dest := if destreg = dspRegA then readA regs else readB regs
  -- both branches shift first and keep the flags of the shift
  let shifted := dspAsl56 dest 1
  let dest :=
    if ((dest.l0 >>> 7) &&& 1) ^^^ ((source.l1 >>> 23) &&& 1) ≠ 0 then (dspAdd56 source shifted.1).1
    else (dspSub56 source shifted.1).1
  ({ dest with l2 := dest.l2 ||| ((regs dspRegSr >>> dspSrC) &&& 1) }, shifted.2)

/-- `emu_div`: one step of `DIV S,D` on the register file. -/
def emuDiv (curInst : Nat) (regs : Nat → Nat) : Nat → Nat :=
  let destreg := dspRegA + ((curInst >>> 3) &&& 1)
  let dest := (divDest curInst regs).1
  let newsr := (divDest curInst regs).2
  let regs := if destreg = dspRegA then writeA regs dest else writeB regs dest
  let sr := regs dspRegSr &&& (bitmask 16 - ((1 <<< dspSrC) ||| (1 <<< dspSrV)))
  let sr := sr ||| ((1 - ((dest.l0 >>> 7) &&& 1)) <<< dspSrC)
  let sr := sr ||| (newsr &&& 1 <<< dspSrL)
  let sr := sr ||| (newsr &&& 1 <<< dspSrV)
  Function.update regs dspRegSr sr

/-- The value of A after one step with a divisor `S < 2 ^ 23` and old carry
`c`: twice A, plus the divisor at bits 47..24 if A was negative and minus it
if not, and the carry at bit 0. -/
def divStepValue (S V c : Nat) : Nat :=
  (if signBit 55 V then (V * 2 % 2 ^ 56 + S * 2 ^ 24) % 2 ^ 56
    else (V * 2 % 2 ^ 56 + 2 ^ 56 - S * 2 ^ 24) % 2 ^ 56) + c

/-! ## One step -/

theorem divSrcReg_bounds (curInst : Nat) : 4 ≤ divSrcReg curInst ∧ divSrcReg curInst ≤ 7 := by
  unfold divSrcReg
  split <;> decide

theorem and_two_pow_of_lt {x i : Nat} (h : x < 2 ^ i) : x &&& 2 ^ i = 0 := by
  apply Nat.eq_of_testBit_eq
  intro j
  rw [Nat.testBit_and, Nat.testBit_two_pow, Nat.zero_testBit]
  by_cases hj : i = j
  · subst hj
    rw [Nat.testBit_lt_two_pow h, Bool.false_and]
  · simp [hj]

theorem readA_writeA (regs : Nat → Nat) (dest : Limbs56) : readA (writeA regs dest) = dest := by
  simp [readA, writeA, dspRegA0, dspRegA1, dspRegA2]

theorem writeA_of_ne {r : Nat} (h2 : r ≠ dspRegA2) (h1 : r ≠ dspRegA1) (h0 : r ≠ dspRegA0)
    (regs : Nat → Nat) (dest : Limbs56) : writeA regs dest r = regs r := by
  simp [writeA, h2, h1, h0]

theorem writeB_of_ne {r : Nat} (h2 : r ≠ dspRegB2) (h1 : r ≠ dspRegB1) (h0 : r ≠ dspRegB0)
    (regs : Nat → Nat) (dest : Limbs56) : writeB regs dest r = regs r := by
  simp [writeB, h2, h1, h0]

theorem readA_update_sr (regs : Nat → Nat) (x : Nat) :
    readA (Function.update regs dspRegSr x) = readA regs := by
  simp [readA, dspRegA0, dspRegA1, dspRegA2, dspRegSr]

theorem emuDiv_srcReg (curInst : Nat) (regs : Nat → Nat) :
    emuDiv curInst regs (divSrcReg curInst) = regs (divSrcReg curInst) := by
  have hb := divSrcReg_bounds curInst
  have hsr : divSrcReg curInst ≠ dspRegSr := by unfold dspRegSr; omega
  simp only [emuDiv, Function.update_apply, hsr, if_false]
  by_cases hd : dspRegA + ((curInst >>> 3) &&& 1) = dspRegA
  · simp only [hd, if_true]
    exact writeA_of_ne (by unfold dspRegA2; omega) (by unfold dspRegA1; omega)
      (by unfold dspRegA0; omega) _ _
  · simp only [hd, if_false]
    exact writeB_of_ne (by unfold dspRegB2; omega) (by unfold dspRegB1; omega)
      (by unfold dspRegB0; omega) _ _

/-- OR-ing a bit into an even word adds it. -/
theorem or_eq_add_of_even {x c : Nat} (hx : x % 2 = 0) (hc : c < 2) : x ||| c = x + c := by
  have h := Nat.two_pow_add_eq_or_of_lt (i := 1) (by omega : c < 2 ^ 1) (x / 2)
  rw [Nat.pow_one] at h
  rw [show x = 2 * (x / 2) by omega, ← h]

/-- The carry is OR-ed into the limbs of an even value. -/
theorem ofValue_or_carry {w c : Nat} (hw : w % 2 = 0) (hc : c < 2) :
    { Limbs56.ofValue w with l2 := (Limbs56.ofValue w).l2 ||| c } = Limbs56.ofValue (w % 2 ^ 56 + c) := by
  simp only [Limbs56.ofValue, Limbs56.mk.injEq]
  rw [or_eq_add_of_even (by omega) hc]
  omega

theorem divStepValue_lt {S V c : Nat} (hc : c < 2) : divStepValue S V c < 2 ^ 56 := by
  unfold divStepValue
  split_ifs <;> omega

section Step

variable {curInst : Nat} {regs : Nat → Nat}

/-- The new limbs of A, on its value. -/
theorem divDest_fst (hA : (curInst >>> 3) &&& 1 = 0) (hin : (readA regs).InRange)
    (hS : regs (divSrcReg curInst) < 2 ^ 23) :
    (divDest curInst regs).1 = Limbs56.ofValue (divStepValue (regs (divSrcReg curInst))
      (readA regs).value ((regs dspRegSr >>> dspSrC) &&& 1)) := by
  have hdest : dspRegA + ((curInst >>> 3) &&& 1) = dspRegA := by rw [hA]; rfl
  have hsource : regs (divSrcReg curInst) &&& 1 <<< 23 = 0 := by
    rw [Nat.one_shiftLeft, and_two_pow_of_lt hS]
  have hc2 : (regs dspRegSr >>> dspSrC) &&& 1 < 2 := by
    rw [shiftRight_and_one]
    omega
  have hsign : (regs (divSrcReg curInst) >>> 23) &&& 1 = 0 := by
    rw [shiftRight_and_one]
    omega
  have hsrc : (⟨0, regs (divSrcReg curInst), 0⟩ : Limbs56).InRange := by
    constructor <;> dsimp only <;> omega
  have hsrcValue : (⟨0, regs (divSrcReg curInst), 0⟩ : Limbs56).value =
      regs (divSrcReg curInst) * 2 ^ 24 := by
    simp only [Limbs56.value]
    omega
  simp only [divDest, hdest, if_true, hsource, ne_eq,
    not_true_eq_false, if_false, dspAsl56_fst hin, Limbs56.sign_l0 hin, hsign, Nat.xor_zero]
  -- D and S differ in sign exactly when D is negative, since S is positive
  by_cases hneg : signBit 55 (readA regs).value = true
  · rw [if_pos (by simp [hneg]), dspAdd56_eq hsrc (Limbs56.ofValue_inRange _), hsrcValue,
      Limbs56.value_ofValue, ofValue_or_carry (by omega) hc2]
    unfold divStepValue
    rw [if_pos hneg, Nat.pow_one]
  · rw [if_neg (by simp [hneg]), dspSub56_eq hsrc (Limbs56.ofValue_inRange _), hsrcValue,
      Limbs56.value_ofValue, ofValue_or_carry (by omega) hc2]
    unfold divStepValue
    rw [if_neg hneg, Nat.pow_one]

theorem readA_emuDiv (hA : (curInst >>> 3) &&& 1 = 0) :
    readA (emuDiv curInst regs) = (divDest curInst regs).1 := by
  have hdest : dspRegA + ((curInst >>> 3) &&& 1) = dspRegA := by rw [hA]; rfl
  simp only [emuDiv, hdest, if_true, readA_update_sr, readA_writeA]

/-- C after a step is the complement of the sign of the new D. -/
theorem emuDiv_carry (hA : (curInst >>> 3) &&& 1 = 0) :
    (emuDiv curInst regs dspRegSr >>> dspSrC) &&& 1 = 1 - (((divDest curInst regs).1.l0 >>> 7) &&& 1) := by
  have hdest : dspRegA + ((curInst >>> 3) &&& 1) = dspRegA := by rw [hA]; rfl
  -- only the complemented sign reaches bit 0 of SR
  have hmask : (bitmask 16 - (1 ||| 1 <<< 1)) &&& 1 = 0 := by decide
  have hl : (1 <<< 6) &&& 1 = 0 := by decide
  have hv : (1 <<< 1) &&& 1 = 0 := by decide
  simp only [emuDiv, hdest, if_true, Function.update_self, dspSrC, dspSrL, dspSrV,
    Nat.shiftRight_zero, Nat.shiftLeft_zero, Nat.and_or_distrib_right, Nat.and_assoc, hmask, hl, hv,
    Nat.and_zero, Nat.zero_or, Nat.or_zero]
  rw [Nat.and_one_is_mod, Nat.and_one_is_mod]
  omega

end Step

/-! ## The value of A, read as signed -/

section Signed

variable {S V c L : Nat} {R : Int}

/-- A written as a partial remainder `R` over bit 24 and a low part `L`
has the sign of `R`. -/
theorem signBit_eq_of_toSigned (hL : L < 2 ^ 24) (hV : V < 2 ^ 56)
    (h : toSigned 55 V = R * 2 ^ 24 + L) : signBit 55 V = decide (R < 0) := by
  unfold toSigned at h
  unfold signBit
  by_cases hR : R < 0
  · rw [decide_eq_true hR, decide_eq_true_iff]
    split_ifs at h <;> omega
  · rw [decide_eq_false hR, decide_eq_false_iff_not]
    split_ifs at h <;> omega

/-- One step on the signed reading: the partial remainder takes a step of
non-restoring division with the top bit of the low part, and the low part
shifts left and takes the carry. -/
theorem toSigned_divStepValue (hS : S < 2 ^ 23) (hR : -(S : Int) ≤ R ∧ R < S) (hL : L < 2 ^ 24)
    (hc : c < 2) (hV : V < 2 ^ 56) (h : toSigned 55 V = R * 2 ^ 24 + L) :
    toSigned 55 (divStepValue S V c) = step S R (L / 2 ^ 23) * 2 ^ 24 + ((L * 2 % 2 ^ 24 + c : Nat) : Int) := by
  have hsign := signBit_eq_of_toSigned hL hV h
  unfold divStepValue NonRestoring.step
  rw [hsign]
  unfold toSigned at h ⊢
  by_cases hR0 : R < 0
  · rw [decide_eq_true hR0, if_pos rfl, if_pos hR0]
    split_ifs at h ⊢ <;> omega
  · rw [decide_eq_false hR0, if_neg Bool.false_ne_true, if_neg hR0]
    split_ifs at h ⊢ <;> omega

end Signed

/-! ## A whole division -/

/-- A multiple of `2 ^ j` below `2 ^ w` leaves room for `2 ^ j` more. -/
theorem mul_two_pow_mod_add_le (x : Nat) {j w : Nat} (h : j ≤ w) :
    x * 2 ^ j % 2 ^ w + 2 ^ j ≤ 2 ^ w := by
  obtain ⟨m, rfl⟩ : ∃ m, w = j + m := ⟨w - j, by omega⟩
  rw [Nat.pow_add, Nat.mul_comm x, Nat.mul_mod_mul_left]
  have := Nat.mod_lt x (Nat.two_pow_pos m)
  calc 2 ^ j * (x % 2 ^ m) + 2 ^ j = 2 ^ j * (x % 2 ^ m + 1) := by ring
    _ ≤ 2 ^ j * 2 ^ m := Nat.mul_le_mul_left _ this

/-- The quotient of the dividend bits read after `k` steps has at most `k`
bits, since the dividend is below `S * 2 ^ 24`. -/
theorem prefix_div_lt {S N : Nat} (k : Nat) (hS0 : 0 < S) (hN : N < S * 2 ^ 24) :
    N * 2 ^ k / 2 ^ 24 / S < 2 ^ k := by
  rw [Nat.div_lt_iff_lt_mul hS0, Nat.div_lt_iff_lt_mul (Nat.two_pow_pos 24)]
  calc N * 2 ^ k < S * 2 ^ 24 * 2 ^ k := Nat.mul_lt_mul_of_pos_right hN (Nat.two_pow_pos k)
    _ = 2 ^ k * S * 2 ^ 24 := by ring

/-- The value `V` of A and the carry `c` after `k` steps of dividing `N` by
`S`.  Of the dividend shifted left by `k`, the bits above bit 24 have been
read: A holds a partial remainder of them over bit 24; below it, the bits not
yet read and the quotient so far without its last bit, which is `c`. -/
def DivState (S N k V c : Nat) : Prop :=
  ∃ R, IsPartial S (N * 2 ^ k / 2 ^ 24) R ∧
    toSigned 55 V = R * 2 ^ 24 + ((N * 2 ^ k % 2 ^ 24 + N * 2 ^ k / 2 ^ 24 / S / 2 : Nat) : Int) ∧
    c = N * 2 ^ k / 2 ^ 24 / S % 2

/-- One step keeps the state: the dividend bit it reads is the top bit of A0,
and the new carry, the complement of the new sign, is the new quotient bit. -/
theorem DivState.step {S N k V c : Nat} (hS0 : 0 < S) (hS : S < 2 ^ 23) (hN : N < S * 2 ^ 24)
    (hk : k < 24) (hV : V < 2 ^ 56) (h : DivState S N k V c) :
    DivState S N (k + 1) (divStepValue S V c) (1 - (signBit 55 (divStepValue S V c)).toNat) := by
  obtain ⟨R, hR, hVR, hc⟩ := h
  have hX : N * 2 ^ (k + 1) = 2 * (N * 2 ^ k) := by rw [Nat.pow_succ]; ring
  have hpow : 2 ^ (k + 1) = 2 * 2 ^ k := by rw [Nat.pow_succ, Nat.mul_comm]
  have hT := mul_two_pow_mod_add_le N (show k + 1 ≤ 24 by omega)
  rw [hX, hpow] at hT
  have hq := prefix_div_lt k hS0 hN
  have hbounds := hR.bounds hS0
  unfold DivState
  rw [hX]
  generalize N * 2 ^ k = X at *
  generalize 2 ^ k = P at *
  subst hc
  have hbit : X % 2 ^ 24 / 2 ^ 23 < 2 := by omega
  have hprefix : 2 * X / 2 ^ 24 = 2 * (X / 2 ^ 24) + X % 2 ^ 24 / 2 ^ 23 := by omega
  have hdiv := hR.div_step hS0 hbit
  have hnext := hR.next hS0 hbit
  rw [← hprefix] at hdiv hnext
  rw [hdiv]
  -- the quotient so far, and the new partial remainder
  generalize X / 2 ^ 24 / S = q at *
  generalize hR' : NonRestoring.step S R (X % 2 ^ 24 / 2 ^ 23) = R' at *
  have hlow : (X % 2 ^ 24 + q / 2) / 2 ^ 23 = X % 2 ^ 24 / 2 ^ 23 := by omega
  have hval := toSigned_divStepValue (c := q % 2) hS hbounds (by omega) (by omega) hV hVR
  rw [hlow, hR'] at hval
  have hL : (X % 2 ^ 24 + q / 2) * 2 % 2 ^ 24 + q % 2 =
      2 * X % 2 ^ 24 + (2 * q + if 0 ≤ R' then 1 else 0) / 2 := by
    split_ifs <;> omega
  rw [hL] at hval
  refine ⟨R', hnext, hval, ?_⟩
  rw [signBit_eq_of_toSigned (by omega) (divStepValue_lt (by omega)) hval]
  by_cases hneg : R' < 0
  · rw [decide_eq_true hneg, if_neg (by omega), Bool.toNat_true]
    omega
  · rw [decide_eq_false hneg, if_pos (by omega), Bool.toNat_false]
    omega

/-- The registers after `k` steps of dividing `N` by `S` into A. -/
structure DivProgress (curInst S N k : Nat) (regs : Nat → Nat) : Prop where
  source : regs (divSrcReg curInst) = S
  inRange : (readA regs).InRange
  state : DivState S N k (readA regs).value ((regs dspRegSr >>> dspSrC) &&& 1)

section Run

variable {curInst S N : Nat}

theorem DivProgress.step {k : Nat} {regs : Nat → Nat} (hA : (curInst >>> 3) &&& 1 = 0) (hS0 : 0 < S)
    (hS : S < 2 ^ 23) (hN : N < S * 2 ^ 24) (hk : k < 24) (h : DivProgress curInst S N k regs) :
    DivProgress curInst S N (k + 1) (emuDiv curInst regs) := by
  obtain ⟨hsrc, hin, hst⟩ := h
  have hc2 : (regs dspRegSr >>> dspSrC) &&& 1 < 2 := by rw [shiftRight_and_one]; omega
  have hdest := divDest_fst hA hin (by omega)
  rw [hsrc] at hdest
  have hlt := divStepValue_lt (S := S) (V := (readA regs).value) hc2
  have hA' : readA (emuDiv curInst regs) = _ := (readA_emuDiv hA).trans hdest
  have hc' : (emuDiv curInst regs dspRegSr >>> dspSrC) &&& 1 =
      1 - (signBit 55 (divStepValue S (readA regs).value ((regs dspRegSr >>> dspSrC) &&& 1))).toNat := by
    rw [emuDiv_carry hA, hdest, Limbs56.sign_l0 (Limbs56.ofValue_inRange _), Limbs56.value_ofValue,
      Nat.mod_eq_of_lt hlt]
  refine ⟨(emuDiv_srcReg curInst regs).trans hsrc, hA' ▸ Limbs56.ofValue_inRange _, ?_⟩
  rw [hA', Limbs56.value_ofValue, Nat.mod_eq_of_lt hlt, hc']
  exact hst.step hS0 hS hN hk (Limbs56.value_lt hin)

theorem DivProgress.run {regs : Nat → Nat} (hA : (curInst >>> 3) &&& 1 = 0) (hS0 : 0 < S)
    (hS : S < 2 ^ 23) (hN : N < S * 2 ^ 24) (h : DivProgress curInst S N 0 regs) :
    ∀ k, k ≤ 24 → DivProgress curInst S N k ((emuDiv curInst)^[k] regs) := by
  intro k
  induction k with
  | zero => intro _; exact h
  | succ k ih =>
      intro hk
      rw [Function.iterate_succ_apply']
      exact (ih (by omega)).step hA hS0 hS hN (by omega)

/-- Before the first step: A holds the dividend with A2 = 0 and C is clear. -/
theorem divProgress_start {regs : Nat → Nat} (hsrc : regs (divSrcReg curInst) = S)
    (hS : S < 2 ^ 23) (hA2 : regs dspRegA2 = 0) (hA1 : regs dspRegA1 < S) (hA0 : regs dspRegA0 < 2 ^ 24)
    (hC : (regs dspRegSr >>> dspSrC) &&& 1 = 0) :
    DivProgress curInst S (regs dspRegA1 * 2 ^ 24 + regs dspRegA0) 0 regs := by
  have hhigh : (regs dspRegA1 * 2 ^ 24 + regs dspRegA0) * 2 ^ 0 / 2 ^ 24 = regs dspRegA1 := by
    omega
  have hq : regs dspRegA1 / S = 0 := Nat.div_eq_of_lt hA1
  refine ⟨hsrc, ⟨by simp only [readA]; omega, by simp only [readA]; omega, hA0⟩, regs dspRegA1,
    ?_, ?_, ?_⟩
  · rw [hhigh]
    exact isPartial_of_lt hA1
  · rw [hhigh, hq]
    simp only [toSigned, readA, Limbs56.value, hA2]
    split_ifs <;> omega
  · rw [hC, hhigh, hq]

/-- After the last step: A0 holds the quotient without its lowest bit, which
is C. -/
theorem DivProgress.quotient {regs : Nat → Nat} (hS0 : 0 < S) (hN : N < S * 2 ^ 24)
    (h : DivProgress curInst S N 24 regs) :
    regs dspRegA0 = N / S / 2 ∧ (regs dspRegSr >>> dspSrC) &&& 1 = N / S % 2 := by
  obtain ⟨-, hin, R, -, hV, hc⟩ := h
  have hN24 : N * 2 ^ 24 / 2 ^ 24 = N := Nat.mul_div_cancel N (Nat.two_pow_pos 24)
  have hlow : N * 2 ^ 24 % 2 ^ 24 = 0 := Nat.mul_mod_left N _
  have hq := prefix_div_lt 24 hS0 hN
  rw [hN24, hlow] at hV
  rw [hN24] at hc hq
  refine ⟨?_, hc⟩
  have hvlt := Limbs56.value_lt hin
  obtain ⟨h0, h1, h2⟩ := hin
  simp only [toSigned, readA, Limbs56.value] at hV h0 h1 h2 hvlt
  generalize N / S = q at *
  split_ifs at hV <;> omega

end Run

/-- Twenty-four steps of `DIV S,A` divide `N = A1 * 2 ^ 24 + A0` by a positive
`S < 2 ^ 23` held in the source register, when `A2 = 0`, `A1 < S` and C is
clear: A0 ends with `N / (2 * S)` and C with the lowest quotient bit, so
`A0 * 2 + C = N / S`.  A0 is a 24-bit register. -/
theorem emuDiv_iterate_quotient (curInst : Nat) (regs : Nat → Nat) (hA : (curInst >>> 3) &&& 1 = 0)
    (hS0 : 0 < regs (divSrcReg curInst)) (hS : regs (divSrcReg curInst) < 2 ^ 23)
    (hA2 : regs dspRegA2 = 0) (hA1 : regs dspRegA1 < regs (divSrcReg curInst))
    (hA0 : regs dspRegA0 < 2 ^ 24) (hC : (regs dspRegSr >>> dspSrC) &&& 1 = 0) :
    let S := regs (divSrcReg curInst)
    let N := regs dspRegA1 * 2 ^ 24 + regs dspRegA0
    let after := (emuDiv curInst)^[24] regs
    after dspRegA0 = N / (2 * S) ∧ (after dspRegSr >>> dspSrC) &&& 1 = N / S % 2 ∧
      after dspRegA0 * 2 + ((after dspRegSr >>> dspSrC) &&& 1) = N / S := by
  dsimp only
  have hN : regs dspRegA1 * 2 ^ 24 + regs dspRegA0 < regs (divSrcReg curInst) * 2 ^ 24 := by
    have : regs dspRegA1 * 2 ^ 24 + 2 ^ 24 ≤ regs (divSrcReg curInst) * 2 ^ 24 := by
      rw [← Nat.succ_mul]
      exact Nat.mul_le_mul_right _ hA1
    omega
  have hrun := (divProgress_start rfl hS hA2 hA1 hA0 hC).run hA hS0 hS hN 24 le_rfl
  obtain ⟨hA0', hC'⟩ := hrun.quotient hS0 hN
  have hdiv : ∀ n d : Nat, n / d / 2 = n / (2 * d) := fun n d => by
    rw [Nat.div_div_eq_div_mul, Nat.mul_comm]
  refine ⟨hA0'.trans (hdiv _ _), hC', ?_⟩
  rw [hA0', hC']
  omega

/-- X0 = 3 and A = 1:5, so that `N = 2 ^ 24 + 5`. -/
def divExampleRegs (r : Nat) : Nat :=
  if r = dspRegX0 then 3 else if r = dspRegA1 then 1 else if r = dspRegA0 then 5 else 0

/-- `DIV X0,A` (opcode 0x018040) twenty-four times on `(2 ^ 24 + 5) / 3`. -/
theorem emuDiv_divides_by_three :
    ((0x018040 >>> 3) &&& 1 = 0 ∧ 0 < divExampleRegs (divSrcReg 0x018040) ∧
        divExampleRegs (divSrcReg 0x018040) < 2 ^ 23 ∧ divExampleRegs dspRegA2 = 0 ∧
        divExampleRegs dspRegA1 < divExampleRegs (divSrcReg 0x018040) ∧
        divExampleRegs dspRegA0 < 2 ^ 24 ∧ (divExampleRegs dspRegSr >>> dspSrC) &&& 1 = 0) ∧
      let S := divExampleRegs (divSrcReg 0x018040)
      let N := divExampleRegs dspRegA1 * 2 ^ 24 + divExampleRegs dspRegA0
      let after := (emuDiv 0x018040)^[24] divExampleRegs
      after dspRegA0 = N / (2 * S) ∧ (after dspRegSr >>> dspSrC) &&& 1 = N / S % 2 ∧
        after dspRegA0 * 2 + ((after dspRegSr >>> dspSrC) &&& 1) = N / S :=
  ⟨⟨by decide, by decide, by decide, by decide, by decide, by decide, by decide⟩,
    emuDiv_iterate_quotient 0x018040 divExampleRegs (by decide) (by decide) (by decide) (by decide)
      (by decide) (by decide) (by decide)⟩

end Xqemu.Dsp
