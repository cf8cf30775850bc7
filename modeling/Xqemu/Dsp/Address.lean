import Xqemu.Dsp.Compare
import Xqemu.Lib.BitReverse
import Mathlib.Data.Nat.Log

/-! # Address register updates (emu_update_rn, emu_calc_ea)

An effective address in `(Rn)+`, `(Rn)-Nn`, `-(Rn)` and the other register
modes moves `Rn` by an `int16_t` modifier.  `emu_update_rn` picks the update by
the modifier register `Mn`: linear for `0xFFFF`, bit-reversed carry for 0, and
modulo `Mn + 1` for `1 ≤ Mn ≤ 32767`.

The modulo update finds the buffer, the least power of two not below the
modulus, takes its bounds as `uint16_t`, but moves `Rn` as an `int16_t`.  For a
buffer at or above `0x8000` the moved register is negative, compares below the
lower bound, and is put `Mn + 1` higher, out of the buffer.  The linear update
is the sum modulo `2 ^ 16`.

The bit-reversed update takes the field width from the lowest set bit of `Nn`;
for `Nn = 2 ^ j` it reverses the low `j + 1` bits of `Rn`, adds one and reverses
back, which is reverse-carry addition of `Nn` over the sixteen bits of the
register restricted to the field, the bits above it kept.
-/

namespace Xqemu.Dsp

open Xqemu.Bits

def dspRegR0 : Nat := 0x10
def dspRegN0 : Nat := 0x18
def dspRegM0 : Nat := 0x20

/-- The conversion of an `int` to `int16_t`, wrapping as gcc does. -/
def toInt16 (x : Int) : Int := (x + 2 ^ 15) % 2 ^ 16 - 2 ^ 15

/-- `((uint32_t) r) & BITMASK(16)` of an `int16_t`. -/
def lowHalf (x : Int) : Nat := (x % 2 ^ 16).toNat

/-! ## Bit-reversed carry -/

/-- `revbits` of `emu_update_rn_bitreverse`: one more than the lowest set bit
among the low 16 of `value`, or 17 when there is none. -/
def revBits (value : Nat) : Nat :=
  ((List.range 16).find? fun revbits => value &&& 1 <<< revbits ≠ 0).getD 16 + 1

/-- `BITMASK(16)-BITMASK(revbits)` as a `uint32_t` mask. -/
def highMask (revbits : Nat) : Nat := (((2 ^ 16 - 1 : Int) - (2 ^ revbits - 1)) % 2 ^ 32).toNat

/-- The loop that reverses the low `revbits` bits of `r_reg`, above its high bits. -/
def reverseBits (revbits rReg : Nat) : Nat :=
  (List.range revbits).foldl
    (fun value i => if rReg &&& 1 <<< i ≠ 0 then value ||| 1 <<< (revbits - i - 1) else value)
    (rReg &&& highMask revbits)

/-- `emu_update_rn_bitreverse(dsp, numreg)`. -/
def emuUpdateRnBitreverse (registers : Nat → Nat) (numreg : Nat) : Nat → Nat :=
  let revbits := revBits (registers (dspRegN0 + numreg))
  let rReg := registers (dspRegR0 + numreg)
  -- Reverse Rn bits, increment, and reverse back
  let value := reverseBits revbits rReg
  let value := (value + 1) % 2 ^ 32 &&& bitmask revbits
  let rReg := (rReg &&& highMask revbits) ||| value
  Function.update registers (dspRegR0 + numreg) (reverseBits revbits rReg)

/-! ## Modulo -/

/-- The loop of `emu_update_rn_modulo` that doubles `bufsize` up to `modulo`
and shifts `bufmask` with it, in `uint16_t`.  Sixteen rounds take `bufsize`
from 1 to `2 ^ 15`, past every modulus of an `Mn ≤ 32767`. -/
def bufferLoop (modulo : Nat) : Nat → Nat → Nat → Nat × Nat
  | 0, bufsize, bufmask => (bufsize, bufmask)
  | fuel + 1, bufsize, bufmask =>
      if bufsize < modulo then
        bufferLoop modulo fuel ((bufsize <<< 1) % 2 ^ 16) ((bufmask <<< 1) % 2 ^ 16)
      else (bufsize, bufmask)

/-- `while (modifier>bufsize)`: move `r_reg` up a buffer at a time.  The
modifier falls by `bufsize ≥ 1` a round, so `2 ^ 15` rounds are enough. -/
def reduceUp (bufsize : Int) : Nat → Int → Int → Int × Int
  | 0, rReg, modifier => (rReg, modifier)
  | fuel + 1, rReg, modifier =>
      if modifier > bufsize then
        reduceUp bufsize fuel (toInt16 (rReg + bufsize)) (toInt16 (modifier - bufsize))
      else (rReg, modifier)

/-- `while (modifier<-bufsize)`. -/
def reduceDown (bufsize : Int) : Nat → Int → Int → Int × Int
  | 0, rReg, modifier => (rReg, modifier)
  | fuel + 1, rReg, modifier =>
      if modifier < -bufsize then
        reduceDown bufsize fuel (toInt16 (rReg - bufsize)) (toInt16 (modifier + bufsize))
      else (rReg, modifier)

/-- `emu_update_rn_modulo(dsp, numreg, modifier)`. -/
def emuUpdateRnModulo (registers : Nat → Nat) (numreg : Nat) (modifier : Int) : Nat → Nat :=
  let origModifier := modifier
  let modulo := (registers (dspRegM0 + numreg) + 1) % 2 ^ 16
  let (bufsize, bufmask) := bufferLoop modulo 16 1 (bitmask 16)
  let lobound := registers (dspRegR0 + numreg) &&& bufmask
  let hibound := (((lobound + modulo : Nat) : Int) - 1) % 2 ^ 16
  let rReg := toInt16 (registers (dspRegR0 + numreg))
  let (rReg, modifier) :=
    if origModifier > modulo then
      let (rReg, modifier) := reduceUp bufsize (2 ^ 15) rReg modifier
      reduceDown bufsize (2 ^ 15) rReg modifier
    else (rReg, modifier)
  let rReg := toInt16 (rReg + modifier)
  let rReg :=
    if origModifier ≠ modulo then
      if rReg > hibound then toInt16 (rReg - modulo)
      else if rReg < lobound then toInt16 (rReg + modulo)
      else rReg
    else rReg
  Function.update registers (dspRegR0 + numreg) (lowHalf rReg)

/-- `emu_update_rn(dsp, numreg, modifier)`. -/
def emuUpdateRn (registers : Nat → Nat) (numreg : Nat) (modifier : Int) : Nat → Nat :=
  let mReg := registers (dspRegM0 + numreg) % 2 ^ 16
  if mReg = 65535 then
    -- Linear addressing mode
    let value := toInt16 (toInt16 (registers (dspRegR0 + numreg)) + modifier)
    Function.update registers (dspRegR0 + numreg) (lowHalf value)
  else if mReg = 0 then
    -- Bit reversed carry update
    emuUpdateRnBitreverse registers numreg
  else if mReg ≤ 32767 then
    -- Modulo update
    emuUpdateRnModulo registers numreg modifier
  else registers

/-- `emu_calc_ea(dsp, ea_mode, &addr)`: the state, the address, and whether it
is an immediate value; `none` is a failed assert of `read_memory_p`. -/
def emuCalcEa (s : DspState) (eaMode : Nat) : Option (DspState × Nat × Bool) :=
  let value := (eaMode >>> 3) &&& bitmask 3
  let numreg := eaMode &&& bitmask 3
  let r := s.rest (dspRegR0 + numreg)
  let n := s.rest (dspRegN0 + numreg)
  match value with
  | 0 => -- (Rx)-Nx
      some ({ s with rest := emuUpdateRn s.rest numreg (toInt16 (-(n : Int))) }, r, false)
  | 1 => -- (Rx)+Nx
      some ({ s with rest := emuUpdateRn s.rest numreg (toInt16 n) }, r, false)
  | 2 => -- (Rx)-
      some ({ s with rest := emuUpdateRn s.rest numreg (-1) }, r, false)
  | 3 => -- (Rx)+
      some ({ s with rest := emuUpdateRn s.rest numreg 1 }, r, false)
  | 4 => -- (Rx)
      some (s, r, false)
  | 5 => -- (Rx+Nx)
      let moved := emuUpdateRn s.rest numreg (toInt16 n)
      some ({ s with rest := Function.update moved (dspRegR0 + numreg) r },
        moved (dspRegR0 + numreg), false)
  | 6 => -- aa
      (readMemoryP s (s.pc + 1)).map fun addr =>
        ({ s with curInstLen := s.curInstLen + 1 }, addr, numreg ≠ 0)
  | _ => -- -(Rx)
      let moved := emuUpdateRn s.rest numreg (-1)
      some ({ s with rest := moved }, moved (dspRegR0 + numreg), false)

/-! ## The `int16_t` conversions -/

theorem toInt16_of_range {x : Int} (h0 : -2 ^ 15 ≤ x) (h1 : x < 2 ^ 15) : toInt16 x = x := by
  unfold toInt16
  omega

theorem toInt16_of_high {x : Int} (h0 : 2 ^ 15 ≤ x) (h1 : x < 2 ^ 16 + 2 ^ 15) :
    toInt16 x = x - 2 ^ 16 := by
  unfold toInt16
  omega

theorem toInt16_toInt16_add (x k : Int) : toInt16 (toInt16 x + k) = toInt16 (x + k) := by
  unfold toInt16
  omega

theorem lowHalf_toInt16 (x : Int) : lowHalf (toInt16 x) = lowHalf x := by
  unfold lowHalf toInt16
  omega

/-! ## The buffer a modulus selects -/

section Buffer

variable {modulo : Nat}

/-- From `2 ^ i`, the loop stops at `2 ^ clog 2 modulo`, the least power of two
not below `modulo`, with the mask of the bits above it. -/
theorem bufferLoop_pow (hc : Nat.clog 2 modulo ≤ 15) :
    ∀ fuel i, i ≤ Nat.clog 2 modulo → Nat.clog 2 modulo ≤ i + fuel →
      bufferLoop modulo fuel (2 ^ i) (2 ^ 16 - 2 ^ i) =
        (2 ^ Nat.clog 2 modulo, 2 ^ 16 - 2 ^ Nat.clog 2 modulo)
  | 0, i, hi, hf => by
      obtain rfl : i = Nat.clog 2 modulo := by omega
      rfl
  | fuel + 1, i, hi, hf => by
      rw [bufferLoop]
      by_cases hlt : 2 ^ i < modulo
      · -- below the least exponent: one doubling, which stays below `2 ^ 16`
        have hi' : i < Nat.clog 2 modulo := (Nat.lt_clog_iff_pow_lt (by decide)).mpr hlt
        have hpow : 2 ^ i * 2 ≤ 2 ^ 15 := by
          rw [← Nat.pow_succ]
          exact Nat.pow_le_pow_right (by decide) (by omega)
        have hs : (2 ^ i <<< 1) % 2 ^ 16 = 2 ^ (i + 1) := by
          rw [Nat.shiftLeft_eq, Nat.pow_one, Nat.pow_succ 2 i]
          omega
        have hm : ((2 ^ 16 - 2 ^ i) <<< 1) % 2 ^ 16 = 2 ^ 16 - 2 ^ (i + 1) := by
          rw [Nat.shiftLeft_eq, Nat.pow_one, Nat.pow_succ 2 i, Nat.sub_mul]
          have := Nat.two_pow_pos i
          omega
        rw [if_pos hlt, hs, hm]
        exact bufferLoop_pow hc fuel (i + 1) hi' (by omega)
      · have : Nat.clog 2 modulo ≤ i := (Nat.clog_le_iff_le_pow (by decide)).mpr (by omega)
        obtain rfl : i = Nat.clog 2 modulo := by omega
        rw [if_neg hlt]

theorem bufferLoop_eq (h : modulo ≤ 2 ^ 15) :
    bufferLoop modulo 16 1 (bitmask 16) = (2 ^ Nat.clog 2 modulo, 2 ^ 16 - 2 ^ Nat.clog 2 modulo) :=
  have hc : Nat.clog 2 modulo ≤ 15 := (Nat.clog_le_iff_le_pow (by decide)).mpr h
  bufferLoop_pow hc 16 0 (Nat.zero_le _) (by omega)

end Buffer

/-- `lobound`: the register with its bits below `2 ^ c` cleared. -/
theorem and_bufmask {R c : Nat} (hR : R < 2 ^ 16) (hc : c ≤ 16) :
    R &&& (2 ^ 16 - 2 ^ c) = R / 2 ^ c * 2 ^ c := by
  have hsplit : 2 ^ c * 2 ^ (16 - c) = 2 ^ 16 := by rw [← Nat.pow_add, Nat.add_sub_cancel' hc]
  have hmask : (2 ^ 16 - 2 ^ c : Nat) = (⟨c, 16 - c⟩ : Field).mask := by
    show (2 ^ 16 - 2 ^ c : Nat) = (2 ^ (16 - c) - 1) <<< c
    rw [Nat.shiftLeft_eq, Nat.sub_mul, Nat.one_mul, Nat.mul_comm, hsplit]
  rw [hmask, Field.and_mask_eq_mul]
  congr 1
  exact Nat.mod_eq_of_lt (Nat.div_lt_of_lt_mul (hsplit ▸ hR))

/-- The buffer of an aligned base ends within the 16-bit space. -/
theorem buffer_end_le {R c : Nat} (hR : R < 2 ^ 16) (hc : c ≤ 16) :
    R / 2 ^ c * 2 ^ c + 2 ^ c ≤ 2 ^ 16 := by
  have hsplit : 2 ^ (16 - c) * 2 ^ c = 2 ^ 16 := by rw [← Nat.pow_add, Nat.sub_add_cancel hc]
  have hq : R / 2 ^ c + 1 ≤ 2 ^ (16 - c) :=
    Nat.div_lt_of_lt_mul (by rw [Nat.mul_comm, hsplit]; exact hR)
  calc R / 2 ^ c * 2 ^ c + 2 ^ c = (R / 2 ^ c + 1) * 2 ^ c := by rw [Nat.succ_mul]
    _ ≤ 2 ^ (16 - c) * 2 ^ c := Nat.mul_le_mul_right _ hq
    _ = 2 ^ 16 := hsplit

/-! ## The modulo update on an in-range modifier -/

section Modulo

variable {registers : Nat → Nat} {numreg M R : Nat} {k : Int}

/-- With `k ≤ M` neither reduction loop runs and the modifier is not the
modulus: the register moves by `k` as an `int16_t`, and is put back by the
modulus once if it passed an end of the buffer. -/
theorem emuUpdateRnModulo_eq (hMreg : registers (dspRegM0 + numreg) = M)
    (hRreg : registers (dspRegR0 + numreg) = R) (hM : M ≤ 32767) (hR : R < 2 ^ 16)
    (hk1 : k ≤ M) :
    emuUpdateRnModulo registers numreg k (dspRegR0 + numreg) =
      lowHalf (if toInt16 (toInt16 R + k) >
            ((R / 2 ^ Nat.clog 2 (M + 1) * 2 ^ Nat.clog 2 (M + 1) + M : Nat) : Int) then
          toInt16 (toInt16 (toInt16 R + k) - (M + 1 : Nat))
        else if toInt16 (toInt16 R + k) < (R / 2 ^ Nat.clog 2 (M + 1) * 2 ^ Nat.clog 2 (M + 1) : Nat) then
          toInt16 (toInt16 (toInt16 R + k) + (M + 1 : Nat))
        else toInt16 (toInt16 R + k)) := by
  have hmod : (M + 1) % 2 ^ 16 = M + 1 := Nat.mod_eq_of_lt (by omega)
  have hc : Nat.clog 2 (M + 1) ≤ 16 :=
    (Nat.clog_le_iff_le_pow (by decide)).mpr (by omega)
  have hend := buffer_end_le hR hc
  have hbuf := Nat.le_pow_clog (by decide : 1 < 2) (M + 1)
  have hhi : ((((R / 2 ^ Nat.clog 2 (M + 1) * 2 ^ Nat.clog 2 (M + 1) + (M + 1) : Nat) : Int) - 1) %
      2 ^ 16) = ((R / 2 ^ Nat.clog 2 (M + 1) * 2 ^ Nat.clog 2 (M + 1) + M : Nat) : Int) := by
    generalize R / 2 ^ Nat.clog 2 (M + 1) * 2 ^ Nat.clog 2 (M + 1) = lo at hend ⊢
    generalize 2 ^ Nat.clog 2 (M + 1) = B at hend hbuf
    omega
  unfold emuUpdateRnModulo
  simp only [hMreg, hRreg, hmod, bufferLoop_eq (show M + 1 ≤ 2 ^ 15 by omega), and_bufmask hR hc,
    Function.update_self, hhi]
  have hgt : ¬k > ((M + 1 : Nat) : Int) := by omega
  have hne : k ≠ ((M + 1 : Nat) : Int) := by omega
  simp only [if_neg hgt, if_pos hne]

/-- `emu_update_rn` on a modifier register in the modulo range goes to the
modulo update. -/
theorem emuUpdateRn_of_modulo (hMreg : registers (dspRegM0 + numreg) = M) (hM1 : 1 ≤ M)
    (hM : M ≤ 32767) : emuUpdateRn registers numreg k = emuUpdateRnModulo registers numreg k := by
  have hmod : M % 2 ^ 16 = M := Nat.mod_eq_of_lt (by omega)
  unfold emuUpdateRn
  simp only [hMreg, hmod]
  rw [if_neg (by omega), if_neg (by omega), if_pos hM]

end Modulo

/-- A remainder one wrap away: what the two comparisons of the modulo update
compute, when they compute a remainder at all. -/
theorem emod_of_one_wrap {x m : Int} (h0 : -m ≤ x) (h1 : x < 2 * m) :
    x % m = if m ≤ x then x - m else if x < 0 then x + m else x := by
  split_ifs with hm hneg
  · rw [← Int.sub_emod_right x m]
    exact Int.emod_eq_of_lt (by omega) (by omega)
  · rw [Int.emod_eq_add_self_emod]
    exact Int.emod_eq_of_lt (by omega) (by omega)
  · exact Int.emod_eq_of_lt (by omega) (by omega)

/-- The modulo update in a buffer below `0x8000`, as long as the moved
register stays below `0x8000` too: it wraps around the buffer. -/
theorem emuUpdateRn_modulo_low_buffer (registers : Nat → Nat) (numreg M R : Nat) (k : Int)
    (hMreg : registers (dspRegM0 + numreg) = M) (hRreg : registers (dspRegR0 + numreg) = R)
    (hM1 : 1 ≤ M) (hM : M ≤ 32767)
    (hin : R ≤ R / 2 ^ Nat.clog 2 (M + 1) * 2 ^ Nat.clog 2 (M + 1) + M)
    (hk0 : -(M : Int) ≤ k) (hk1 : k ≤ M) (hlow : (R : Int) + k < 2 ^ 15) :
    (emuUpdateRn registers numreg k (dspRegR0 + numreg) : Int) =
      (R / 2 ^ Nat.clog 2 (M + 1) * 2 ^ Nat.clog 2 (M + 1) : Nat) +
        ((R : Int) - (R / 2 ^ Nat.clog 2 (M + 1) * 2 ^ Nat.clog 2 (M + 1) : Nat) + k) % (M + 1) := by
  have hlo := Nat.div_mul_le_self R (2 ^ Nat.clog 2 (M + 1))
  have hR : R < 2 ^ 16 := by omega
  -- as an `int16_t` the moved register is `R + k` itself, so both comparisons are the remainder's
  rw [emuUpdateRn_of_modulo hMreg hM1 hM, emuUpdateRnModulo_eq hMreg hRreg hM hR hk1,
    emod_of_one_wrap (by omega) (by omega), toInt16_toInt16_add,
    toInt16_of_range (x := (R : Int) + k) (by omega) hlow]
  simp only [apply_ite lowHalf, lowHalf_toInt16]
  generalize R / 2 ^ Nat.clog 2 (M + 1) * 2 ^ Nat.clog 2 (M + 1) = lo at hin hlo ⊢
  unfold lowHalf
  split_ifs <;> omega

/-- The modulo update in a buffer at or above `0x8000`: the register, an
`int16_t`, is negative after the move, so it compares below `lobound` and is
put `M + 1` higher, out of the buffer, where it should have stayed at
`R + k`. -/
theorem emuUpdateRn_modulo_high_buffer (registers : Nat → Nat) (numreg M R : Nat) (k : Int)
    (hMreg : registers (dspRegM0 + numreg) = M) (hRreg : registers (dspRegR0 + numreg) = R)
    (hM1 : 1 ≤ M) (hM : M ≤ 32767) (hR : R < 2 ^ 16)
    (hhigh : 2 ^ 15 ≤ R / 2 ^ Nat.clog 2 (M + 1) * 2 ^ Nat.clog 2 (M + 1))
    (hin : R ≤ R / 2 ^ Nat.clog 2 (M + 1) * 2 ^ Nat.clog 2 (M + 1) + M)
    (hk0 : ((R / 2 ^ Nat.clog 2 (M + 1) * 2 ^ Nat.clog 2 (M + 1) : Nat) : Int) ≤ R + k)
    (hk1 : (R : Int) + k ≤ (R / 2 ^ Nat.clog 2 (M + 1) * 2 ^ Nat.clog 2 (M + 1) + M : Nat)) :
    (emuUpdateRn registers numreg k (dspRegR0 + numreg) : Int) = ((R : Int) + k + (M + 1)) % 2 ^ 16 ∧
      (emuUpdateRn registers numreg k (dspRegR0 + numreg) : Int) ≠
        (R / 2 ^ Nat.clog 2 (M + 1) * 2 ^ Nat.clog 2 (M + 1) : Nat) +
          ((R : Int) - (R / 2 ^ Nat.clog 2 (M + 1) * 2 ^ Nat.clog 2 (M + 1) : Nat) + k) % (M + 1) := by
  have hc : Nat.clog 2 (M + 1) ≤ 16 := (Nat.clog_le_iff_le_pow (by decide)).mpr (by omega)
  have hend := buffer_end_le hR hc
  have hlo := Nat.div_mul_le_self R (2 ^ Nat.clog 2 (M + 1))
  have hresult : (emuUpdateRn registers numreg k (dspRegR0 + numreg) : Int) =
      ((R : Int) + k + (M + 1)) % 2 ^ 16 := by
    rw [emuUpdateRn_of_modulo hMreg hM1 hM, emuUpdateRnModulo_eq hMreg hRreg hM hR (by omega)]
    generalize R / 2 ^ Nat.clog 2 (M + 1) * 2 ^ Nat.clog 2 (M + 1) = lo at hhigh hin hk0 hk1 hend hlo
    -- as an `int16_t` the moved register is negative, so below `lobound`
    have hmoved : toInt16 (toInt16 R + k) = R + k - 2 ^ 16 := by
      have hR' : toInt16 R = R - 2 ^ 16 := toInt16_of_high (by omega) (by omega)
      rw [hR', toInt16_of_range (x := (R : Int) - 2 ^ 16 + k) (by omega) (by omega)]
      omega
    rw [hmoved, if_neg (by omega), if_pos (by omega), lowHalf_toInt16]
    unfold lowHalf
    omega
  refine ⟨hresult, ?_⟩
  rw [hresult]
  generalize R / 2 ^ Nat.clog 2 (M + 1) * 2 ^ Nat.clog 2 (M + 1) = lo at hk0 hk1 hlo ⊢
  -- the register stays in the buffer, so the claimed remainder is the offset itself
  have hoff : ((R : Int) - lo + k) % (M + 1) = (R : Int) - lo + k :=
    Int.emod_eq_of_lt (by omega) (by omega)
  rw [hoff]
  omega

/-- `M0 = 3`, `R0 = 0x8000`, `(R0)+`: the buffer is `0x8000..0x8003`, and `R0`
becomes `0x8005`, not `0x8001`. -/
theorem emuUpdateRn_modulo_8000 :
    emuUpdateRn (fun i => if i = dspRegM0 then 3 else if i = dspRegR0 then 0x8000 else 0) 0 1
        dspRegR0 = 0x8005 ∧
      ((emuUpdateRn (fun i => if i = dspRegM0 then 3 else if i = dspRegR0 then 0x8000 else 0) 0 1
          (dspRegR0 + 0) : Int) = ((0x8000 : Nat) + (1 : Int) + ((3 : Nat) + 1)) % 2 ^ 16 ∧
        (emuUpdateRn (fun i => if i = dspRegM0 then 3 else if i = dspRegR0 then 0x8000 else 0) 0 1
          (dspRegR0 + 0) : Int) ≠
          ((0x8000 : Nat) / 2 ^ Nat.clog 2 (3 + 1) * 2 ^ Nat.clog 2 (3 + 1) : Nat) +
            (((0x8000 : Nat) : Int) - ((0x8000 : Nat) / 2 ^ Nat.clog 2 (3 + 1) * 2 ^ Nat.clog 2 (3 + 1) : Nat) +
              1) % ((3 : Nat) + 1)) :=
  ⟨by decide,
    emuUpdateRn_modulo_high_buffer _ 0 3 0x8000 1 (by decide) (by decide) (by decide) (by decide)
      (by decide) (by decide) (by decide) (by decide) (by decide)⟩

/-! ## The bit-reversed carry update -/

theorem revBits_two_pow {j : Nat} (hj : j < 16) : revBits (2 ^ j) = j + 1 := by
  have h : ∀ j < 16, revBits (2 ^ j) = j + 1 := by decide
  exact h j hj

theorem highMask_eq {r : Nat} (hr : r ≤ 16) : highMask r = 2 ^ 16 - 2 ^ r := by
  have hpow : 2 ^ r ≤ 2 ^ 16 := Nat.pow_le_pow_right (by omega) hr
  have hcast : ((2 : Int) ^ r) = ((2 ^ r : Nat) : Int) := by push_cast; rfl
  unfold highMask
  rw [hcast]
  generalize 2 ^ r = P at hpow ⊢
  omega

theorem testBit_highMask {r : Nat} (hr : r ≤ 16) (i : Nat) :
    (highMask r).testBit i = decide (r ≤ i ∧ i < 16) := by
  have hdiff : 2 ^ 16 - 2 ^ r = 2 ^ r * (2 ^ (16 - r) - 1) := by
    rw [Nat.mul_sub, Nat.mul_one, ← Nat.pow_add, Nat.add_sub_cancel' hr]
  rw [highMask_eq hr, hdiff, Nat.testBit_two_pow_mul, Nat.testBit_two_pow_sub_one]
  by_cases hri : r ≤ i
  · rw [decide_eq_true hri, Bool.true_and]
    exact decide_eq_decide.mpr (by omega)
  · rw [decide_eq_false hri, Bool.false_and, decide_eq_false (by omega)]

/-- The loop of `emu_update_rn_bitreverse` after `m` turns: bits `0 … m - 1` of `x` are set at
positions `r - 1 … r - m`. -/
theorem testBit_reverseLoop (r x : Nat) : ∀ m ≤ r, ∀ init p,
    ((List.range m).foldl
        (fun value i => if x &&& 1 <<< i ≠ 0 then value ||| 1 <<< (r - i - 1) else value) init).testBit p =
      (init.testBit p || (decide (r - m ≤ p ∧ p < r) && x.testBit (r - 1 - p)))
  | 0, _, init, p => by simp
  | m + 1, hm, init, p => by
    rw [List.range_succ, List.foldl_append, List.foldl_cons, List.foldl_nil]
    by_cases hp : p = r - 1 - m
    -- the position the last turn sets: bit `m` of `x`
    · have hbit : r - 1 - p = m := by omega
      by_cases hx : x &&& 1 <<< m ≠ 0
      · rw [if_pos hx, Nat.testBit_or, testBit_reverseLoop r x m (by omega), testBit_one_shiftLeft, hbit,
          (and_one_shiftLeft_ne_zero_iff x m).mp hx, decide_eq_true (by omega : r - m - 1 = p),
          decide_eq_true (by omega : r - (m + 1) ≤ p ∧ p < r)]
        simp
      · rw [if_neg hx, testBit_reverseLoop r x m (by omega), hbit,
          decide_eq_false (by omega : ¬(r - m ≤ p ∧ p < r))]
        rw [and_one_shiftLeft_ne_zero_iff, Bool.not_eq_true] at hx
        rw [hx]
        simp
    · have hrange : (r - (m + 1) ≤ p ∧ p < r) ↔ (r - m ≤ p ∧ p < r) := by omega
      rw [decide_eq_decide.mpr hrange, ← testBit_reverseLoop r x m (by omega)]
      split
      · rw [Nat.testBit_or, testBit_one_shiftLeft, decide_eq_false (by omega : ¬r - m - 1 = p), Bool.or_false]
      · rfl

/-- The whole loop ors the reversal of the low `r` bits of `x` into the value it starts from. -/
theorem reverseLoop_eq_or (r x init : Nat) :
    (List.range r).foldl
        (fun value i => if x &&& 1 <<< i ≠ 0 then value ||| 1 <<< (r - i - 1) else value) init =
      init ||| reverse r x := by
  apply Nat.eq_of_testBit_eq
  intro p
  rw [testBit_reverseLoop r x r le_rfl, Nat.sub_self, Nat.testBit_or, testBit_reverse,
    decide_eq_decide.mpr (show 0 ≤ p ∧ p < r ↔ p < r by omega)]

/-- `r_reg &= BITMASK(16)-BITMASK(revbits); r_reg |= value` for a value of `revbits` bits. -/
theorem and_highMask_or {r v : Nat} (hr : r ≤ 16) (hv : v < 2 ^ r) (x : Nat) :
    x &&& highMask r ||| v = x % 2 ^ 16 / 2 ^ r * 2 ^ r + v := by
  apply Nat.eq_of_testBit_eq
  intro p
  rw [Nat.testBit_or, Nat.testBit_and, testBit_highMask hr, Nat.mul_comm, Nat.testBit_two_pow_mul_add _ hv]
  by_cases hp : p < r
  · rw [if_pos hp, decide_eq_false (by omega : ¬(r ≤ p ∧ p < 16)), Bool.and_false, Bool.false_or]
  · rw [if_neg hp, Nat.testBit_div_two_pow, Nat.sub_add_cancel (by omega), Nat.testBit_mod_two_pow,
      Nat.testBit_lt_two_pow (lt_of_lt_of_le hv (Nat.pow_le_pow_right (by omega) (by omega))), Bool.or_false]
    by_cases hp16 : p < 16
    · rw [decide_eq_true (by omega : r ≤ p ∧ p < 16), decide_eq_true hp16, Bool.and_true, Bool.true_and]
    · rw [decide_eq_false (by omega : ¬(r ≤ p ∧ p < 16)), decide_eq_false hp16, Bool.and_false, Bool.false_and]

/-- The reversing loop keeps bits `r … 15` of `x` and puts the reversal of its low `r` bits
under them. -/
theorem reverseBits_eq {r : Nat} (hr : r ≤ 16) (x : Nat) :
    reverseBits r x = x % 2 ^ 16 / 2 ^ r * 2 ^ r + reverse r x := by
  rw [reverseBits, reverseLoop_eq_or, and_highMask_or hr (reverse_lt r x)]

/-- `emu_update_rn_bitreverse` with `Nn = 2 ^ j`: bits `j + 1 … 15` of `Rn` stay, and its low
`j + 1` bits are reversed, incremented and reversed back. -/
theorem emuUpdateRnBitreverse_eq {registers : Nat → Nat} {numreg j : Nat}
    (hN : registers (dspRegN0 + numreg) = 2 ^ j) (hj : j < 16) :
    emuUpdateRnBitreverse registers numreg (dspRegR0 + numreg) =
      registers (dspRegR0 + numreg) % 2 ^ 16 / 2 ^ (j + 1) * 2 ^ (j + 1) +
        reverse (j + 1) ((reverse (j + 1) (registers (dspRegR0 + numreg) % 2 ^ (j + 1)) + 1) % 2 ^ (j + 1)) := by
  have hr : j + 1 ≤ 16 := by omega
  unfold emuUpdateRnBitreverse
  rw [hN, revBits_two_pow hj, Function.update_self, reverse_mod_self (j + 1) (registers (dspRegR0 + numreg))]
  generalize registers (dspRegR0 + numreg) = R
  generalize hq : R % 2 ^ 16 / 2 ^ (j + 1) = q
  have hpos : 0 < 2 ^ (j + 1) := Nat.two_pow_pos _
  -- the increment of the reversed field, which carries no further than the field
  have hinc : (q * 2 ^ (j + 1) + reverse (j + 1) R + 1) % 2 ^ 32 &&& bitmask (j + 1) =
      (reverse (j + 1) R + 1) % 2 ^ (j + 1) := by
    rw [bitmask, Nat.and_two_pow_sub_one_eq_mod, Nat.mod_mod_of_dvd _ (Nat.pow_dvd_pow 2 (by omega)),
      Nat.add_assoc, Nat.mul_comm q, Nat.mul_add_mod]
  have hlt : (reverse (j + 1) R + 1) % 2 ^ (j + 1) < 2 ^ (j + 1) := Nat.mod_lt _ hpos
  have hend : q * 2 ^ (j + 1) + 2 ^ (j + 1) ≤ 2 ^ 16 := hq ▸ buffer_end_le (Nat.mod_lt R (by omega)) hr
  rw [reverseBits_eq hr R, hq, hinc, and_highMask_or hr hlt, hq, reverseBits_eq hr]
  generalize (reverse (j + 1) R + 1) % 2 ^ (j + 1) = v at hlt ⊢
  have hmod : (q * 2 ^ (j + 1) + v) % 2 ^ 16 = q * 2 ^ (j + 1) + v := Nat.mod_eq_of_lt (by omega)
  have hdiv : (q * 2 ^ (j + 1) + v) / 2 ^ (j + 1) = q := by
    rw [Nat.mul_comm, Nat.mul_add_div hpos, Nat.div_eq_of_lt hlt, Nat.add_zero]
  have hlow : (q * 2 ^ (j + 1) + v) % 2 ^ (j + 1) = v := by
    rw [Nat.mul_comm q, Nat.mul_add_mod, Nat.mod_eq_of_lt hlt]
  rw [hmod, hdiv, ← reverse_mod_self (j + 1) (q * 2 ^ (j + 1) + v), hlow]

theorem emuUpdateRn_of_bitreverse {registers : Nat → Nat} {numreg : Nat} {k : Int}
    (hM : registers (dspRegM0 + numreg) % 2 ^ 16 = 0) :
    emuUpdateRn registers numreg k = emuUpdateRnBitreverse registers numreg := by
  unfold emuUpdateRn
  simp only [hM]
  rw [if_neg (by decide), if_pos trivial]

/-- With `Mn = 0` and `Nn = 2 ^ j`, the update of `Rn` is a reverse-carry increment of its low
`j + 1` bits: they are reversed, incremented and reversed back, which is reverse-carry adding
`Nn` over all sixteen bits restricted to them, and the bits above are kept. -/
theorem emuUpdateRn_bitreverse (registers : Nat → Nat) (numreg j : Nat) (k : Int)
    (hM : registers (dspRegM0 + numreg) % 2 ^ 16 = 0) (hN : registers (dspRegN0 + numreg) = 2 ^ j)
    (hj : j < 16) :
    emuUpdateRn registers numreg k (dspRegR0 + numreg) =
        registers (dspRegR0 + numreg) % 2 ^ 16 / 2 ^ (j + 1) * 2 ^ (j + 1) +
          reverse (j + 1) ((reverse (j + 1) (registers (dspRegR0 + numreg) % 2 ^ (j + 1)) + 1) % 2 ^ (j + 1)) ∧
      emuUpdateRn registers numreg k (dspRegR0 + numreg) % 2 ^ (j + 1) =
        reverseAdd 16 (registers (dspRegR0 + numreg)) (registers (dspRegN0 + numreg)) % 2 ^ (j + 1) ∧
      emuUpdateRn registers numreg k (dspRegR0 + numreg) / 2 ^ (j + 1) =
        registers (dspRegR0 + numreg) % 2 ^ 16 / 2 ^ (j + 1) := by
  have hrn := emuUpdateRnBitreverse_eq hN hj
  rw [← emuUpdateRn_of_bitreverse (k := k) hM] at hrn
  refine ⟨hrn, ?_, ?_⟩
  · -- the low bits are the field alone, and the sum over sixteen bits carries no further down
    rw [hrn, hN, reverseAdd_mod_two_pow (by omega : j + 1 ≤ 16), reverseAdd_top,
      ← reverse_mod_self (j + 1) (registers (dspRegR0 + numreg)), Nat.mul_comm, Nat.mul_add_mod,
      Nat.mod_eq_of_lt (reverse_lt _ _)]
  · rw [hrn, Nat.mul_comm, Nat.mul_add_div (Nat.two_pow_pos _), Nat.div_eq_of_lt (reverse_lt _ _), Nat.add_zero]

/-- `R0 = 0x1234`, `N0 = 8`: the low four bits `0100` reverse to `0010`, go to `0011` and
back to `1100`, so `R0` becomes `0x123C`. -/
theorem emuUpdateRn_bitreverse_1234 :
    ((fun i => if i = dspRegR0 then 0x1234 else if i = dspRegN0 then 8 else 0 : Nat → Nat) (dspRegM0 + 0) % 2 ^ 16 = 0 ∧
      (fun i => if i = dspRegR0 then 0x1234 else if i = dspRegN0 then 8 else 0 : Nat → Nat) (dspRegN0 + 0) = 2 ^ 3 ∧
      3 < 16) ∧
    (emuUpdateRn (fun i => if i = dspRegR0 then 0x1234 else if i = dspRegN0 then 8 else 0) 0 1 (dspRegR0 + 0) =
        (fun i => if i = dspRegR0 then 0x1234 else if i = dspRegN0 then 8 else 0 : Nat → Nat) (dspRegR0 + 0) %
            2 ^ 16 / 2 ^ (3 + 1) * 2 ^ (3 + 1) +
          reverse (3 + 1) ((reverse (3 + 1)
            ((fun i => if i = dspRegR0 then 0x1234 else if i = dspRegN0 then 8 else 0 : Nat → Nat) (dspRegR0 + 0) %
              2 ^ (3 + 1)) + 1) % 2 ^ (3 + 1)) ∧
      emuUpdateRn (fun i => if i = dspRegR0 then 0x1234 else if i = dspRegN0 then 8 else 0) 0 1 (dspRegR0 + 0) %
          2 ^ (3 + 1) =
        reverseAdd 16 ((fun i => if i = dspRegR0 then 0x1234 else if i = dspRegN0 then 8 else 0 : Nat → Nat)
          (dspRegR0 + 0)) ((fun i => if i = dspRegR0 then 0x1234 else if i = dspRegN0 then 8 else 0 : Nat → Nat)
          (dspRegN0 + 0)) % 2 ^ (3 + 1) ∧
      emuUpdateRn (fun i => if i = dspRegR0 then 0x1234 else if i = dspRegN0 then 8 else 0) 0 1 (dspRegR0 + 0) /
          2 ^ (3 + 1) =
        (fun i => if i = dspRegR0 then 0x1234 else if i = dspRegN0 then 8 else 0 : Nat → Nat) (dspRegR0 + 0) %
          2 ^ 16 / 2 ^ (3 + 1)) :=
  ⟨⟨by decide, by decide, by decide⟩, emuUpdateRn_bitreverse _ 0 3 1 (by decide) (by decide) (by decide)⟩

/-- From `R0 = 0` with `N0 = 4`, the bit-reversed update walks `0, 4, 2, 6, 1, 5, 3, 7`. -/
example : (List.range 8).map (fun n => (fun r => emuUpdateRn r 0 1)^[n]
    (fun i => if i = dspRegN0 then 4 else 0) dspRegR0) = [0, 4, 2, 6, 1, 5, 3, 7] := by
  decide

end Xqemu.Dsp
