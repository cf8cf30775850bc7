import Xqemu.Dsp.Div
import Xqemu.Dsp.Mul
import Xqemu.Dsp.Round

/-! # CMP and SUB with an immediate operand (dsp_emu.inl)

`emu_sub_imm` and `emu_sub_long` hand their immediate to `emu_sub_x`, which
places it in the middle limb of a 56-bit source, sign-extends it into the top
limb, subtracts it from the accumulator with `dsp_sub56`, writes the
accumulator back and sets the condition bits.  `emu_cmp_imm` and
`emu_cmp_long` are separate copies of that body that do not write the
accumulator back, and that leave the top limb of the source zero.

For a six-bit immediate, and for a long one whose bit 23 is clear, the copies
agree with SUB, so CMP sets SR as SUB does.  A long immediate with bit 23 set
is compared as a positive number where SUB subtracts a negative one; the
comparison of the accumulator with itself then borrows under SUB and not under
CMP.
-/

namespace Xqemu.Dsp

def dspSrZ : Nat := 2
def dspSrN : Nat := 3
def dspSrU : Nat := 4
def dspSrE : Nat := 5

/-- The accumulator B when `d` is set, else A, as the limbs `{D2, D1, D0}`. -/
def readAccu (registers : Nat → Nat) (d : Nat) : Limbs56 :=
  if d ≠ 0 then readB registers else readA registers

/-- The limbs `dest` written back to the accumulator `d`. -/
def writeAccu (registers : Nat → Nat) (d : Nat) (dest : Limbs56) : Nat → Nat :=
  if d ≠ 0 then writeB registers dest else writeA registers dest

/-- `emu_ccr_update_e_u_n_z(dsp, reg0, reg1, reg2)` on `dsp->registers[DSP_REG_SR]`;
the sums are `uint32_t`. -/
def emuCcrUpdateEUNZ (sr reg0 reg1 reg2 : Nat) : Nat :=
  -- Initialize SR register
  let sr := sr &&& (bitmask 16 - ((1 <<< dspSrE) ||| (1 <<< dspSrU) ||| (1 <<< dspSrN) |||
    (1 <<< dspSrZ)))
  let scaling := (sr >>> dspSrS0) &&& bitmask 2
  -- E and U by the scaling mode; `none` is the `default: return`
  let eu : Option Nat :=
    if scaling = 0 then
      let valueE := ((reg0 <<< 1) + (reg1 >>> 23)) % 2 ^ 32
      let sr := if valueE ≠ 0 ∧ valueE ≠ bitmask 9 then sr ||| 1 <<< dspSrE else sr
      some (if reg1 &&& 0xc00000 = 0 ∨ reg1 &&& 0xc00000 = 0xc00000 then sr ||| 1 <<< dspSrU
        else sr)
    else if scaling = 1 then
      let sr := if reg0 ≠ 0 ∧ reg0 ≠ bitmask 8 then sr ||| 1 <<< dspSrE else sr
      let valueU := ((reg0 <<< 1) + (reg1 >>> 23)) % 2 ^ 32 &&& 3
      some (if valueU = 0 ∨ valueU = 3 then sr ||| 1 <<< dspSrU else sr)
    else if scaling = 2 then
      let valueE := ((reg0 <<< 2) + (reg1 >>> 22)) % 2 ^ 32
      let sr := if valueE ≠ 0 ∧ valueE ≠ bitmask 10 then sr ||| 1 <<< dspSrE else sr
      some (if reg1 &&& 0x600000 = 0 ∨ reg1 &&& 0x600000 = 0x600000 then sr ||| 1 <<< dspSrU
        else sr)
    else none
  match eu with
  | none => sr
  | some sr =>
      -- Zero Flag (Z)
      let sr := if reg1 = 0 ∧ reg2 = 0 ∧ reg0 = 0 then sr ||| 1 <<< dspSrZ else sr
      -- Negative Flag (N)
      sr ||| ((reg0 >>> 4) &&& 0x8)

/-- The end that SUB and CMP share: E, U, N and Z from the result limbs, then
V and C (and L, which stays set) from `dsp_sub56`. -/
def setSubFlags (sr : Nat) (dest : Limbs56) (newsr : Nat) : Nat :=
  (emuCcrUpdateEUNZ sr dest.l0 dest.l1 dest.l2 &&& (bitmask 16 - ((1 <<< dspSrV) ||| (1 <<< dspSrC))))
    ||| newsr

/-- The DSP as the loop unit sees it, with the register file of `Div` as its
rest; SR is `Core.sr`. -/
abbrev DspState := Core (Nat → Nat)

/-- `emu_sub_x(dsp, x, d)`. -/
def emuSubX (s : DspState) (x d : Nat) : DspState :=
  let source : Limbs56 := ⟨if x &&& 1 <<< 23 ≠ 0 then 0xff else 0x0, x, 0⟩
  let r := dspSub56 source (readAccu s.rest d)
  { s with rest := writeAccu s.rest d r.1, sr := setSubFlags s.sr r.1 r.2 }

/-- The body `emu_cmp_imm` and `emu_cmp_long` share, on the immediate `x`. -/
def emuCmpX (s : DspState) (x d : Nat) : DspState :=
  let source : Limbs56 := ⟨0x0, x, 0⟩
  let r := dspSub56 source (readAccu s.rest d)
  { s with sr := setSubFlags s.sr r.1 r.2 }

/-- `emu_sub_imm`. -/
def emuSubImm (s : DspState) : DspState :=
  emuSubX s ((s.curInst >>> 8) &&& bitmask 6) ((s.curInst >>> 3) &&& 1)

/-- `emu_sub_long`; `none` is a failed assert of `read_memory_p`. -/
def emuSubLong (s : DspState) : Option DspState := do
  let xxxx ← readMemoryP s (s.pc + 1)
  let s := { s with curInstLen := s.curInstLen + 1 }
  pure (emuSubX s xxxx ((s.curInst >>> 3) &&& 1))

/-- `emu_cmp_imm`. -/
def emuCmpImm (s : DspState) : DspState :=
  emuCmpX s ((s.curInst >>> 8) &&& bitmask 6) ((s.curInst >>> 3) &&& 1)

/-- `emu_cmp_long`. -/
def emuCmpLong (s : DspState) : Option DspState := do
  let xxxx ← readMemoryP s (s.pc + 1)
  let s := { s with curInstLen := s.curInstLen + 1 }
  pure (emuCmpX s xxxx ((s.curInst >>> 3) &&& 1))

/-! ## Where CMP agrees with SUB -/

section Agree

variable {s : DspState} {x d : Nat}

/-- With bit 23 of the immediate clear, both build the same source, and CMP is
SUB without the write-back. -/
theorem emuCmpX_eq_of_bit23 (h : x &&& 1 <<< 23 = 0) :
    emuCmpX s x d = { emuSubX s x d with rest := s.rest } := by
  unfold emuCmpX emuSubX
  rw [if_neg (not_not.mpr h)]

theorem and_bit23_eq_zero_of_lt {y : Nat} (hy : y < 2 ^ 23) : y &&& 1 <<< 23 = 0 := by
  by_contra h
  have := (Bits.and_one_shiftLeft_ne_zero_iff y 23).mp h
  rw [Nat.testBit_lt_two_pow hy] at this
  exact Bool.false_ne_true this

theorem emuSubLong_of_read (h : readMemoryP s (s.pc + 1) = some x) :
    emuSubLong s = some (emuSubX { s with curInstLen := s.curInstLen + 1 } x ((s.curInst >>> 3) &&& 1)) := by
  simp only [emuSubLong, h, Option.bind_eq_bind, Option.bind_some, Option.pure_def]

theorem emuCmpLong_of_read (h : readMemoryP s (s.pc + 1) = some x) :
    emuCmpLong s = some (emuCmpX { s with curInstLen := s.curInstLen + 1 } x ((s.curInst >>> 3) &&& 1)) := by
  simp only [emuCmpLong, h, Option.bind_eq_bind, Option.bind_some, Option.pure_def]

/-- CMP with a long immediate whose bit 23 is clear sets SR as SUB does. -/
theorem emuCmpLong_eq_of_lt (h : readMemoryP s (s.pc + 1) = some x) (hx : x < 2 ^ 23) :
    emuCmpLong s = (emuSubLong s).map fun t => { t with rest := s.rest } := by
  rw [emuCmpLong_of_read h, emuSubLong_of_read h, Option.map_some, emuCmpX_eq_of_bit23 (and_bit23_eq_zero_of_lt hx)]

end Agree

/-! ## Where they differ: the borrow -/

/-- Bit C of SR after SUB or CMP is bit C of what `dsp_sub56` returned. -/
theorem testBit_setSubFlags_c (sr : Nat) (dest : Limbs56) (newsr : Nat) :
    (setSubFlags sr dest newsr).testBit dspSrC = newsr.testBit dspSrC := by
  have hmask : (bitmask 16 - ((1 <<< dspSrV) ||| (1 <<< dspSrC))).testBit dspSrC = false := by
    decide
  rw [setSubFlags, Nat.testBit_or, Nat.testBit_and, hmask, Bool.and_false, Bool.false_or]

theorem testBit_ccrBits_c (l v : Nat) (c : Bool) : (ccrBits l v c.toNat).testBit dspSrC = c := by
  cases c <;> simp [ccrBits, dspSrC, dspSrL, dspSrV]

/-- CMP and SUB on a long immediate `xxxx` with bit 23 set, against an
accumulator holding `xxxx` in its middle limb: SUB subtracts the sign-extended,
negative immediate, which is above the accumulator as an unsigned value, and
sets C; CMP subtracts the accumulator's own value and clears C. -/
theorem emuCmpLong_borrow_ne_emuSubLong (s : DspState) (xxxx : Nat)
    (hread : readMemoryP s (s.pc + 1) = some xxxx) (hx : 2 ^ 23 ≤ xxxx) (hx24 : xxxx < 2 ^ 24)
    (hacc : readAccu s.rest ((s.curInst >>> 3) &&& 1) = ⟨0, xxxx, 0⟩) :
    ∃ c t, emuCmpLong s = some c ∧ emuSubLong s = some t ∧
      c.sr.testBit dspSrC = false ∧ t.sr.testBit dspSrC = true := by
  have hd : Limbs56.InRange ⟨0, xxxx, 0⟩ :=
    ⟨show (0 : Nat) < 2 ^ 8 by decide, hx24, show (0 : Nat) < 2 ^ 24 by decide⟩
  have hcmp : Limbs56.InRange ⟨0x0, xxxx, 0⟩ := hd
  have hsub : Limbs56.InRange ⟨0xff, xxxx, 0⟩ :=
    ⟨show (0xff : Nat) < 2 ^ 8 by decide, hx24, show (0 : Nat) < 2 ^ 24 by decide⟩
  have hbit : xxxx &&& 1 <<< 23 ≠ 0 := (and_bit23_ne_zero_iff hx24).mpr hx
  refine ⟨_, _, emuCmpLong_of_read hread, emuSubLong_of_read hread, ?_, ?_⟩
  · -- the accumulator minus itself: no borrow
    simp only [emuCmpX, hacc]
    rw [testBit_setSubFlags_c, dspSub56_eq hcmp hd, testBit_ccrBits_c]
    simp
  · -- the accumulator minus `0xff:xxxx:000000`: a borrow
    simp only [emuSubX, hacc]
    rw [if_pos hbit, testBit_setSubFlags_c, dspSub56_eq hsub hd, testBit_ccrBits_c]
    simp only [Limbs56.value]
    exact decide_eq_true (by omega)

/-- `CMP #$800000,A` at address 0, with `A = 00:800000:000000`. -/
def cmpLongSample : DspState where
  pc := 0
  la := 0
  lc := 0
  lcsave := 0
  sr := 0
  sp := 0
  ssh := 0
  ssl := 0
  sshStack := fun _ => 0
  sslStack := fun _ => 0
  pram := fun i => if i = 1 then 0x800000 else 0x0140c5
  loopRep := false
  pcOnRep := false
  curInst := 0x0140c5
  curInstLen := 1
  rest := fun i => if i = dspRegA1 then 0x800000 else 0

theorem cmpLongSample_borrow :
    readMemoryP cmpLongSample (cmpLongSample.pc + 1) = some 0x800000 ∧
      readAccu cmpLongSample.rest ((cmpLongSample.curInst >>> 3) &&& 1) = ⟨0, 0x800000, 0⟩ ∧
      ∃ c t, emuCmpLong cmpLongSample = some c ∧ emuSubLong cmpLongSample = some t ∧
        c.sr.testBit dspSrC = false ∧ t.sr.testBit dspSrC = true :=
  ⟨by decide, by decide,
    emuCmpLong_borrow_ne_emuSubLong cmpLongSample 0x800000 (by decide) (by decide) (by decide)
      (by decide)⟩

end Xqemu.Dsp
