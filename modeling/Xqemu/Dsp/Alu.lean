import Xqemu.Dsp.Core
import Xqemu.Lib.TwosComplement

/-!
# The 56-bit accumulator arithmetic of the DSP (dsp_cpu.c)

An accumulator, or a source register sign-extended to 56 bits, is three limbs
of a `uint32_t[3]`: `[0]` holds bits 55..48, `[1]` bits 47..24 and `[2]` bits
23..0.  `dsp_asl56`, `dsp_add56` and `dsp_sub56` work limb by limb in
`uint32_t` arithmetic, passing carries and borrows on through bit 24 of the
lower limbs, and return the bits L, V and C of SR they produce.

Each helper is proved against the 56-bit value of its limbs: the limbs of the
result are those of the sum, difference or shift taken modulo `2 ^ 56`, and
the flags are the carry and the signed overflow of that operation.
-/

namespace Xqemu.Dsp

open Xqemu.TwosComplement

/-! ## The bits of SR the helpers return (DSP_SR_C, DSP_SR_V, DSP_SR_L) -/

def dspSrC : Nat := 0
def dspSrV : Nat := 1
def dspSrL : Nat := 6

/-- The three limbs `[0]`, `[1]`, `[2]` of a 56-bit value. -/
structure Limbs56 where
  l0 : Nat
  l1 : Nat
  l2 : Nat
deriving DecidableEq, Repr

namespace Limbs56

/-- The 56-bit value the limbs stand for. -/
def value (x : Limbs56) : Nat := x.l0 * 2 ^ 48 + x.l1 * 2 ^ 24 + x.l2

/-- Each limb within its width. -/
structure InRange (x : Limbs56) : Prop where
  l0_lt : x.l0 < 2 ^ 8
  l1_lt : x.l1 < 2 ^ 24
  l2_lt : x.l2 < 2 ^ 24

/-- The limbs of a value, taken modulo `2 ^ 56`. -/
def ofValue (v : Nat) : Limbs56 := ⟨v / 2 ^ 48 % 2 ^ 8, v / 2 ^ 24 % 2 ^ 24, v % 2 ^ 24⟩

theorem value_lt {x : Limbs56} (h : x.InRange) : x.value < 2 ^ 56 := by
  obtain ⟨h0, h1, h2⟩ := h
  unfold value
  omega

theorem ofValue_inRange (v : Nat) : (ofValue v).InRange :=
  ⟨Nat.mod_lt _ (by decide), Nat.mod_lt _ (by decide), Nat.mod_lt _ (by decide)⟩

theorem value_ofValue (v : Nat) : (ofValue v).value = v % 2 ^ 56 := by
  dsimp only [ofValue, value]
  omega

/-- The top bit of limb `[0]` is the sign bit of the value. -/
theorem sign_l0 {x : Limbs56} (h : x.InRange) : (x.l0 >>> 7) &&& 1 = (signBit 55 x.value).toNat := by
  obtain ⟨h0, h1, h2⟩ := h
  rw [Nat.shiftRight_eq_div_pow, Nat.and_one_is_mod]
  unfold signBit value
  by_cases hs : 2 ^ 55 ≤ x.l0 * 2 ^ 48 + x.l1 * 2 ^ 24 + x.l2
  · rw [decide_eq_true hs]
    simp only [Bool.toNat_true]
    omega
  · rw [decide_eq_false hs]
    simp only [Bool.toNat_false]
    omega

end Limbs56

/-- `uint32_t` addition. -/
def add32 (a b : Nat) : Nat := (a + b) % 2 ^ 32

/-- `uint32_t` subtraction. -/
def sub32 (a b : Nat) : Nat := (a + (2 ^ 32 - b % 2 ^ 32)) % 2 ^ 32

/-- `(overflow<<DSP_SR_L)|(v<<DSP_SR_V)|(carry<<DSP_SR_C)`, the value the ALU
helpers return. -/
def ccrBits (l v c : Nat) : Nat := (l <<< dspSrL) ||| (v <<< dspSrV) ||| (c <<< dspSrC)

/-- `dsp_asl56(dest, n)`: the shifted limbs and the bits L, V, C. -/
def dspAsl56 (dest : Limbs56) (n : Nat) : Limbs56 × Nat :=
  let destV := dest.l2 ||| (dest.l1 <<< 24) % 2 ^ 64 ||| (dest.l0 <<< 48) % 2 ^ 64
  let carry := (destV >>> (56 - n)) &&& 1
  let destS := (destV <<< n) % 2 ^ 64
  let overflow := if destV >>> (56 - n) ≠ 0 then 1 else 0
  let v := if (destV >>> 55) &&& 1 ≠ (destS >>> 55) &&& 1 then 1 else 0
  (⟨(destS >>> 48) &&& bitmask 8, (destS >>> 24) &&& bitmask 24, destS &&& bitmask 24⟩,
    ccrBits overflow v carry)

/-- The limb sums of `dsp_add56` before masking: each limb adds bit 24 of
the limb below. -/
def add56Raw (source dest : Limbs56) : Limbs56 :=
  let d2 := add32 dest.l2 source.l2
  let d1 := add32 dest.l1 (add32 source.l1 ((d2 >>> 24) &&& 1))
  let d0 := add32 dest.l0 (add32 source.l0 ((d1 >>> 24) &&& 1))
  ⟨d0, d1, d2⟩

/-- The limb differences of `dsp_sub56` before masking: each limb subtracts
bit 24 of the limb below. -/
def sub56Raw (source dest : Limbs56) : Limbs56 :=
  let d2 := sub32 dest.l2 source.l2
  let d1 := sub32 dest.l1 (add32 source.l1 ((d2 >>> 24) &&& 1))
  let d0 := sub32 dest.l0 (add32 source.l0 ((d1 >>> 24) &&& 1))
  ⟨d0, d1, d2⟩

/-- `dest[2] &= BITMASK(24); dest[1] &= BITMASK(24); dest[0] &= BITMASK(8)`. -/
def maskLimbs (x : Limbs56) : Limbs56 := ⟨x.l0 &&& bitmask 8, x.l1 &&& bitmask 24, x.l2 &&& bitmask 24⟩

/-- `dsp_add56(source, dest)`: `dest + source` and the bits L, V, C. -/
def dspAdd56 (source dest : Limbs56) : Limbs56 × Nat :=
  let flgS := (source.l0 >>> 7) &&& 1
  let flgD := (dest.l0 >>> 7) &&& 1
  let raw := add56Raw source dest
  let carry := (raw.l0 >>> 8) &&& 1
  let r := maskLimbs raw
  let flgR := (r.l0 >>> 7) &&& 1
  let overflow := (flgS ^^^ flgR) &&& (flgD ^^^ flgR)
  (r, ccrBits overflow overflow carry)

/-- `dsp_sub56(source, dest)`: `dest - source` and the bits L, V, C. -/
def dspSub56 (source dest : Limbs56) : Limbs56 × Nat :=
  let destSave := dest.l0 % 2 ^ 16
  let raw := sub56Raw source dest
  let carry := (raw.l0 >>> 8) &&& 1
  let r := maskLimbs raw
  let flgS := (source.l0 >>> 7) &&& 1
  let flgD := (destSave >>> 7) &&& 1
  let flgR := (r.l0 >>> 7) &&& 1
  let overflow := (flgS ^^^ flgD) &&& (flgR ^^^ flgD)
  (r, ccrBits overflow overflow carry)

theorem shiftRight_and_one (x k : Nat) : (x >>> k) &&& 1 = x / 2 ^ k % 2 := by
  rw [Nat.shiftRight_eq_div_pow, Nat.and_one_is_mod]

/-- The overflow test of the helpers on single bits. -/
theorem xor_and_toNat (a b r : Bool) :
    (a.toNat ^^^ r.toNat) &&& (b.toNat ^^^ r.toNat) = (decide (a = b ∧ r ≠ a)).toNat := by
  cases a <;> cases b <;> cases r <;> rfl

/-- `uint32_t` subtraction of two words: the difference, or the difference
wrapped around `2 ^ 32`. -/
theorem sub32_cases {a b : Nat} (ha : a < 2 ^ 32) (hb : b < 2 ^ 32) :
    (b ≤ a ∧ sub32 a b = a - b) ∨ (a < b ∧ sub32 a b = a + 2 ^ 32 - b) := by
  unfold sub32
  rcases Nat.lt_or_ge a b with h | h
  · exact Or.inr ⟨h, by rw [Nat.mod_eq_of_lt hb]; omega⟩
  · exact Or.inl ⟨h, by rw [Nat.mod_eq_of_lt hb]; omega⟩

/-- One limb of a subtraction: taking `b` (the source limb and the borrow
from below, at most `2 ^ k`) from a limb `a < 2 ^ k` in `uint32_t` leaves the
digit of `a - b` below bit `k` and the borrow out at bit `k`. -/
theorem sub32_limb {a b k : Nat} (hk : k = 8 ∨ k = 24) (ha : a < 2 ^ k) (hb : b ≤ 2 ^ k) :
    sub32 a b % 2 ^ k = (a + 2 ^ k - b) % 2 ^ k ∧ sub32 a b / 2 ^ k % 2 = if b ≤ a then 0 else 1 := by
  have hk24 : 2 ^ k ≤ 2 ^ 24 := by rcases hk with rfl | rfl <;> decide
  rcases sub32_cases (a := a) (b := b) (by omega) (by omega) with ⟨h, e⟩ | ⟨h, e⟩
  · rw [e, if_pos h]
    rcases hk with rfl | rfl <;> omega
  · rw [e, if_neg (by omega)]
    rcases hk with rfl | rfl <;> omega

section Limbs

variable {source dest : Limbs56}

theorem maskLimbs_add56Raw (hs : source.InRange) (hd : dest.InRange) :
    maskLimbs (add56Raw source dest) = Limbs56.ofValue (dest.value + source.value) := by
  obtain ⟨hs0, hs1, hs2⟩ := hs
  obtain ⟨hd0, hd1, hd2⟩ := hd
  simp only [maskLimbs, add56Raw, add32, shiftRight_and_one, and_bitmask, Limbs56.ofValue,
    Limbs56.value, Limbs56.mk.injEq]
  refine ⟨by omega, by omega, by omega⟩

/-- The carry out of bit 55 is bit 8 of the top limb sum. -/
theorem carry_add56Raw (hs : source.InRange) (hd : dest.InRange) :
    ((add56Raw source dest).l0 >>> 8) &&& 1 = (decide (2 ^ 56 ≤ dest.value + source.value)).toNat := by
  obtain ⟨hs0, hs1, hs2⟩ := hs
  obtain ⟨hd0, hd1, hd2⟩ := hd
  by_cases hc : 2 ^ 56 ≤ dest.value + source.value
  · rw [decide_eq_true hc, Bool.toNat_true]
    simp only [add56Raw, add32, shiftRight_and_one, Limbs56.value] at hc ⊢
    omega
  · rw [decide_eq_false hc, Bool.toNat_false]
    simp only [add56Raw, add32, shiftRight_and_one, Limbs56.value] at hc ⊢
    omega

/-- The limbs and the borrow of `dsp_sub56`, limb by limb. -/
theorem sub56Raw_digits (hs : source.InRange) (hd : dest.InRange) :
    let raw := sub56Raw source dest
    let b2 := if source.l2 ≤ dest.l2 then 0 else 1
    let b1 := if source.l1 + b2 ≤ dest.l1 then 0 else 1
    raw.l2 % 2 ^ 24 = (dest.l2 + 2 ^ 24 - source.l2) % 2 ^ 24 ∧
      raw.l1 % 2 ^ 24 = (dest.l1 + 2 ^ 24 - (source.l1 + b2)) % 2 ^ 24 ∧
      raw.l0 % 2 ^ 8 = (dest.l0 + 2 ^ 8 - (source.l0 + b1)) % 2 ^ 8 ∧
      raw.l0 / 2 ^ 8 % 2 = if source.l0 + b1 ≤ dest.l0 then 0 else 1 := by
  obtain ⟨hs0, hs1, hs2⟩ := hs
  obtain ⟨hd0, hd1, hd2⟩ := hd
  intro raw b2 b1
  obtain ⟨m2, c2⟩ := sub32_limb (a := dest.l2) (b := source.l2) (Or.inr rfl) hd2 (by omega)
  have hb2 : b2 ≤ 1 := by
    simp only [b2]
    split_ifs <;> omega
  have hc2 : (sub32 dest.l2 source.l2 >>> 24) &&& 1 = b2 := by rw [shiftRight_and_one, c2]
  obtain ⟨m1, c1⟩ := sub32_limb (a := dest.l1) (b := source.l1 + b2) (Or.inr rfl) hd1 (by omega)
  have hb1 : b1 ≤ 1 := by
    simp only [b1]
    split_ifs <;> omega
  have hc1 : (sub32 dest.l1 (source.l1 + b2) >>> 24) &&& 1 = b1 := by rw [shiftRight_and_one, c1]
  obtain ⟨m0, c0⟩ := sub32_limb (a := dest.l0) (b := source.l0 + b1) (Or.inl rfl) hd0 (by omega)
  have hadd2 : add32 source.l1 b2 = source.l1 + b2 := Nat.mod_eq_of_lt (by omega)
  have hadd1 : add32 source.l0 b1 = source.l0 + b1 := Nat.mod_eq_of_lt (by omega)
  simp only [raw, sub56Raw, hc2, hadd2, hc1, hadd1]
  exact ⟨m2, m1, m0, c0⟩

theorem maskLimbs_sub56Raw (hs : source.InRange) (hd : dest.InRange) :
    maskLimbs (sub56Raw source dest) = Limbs56.ofValue (dest.value + 2 ^ 56 - source.value) := by
  obtain ⟨m2, m1, m0, -⟩ := sub56Raw_digits hs hd
  obtain ⟨hs0, hs1, hs2⟩ := hs
  obtain ⟨hd0, hd1, hd2⟩ := hd
  simp only [maskLimbs, and_bitmask, m2, m1, m0, Limbs56.ofValue, Limbs56.value, Limbs56.mk.injEq]
  refine ⟨?_, ?_, by omega⟩ <;> split_ifs <;> omega

/-- The borrow is bit 8 of the top limb difference. -/
theorem borrow_sub56Raw (hs : source.InRange) (hd : dest.InRange) :
    ((sub56Raw source dest).l0 >>> 8) &&& 1 = (decide (dest.value < source.value)).toNat := by
  obtain ⟨-, -, -, c0⟩ := sub56Raw_digits hs hd
  obtain ⟨hs0, hs1, hs2⟩ := hs
  obtain ⟨hd0, hd1, hd2⟩ := hd
  rw [shiftRight_and_one, c0]
  by_cases hc : dest.value < source.value
  · rw [decide_eq_true hc, Bool.toNat_true]
    simp only [Limbs56.value] at hc
    split_ifs <;> omega
  · rw [decide_eq_false hc, Bool.toNat_false]
    simp only [Limbs56.value] at hc
    split_ifs <;> omega

/-- The 64-bit word `dsp_asl56` builds from in-range limbs is their value. -/
theorem asl56_word (hd : dest.InRange) :
    dest.l2 ||| (dest.l1 <<< 24) % 2 ^ 64 ||| (dest.l0 <<< 48) % 2 ^ 64 = dest.value := by
  obtain ⟨h0, h1, h2⟩ := hd
  have e1 : (dest.l1 <<< 24) % 2 ^ 64 = dest.l1 <<< 24 :=
    Nat.mod_eq_of_lt (by rw [Nat.shiftLeft_eq]; omega)
  have e0 : (dest.l0 <<< 48) % 2 ^ 64 = dest.l0 <<< 48 :=
    Nat.mod_eq_of_lt (by rw [Nat.shiftLeft_eq]; omega)
  have hlow : dest.l1 <<< 24 + dest.l2 < 2 ^ 48 := by
    rw [Nat.shiftLeft_eq]
    omega
  rw [e1, e0, Nat.or_comm dest.l2, ← Nat.shiftLeft_add_eq_or_of_lt h2, Nat.or_comm,
    ← Nat.shiftLeft_add_eq_or_of_lt hlow]
  simp only [Nat.shiftLeft_eq, Limbs56.value]
  omega

/-- `dsp_asl56` on in-range limbs shifts the value left, modulo `2 ^ 56`. -/
theorem dspAsl56_fst (hd : dest.InRange) (n : Nat) :
    (dspAsl56 dest n).1 = Limbs56.ofValue (dest.value * 2 ^ n) := by
  simp only [dspAsl56, asl56_word hd]
  simp only [and_bitmask, Nat.shiftLeft_eq, Nat.shiftRight_eq_div_pow, Limbs56.ofValue,
    Limbs56.mk.injEq]
  generalize dest.value * 2 ^ n = x
  omega

/-- The overflow bit of `dsp_add56` from the three sign bits. -/
theorem add_overflow_bit (hs : source.InRange) (hd : dest.InRange) :
    ((signBit 55 source.value).toNat ^^^ (signBit 55 ((dest.value + source.value) % 2 ^ 56)).toNat) &&&
        ((signBit 55 dest.value).toNat ^^^ (signBit 55 ((dest.value + source.value) % 2 ^ 56)).toNat) =
      (decide (AddOverflows 55 dest.value source.value)).toNat := by
  rw [xor_and_toNat]
  congr 1
  rw [decide_eq_decide, addOverflows_iff (Limbs56.value_lt hd) (Limbs56.value_lt hs)]
  generalize signBit 55 source.value = a
  generalize signBit 55 dest.value = b
  generalize signBit 55 ((dest.value + source.value) % 2 ^ (55 + 1)) = r
  revert a b r
  decide

/-- The overflow bit of `dsp_sub56` from the three sign bits. -/
theorem sub_overflow_bit (hs : source.InRange) (hd : dest.InRange) :
    ((signBit 55 source.value).toNat ^^^ (signBit 55 dest.value).toNat) &&&
        ((signBit 55 ((dest.value + 2 ^ 56 - source.value) % 2 ^ 56)).toNat ^^^
          (signBit 55 dest.value).toNat) =
      (decide (SubOverflows 55 dest.value source.value)).toNat := by
  rw [xor_and_toNat]
  congr 1
  rw [decide_eq_decide, subOverflows_iff (Limbs56.value_lt hd) (Limbs56.value_lt hs)]
  generalize signBit 55 source.value = a
  generalize signBit 55 dest.value = b
  generalize signBit 55 ((dest.value + 2 ^ (55 + 1) - source.value) % 2 ^ (55 + 1)) = r
  revert a b r
  decide

/-- `dsp_add56` on in-range limbs: the limbs of the sum modulo `2 ^ 56`,
its carry out of bit 55 in C and its signed overflow in both L and V. -/
theorem dspAdd56_eq (hs : source.InRange) (hd : dest.InRange) :
    dspAdd56 source dest =
      (Limbs56.ofValue (dest.value + source.value),
        ccrBits (decide (AddOverflows 55 dest.value source.value)).toNat
          (decide (AddOverflows 55 dest.value source.value)).toNat
          (decide (2 ^ 56 ≤ dest.value + source.value)).toNat) := by
  simp only [dspAdd56, carry_add56Raw hs hd, maskLimbs_add56Raw hs hd, Limbs56.sign_l0 hs,
    Limbs56.sign_l0 hd, Limbs56.sign_l0 (Limbs56.ofValue_inRange _), Limbs56.value_ofValue,
    add_overflow_bit hs hd]

/-- `dsp_sub56` on in-range limbs: the limbs of the difference modulo
`2 ^ 56`, its borrow in C and its signed overflow in both L and V. -/
theorem dspSub56_eq (hs : source.InRange) (hd : dest.InRange) :
    dspSub56 source dest =
      (Limbs56.ofValue (dest.value + 2 ^ 56 - source.value),
        ccrBits (decide (SubOverflows 55 dest.value source.value)).toNat
          (decide (SubOverflows 55 dest.value source.value)).toNat
          (decide (dest.value < source.value)).toNat) := by
  have hsave : dest.l0 % 2 ^ 16 = dest.l0 := Nat.mod_eq_of_lt (by have := hd.l0_lt; omega)
  simp only [dspSub56, hsave, borrow_sub56Raw hs hd, maskLimbs_sub56Raw hs hd, Limbs56.sign_l0 hs,
    Limbs56.sign_l0 hd, Limbs56.sign_l0 (Limbs56.ofValue_inRange _), Limbs56.value_ofValue,
    sub_overflow_bit hs hd]

/-- Adding the most negative value to itself: the sum wraps to zero with
carry and overflow. -/
example : dspAdd56 ⟨0x80, 0, 0⟩ ⟨0x80, 0, 0⟩ = (⟨0, 0, 0⟩, 0x43) := by decide

/-- Both 56-bit helpers are exact on in-range limbs: the result limbs are in
range and hold the sum, resp. the difference, modulo `2 ^ 56`; C is the carry
out of bit 55, resp. the borrow; L and V are both the signed overflow. -/
theorem dsp_add56_sub56_exact (source dest : Limbs56) (hs : source.InRange) (hd : dest.InRange) :
    let add := dspAdd56 source dest
    let sub := dspSub56 source dest
    (add.1.InRange ∧ add.1.value = (dest.value + source.value) % 2 ^ 56 ∧
        add.2 = ccrBits (decide (AddOverflows 55 dest.value source.value)).toNat
          (decide (AddOverflows 55 dest.value source.value)).toNat
          (decide (2 ^ 56 ≤ dest.value + source.value)).toNat) ∧
      (sub.1.InRange ∧ (sub.1.value : Int) = ((dest.value : Int) - source.value) % 2 ^ 56 ∧
        sub.2 = ccrBits (decide (SubOverflows 55 dest.value source.value)).toNat
          (decide (SubOverflows 55 dest.value source.value)).toNat
          (decide (dest.value < source.value)).toNat) := by
  intro add sub
  have hsub : (((dest.value + 2 ^ 56 - source.value) % 2 ^ 56 : Nat) : Int) =
      ((dest.value : Int) - source.value) % 2 ^ 56 := by
    have := Limbs56.value_lt hs
    omega
  simp only [add, sub, dspAdd56_eq hs hd, dspSub56_eq hs hd, Limbs56.value_ofValue]
  exact ⟨⟨Limbs56.ofValue_inRange _, trivial, trivial⟩, Limbs56.ofValue_inRange _, hsub, trivial⟩

/-- The most negative accumulator value taken with itself. -/
theorem add56_sub56_most_negative :
    ((⟨0x80, 0, 0⟩ : Limbs56).InRange ∧ (⟨0x80, 0, 0⟩ : Limbs56).InRange) ∧
      let add := dspAdd56 ⟨0x80, 0, 0⟩ ⟨0x80, 0, 0⟩
      let sub := dspSub56 ⟨0x80, 0, 0⟩ ⟨0x80, 0, 0⟩
      (add.1.InRange ∧ add.1.value = ((⟨0x80, 0, 0⟩ : Limbs56).value + (⟨0x80, 0, 0⟩ : Limbs56).value) % 2 ^ 56 ∧
          add.2 = ccrBits (decide (AddOverflows 55 (⟨0x80, 0, 0⟩ : Limbs56).value (⟨0x80, 0, 0⟩ : Limbs56).value)).toNat
            (decide (AddOverflows 55 (⟨0x80, 0, 0⟩ : Limbs56).value (⟨0x80, 0, 0⟩ : Limbs56).value)).toNat
            (decide (2 ^ 56 ≤ (⟨0x80, 0, 0⟩ : Limbs56).value + (⟨0x80, 0, 0⟩ : Limbs56).value)).toNat) ∧
        (sub.1.InRange ∧ (sub.1.value : Int) =
            (((⟨0x80, 0, 0⟩ : Limbs56).value : Int) - (⟨0x80, 0, 0⟩ : Limbs56).value) % 2 ^ 56 ∧
          sub.2 = ccrBits (decide (SubOverflows 55 (⟨0x80, 0, 0⟩ : Limbs56).value (⟨0x80, 0, 0⟩ : Limbs56).value)).toNat
            (decide (SubOverflows 55 (⟨0x80, 0, 0⟩ : Limbs56).value (⟨0x80, 0, 0⟩ : Limbs56).value)).toNat
            (decide ((⟨0x80, 0, 0⟩ : Limbs56).value < (⟨0x80, 0, 0⟩ : Limbs56).value)).toNat) :=
  have h : (⟨0x80, 0, 0⟩ : Limbs56).InRange := ⟨by decide, by decide, by decide⟩
  ⟨⟨h, h⟩, dsp_add56_sub56_exact _ _ h h⟩

end Limbs

end Xqemu.Dsp
