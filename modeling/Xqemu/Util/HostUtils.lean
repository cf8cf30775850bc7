import Xqemu.Lib.Scan
import Xqemu.Lib.TwosComplement
import Xqemu.Lib.NonRestoring
import Xqemu.Lib.WordBits

/-!
# Host utilities (util/host-utils.c, include/qemu/host-utils.h)

The bit counts `ctz64`, `cto64` and `ctpop64` that the hierarchical bitmap
uses, and the 128-by-64-bit divisions `divu128` and `divs128` in both of their
versions: the inline ones of host-utils.h on hosts with `__int128`
(CONFIG_INT128), and the shift-subtract ones of host-utils.c elsewhere.

A 64-bit word is a `Nat` below `2^64`; `int64_t` values are such words read by
`toSigned 63`.  A division returns its return value followed by `*plow` and
`*phigh` after the call.
-/

namespace Xqemu.Util

open Xqemu.Scan Xqemu.TwosComplement Xqemu.Words

/-- `ctz64(val)`: the number of trailing zeros, 64 for zero. -/
def ctz64 (val : Nat) : Nat := firstFrom val.testBit 64 0

/-- `ctz32(val)`: the number of trailing zeros of a 32-bit value, 32 for zero. -/
def ctz32 (val : Nat) : Nat := firstFrom val.testBit 32 0

/-- `cto64(val) = ctz64(~val)`: the number of trailing ones. -/
def cto64 (val : Nat) : Nat := ctz64 (val ^^^ (2 ^ 64 - 1))

/-- `ctpop64(val)`: the number of one bits. -/
def ctpop64 (val : Nat) : Nat := (List.range 64).countP val.testBit

/-- One turn of the loop of the generic `divu128`: the top bit of `dhi` goes to
`carry`, `dhi:dlo` is shifted left, and the divisor is subtracted when it fits,
the quotient bit coming in at the bottom of `dlo`. -/
def divu128Step (divisor : Nat) (s : Nat × Nat) : Nat × Nat :=
  let carry := s.1 >>> 63
  let dhi := ((s.1 <<< 1) ||| (s.2 >>> 63)) % 2 ^ 64
  if carry ≠ 0 ∨ dhi ≥ divisor then
    ((dhi + 2 ^ 64 - divisor) % 2 ^ 64, ((s.2 <<< 1) ||| 1) % 2 ^ 64)
  else (dhi, ((s.2 <<< 1) ||| 0) % 2 ^ 64)

/-- `n` turns of the loop of the generic `divu128` on `(dhi, dlo)`. -/
def divu128Loop (divisor : Nat) : Nat → Nat × Nat → Nat × Nat
  | 0, s => s
  | n + 1, s => divu128Loop divisor n (divu128Step divisor s)

/-- `divu128(plow, phigh, divisor)` of util/host-utils.c. -/
def divu128 (plow phigh divisor : Nat) : Nat × Nat × Nat :=
  if divisor = 0 then (1, plow, phigh)
  else if phigh = 0 then (0, plow / divisor, plow % divisor)
  else if phigh > divisor then (1, plow, phigh)
  else
    let s := divu128Loop divisor 64 (phigh, plow)
    (0, s.2, s.1)

/-- `divu128` of host-utils.h under CONFIG_INT128. -/
def divu128Int128 (plow phigh divisor : Nat) : Nat × Nat × Nat :=
  if divisor = 0 then (1, plow, phigh)
  else
    let dividend := (phigh <<< 64) ||| plow
    let result := dividend / divisor
    (if result > 2 ^ 64 - 1 then 1 else 0, result % 2 ^ 64, dividend % divisor)

/-- The negation of the dividend in `divs128`: both words complemented, and
one added to the low word with its carry into the high word. -/
def negate128 (lo hi : Nat) : Nat × Nat :=
  if lo ^^^ (2 ^ 64 - 1) = 2 ^ 64 - 1 then (0, ((hi ^^^ (2 ^ 64 - 1)) + 1) % 2 ^ 64)
  else ((lo ^^^ (2 ^ 64 - 1)) + 1, hi ^^^ (2 ^ 64 - 1))

/-- `divs128(plow, phigh, divisor)` of util/host-utils.c on the bit patterns of
its `int64_t` arguments: the dividend and divisor are made nonnegative, divided
by `divu128`, and the quotient negated back when the signs differ. -/
def divs128 (plow phigh divisor : Nat) : Nat × Nat × Nat :=
  let sgnDvdnd := decide (toSigned 63 phigh < 0)
  let sgnDivsr := decide (toSigned 63 divisor < 0)
  let n := if sgnDvdnd then negate128 plow phigh else (plow, phigh)
  let r := divu128 n.1 n.2 (if sgnDivsr then (2 ^ 64 - divisor) % 2 ^ 64 else divisor)
  let lo := if sgnDvdnd ≠ sgnDivsr then (2 ^ 64 - r.2.1) % 2 ^ 64 else r.2.1
  (if r.1 = 0 then (if decide (toSigned 63 lo < 0) ≠ (sgnDvdnd ≠ sgnDivsr) then 1 else 0) else r.1,
    lo, r.2.2)

/-- The bits of `(__int128_t)x` for an `int64_t` of bit pattern `x`: the sign
is copied into the upper 64 bits. -/
def signExtend128 (x : Nat) : Nat := if x < 2 ^ 63 then x else x + (2 ^ 128 - 2 ^ 64)

/-- `divs128` of host-utils.h under CONFIG_INT128.  The dividend is
`((__int128_t)*phigh << 64) | *plow`, where `*plow` is an `int64_t` and so is
sign-extended before the OR; C's `/` and `%` truncate. -/
def divs128Int128 (plow phigh divisor : Nat) : Nat × Nat × Nat :=
  if divisor = 0 then (1, plow, phigh)
  else
    let dividend := toSigned 127 (((phigh <<< 64) ||| signExtend128 plow) % 2 ^ 128)
    let result := dividend.tdiv (toSigned 63 divisor)
    let lo := (result % 2 ^ 64).toNat
    (if result ≠ toSigned 63 lo then 1 else 0, lo, (dividend.tmod (toSigned 63 divisor) % 2 ^ 64).toNat)

/-- `helper_divdeu(env, ra, rb, oe)` of target/ppc/int_helper.c: the result and
the overflow that goes to OV. -/
def helperDivdeu (ra rb : Nat) : Nat × Nat :=
  let r := divu128 0 ra rb
  (if r.1 ≠ 0 then 0 else r.2.1, r.1)

/-- `helper_divde(env, ra, rb, oe)`, on the generic `divs128`. -/
def helperDivde (ra rb : Nat) : Nat × Nat :=
  let r := divs128 0 ra rb
  (if r.1 ≠ 0 then 0 else r.2.1, r.1)

/-! ## What the divisions compute

`divu128` is to return 1 exactly when the divisor is zero or the quotient of
`*phigh * 2^64 + *plow` needs more than 64 bits, and otherwise leave the
quotient in `*plow` and the remainder in `*phigh`.  The CONFIG_INT128 version
does; the generic one misses the overflow when the high word equals the
divisor.  Both versions of `divs128` diverge from the signed analogue: the
generic one reports an overflow whenever the signs differ and the quotient
truncates to 0, and the CONFIG_INT128 one sign-extends the low word into the
dividend.
-/

/-- The dividend `*phigh * 2^64 + *plow`. -/
def join128 (lo hi : Nat) : Nat := hi * 2 ^ 64 + lo

theorem shiftLeft_or_eq_join128 {lo : Nat} (hlo : lo < 2 ^ 64) (hi : Nat) :
    (hi <<< 64) ||| lo = join128 lo hi := by
  rw [← Nat.shiftLeft_add_eq_or_of_lt hlo, Nat.shiftLeft_eq, join128]

theorem divu128Int128_eq {plow : Nat} (phigh : Nat) {divisor : Nat} (hlo : plow < 2 ^ 64)
    (hd : 0 < divisor) :
    divu128Int128 plow phigh divisor =
      (if 2 ^ 64 ≤ join128 plow phigh / divisor then 1 else 0,
        join128 plow phigh / divisor % 2 ^ 64, join128 plow phigh % divisor) := by
  have hne : divisor ≠ 0 := by omega
  simp only [divu128Int128, hne, if_false, shiftLeft_or_eq_join128 hlo]
  by_cases h : 2 ^ 64 ≤ join128 plow phigh / divisor
  · rw [if_pos h, if_pos (by omega)]
  · rw [if_neg h, if_neg (by omega)]

/-- The generic `divu128` tests `dhi > divisor`, so a high word equal to the
divisor runs the loop: it reports no overflow although the quotient needs 65
bits, and `helper_divdeu` leaves OV clear. -/
theorem divu128_high_eq_divisor (plow d : Nat) (hd : 0 < d) :
    (divu128 plow d d).1 = 0 ∧ (helperDivdeu d d).2 = 0 ∧ 2 ^ 64 ≤ join128 plow d / d := by
  have hne : d ≠ 0 := by omega
  have hloop : (divu128 plow d d).1 = 0 := by
    simp [divu128, hne]
  have hhelper : (helperDivdeu d d).2 = 0 := by
    simp [helperDivdeu, divu128, hne]
  refine ⟨hloop, hhelper, ?_⟩
  rw [Nat.le_div_iff_mul_le hd, join128]
  have := Nat.mul_comm d (2 ^ 64)
  omega

theorem divu128_high_eq_divisor_one :
    (0 : Nat) < 1 ∧ (divu128 0 1 1).1 = 0 ∧ (helperDivdeu 1 1).2 = 0 ∧ 2 ^ 64 ≤ join128 0 1 / 1 :=
  ⟨by decide, divu128_high_eq_divisor 0 1 (by decide)⟩

/-- `negate128` is the two's complement negation of the 128-bit dividend. -/
theorem negate128_spec {lo hi : Nat} (hlo : lo < 2 ^ 64) (hhi : hi < 2 ^ 64) :
    (negate128 lo hi).1 < 2 ^ 64 ∧ (negate128 lo hi).2 < 2 ^ 64 ∧
      join128 (negate128 lo hi).1 (negate128 lo hi).2 = (2 ^ 128 - join128 lo hi) % 2 ^ 128 := by
  rw [negate128, xor_ones_eq_sub hlo, xor_ones_eq_sub hhi]
  unfold join128
  split_ifs with hzero
  · -- the low word is 0, so the carry goes into the high word
    have hlo0 : lo = 0 := by omega
    subst hlo0
    omega
  · dsimp only
    omega

/-- With its high word 0, the generic `divu128` is one machine division. -/
theorem divu128_of_lt {lo d : Nat} (hlt : lo < d) : divu128 lo 0 d = (0, 0, lo) := by
  simp only [divu128, if_neg (show d ≠ 0 by omega), if_true, Nat.div_eq_of_lt hlt, Nat.mod_eq_of_lt hlt]

/-- The generic `divs128` when the signs differ and the quotient truncates to 0:
the 0 it leaves in `*plow` is read as nonnegative, against the sign the quotient
should have, so an overflow is reported; and the remainder is the magnitude of
the dividend, without its sign. -/
theorem divs128_zero_quotient {plow phigh divisor : Nat} (hlo : plow < 2 ^ 64) (hhi : phigh < 2 ^ 64)
    (hd : divisor < 2 ^ 64)
    (hsigns : toSigned 127 (join128 plow phigh) < 0 ↔ 0 ≤ toSigned 63 divisor)
    (hlt : (toSigned 127 (join128 plow phigh)).natAbs < (toSigned 63 divisor).natAbs) :
    divs128 plow phigh divisor = (1, 0, (toSigned 127 (join128 plow phigh)).natAbs) ∧
      (toSigned 127 (join128 plow phigh)).tdiv (toSigned 63 divisor) = 0 := by
  have hquot : (toSigned 127 (join128 plow phigh)).tdiv (toSigned 63 divisor) = 0 := by
    apply Int.natAbs_eq_zero.mp
    rw [Int.natAbs_tdiv]
    exact Nat.div_eq_of_lt hlt
  have hJ : join128 plow phigh < 2 ^ 128 := by
    unfold join128
    omega
  refine ⟨?_, hquot⟩
  by_cases hneg : toSigned 63 phigh < 0
  · -- a negative dividend over a positive divisor: the dividend is negated first
    have hA : 2 ^ 127 ≤ join128 plow phigh := by
      have := (toSigned_neg_iff hhi).mp hneg
      unfold join128
      omega
    have ha := toSigned_of_le hA
    have hpos : ¬toSigned 63 divisor < 0 := Int.not_lt.mpr (hsigns.mp (by rw [ha]; omega))
    have hb := toSigned_of_lt (Nat.not_le.mp (mt (toSigned_neg_iff hd).mpr hpos))
    rw [ha, hb] at hlt
    obtain ⟨h₁, h₂, hjoin⟩ := negate128_spec hlo hhi
    have hn : negate128 plow phigh = (2 ^ 128 - join128 plow phigh, 0) := by
      unfold join128 at hjoin hlt hA ⊢
      ext <;> omega
    simp only [divs128, hneg, hpos, decide_true, decide_false, if_true, Bool.false_eq_true, if_false,
      hn, divu128_of_lt (show 2 ^ 128 - join128 plow phigh < divisor by omega)]
    have habs : (toSigned 127 (join128 plow phigh)).natAbs = 2 ^ 128 - join128 plow phigh := by
      rw [ha]
      omega
    rw [habs]
    simp [toSigned]
  · -- a nonnegative dividend over a negative divisor: the divisor is negated first
    have hA : join128 plow phigh < 2 ^ 127 := by
      have := Nat.not_le.mp (mt (toSigned_neg_iff hhi).mpr hneg)
      unfold join128
      omega
    have ha := toSigned_of_lt hA
    have hbneg : toSigned 63 divisor < 0 := by
      refine Int.not_le.mp fun hb => ?_
      have := hsigns.mpr hb
      rw [ha] at this
      omega
    have hd63 := (toSigned_neg_iff hd).mp hbneg
    have hb := toSigned_of_le hd63
    rw [ha, hb] at hlt
    -- the dividend is below the divisor's magnitude, so its high word is 0
    have hphigh : phigh = 0 := by
      unfold join128 at hlt
      omega
    subst hphigh
    have hplow : join128 plow 0 = plow := by simp [join128]
    rw [hplow] at hlt ha ⊢
    simp only [divs128, hneg, hbneg, decide_true, decide_false, if_true, Bool.false_eq_true, if_false,
      Nat.mod_eq_of_lt (show 2 ^ 64 - divisor < 2 ^ 64 by omega),
      divu128_of_lt (show plow < 2 ^ 64 - divisor by omega), ha]
    simp [toSigned]

/-- The generic `divs128` on the dividend -1 and a positive divisor of at least
2: the quotient 0 fits, yet the sign test reports an overflow, and the
remainder comes back as 1 instead of -1. -/
theorem divs128_minus_one {d : Nat} (h₂ : 2 ≤ d) (hd : d < 2 ^ 63) :
    divs128 (2 ^ 64 - 1) (2 ^ 64 - 1) d = (1, 0, 1) ∧
      (-1 : Int).tdiv d = 0 ∧ (-1 : Int).tmod d = -1 := by
  have hdividend : toSigned 127 (join128 (2 ^ 64 - 1) (2 ^ 64 - 1)) = -1 := by decide
  have hdivisor : toSigned 63 d = d := toSigned_of_lt hd
  obtain ⟨hdiv, hquot⟩ := @divs128_zero_quotient (2 ^ 64 - 1) (2 ^ 64 - 1) d (by omega) (by omega) (by omega)
    (by rw [hdividend, hdivisor]; omega) (by rw [hdividend, hdivisor]; omega)
  rw [hdividend, hdivisor] at hquot
  rw [hdividend] at hdiv
  refine ⟨hdiv, hquot, ?_⟩
  rw [Int.neg_tmod, Int.tmod_eq_emod_of_nonneg (by omega), Int.emod_eq_of_lt (by omega) (by omega)]

/-- `helper_divde` on a zero dividend and a negative divisor: the quotient 0
is exact, yet OV is set. -/
theorem helperDivde_zero_by_negative {rb : Nat} (h₁ : 2 ^ 63 ≤ rb) (h₂ : rb < 2 ^ 64) :
    helperDivde 0 rb = (0, 1) := by
  have hdividend : toSigned 127 (join128 0 0) = 0 := by decide
  have hdivisor := toSigned_of_le h₁
  obtain ⟨hdiv, -⟩ := @divs128_zero_quotient 0 0 rb (by omega) (by omega) h₂
    (by rw [hdividend, hdivisor]; omega) (by rw [hdividend, hdivisor]; omega)
  simp only [helperDivde, hdiv]
  decide

/-- The CONFIG_INT128 `divs128` ORs the sign-extended `*plow` into the
dividend: with a high word of 0 and a low word of at least `2^63`, the dividend
becomes negative, and dividing it by 1 reports no overflow although the
quotient `*plow` is above `INT64_MAX`. -/
theorem divs128Int128_sign_extends {plow : Nat} (h₁ : 2 ^ 63 ≤ plow) (h₂ : plow < 2 ^ 64) :
    divs128Int128 plow 0 1 = (0, plow, 0) ∧ 2 ^ 63 ≤ join128 plow 0 := by
  refine ⟨?_, by simp only [join128]; omega⟩
  have hext : signExtend128 plow = plow + (2 ^ 128 - 2 ^ 64) := by
    simp only [signExtend128, if_neg (show ¬plow < 2 ^ 63 by omega)]
  have hdividend : toSigned 127 (((0 <<< 64) ||| signExtend128 plow) % 2 ^ 128) = (plow : Int) - 2 ^ 64 := by
    rw [hext, Nat.zero_shiftLeft, Nat.zero_or, Nat.mod_eq_of_lt (by omega)]
    simp only [toSigned, if_neg (show ¬plow + (2 ^ 128 - 2 ^ 64) < 2 ^ 127 by omega)]
    omega
  have hlo : (((plow : Int) - 2 ^ 64) % 2 ^ 64).toNat = plow := by omega
  have hsigned : toSigned 63 plow = (plow : Int) - 2 ^ 64 := by
    simp only [toSigned, if_neg (show ¬plow < 2 ^ 63 by omega)]
  simp only [divs128Int128, Nat.one_ne_zero, if_false, hdividend, show toSigned 63 1 = 1 by decide,
    Int.tdiv_one, Int.tmod_one, hlo, hsigned]
  simp

end Xqemu.Util
