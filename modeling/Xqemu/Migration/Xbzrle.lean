import Xqemu.Lib.Scan
import Xqemu.Lib.ZeroByte
import Xqemu.Util.Uleb128

/-!
# XBZRLE page encoding (migration/xbzrle.c)

`xbzrle_encode_buffer` encodes a page `new_buf` against its previous contents
`old_buf` as alternating runs: a zero run, where the two agree, written as its
length, and a non-zero run, written as its length and the new bytes.  Each
turn of the main loop walks a zero run, byte by byte up to a `long` boundary,
then a `long` at a time, then byte by byte, and then a non-zero run the same
way, except that its word loop looks for a zero byte in the xor of the two
words and finishes that word byte by byte.  `xbzrle_decode_buffer` applies an
encoding to a page.

Pages and buffers are byte memories and pointers are offsets into them; a
`long` is the 8 bytes of a 64-bit host, read little-endian.  The loops the C
code runs without a bound take fuel, and `none` is the fuel running out or a
failed assertion.  Results of type `int` are `Int`; the sizes `slen` and
`dlen` are `Nat`.

The lemmas at the end give each phase of the encoder's loop its meaning as a
scan: the zero run ends at the first position where the pages differ, the
non-zero run at the first position after it where they agree.
-/

namespace Xqemu.Migration

open Xqemu.Memory Xqemu.Util Xqemu.Scan Xqemu.ZeroByte

/-- `old_buf[i] != new_buf[i]`. -/
def differs (old new : Mem) (k : Nat) : Bool := old k != new k

/-- `old_buf[i] == new_buf[i]`. -/
def agrees (old new : Mem) (k : Nat) : Bool := old k == new k

/-- The fuel of the inner loops, more turns than any of them takes on a page
of `slen` bytes. -/
def innerFuel (slen : Nat) : Nat := slen + 8

/-- The zero run of a turn of the main loop from `i`: where it ends, and
`zrun_len`. -/
def zeroRun (old new : Mem) (slen i : Nat) : Option (Nat × Nat) :=
  let (res, i, zrunLen) := alignLoop (differs old new) ((slen - i) % 8) i 0
  if res = 0 then
    match countLoop (fun k => decide (k < slen) && decide (loadLe old k 8 = loadLe new k 8)) 8
        (innerFuel slen) i zrunLen with
    | none => none
    | some (i, zrunLen) =>
        countLoop (fun k => decide (k < slen) && agrees old new k) 1 (innerFuel slen) i zrunLen
  else some (i, zrunLen)

/-- The word loop of a non-zero run: a word whose xor has a zero byte holds
the end of the run, which the byte loop inside then finds. -/
def nzWordLoop (old new : Mem) (slen : Nat) : Nat → Nat → Nat → Option (Nat × Nat)
  | 0, i, len => if i < slen then none else some (i, len)
  | fuel + 1, i, len =>
      if i < slen then
        let mask : UInt64 := 0x0101010101010101
        let xor := UInt64.ofNat (loadLe old i 8) ^^^ UInt64.ofNat (loadLe new i 8)
        if (xor - mask) &&& ~~~xor &&& (mask <<< 7) ≠ 0 then
          countLoop (differs old new) 1 fuel i len
        else nzWordLoop old new slen fuel (i + 8) (len + 8)
      else some (i, len)

/-- The non-zero run of a turn of the main loop from `i`: where it ends, and
`nzrun_len`. -/
def nonzeroRun (old new : Mem) (slen i : Nat) : Option (Nat × Nat) :=
  let (res, i, nzrunLen) := alignLoop (agrees old new) ((slen - i) % 8) i 0
  if res = 0 then nzWordLoop old new slen (innerFuel slen) i nzrunLen else some (i, nzrunLen)

/-- The main loop of `xbzrle_encode_buffer` from position `i` of the page and
`d` of the output: the return value and the output buffer. -/
def encodeLoop (old new : Mem) (slen dlen : Nat) : Nat → Nat → Nat → Mem → Option (Int × Mem)
  | 0, _, _, _ => none
  | fuel + 1, i, d, dst =>
      if i < slen then
        if dlen < d + 2 then some (-1, dst)
        else
          match zeroRun old new slen i with
          | none => none
          | some (i, zrunLen) =>
              if zrunLen = slen then some (0, dst)
              else if i = slen then some (d, dst)
              else
                match uleb128EncodeSmall dst d zrunLen with
                | none => none
                | some (dst, n) =>
                    -- `nzrun_start` is `new_buf + i`
                    if dlen < d + n + 2 then some (-1, dst)
                    else
                      match nonzeroRun old new slen i with
                      | none => none
                      | some (i', nzrunLen) =>
                          match uleb128EncodeSmall dst (d + n) nzrunLen with
                          | none => none
                          | some (dst, n') =>
                              if dlen < d + n + n' + nzrunLen then some (-1, dst)
                              else
                                encodeLoop old new slen dlen fuel i' (d + n + n' + nzrunLen)
                                  (memcpy dst (d + n + n') new i nzrunLen)
      else some (d, dst)

/-- `xbzrle_encode_buffer(old_buf, new_buf, slen, dst, dlen)`. -/
def xbzrleEncodeBuffer (old new : Mem) (slen : Nat) (dst : Mem) (dlen : Nat) : Option (Int × Mem) :=
  if slen % 8 = 0 then encodeLoop old new slen dlen (slen + 1) 0 0 dst else none

/-- The main loop of `xbzrle_decode_buffer` from position `i` of the encoding
and `d` of the page.  Positions stay at most `slen` wherever `slen - i` is
taken, so that `Nat` subtraction is the C one. -/
def decodeLoop (src : Mem) (slen dlen : Nat) : Nat → Nat → Nat → Mem → Option (Int × Mem)
  | 0, _, _, _ => none
  | fuel + 1, i, d, dst =>
      if i < slen then
        if slen - i < 2 then some (-1, dst)
        else
          match uleb128DecodeSmall src i with
          | none => some (-1, dst)
          | some (count, ret) =>
              if i ≠ 0 ∧ count = 0 then some (-1, dst)
              else if dlen < d + count then some (-1, dst)
              else if slen - (i + ret) < 2 then some (-1, dst)
              else
                match uleb128DecodeSmall src (i + ret) with
                | none => some (-1, dst)
                | some (count', ret') =>
                    if count' = 0 then some (-1, dst)
                    else if dlen < d + count + count' ∨ slen < i + ret + ret' + count' then some (-1, dst)
                    else
                      decodeLoop src slen dlen fuel (i + ret + ret' + count') (d + count + count')
                        (memcpy dst (d + count) src (i + ret + ret') count')
      else some (d, dst)

/-- `xbzrle_decode_buffer(src, slen, dst, dlen)`. -/
def xbzrleDecodeBuffer (src : Mem) (slen : Nat) (dst : Mem) (dlen : Nat) : Option (Int × Mem) :=
  decodeLoop src slen dlen (slen + 1) 0 0 dst

@[simp] theorem differs_eq_false_iff {old new : Mem} {k : Nat} :
    differs old new k = false ↔ old k = new k := by
  simp [differs]

@[simp] theorem agrees_eq_true_iff {old new : Mem} {k : Nat} :
    agrees old new k = true ↔ old k = new k := by
  simp [agrees]

theorem agrees_eq_not_differs (old new : Mem) (k : Nat) : agrees old new k = !differs old new k := by
  rw [agrees, differs, bne, Bool.not_not]

/-- The word test of the non-zero run is exact: it fires just when the two
words agree in some byte. -/
theorem word_test_ne_zero_iff (old new : Mem) (i : Nat) :
    let mask : UInt64 := 0x0101010101010101
    let xor := UInt64.ofNat (loadLe old i 8) ^^^ UInt64.ofNat (loadLe new i 8)
    ((xor - mask) &&& ~~~xor &&& (mask <<< 7) ≠ 0 ↔ ∃ u < 8, agrees old new (i + u) = true) := by
  intro mask xor
  have ha : loadLe old i 8 < 2 ^ 64 := loadLe_lt old i 8
  have hb : loadLe new i 8 < 2 ^ 64 := loadLe_lt new i 8
  have hxv : xor.toNat = loadLe old i 8 ^^^ loadLe new i 8 := by
    rw [UInt64.toNat_xor, UInt64.toNat_ofNat_of_lt' ha, UInt64.toNat_ofNat_of_lt' hb]
  have hxlt : xor.toNat < 256 ^ 8 := xor.toNat_lt
  -- the test computes `hasZeroByte 8` of the xor
  have htest : ((xor - mask) &&& ~~~xor &&& (mask <<< 7)).toNat = hasZeroByte 8 xor.toNat := by
    have hsub : 2 ^ 64 - mask.toNat + xor.toNat = xor.toNat + 256 ^ 8 - ones 8 := by
      rw [show mask.toNat = ones 8 by decide]
      have := ones_lt 8
      omega
    rw [UInt64.toNat_and, UInt64.toNat_and, UInt64.toNat_sub, UInt64.toNat_not, hsub,
      show (mask <<< 7).toNat = 128 * ones 8 by decide, show UInt64.size = 256 ^ 8 from rfl,
      show (2 : Nat) ^ 64 = 256 ^ 8 from rfl]
    rfl
  rw [ne_eq, ← UInt64.toNat_inj, UInt64.toNat_zero, htest, ← ne_eq, hasZeroByte_ne_zero_iff hxlt]
  refine exists_congr fun u => and_congr_right fun hu => ?_
  rw [hxv, xor_byte_eq_zero_iff, loadLe_byte old hu, loadLe_byte new hu, UInt8.toNat_inj,
    agrees_eq_true_iff]

/-- The bytes under a stretch of equal words agree. -/
theorem differs_eq_false_of_words {old new : Mem} {w T k : Nat}
    (hwords : ∀ t < T, loadLe old (w + 8 * t) 8 = loadLe new (w + 8 * t) 8)
    (hk₁ : w ≤ k) (hk₂ : k < w + 8 * T) : differs old new k = false := by
  have hagree := loadLe_eq_iff.mp (hwords ((k - w) / 8) (by omega))
  rw [differs_eq_false_iff]
  exact hagree k (by omega) (by omega)

/-- The word loop of a zero run stops at or before the end of the page, after
a stretch where the pages agree. -/
theorem zeroWordLoop_spec (old new : Mem) {slen w₀ : Nat} (hw : w₀ ≤ slen) (halign : (slen - w₀) % 8 = 0)
    (len : Nat) :
    ∃ w, countLoop (fun k => decide (k < slen) && decide (loadLe old k 8 = loadLe new k 8)) 8
        (innerFuel slen) w₀ len = some (w, len + (w - w₀)) ∧
      w₀ ≤ w ∧ w ≤ slen ∧ ∀ k, w₀ ≤ k → k < w → differs old new k = false := by
  have hN : w₀ + 8 * ((slen - w₀) / 8) = slen := by omega
  have hloop := countLoop_eq_firstFrom
    (fun k => decide (k < slen) && decide (loadLe old k 8 = loadLe new k 8))
    (N := (slen - w₀) / 8) (by rw [hN]; simp) (show (slen - w₀) / 8 ≤ innerFuel slen by unfold innerFuel; omega)
    len
  have hT := firstFrom_isFirst (Nat.zero_le ((slen - w₀) / 8))
    (p := fun t => !(decide (w₀ + 8 * t < slen) &&
      decide (loadLe old (w₀ + 8 * t) 8 = loadLe new (w₀ + 8 * t) 8)))
  refine ⟨_, hloop.trans (by rw [Nat.add_sub_cancel_left]), Nat.le_add_right _ _, ?_, fun k hk₁ hk₂ => ?_⟩
  · have := hT.le_bound
    omega
  · refine differs_eq_false_of_words (fun t ht => ?_) hk₁ hk₂
    have := hT.before t (Nat.zero_le t) ht
    simp only [Bool.not_eq_false', Bool.and_eq_true, decide_eq_true_eq] at this
    exact this.2

/-- The zero run from `i` ends at the first position where the pages differ. -/
theorem zeroRun_eq {old new : Mem} {slen i : Nat} (hi : i ≤ slen) :
    zeroRun old new slen i =
      some (firstFrom (differs old new) slen i, firstFrom (differs old new) slen i - i) := by
  have hA := firstFrom_isFirst (p := differs old new) (show i ≤ i + (slen - i) % 8 by omega)
  unfold zeroRun
  rw [alignLoop_eq]
  dsimp only
  split_ifs with hres
  · -- the aligning loop spent its budget: the pages agree up to the `long` boundary
    have hw₀ : firstFrom (differs old new) (i + (slen - i) % 8) i = i + (slen - i) % 8 := by
      have := hA.le_start
      have := hA.le_bound
      omega
    obtain ⟨w, hloop, hw₁, hw₂, hagree⟩ :=
      zeroWordLoop_spec old new (show i + (slen - i) % 8 ≤ slen by omega) (by omega)
        (i + (slen - i) % 8 - i)
    rw [Nat.zero_add, hw₀, hloop]
    dsimp only
    have hskip : firstFrom (differs old new) slen w = firstFrom (differs old new) slen i :=
      firstFrom_skip (by omega) hw₂ fun k hk hlt => by
        by_cases hkw : k < i + (slen - i) % 8
        · exact hA.before k hk (by omega)
        · exact hagree k (by omega) hlt
    have hscan := countLoop_scan (p := differs old new)
      (fun k => decide (k < slen) && agrees old new k)
      (i + (slen - i) % 8 - i + (w - (i + (slen - i) % 8))) hw₂
      (show slen - w ≤ innerFuel slen by unfold innerFuel; omega)
      (fun k _ _ => by rw [agrees_eq_not_differs])
    rw [hscan, hskip]
    have := le_firstFrom (p := differs old new) (show w ≤ slen from hw₂)
    rw [hskip] at this
    congr 2
    omega
  · -- the aligning loop stopped at a difference before the boundary
    have hlt : firstFrom (differs old new) (i + (slen - i) % 8) i < i + (slen - i) % 8 := by
      have := hA.le_start
      omega
    rw [Nat.zero_add, firstFrom_of_lt (by omega) hlt (show i + (slen - i) % 8 ≤ slen by omega)]

/-- The word loop of a non-zero run from a position `i` on a `long` boundary
ends at the first position where the pages agree. -/
theorem nzWordLoop_eq {old new : Mem} {slen : Nat} :
    ∀ fuel i len, i ≤ slen → (slen - i) % 8 = 0 → slen - i + 8 ≤ fuel →
      nzWordLoop old new slen fuel i len =
        some (firstFrom (agrees old new) slen i, len + (firstFrom (agrees old new) slen i - i))
  | 0, _, _, _, _, hfuel => absurd hfuel (by omega)
  | fuel + 1, i, len, hi, halign, hfuel => by
      by_cases hlt : i < slen
      · -- a whole `long` is left, and fuel for its byte loop and for the words after it
        have h8 : 8 ≤ slen - i := by omega
        have hf : slen - (i + 8) + 8 ≤ fuel := by omega
        have hword := word_test_ne_zero_iff old new i
        dsimp only at hword
        simp only [nzWordLoop, if_pos hlt]
        split_ifs with htest
        · -- a byte of this word agrees: the byte loop finds the first one
          obtain ⟨u, hu, hagree⟩ := hword.mp htest
          have hend : firstFrom (agrees old new) (i + 8) i < i + 8 :=
            Nat.lt_of_le_of_lt (firstFrom_le_of_holds (Nat.le_add_right i u) (by omega) hagree)
              (by omega)
          have hscan := countLoop_scan (p := agrees old new) (differs old new) len
            (show i ≤ i + 8 by omega) (show i + 8 - i ≤ fuel by omega)
            (fun k _ hk => by
              rw [agrees_eq_not_differs, Bool.not_not, decide_eq_true (by omega), Bool.true_and])
          rw [hscan, firstFrom_of_lt (by omega) hend (show i + 8 ≤ slen by omega)]
        · -- every byte of this word differs: the run goes on past it
          have hall : ∀ k, i ≤ k → k < i + 8 → agrees old new k = false := fun k hk₁ hk₂ => by
            by_contra hk
            exact htest (hword.mpr ⟨k - i, by omega, by rw [Nat.add_sub_cancel' hk₁]; simpa using hk⟩)
          have hskip : firstFrom (agrees old new) slen (i + 8) = firstFrom (agrees old new) slen i :=
            firstFrom_skip (by omega) (by omega) hall
          have hrec := @nzWordLoop_eq old new slen fuel (i + 8) (len + 8) (by omega) (by omega) hf
          rw [hrec, hskip]
          have := le_firstFrom (p := agrees old new) (show i + 8 ≤ slen by omega)
          rw [hskip] at this
          congr 2
          omega
      · have hi' : i = slen := by omega
        subst hi'
        simp [nzWordLoop, firstFrom_self]

/-- The non-zero run from `i` ends at the first position where the pages agree. -/
theorem nonzeroRun_eq {old new : Mem} {slen i : Nat} (hi : i ≤ slen) :
    nonzeroRun old new slen i =
      some (firstFrom (agrees old new) slen i, firstFrom (agrees old new) slen i - i) := by
  have hA := firstFrom_isFirst (p := agrees old new) (show i ≤ i + (slen - i) % 8 by omega)
  unfold nonzeroRun
  rw [alignLoop_eq]
  dsimp only
  split_ifs with hres
  · -- the aligning loop spent its budget: the pages differ up to the `long` boundary
    have hw₀ : firstFrom (agrees old new) (i + (slen - i) % 8) i = i + (slen - i) % 8 := by
      have := hA.le_start
      have := hA.le_bound
      omega
    have hskip : firstFrom (agrees old new) slen (i + (slen - i) % 8) = firstFrom (agrees old new) slen i :=
      firstFrom_skip (by omega) (by omega) fun k hk hlt => hA.before k hk (by omega)
    rw [Nat.zero_add, hw₀, nzWordLoop_eq _ _ _ (by omega) (by omega) (by unfold innerFuel; omega), hskip]
    have := le_firstFrom (p := agrees old new) (show i + (slen - i) % 8 ≤ slen by omega)
    rw [hskip] at this
    congr 2
    omega
  · -- the aligning loop stopped at an agreement before the boundary
    have hlt : firstFrom (agrees old new) (i + (slen - i) % 8) i < i + (slen - i) % 8 := by
      have := hA.le_start
      omega
    rw [Nat.zero_add, firstFrom_of_lt (by omega) hlt (show i + (slen - i) % 8 ≤ slen by omega)]

end Xqemu.Migration
