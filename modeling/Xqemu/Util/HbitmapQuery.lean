import Xqemu.Util.HbitmapIter
import Xqemu.Util.HbitmapCoherent
import Xqemu.Lib.BitField

/-!
# Searching a hierarchical bitmap

`hbitmap_next_zero` scans the last level word by word for the first clear
group of a window: the word holding `start`'s group with the bits before it
forced to one, then the full words after it, then the first word that is not
full.  On a coherent bitmap whose elements fit `size << granularity` it
returns the start of the first clear group of the window, clamped to `start`,
or -1.  `hbitmap_next_dirty_area` runs the iterator from `start` to the first
set group and `hbitmap_next_zero` from the group after it, and so returns the
run of set groups that begins at the first one.  Read back element by element
(`Scan.firstFrom_comp_div`), these are the scans of the window for the first
element whose group is clear, and for the first run of elements whose groups are
set.  `hbitmap_get` reads one group, which `hbitmap_set` and `hbitmap_reset`
have set or cleared exactly when it lies in their range.
-/

namespace Xqemu.Util

open Xqemu.Scan Xqemu.Words Xqemu.TwosComplement Xqemu.Faults

/-! ## Words of the last level -/

/-- Or-ing the bits below `b` into a word leaves the first clear bit from `b` on. -/
theorem cto64_or_low_mask {w b : Nat} (hw : w < 2 ^ 64) (hb : b < 64) :
    cto64 (w ||| ((1 <<< b) - 1)) = firstFrom (fun k => !w.testBit k) 64 b := by
  have hmask : (1 <<< b) - 1 < 2 ^ 64 := by
    rw [Nat.one_shiftLeft]
    exact lt_of_le_of_lt (Nat.sub_le _ _) (Nat.pow_lt_pow_right (by omega) hb)
  have hc := Nat.or_lt_two_pow hw hmask
  have hbit : ∀ k < 64, ((w ||| ((1 <<< b) - 1)) ^^^ (2 ^ 64 - 1)).testBit k = (!w.testBit k && !decide (k < b)) := by
    intro k hk
    rw [testBit_xor_ones hc, Nat.testBit_or, testBit_one_shiftLeft_sub_one, decide_eq_true hk, Bool.true_and,
      Bool.not_or]
  unfold cto64 ctz64
  rw [← firstFrom_skip (Nat.zero_le b) hb.le fun k _ hk => by rw [hbit k (by omega), decide_eq_true hk]; simp]
  exact firstFrom_congr fun k hk hk64 => by rw [hbit k hk64, decide_eq_false (by omega)]; simp

/-- A scan of the groups of word `q` of the last level is a scan of its bits. -/
theorem firstFrom_clear_word (hb : HBitmap) (q b : Nat) :
    firstFrom (fun r => !hb.bit r) (64 * q + 64) (64 * q + b) =
      64 * q + firstFrom (fun k => !(hb.levels 6 q).testBit k) 64 b := by
  rw [firstFrom_add]
  refine congrArg _ (firstFrom_congr fun k _ hk => ?_)
  rw [HBitmap.bit_eq_bitAt, HBitmap.bitAt_mul_add _ _ _ hk]

/-- A word with a clear bit from `b` on has its first one below 64. -/
theorem firstFrom_clear_lt {w b : Nat} (hw : w < 2 ^ 64) (hb : b < 64)
    (hfull : w ||| ((1 <<< b) - 1) ≠ 2 ^ 64 - 1) : firstFrom (fun k => !w.testBit k) 64 b < 64 := by
  obtain ⟨k, hk, hclear⟩ : ∃ k < 64, (w ||| ((1 <<< b) - 1)).testBit k = false := by
    refine Classical.byContradiction fun h => hfull (Nat.eq_of_testBit_eq fun k => ?_)
    rcases Nat.lt_or_ge k 64 with hk | hk
    · rw [Nat.testBit_two_pow_sub_one, decide_eq_true hk]
      cases hbit : (w ||| ((1 <<< b) - 1)).testBit k with
      | false => exact absurd ⟨k, hk, hbit⟩ h
      | true => rfl
    · rw [Nat.testBit_two_pow_sub_one, decide_eq_false (by omega), Nat.testBit_or,
        testBit_eq_false_of_le hw hk, testBit_one_shiftLeft_sub_one, Bool.false_or, decide_eq_false]
      omega
  rw [Nat.testBit_or, testBit_one_shiftLeft_sub_one, Bool.or_eq_false_iff, decide_eq_false_iff_not] at hclear
  exact lt_of_le_of_lt (firstFrom_le_of_holds (Nat.le_of_not_lt hclear.2) hk (by simp [hclear.1])) hk

/-- A word that is full from `b` on holds all of its groups from `b` on. -/
theorem bit_of_full {hb : HBitmap} {q b : Nat} (hfull : hb.levels 6 q ||| ((1 <<< b) - 1) = 2 ^ 64 - 1)
    {k : Nat} (hbk : b ≤ k) (hk : k < 64) : hb.bit (64 * q + k) = true := by
  have hset := congrArg (fun x => x.testBit k) hfull
  simp only [Nat.testBit_or, testBit_one_shiftLeft_sub_one, Nat.testBit_two_pow_sub_one, decide_eq_true hk,
    decide_eq_false (Nat.not_lt.mpr hbk), Bool.or_false] at hset
  rw [HBitmap.bit_eq_bitAt, HBitmap.bitAt_mul_add _ _ _ hk, hset]

/-! ## The loops of `hbitmap_next_zero` -/

/-- The `do … while` loop stops at the first word from `pos + 1` that is not full, or at `sz`. -/
theorem skipFullWords_eq {hb : HBitmap} {sz : Nat} (hsz : sz ≤ hb.sizes 6) :
    ∀ (fuel pos : Nat), 0 < fuel → sz ≤ pos + fuel →
      skipFullWords hb sz fuel pos = .ok (firstFrom (fun q => hb.levels 6 q != 2 ^ 64 - 1) sz (pos + 1))
  | 0, _, hfuel, _ => absurd hfuel (Nat.lt_irrefl 0)
  | fuel + 1, pos, _, hle => by
    rw [skipFullWords]
    by_cases hnext : pos + 1 < sz
    · rw [if_pos hnext, readLastLevel, if_pos (by omega), pure_bind]
      by_cases hfull : hb.levels 6 (pos + 1) = 2 ^ 64 - 1
      · rw [if_pos hfull, skipFullWords_eq hsz fuel (pos + 1) (by omega) (by omega)]
        refine congrArg _ (firstFrom_skip (by omega) (by omega) fun k hk hlt => ?_)
        rw [show k = pos + 1 by omega, hfull]
        simp
      · rw [if_neg hfull]
        exact congrArg _ (firstFrom_eq ⟨le_rfl, by omega, fun _ => by simpa using hfull, fun k hk hlt => by omega⟩).symm
    · rw [if_neg hnext, firstFrom_of_le (by omega)]
      rfl

/-- The end of `hbitmap_next_zero` from a clear group `R` at or after `start`'s group: `-1`
past the window, else `R`'s first element, clamped to `start`. -/
theorem nextZeroTail_eq {g start E pos cur : Nat} (hR : start >>> g ≤ (pos <<< 6) + cto64 cur)
    (hE : E <<< g ≤ 2 ^ 63) (hstart : start < 2 ^ 63) :
    nextZeroTail g start E pos cur =
      .ok (if (pos <<< 6) + cto64 cur < E then ((max start (((pos <<< 6) + cto64 cur) <<< g) : Nat) : Int) else -1) := by
  unfold nextZeroTail
  generalize (pos <<< 6) + cto64 cur = R at hR ⊢
  by_cases hRE : R < E
  · rw [if_neg (Nat.not_le.mpr hRE), if_pos hRE]
    have hRg : R <<< g < 2 ^ 63 := by
      rw [Nat.shiftLeft_eq] at hE ⊢
      exact lt_of_lt_of_le (Nat.mul_lt_mul_of_pos_right hRE (Nat.two_pow_pos g)) hE
    dsimp only
    rw [Nat.mod_eq_of_lt (by omega)]
    by_cases hlt : R <<< g < start
    · -- `start` lies in group `R`: less than one group separates them
      have hgap : (start - R <<< g) >>> g = 0 := by
        rw [Nat.shiftRight_eq_div_pow, Nat.div_eq_of_lt]
        rw [Nat.shiftRight_eq_div_pow] at hR
        rw [Nat.shiftLeft_eq]
        have := Nat.lt_div_mul_add (a := start) (Nat.two_pow_pos g)
        have := Nat.mul_le_mul_right (2 ^ g) hR
        rw [Nat.shiftLeft_eq] at hlt
        omega
      rw [if_pos hlt, if_neg (by rw [hgap]; exact not_not_intro rfl), toSigned_of_lt hstart,
        Nat.max_eq_left hlt.le]
      rfl
    · rw [if_neg hlt, toSigned_of_lt hRg, Nat.max_eq_right (Nat.le_of_not_lt hlt)]
      rfl
  · rw [if_pos (Nat.le_of_not_lt hRE), if_neg hRE]
    rfl

/-- Where a scan over a wider bound stops before it, the tail's test reads the same on the
window. -/
theorem ite_firstFrom_min {q : Nat → Bool} {B E i : Nat} (f : Nat → Int) (d : Int) (hi : i ≤ E)
    (h : firstFrom q B i < B) :
    (if firstFrom q B i < E then f (firstFrom q B i) else d) = if firstFrom q E i < E then f (firstFrom q E i) else d := by
  rw [firstFrom_eq_min hi h]
  by_cases hlt : firstFrom q B i < E
  · rw [if_pos hlt, Nat.min_eq_left (Nat.le_of_lt hlt), if_pos hlt]
  · rw [if_neg hlt, Nat.min_eq_right (by omega), if_neg (Nat.lt_irrefl E)]

theorem shiftLeft_six (pos : Nat) : pos <<< 6 = 64 * pos := by
  rw [Nat.shiftLeft_eq, Nat.mul_comm]

/-! ## `hbitmap_next_zero` -/

/-- `hbitmap_next_zero(hb, start, count)` on a coherent bitmap whose elements fit `size <<
granularity`, with `start` below `orig_size`: the first element of the first clear group of the
window from `start`'s group to `end_bit`, clamped to `start`, or -1 when every group of the
window is set. -/
theorem hbitmapNextZero_eq {hb : HBitmap} (hc : hb.Coherent) (horig : hb.origSize ≤ hb.size <<< hb.granularity)
    (hbound : hb.size <<< hb.granularity ≤ 2 ^ 63) {start count : Nat} (hs : start < hb.origSize)
    (hcount : count ≠ 0) :
    hbitmapNextZero hb start count =
      .ok (let endBit := if count > hb.origSize - start then hb.size
            else (((start + count + 2 ^ 64 - 1) % 2 ^ 64) >>> hb.granularity) + 1
          let z := firstFrom (fun r => !hb.bit r) endBit (start >>> hb.granularity)
          if z < endBit then ((max start (z <<< hb.granularity) : Nat) : Int) else -1) := by
  have hmul : hb.size * 2 ^ hb.granularity ≤ 2 ^ 63 := by rwa [← Nat.shiftLeft_eq]
  have horig' : hb.origSize ≤ hb.size * 2 ^ hb.granularity := by rwa [← Nat.shiftLeft_eq]
  have hp : start >>> hb.granularity < hb.size := by
    rw [Nat.shiftRight_eq_div_pow, Nat.div_lt_iff_lt_mul (Nat.two_pow_pos _)]
    omega
  have hpos : (start >>> hb.granularity) >>> 6 < hb.sizes 6 := by
    rw [hc.sizes_last, show (start >>> hb.granularity) >>> 6 = (start >>> hb.granularity) / 64 by
      rw [Nat.shiftRight_eq_div_pow]]
    exact div_lt_wordsAbove hp
  unfold hbitmapNextZero
  dsimp only
  rw [readLastLevel, if_pos hpos, pure_bind, if_neg (by omega)]
  generalize hE : (if count > hb.origSize - start then hb.size
    else (((start + count + 2 ^ 64 - 1) % 2 ^ 64) >>> hb.granularity) + 1) = E
  -- the window ends at or before `size` and holds `start`'s group
  have hwin : start >>> hb.granularity < E ∧ E ≤ hb.size := by
    rw [← hE]
    by_cases hbig : count > hb.origSize - start
    · rw [if_pos hbig]
      exact ⟨hp, le_rfl⟩
    · rw [if_neg hbig]
      have hlast : (start + count + 2 ^ 64 - 1) % 2 ^ 64 = start + count - 1 :=
        add_two_pow_sub_one_mod (by omega) (by omega)
      rw [hlast, Nat.shiftRight_eq_div_pow, Nat.shiftRight_eq_div_pow] at *
      have hle : start / 2 ^ hb.granularity ≤ (start + count - 1) / 2 ^ hb.granularity :=
        Nat.div_le_div_right (by omega)
      have hlt : (start + count - 1) / 2 ^ hb.granularity < hb.size := by
        rw [Nat.div_lt_iff_lt_mul (Nat.two_pow_pos _)]
        omega
      omega
  generalize hq : start >>> hb.granularity = q at hwin hp hpos
  have hqpos : q >>> 6 = q / 64 := by rw [Nat.shiftRight_eq_div_pow]
  have hqbit : q &&& 63 = q % 64 := Nat.and_two_pow_sub_one_eq_mod q 6
  have hsz : (E + 63) >>> 6 ≤ hb.sizes 6 := by
    rw [hc.sizes_last, Nat.shiftRight_eq_div_pow, wordsAbove]
    exact le_trans (Nat.div_le_div_right (by omega)) (Nat.le_max_left _ _)
  have hsz' : E ≤ 64 * ((E + 63) >>> 6) := by
    rw [Nat.shiftRight_eq_div_pow]
    exact le_trans (by omega) (Nat.mul_le_mul_left 64 (le_refl ((E + 63) / 2 ^ 6)))
  have hE63 : E <<< hb.granularity ≤ 2 ^ 63 := by
    rw [Nat.shiftLeft_eq]
    exact le_trans (Nat.mul_le_mul_right _ hwin.2) hmul
  have hstart : start < 2 ^ 63 := by omega
  have hword := hc.word_lt 6 le_rfl _ (hqpos ▸ hpos)
  rw [if_neg (not_not_intro hp), hqpos, hqbit]
  generalize hsz_def : (E + 63) >>> 6 = sz at hsz hsz'
  by_cases hfull : hb.levels 6 (q / 64) ||| ((1 <<< (q % 64)) - 1) = 2 ^ 64 - 1
  · -- the first word is full from `start`'s group on: skip the full words after it
    rw [if_pos hfull, skipFullWords_eq hsz sz (q / 64) (by omega) (by omega), ok_bind]
    generalize hnext : firstFrom (fun w => hb.levels 6 w != 2 ^ 64 - 1) sz (q / 64 + 1) = pos'
    have hnext' := hnext ▸ firstFrom_isFirst (p := fun w => hb.levels 6 w != 2 ^ 64 - 1)
      (show q / 64 + 1 ≤ sz by omega)
    have hafter : q / 64 + 1 ≤ pos' := hnext'.le_start
    have hset : ∀ r, q ≤ r → r < 64 * pos' → hb.bit r = true := by
      intro r hqr hr
      have hsplit : r = 64 * (r / 64) + r % 64 := by omega
      rcases Nat.eq_or_lt_of_le (Nat.div_le_div_right (c := 64) hqr) with hw | hw
      · rw [hsplit, ← hw]
        exact bit_of_full hfull (by omega) (Nat.mod_lt _ (by omega))
      · have hfull' : hb.levels 6 (r / 64) = 2 ^ 64 - 1 := by
          simpa using hnext'.before (r / 64) (by omega) (by omega)
        rw [hsplit]
        exact bit_of_full (b := 0) (by rw [hfull']; rfl) (Nat.zero_le _) (Nat.mod_lt _ (by omega))
    by_cases hend : pos' ≥ sz
    · rw [if_pos hend]
      have hz : firstFrom (fun r => !hb.bit r) E q = E :=
        firstFrom_eq ⟨hwin.1.le, le_rfl, fun h => absurd h (Nat.lt_irrefl E), fun k hk hkE => by
          rw [hset k hk (by omega)]; rfl⟩
      simp only [hz, Nat.lt_irrefl, if_false]
      rfl
    · rw [if_neg hend, readLastLevel, if_pos (by omega), pure_bind]
      have hnotfull : hb.levels 6 pos' ≠ 2 ^ 64 - 1 := by simpa using hnext'.holds (by omega)
      have hword' := hc.word_lt 6 le_rfl pos' (by omega)
      have hcto : cto64 (hb.levels 6 pos') = firstFrom (fun k => !(hb.levels 6 pos').testBit k) 64 0 := by
        simpa using cto64_or_low_mask hword' (b := 0) (by omega)
      have hlt64 := firstFrom_clear_lt hword' (b := 0) (by omega) (by simpa using hnotfull)
      -- the stopping word's first clear group is the first clear one from `start`'s group
      have hR : firstFrom (fun r => !hb.bit r) (64 * pos' + 64) q = (pos' <<< 6) + cto64 (hb.levels 6 pos') := by
        rw [shiftLeft_six, hcto, ← firstFrom_clear_word, Nat.add_zero]
        exact (firstFrom_skip (by omega) (by omega) fun k hk hlt => by rw [hset k hk hlt]; rfl).symm
      rw [nextZeroTail_eq (by rw [hq, ← hR]; exact le_firstFrom (show q ≤ 64 * pos' + 64 by omega)) hE63 hstart,
        ← hR,
        ite_firstFrom_min (fun z => ((max start (z <<< hb.granularity) : Nat) : Int)) (-1) hwin.1.le
          (by rw [hR, shiftLeft_six, hcto]; omega)]
  · -- the first word has a clear group from `start`'s on
    rw [if_neg hfull]
    have hlt64 := firstFrom_clear_lt hword (Nat.mod_lt _ (by omega)) hfull
    have hR : firstFrom (fun r => !hb.bit r) (64 * (q / 64) + 64) q =
        ((q / 64) <<< 6) + cto64 (hb.levels 6 (q / 64) ||| ((1 <<< (q % 64)) - 1)) := by
      rw [shiftLeft_six, cto64_or_low_mask hword (Nat.mod_lt _ (by omega)), ← firstFrom_clear_word,
        Nat.div_add_mod]
    rw [nextZeroTail_eq (by rw [hq, ← hR]; exact le_firstFrom (show q ≤ 64 * (q / 64) + 64 by omega)) hE63 hstart,
      ← hR,
      ite_firstFrom_min (fun z => ((max start (z <<< hb.granularity) : Nat) : Int)) (-1) hwin.1.le
        (by rw [hR, shiftLeft_six, cto64_or_low_mask hword (Nat.mod_lt _ (by omega))]; omega)]

/-- `hbitmap_next_zero(hb, start, count)` returns the first element of
`[start, min(start + count, orig_size))` whose group is clear, or -1 when there is none, on a
coherent bitmap whose last group holds `orig_size - 1`. -/
theorem hbitmapNextZero_spec {hb : HBitmap} (hc : hb.Coherent) (horig : hb.origSize ≤ hb.size <<< hb.granularity)
    (hlast : (hb.size - 1) <<< hb.granularity < hb.origSize) (hbound : hb.size <<< hb.granularity ≤ 2 ^ 63)
    {start count : Nat} (hs : start < hb.origSize) (hcount : count ≠ 0) :
    hbitmapNextZero hb start count =
      .ok (let e := if count > hb.origSize - start then hb.origSize else start + count
          let x := firstFrom (fun y => !hb.bit (y >>> hb.granularity)) e start
          if x < e then (x : Int) else -1) := by
  rw [hbitmapNextZero_eq hc horig hbound hs hcount]
  dsimp only
  simp only [Nat.shiftRight_eq_div_pow, Nat.shiftLeft_eq] at hlast horig hbound ⊢
  have hpow := Nat.two_pow_pos hb.granularity
  generalize hd : 2 ^ hb.granularity = d at hlast horig hbound hpow ⊢
  generalize hEdef : (if count > hb.origSize - start then hb.size
    else (start + count + 2 ^ 64 - 1) % 2 ^ 64 / d + 1) = E
  generalize hedef : (if count > hb.origSize - start then hb.origSize else start + count) = e
  -- the window of groups covers the window of elements, and each of its groups starts inside it
  have hwin : start < e ∧ e ≤ E * d ∧ ∀ z < E, z * d < e := by
    rw [← hEdef, ← hedef]
    by_cases hbig : count > hb.origSize - start
    · rw [if_pos hbig, if_pos hbig]
      refine ⟨hs, horig, fun z hz => lt_of_le_of_lt (Nat.mul_le_mul_right d (by omega)) hlast⟩
    · rw [if_neg hbig, if_neg hbig, add_two_pow_sub_one_mod (n := 64) (x := start + count) (by omega) (by omega)]
      have hmod := Nat.lt_div_mul_add (a := start + count - 1) hpow
      refine ⟨by omega, by rw [Nat.add_mul, Nat.one_mul]; omega, fun z hz => ?_⟩
      have := Nat.mul_le_mul_right d (Nat.le_of_lt_succ hz)
      have := Nat.div_mul_le_self (start + count - 1) d
      omega
  have hcomp := firstFrom_comp_div (p := fun r => !hb.bit r) hpow (Nat.le_of_lt hwin.1) hwin.2.1
  rw [hcomp]
  have hzle : firstFrom (fun r => !hb.bit r) E (start / d) ≤ E :=
    firstFrom_le (Nat.div_le_of_le_mul (by rw [Nat.mul_comm]; omega))
  generalize firstFrom (fun r => !hb.bit r) E (start / d) = z at hzle ⊢
  rw [Nat.mul_comm d z]
  by_cases hz : z < E
  · have hin : max start (z * d) < e := Nat.max_lt.mpr ⟨hwin.1, hwin.2.2 z hz⟩
    rw [if_pos hz, Nat.min_eq_right (Nat.le_of_lt hin), if_pos hin]
  · have hzE : z = E := by omega
    have hout : e ≤ max start (z * d) := by
      rw [hzE]
      exact le_trans hwin.2.1 (Nat.le_max_right _ _)
    rw [if_neg hz, Nat.min_eq_left hout, if_neg (Nat.lt_irrefl e)]

theorem hbitmapNextZero_after_set_prefix :
    ∃ hb c, (hbitmapAlloc 256 0 >>= fun hb => hbitmapSetOwn hb 0 3) = .ok (hb, c) ∧
      (hb.Coherent ∧ hb.origSize ≤ hb.size <<< hb.granularity ∧
        (hb.size - 1) <<< hb.granularity < hb.origSize ∧ hb.size <<< hb.granularity ≤ 2 ^ 63 ∧
        0 < hb.origSize ∧ (10 : Nat) ≠ 0) ∧
      hbitmapNextZero hb 0 10 =
        .ok (let e := if 10 > hb.origSize - 0 then hb.origSize else 0 + 10
            let x := firstFrom (fun y => !hb.bit (y >>> hb.granularity)) e 0
            if x < e then (x : Int) else -1) := by
  obtain ⟨hb₀, halloc⟩ : ∃ hb, hbitmapAlloc 256 0 = .ok hb := ⟨_, rfl⟩
  obtain ⟨⟨hb, c⟩, hset⟩ : ∃ r, hbitmapSetOwn hb₀ 0 3 = .ok r := by
    cases halloc
    exact ⟨_, rfl⟩
  have hc := (hbitmapSetOwn_coherent (hbitmapAlloc_valid halloc).1.toCoherent hset).1
  have hfields : (do
      let hb ← hbitmapAlloc 256 0
      let r ← hbitmapSetOwn hb 0 3
      pure (r.1.origSize, r.1.size, r.1.granularity) : Except HbFault (Nat × Nat × Nat)) = .ok (256, 256, 0) := by
    decide
  rw [halloc, ok_bind, hset, ok_bind] at hfields
  obtain ⟨horig, hsize, hg⟩ : hb.origSize = 256 ∧ hb.size = 256 ∧ hb.granularity = 0 := by
    injection hfields with h
    simpa using h
  have horig' : hb.origSize ≤ hb.size <<< hb.granularity := by rw [horig, hsize, hg]; decide
  have hlast : (hb.size - 1) <<< hb.granularity < hb.origSize := by rw [horig, hsize, hg]; decide
  have hbound : hb.size <<< hb.granularity ≤ 2 ^ 63 := by rw [hsize, hg]; decide
  have hs : 0 < hb.origSize := by rw [horig]; decide
  refine ⟨hb, c, by rw [halloc, ok_bind, hset], ⟨hc, horig', hlast, hbound, hs, by decide⟩, ?_⟩
  exact hbitmapNextZero_spec hc horig' hlast hbound hs (by decide)

/-! ## `hbitmap_next_dirty_area` -/

/-- The first `hbitmap_iter_next` after `hbitmap_iter_init(start)` returns the first set group
from `start`'s on, or -1. -/
theorem hbitmapIterNext_first {hb : HBitmap} (hc : hb.Coherent) {start : Nat}
    (hp : start >>> hb.granularity < hb.size) :
    ∃ hbi hbi', hbitmapIterInit hb start = .ok hbi ∧
      hbitmapIterNext hb hbi = .ok (iterValue hb.granularity
        (if firstFrom hb.bit hb.size (start >>> hb.granularity) < hb.size then
          some (firstFrom hb.bit hb.size (start >>> hb.granularity)) else none), hbi') := by
  have hinit := hbitmapIterInit_eq hp
  obtain ⟨hi, hsub, hsup⟩ := hbitmapIterInit_spec hc hinit
  obtain ⟨o, hbi', hnext, -, hspec⟩ := hbitmapIterNext_spec hc hi
  refine ⟨_, hbi', hinit, ?_⟩
  rw [hnext, hi.granularity_eq]
  have hfirst := firstFrom_isFirst (p := hb.bit) (le_of_lt hp)
  -- the pending set holds exactly the set groups from `start`'s on
  have hmem : ∀ k, start >>> hb.granularity ≤ k → hb.bit k = true → k < hb.size →
      k ∈ HBitmapIter.pending _ ∩ ↑hb.groups := fun k hk hbit hks =>
    ⟨hsup ⟨Finset.mem_coe.mpr (HBitmap.mem_groups.mpr ⟨hks, hbit⟩), hk⟩,
      Finset.mem_coe.mpr (HBitmap.mem_groups.mpr ⟨hks, hbit⟩)⟩
  rcases o with _ | r
  · -- nothing pending is set: no set group from `start`'s on
    have hend : firstFrom hb.bit hb.size (start >>> hb.granularity) = hb.size := by
      refine Nat.le_antisymm hfirst.le_bound (Nat.le_of_not_lt fun hlt => ?_)
      have := hmem _ hfirst.le_start (hfirst.holds hlt) hlt
      rw [hspec.1] at this
      exact this
    rw [hend, if_neg (Nat.lt_irrefl _)]
  · obtain ⟨⟨hrP, hrG⟩, hleast⟩ := hspec.1
    have hrs := HBitmap.mem_groups.mp (Finset.mem_coe.mp hrG)
    have hr : firstFrom hb.bit hb.size (start >>> hb.granularity) = r :=
      firstFrom_eq ⟨hsub hrP, le_of_lt hrs.1, fun _ => hrs.2, fun k hk hkr => by
        cases hbit : hb.bit k with
        | false => rfl
        | true => exact absurd (hleast (hmem k hk hbit (by omega))) (Nat.not_le.mpr hkr)⟩
    rw [hr, if_pos hrs.1]

/-- `(areaEnd - start) mod 2^64` with the end read back as `int64_t`. -/
theorem toSigned_sub_emod {a s : Nat} (hs : s ≤ a) (ha : a < 2 ^ 64) :
    ((toSigned 63 a - (s : Int)) % 2 ^ 64).toNat = a - s := by
  unfold toSigned
  split
  · rw [Int.emod_eq_of_lt (by omega) (by omega)]
    omega
  · rw [show (a : Int) - 2 ^ (63 + 1) - s = ((a - s : Nat) : Int) + 2 ^ 64 * (-1) by omega, Int.add_mul_emod_self_left,
      Int.emod_eq_of_lt (by omega) (by omega)]
    omega

/-- The end of the dirty area from its first group `r`: `e`, or the first element of the first
clear group after `r`, whichever comes first. -/
theorem nextDirtyAreaEnd_eq {hb : HBitmap} (hc : hb.Coherent) (horig : hb.origSize ≤ hb.size <<< hb.granularity)
    (hbound : hb.size <<< hb.granularity ≤ 2 ^ 63) {r e : Nat} (hr : r < hb.size) (hbit : hb.bit r = true)
    (he : e ≤ hb.origSize) (hre : r <<< hb.granularity < e) :
    (if r <<< hb.granularity + (1 <<< hb.granularity) % 2 ^ 32 ≥ e then pure (toSigned 63 e)
      else do
        let a ← hbitmapNextZero hb (r <<< hb.granularity + (1 <<< hb.granularity) % 2 ^ 32)
          (e - r <<< hb.granularity - (1 <<< hb.granularity) % 2 ^ 32)
        pure (if a < 0 then toSigned 63 e else a) : Except HbFault Int) =
      .ok (toSigned 63 (min e (firstFrom (fun k => !hb.bit k) hb.size (r + 1) <<< hb.granularity))) := by
  generalize hz : firstFrom (fun k => !hb.bit k) hb.size (r + 1) = z
  have hzr : r + 1 ≤ z := hz ▸ le_firstFrom (by omega)
  have hpow := Nat.two_pow_pos hb.granularity
  -- `granularity` is `uint32_t`: one group's elements, or 0 from granularity 32 on
  have hG : (1 <<< hb.granularity) % 2 ^ 32 ≤ 2 ^ hb.granularity := by
    rw [Nat.one_shiftLeft]
    exact Nat.mod_le _ _
  have hnext : (r + 1) <<< hb.granularity ≤ z <<< hb.granularity := by
    rw [Nat.shiftLeft_eq, Nat.shiftLeft_eq]
    exact Nat.mul_le_mul_right _ hzr
  have hsucc : (r + 1) <<< hb.granularity = r <<< hb.granularity + 2 ^ hb.granularity := by
    rw [Nat.shiftLeft_eq, Nat.shiftLeft_eq, Nat.add_mul, Nat.one_mul]
  by_cases hshort : r <<< hb.granularity + (1 <<< hb.granularity) % 2 ^ 32 ≥ e
  · rw [if_pos hshort, Nat.min_eq_left (by omega)]
    rfl
  rw [if_neg hshort]
  have hmul : hb.size * 2 ^ hb.granularity ≤ 2 ^ 63 := by rwa [← Nat.shiftLeft_eq]
  have horig' : hb.origSize ≤ hb.size * 2 ^ hb.granularity := by rwa [← Nat.shiftLeft_eq]
  generalize hGdef : (1 <<< hb.granularity) % 2 ^ 32 = G at hshort hG ⊢
  rw [hbitmapNextZero_eq hc horig hbound (by omega) (by omega), ok_bind]
  dsimp only
  generalize hF : r <<< hb.granularity = F at hshort hre hsucc ⊢
  have hlast : (F + G + (e - F - G) + 2 ^ 64 - 1) % 2 ^ 64 = e - 1 := by
    rw [show F + G + (e - F - G) = e by omega]
    exact add_two_pow_sub_one_mod (by omega) (by omega)
  rw [if_neg (show ¬(e - F - G > hb.origSize - (F + G)) by omega), hlast]
  generalize hB : (e - 1) >>> hb.granularity + 1 = B
  have hBs : B ≤ hb.size := by
    rw [← hB, Nat.shiftRight_eq_div_pow, Nat.succ_le_iff, Nat.div_lt_iff_lt_mul hpow]
    omega
  have hrB : r + 1 ≤ B := by
    rw [← hB, Nat.succ_le_succ_iff, Nat.shiftRight_eq_div_pow, Nat.le_div_iff_mul_le hpow, ← Nat.shiftLeft_eq]
    omega
  -- the scan starts at `r`'s group or the next one; `r` is set, so both give the same
  have hq : firstFrom (fun k => !hb.bit k) B ((F + G) >>> hb.granularity) =
      firstFrom (fun k => !hb.bit k) B (r + 1) := by
    have hdiv : (F + G) >>> hb.granularity = r + G / 2 ^ hb.granularity := by
      rw [← hF, Nat.shiftRight_eq_div_pow, Nat.shiftLeft_eq, Nat.mul_comm, Nat.mul_add_div hpow]
    have hle : G / 2 ^ hb.granularity ≤ 1 := Nat.div_le_of_le_mul (by rw [Nat.mul_one]; exact hG)
    rw [hdiv]
    rcases Nat.lt_or_ge (G / 2 ^ hb.granularity) 1 with h0 | h1
    · rw [Nat.lt_one_iff.mp h0, Nat.add_zero]
      symm
      exact firstFrom_skip (Nat.le_succ r) hrB fun k hk hlt => by rw [show k = r by omega, hbit]; rfl
    · rw [Nat.le_antisymm hle h1]
  simp only [hq]
  by_cases hz₂ : firstFrom (fun k => !hb.bit k) B (r + 1) < B
  · have hzz : firstFrom (fun k => !hb.bit k) B (r + 1) = z := by
      rw [← hz]
      exact (firstFrom_of_lt hrB hz₂ hBs).symm
    rw [hzz] at hz₂ ⊢
    have hze : z <<< hb.granularity < e := by
      rw [← hB, Nat.lt_succ_iff, Nat.shiftRight_eq_div_pow, Nat.le_div_iff_mul_le hpow] at hz₂
      rw [Nat.shiftLeft_eq]
      omega
    have hstart : F + G ≤ z <<< hb.granularity :=
      calc F + G ≤ F + 2 ^ hb.granularity := Nat.add_le_add_left hG _
        _ = (r + 1) <<< hb.granularity := hsucc.symm
        _ ≤ z <<< hb.granularity := hnext
    rw [if_pos hz₂, Nat.max_eq_right hstart, if_neg (Int.not_lt.mpr (Int.natCast_nonneg _)),
      Nat.min_eq_right (Nat.le_of_lt hze), toSigned_of_lt (by omega)]
    rfl
  · -- no clear group before the window's end: the area runs to `e`
    have hzB : B ≤ z := by
      refine Nat.le_of_not_lt fun hlt => hz₂ (lt_of_le_of_lt (firstFrom_le_of_holds hzr hlt ?_) hlt)
      rw [← hz]
      exact (firstFrom_isFirst (p := fun k => !hb.bit k) (by omega)).holds (by omega)
    have hBe : e ≤ B <<< hb.granularity := by
      rw [← hB, Nat.shiftLeft_eq, Nat.shiftRight_eq_div_pow, Nat.add_mul, Nat.one_mul]
      have := Nat.lt_div_mul_add (a := e - 1) hpow
      omega
    have hze : e ≤ z <<< hb.granularity := by
      rw [Nat.shiftLeft_eq] at hBe ⊢
      exact le_trans hBe (Nat.mul_le_mul_right _ hzB)
    rw [if_neg hz₂, if_pos (by omega), Nat.min_eq_left hze]
    rfl

/-- `hbitmap_next_dirty_area(hb, &start, &count)` on a coherent bitmap whose elements fit `size <<
granularity`, with `start` below `orig_size`: with `m` the first set group from `start`'s on and
`z` the first clear group after `m`, the area found starts at `m`'s first element (or `start`
inside it) and ends at `z`'s first element or at the end `e` of the window, whichever comes
first; when `m` starts at or past `e` nothing is found and `start`, `count` stay. -/
theorem hbitmapNextDirtyArea_eq {hb : HBitmap} (hc : hb.Coherent) (horig : hb.origSize ≤ hb.size <<< hb.granularity)
    (hbound : hb.size <<< hb.granularity ≤ 2 ^ 63) {start count : Nat} (hs : start < hb.origSize)
    (hcount : count ≠ 0) :
    hbitmapNextDirtyArea hb start count =
      .ok (let e := if count > hb.origSize - start then hb.origSize else start + count
          let m := firstFrom hb.bit hb.size (start >>> hb.granularity)
          let z := firstFrom (fun k => !hb.bit k) hb.size (m + 1)
          if m <<< hb.granularity < e then
            (true, max start (m <<< hb.granularity), min e (z <<< hb.granularity) - max start (m <<< hb.granularity))
          else (false, start, count)) := by
  have hmul : hb.size * 2 ^ hb.granularity ≤ 2 ^ 63 := by rwa [← Nat.shiftLeft_eq]
  have horig' : hb.origSize ≤ hb.size * 2 ^ hb.granularity := by rwa [← Nat.shiftLeft_eq]
  have hpow := Nat.two_pow_pos hb.granularity
  have hp : start >>> hb.granularity < hb.size := by
    rw [Nat.shiftRight_eq_div_pow, Nat.div_lt_iff_lt_mul hpow]
    omega
  obtain ⟨hbi, hbi', hinit, hnext⟩ := hbitmapIterNext_first hc hp
  unfold hbitmapNextDirtyArea
  rw [if_neg (by omega)]
  dsimp only
  rw [hinit, ok_bind, hnext, ok_bind]
  dsimp only
  generalize hE : (if count > hb.origSize - start then hb.origSize else start + count) = e
  have he : start < e ∧ e ≤ hb.origSize := by
    rw [← hE]
    split <;> omega
  have hfirst := firstFrom_isFirst (p := hb.bit) (le_of_lt hp)
  generalize hm : firstFrom hb.bit hb.size (start >>> hb.granularity) = m at hfirst ⊢
  by_cases hms : m < hb.size
  · have hmg : m <<< hb.granularity < 2 ^ 63 := by
      rw [Nat.shiftLeft_eq]
      exact lt_of_lt_of_le (Nat.mul_lt_mul_of_pos_right hms hpow) hmul
    have hval : iterValue hb.granularity (some m) = ((m <<< hb.granularity : Nat) : Int) := by
      rw [iterValue, Nat.mod_eq_of_lt (by omega), toSigned_of_lt hmg]
    rw [if_pos hms, hval]
    have hend := nextDirtyAreaEnd_eq hc horig hbound hms (hfirst.holds hms) he.2
    generalize hz : firstFrom (fun k => !hb.bit k) hb.size (m + 1) = z at hend ⊢
    have hzm : m + 1 ≤ z := hz ▸ le_firstFrom (by omega)
    -- the area ends after both `start` and `m`'s first element
    have hstart : start < z <<< hb.granularity := by
      have hnext : start < (start >>> hb.granularity + 1) * 2 ^ hb.granularity := by
        rw [Nat.shiftRight_eq_div_pow, Nat.add_mul, Nat.one_mul]
        exact Nat.lt_div_mul_add hpow
      rw [Nat.shiftLeft_eq]
      exact lt_of_lt_of_le hnext (Nat.mul_le_mul_right _ (by have := hfirst.le_start; omega))
    have hmz : m <<< hb.granularity < z <<< hb.granularity := by
      rw [Nat.shiftLeft_eq, Nat.shiftLeft_eq]
      exact Nat.mul_lt_mul_of_pos_right (by omega) hpow
    generalize hF : m <<< hb.granularity = F at hend hmg hval hmz ⊢
    generalize hZ : z <<< hb.granularity = Z at hend hstart hmz ⊢
    by_cases hme : F < e
    · have hfound : ¬((F : Int) < 0 ∨ (F : Int).toNat ≥ e) := by
        rw [Int.toNat_natCast]
        omega
      rw [if_neg hfound, if_pos hme, Int.toNat_natCast, hend hme, ok_bind]
      have hmax : (if F > start then F else start) = max start F := by
        split <;> omega
      rw [hmax, toSigned_sub_emod (by omega) (by omega)]
      rfl
    · have hpast : (F : Int) < 0 ∨ (F : Int).toNat ≥ e := Or.inr (by rw [Int.toNat_natCast]; omega)
      rw [if_pos hpast, if_neg hme]
      rfl
  · -- no set group from `start`'s on: the iterator returns -1
    have hmsize : m = hb.size := Nat.le_antisymm hfirst.le_bound (Nat.le_of_not_lt hms)
    have hnot : ¬(m <<< hb.granularity < e) := by
      rw [hmsize, Nat.shiftLeft_eq]
      omega
    rw [if_neg hms, iterValue, if_pos (Or.inl (by decide)), if_neg hnot]
    rfl

/-- `hbitmap_next_dirty_area(hb, &start, &count)` finds the first element of
`[start, min(start + count, orig_size))` whose group is set and the run of such elements from
it: `start` and `count` become that run, cut at the end of the window.  With no such element
it returns false and leaves them. -/
theorem hbitmapNextDirtyArea_spec {hb : HBitmap} (hc : hb.Coherent)
    (horig : hb.origSize ≤ hb.size <<< hb.granularity) (hbound : hb.size <<< hb.granularity ≤ 2 ^ 63)
    {start count : Nat} (hs : start < hb.origSize) (hcount : count ≠ 0) :
    hbitmapNextDirtyArea hb start count =
      .ok (let e := if count > hb.origSize - start then hb.origSize else start + count
          let s' := firstFrom (fun y => hb.bit (y >>> hb.granularity)) e start
          let t := firstFrom (fun y => !hb.bit (y >>> hb.granularity)) e s'
          if s' < e then (true, s', t - s') else (false, start, count)) := by
  rw [hbitmapNextDirtyArea_eq hc horig hbound hs hcount]
  dsimp only
  simp only [Nat.shiftRight_eq_div_pow, Nat.shiftLeft_eq] at horig hbound ⊢
  have hpow := Nat.two_pow_pos hb.granularity
  generalize hd : 2 ^ hb.granularity = d at horig hbound hpow ⊢
  generalize hedef : (if count > hb.origSize - start then hb.origSize else start + count) = e
  have he : start < e ∧ e ≤ hb.size * d := by
    rw [← hedef]
    split <;> omega
  have hstart : start / d ≤ hb.size := Nat.div_le_of_le_mul (by rw [Nat.mul_comm]; omega)
  have hm := firstFrom_isFirst (p := hb.bit) hstart
  rw [firstFrom_comp_div hpow (Nat.le_of_lt he.1) he.2]
  generalize firstFrom hb.bit hb.size (start / d) = m at hm ⊢
  rw [Nat.mul_comm d m]
  by_cases hme : m * d < e
  · -- the area starts in group `m` and runs to the first clear group after it
    have hin : max start (m * d) < e := Nat.max_lt.mpr ⟨he.1, hme⟩
    have hms : m < hb.size := (Nat.mul_lt_mul_right hpow).mp (lt_of_lt_of_le hme he.2)
    rw [if_pos hme, Nat.min_eq_right (Nat.le_of_lt hin), if_pos hin,
      firstFrom_comp_div (p := fun r => !hb.bit r) hpow (Nat.le_of_lt hin) he.2]
    have hdiv : max start (m * d) / d = m := by
      rcases Nat.le_total start (m * d) with hle | hle
      · rw [Nat.max_eq_right hle, Nat.mul_div_cancel _ hpow]
      · rw [Nat.max_eq_left hle]
        exact Nat.le_antisymm hm.le_start ((Nat.le_div_iff_mul_le hpow).mpr hle)
    have hskip : firstFrom (fun r => !hb.bit r) hb.size (m + 1) = firstFrom (fun r => !hb.bit r) hb.size m :=
      firstFrom_skip (Nat.le_succ m) hms fun k hk hk' => by
        rw [show k = m by omega, hm.holds hms]
        rfl
    rw [hdiv, ← hskip]
    have hz := le_firstFrom (p := fun r => !hb.bit r) (show m + 1 ≤ hb.size by omega)
    generalize firstFrom (fun r => !hb.bit r) hb.size (m + 1) = z at hz ⊢
    -- group `z` starts past the area's first element
    have hafter : max start (m * d) ≤ d * z := by
      have hs' : start < start / d * d + d := Nat.lt_div_mul_add hpow
      have hmz : (m + 1) * d ≤ z * d := Nat.mul_le_mul_right d hz
      have hsm : start / d * d ≤ m * d := Nat.mul_le_mul_right d hm.le_start
      rw [Nat.add_mul, Nat.one_mul] at hmz
      rw [Nat.mul_comm d z]
      exact Nat.max_le.mpr ⟨by omega, by omega⟩
    rw [Nat.max_eq_right hafter, Nat.mul_comm d z]
  · have hout : e ≤ max start (m * d) := le_trans (Nat.le_of_not_lt hme) (Nat.le_max_right _ _)
    rw [if_neg hme, Nat.min_eq_left hout, if_neg (Nat.lt_irrefl e)]

theorem hbitmapNextDirtyArea_after_set_middle :
    ∃ hb c, (hbitmapAlloc 256 0 >>= fun hb => hbitmapSetOwn hb 2 3) = .ok (hb, c) ∧
      (hb.Coherent ∧ hb.origSize ≤ hb.size <<< hb.granularity ∧ hb.size <<< hb.granularity ≤ 2 ^ 63 ∧
        0 < hb.origSize ∧ (10 : Nat) ≠ 0) ∧
      hbitmapNextDirtyArea hb 0 10 =
        .ok (let e := if 10 > hb.origSize - 0 then hb.origSize else 0 + 10
            let s' := firstFrom (fun y => hb.bit (y >>> hb.granularity)) e 0
            let t := firstFrom (fun y => !hb.bit (y >>> hb.granularity)) e s'
            if s' < e then (true, s', t - s') else (false, 0, 10)) := by
  obtain ⟨hb₀, halloc⟩ : ∃ hb, hbitmapAlloc 256 0 = .ok hb := ⟨_, rfl⟩
  obtain ⟨⟨hb, c⟩, hset⟩ : ∃ r, hbitmapSetOwn hb₀ 2 3 = .ok r := by
    cases halloc
    exact ⟨_, rfl⟩
  have hc := (hbitmapSetOwn_coherent (hbitmapAlloc_valid halloc).1.toCoherent hset).1
  have hfields : (do
      let hb ← hbitmapAlloc 256 0
      let r ← hbitmapSetOwn hb 2 3
      pure (r.1.origSize, r.1.size, r.1.granularity) : Except HbFault (Nat × Nat × Nat)) = .ok (256, 256, 0) := by
    decide
  rw [halloc, ok_bind, hset, ok_bind] at hfields
  obtain ⟨horig, hsize, hg⟩ : hb.origSize = 256 ∧ hb.size = 256 ∧ hb.granularity = 0 := by
    injection hfields with h
    simpa using h
  have horig' : hb.origSize ≤ hb.size <<< hb.granularity := by rw [horig, hsize, hg]; decide
  have hbound : hb.size <<< hb.granularity ≤ 2 ^ 63 := by rw [hsize, hg]; decide
  have hs : 0 < hb.origSize := by rw [horig]; decide
  refine ⟨hb, c, by rw [halloc, ok_bind, hset], ⟨hc, horig', hbound, hs, by decide⟩, ?_⟩
  exact hbitmapNextDirtyArea_spec hc horig' hbound hs (by decide)

/-! ## `hbitmap_get` -/

/-- `hbitmap_get(hb, item)` reads the bit of `item`'s group. -/
theorem hbitmapGet_eq {hb : HBitmap} {item : Nat} (h : item >>> hb.granularity < hb.size) :
    hbitmapGet hb item = .ok (hb.bit (item >>> hb.granularity)) := by
  rw [hbitmapGet, if_neg (not_not_intro h)]
  generalize item >>> hb.granularity = pos
  have hword : pos >>> 6 = pos / 64 := Nat.shiftRight_eq_div_pow pos 6
  rw [hword, Nat.and_two_pow_sub_one_eq_mod pos 6]
  show Except.ok _ = Except.ok _
  simp only [Xqemu.Bits.and_one_shiftLeft_ne_zero_iff, Bool.decide_eq_true]
  rfl

/-- Below `size`, a group's bit says whether it is one of the set groups. -/
theorem HBitmap.bit_eq_decide_mem {x : HBitmap} {r : Nat} (hx : r < x.size) : x.bit r = decide (r ∈ x.groups) := by
  by_cases hm : r ∈ x.groups
  · rw [decide_eq_true hm]
    exact (HBitmap.mem_groups.mp hm).2
  · rw [decide_eq_false hm]
    rw [HBitmap.mem_groups] at hm
    simpa [hx] using hm

/-- `hbitmap_get(hb, item)` says whether `item`'s group is one of the set groups. -/
theorem hbitmapGet_eq_decide_mem {hb : HBitmap} {item : Nat} (h : item >>> hb.granularity < hb.size) :
    hbitmapGet hb item = .ok (decide (item >>> hb.granularity ∈ hb.groups)) := by
  rw [hbitmapGet_eq h, HBitmap.bit_eq_decide_mem h]

/-- Reading a group back after `hbitmap_set(hb, start, count)`: set if it was or if it lies in
the range's groups. -/
theorem hbitmapGet_after_set {hb hb' : HBitmap} {mb mb' : Option HBitmap} {start count : Nat}
    (hc : hb.Coherent) (h : hbitmapSet hb mb start count = .ok (hb', mb')) {item : Nat}
    (hi : item >>> hb.granularity < hb.size) :
    ∃ b, hbitmapGet hb item = .ok b ∧ hbitmapGet hb' item =
      .ok (b || decide (start >>> hb.granularity ≤ item >>> hb.granularity ∧
        item >>> hb.granularity ≤ ((start + count + 2 ^ 64 - 1) % 2 ^ 64) >>> hb.granularity)) := by
  obtain ⟨⟨c, hown⟩, -⟩ := hbitmapSet_eq_ok h
  obtain ⟨-, hgroups, hsize, hg, -⟩ := hbitmapSetOwn_coherent hc hown
  refine ⟨_, hbitmapGet_eq_decide_mem hi, ?_⟩
  rw [hbitmapGet_eq_decide_mem (by rw [hsize, hg]; exact hi), hg, hgroups]
  simp only [Finset.mem_union, Finset.mem_Icc, Bool.decide_or]

theorem hbitmapGet_after_set_of_alloc :
    ∃ hb r, hbitmapAlloc 128 0 = .ok hb ∧ hbitmapSet hb none 0 10 = .ok r ∧
      (hb.Coherent ∧ 5 >>> hb.granularity < hb.size) ∧
      ∃ b, hbitmapGet hb 5 = .ok b ∧ hbitmapGet r.1 5 =
        .ok (b || decide (0 >>> hb.granularity ≤ 5 >>> hb.granularity ∧
          5 >>> hb.granularity ≤ ((0 + 10 + 2 ^ 64 - 1) % 2 ^ 64) >>> hb.granularity)) := by
  obtain ⟨hb, halloc⟩ : ∃ hb, hbitmapAlloc 128 0 = .ok hb := ⟨_, rfl⟩
  obtain ⟨⟨hb', mb'⟩, hset⟩ : ∃ r, hbitmapSet hb none 0 10 = .ok r := by
    cases halloc
    exact ⟨_, rfl⟩
  have hc := (hbitmapAlloc_valid halloc).1.toCoherent
  have hi : 5 >>> hb.granularity < hb.size := by
    cases halloc
    decide
  exact ⟨hb, (hb', mb'), halloc, hset, ⟨hc, hi⟩, hbitmapGet_after_set hc hset hi⟩

/-- Reading a group back after `hbitmap_reset(hb, start, count)`: set if it was and it lies
outside the range's groups. -/
theorem hbitmapGet_after_reset {hb hb' : HBitmap} {mb mb' : Option HBitmap} {start count : Nat}
    (hc : hb.Coherent) (h : hbitmapReset hb mb start count = .ok (hb', mb')) {item : Nat}
    (hi : item >>> hb.granularity < hb.size) :
    ∃ b, hbitmapGet hb item = .ok b ∧ hbitmapGet hb' item =
      .ok (b && !decide (start >>> hb.granularity ≤ item >>> hb.granularity ∧
        item >>> hb.granularity ≤ ((start + count + 2 ^ 64 - 1) % 2 ^ 64) >>> hb.granularity)) := by
  obtain ⟨⟨c, hown⟩, -⟩ := hbitmapReset_eq_ok h
  obtain ⟨-, hgroups, hsize, hg, -⟩ := hbitmapResetOwn_coherent hc hown
  refine ⟨_, hbitmapGet_eq_decide_mem hi, ?_⟩
  rw [hbitmapGet_eq_decide_mem (by rw [hsize, hg]; exact hi), hg, hgroups]
  simp only [Finset.mem_sdiff, Finset.mem_Icc, Bool.decide_and, decide_not]

theorem hbitmapGet_after_reset_of_set :
    ∃ hb₀ hb r, hbitmapAlloc 128 0 = .ok hb₀ ∧ hbitmapSet hb₀ none 0 10 = .ok (hb, none) ∧
      hbitmapReset hb none 3 4 = .ok r ∧ (hb.Coherent ∧ 5 >>> hb.granularity < hb.size) ∧
      ∃ b, hbitmapGet hb 5 = .ok b ∧ hbitmapGet r.1 5 =
        .ok (b && !decide (3 >>> hb.granularity ≤ 5 >>> hb.granularity ∧
          5 >>> hb.granularity ≤ ((3 + 4 + 2 ^ 64 - 1) % 2 ^ 64) >>> hb.granularity)) := by
  obtain ⟨hb₀, halloc⟩ : ∃ hb, hbitmapAlloc 128 0 = .ok hb := ⟨_, rfl⟩
  obtain ⟨hb, hset⟩ : ∃ hb, hbitmapSet hb₀ none 0 10 = .ok (hb, none) := by
    cases halloc
    exact ⟨_, rfl⟩
  obtain ⟨r, hreset⟩ : ∃ r, hbitmapReset hb none 3 4 = .ok r := by
    cases halloc
    cases hset
    exact ⟨_, rfl⟩
  have hc₀ := (hbitmapAlloc_valid halloc).1.toCoherent
  obtain ⟨⟨c, hown⟩, -⟩ := hbitmapSet_eq_ok hset
  obtain ⟨hc, -, hsize, hg, -⟩ := hbitmapSetOwn_coherent hc₀ hown
  have hi : 5 >>> hb.granularity < hb.size := by
    rw [hsize, hg]
    cases halloc
    decide
  exact ⟨hb₀, hb, r, halloc, hset, hreset, ⟨hc, hi⟩, hbitmapGet_after_reset hc hreset hi⟩

end Xqemu.Util
