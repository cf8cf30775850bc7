import Xqemu.Nv2a.Swizzle
import Xqemu.Lib.BitDeposit
import Xqemu.Lib.BitField
import Mathlib.Data.Nat.Log
import Mathlib.Tactic.Ring

/-!
# The swizzle masks and offsets

`generate_swizzle_masks` hands out bit positions round-robin to x, y and z,
from the least significant bit, while `bit` is below each dimension: an axis of
`n` texels gets `clog 2 n` bits.  `fill_pattern` is then a bit deposit into
its mask, and the offset of a texel is the OR of three deposits into disjoint
masks, so it is injective on the box.

Both loops shift a `uint32_t`.  With every dimension at most `2 ^ 31` the masks
loop ends after at most 32 rounds; a dimension above `2 ^ 31` keeps `bit`
below it until `bit` overflows to 0, and the loop never ends.
-/

namespace Xqemu.Nv2a

open Xqemu.Bits

/-! ## The round-robin masks -/

/-- The position of the `t`-th bit of x, y and z: round `t` gives one bit to each
axis that has bits left, in the order x, y, z. -/
def posX (ch cd t : Nat) : Nat := t + min t ch + min t cd

def posY (cw cd t : Nat) : Nat := min (t + 1) cw + t + min t cd

def posZ (cw ch t : Nat) : Nat := min (t + 1) cw + min (t + 1) ch + t

/-- The masks after `i` rounds, for axes of `cw`, `ch` and `cd` bits. -/
def roundRobinMasks (cw ch cd i : Nat) : Nat × Nat × Nat :=
  (spreadBits (posX ch cd) (min i cw), spreadBits (posY cw cd) (min i ch),
    spreadBits (posZ cw ch) (min i cd))

/-- The bits handed out in the first `i` rounds. -/
def roundRobinCount (cw ch cd i : Nat) : Nat := min i cw + min i ch + min i cd

theorem posX_lt_succ (ch cd t : Nat) : posX ch cd t < posX ch cd (t + 1) := by
  unfold posX
  omega

theorem posY_lt_succ (cw cd t : Nat) : posY cw cd t < posY cw cd (t + 1) := by
  unfold posY
  omega

theorem posZ_lt_succ (cw ch t : Nat) : posZ cw ch t < posZ cw ch (t + 1) := by
  unfold posZ
  omega

theorem spreadBits_min_succ (pos : Nat → Nat) (i c : Nat) :
    spreadBits pos (min (i + 1) c) =
      if i < c then spreadBits pos (min i c) ||| 2 ^ pos i else spreadBits pos (min i c) := by
  by_cases hi : i < c
  · rw [if_pos hi, Nat.min_eq_left (by omega), Nat.min_eq_left (by omega), spreadBits]
  · rw [if_neg hi, Nat.min_eq_right (by omega), Nat.min_eq_right (by omega)]

theorem testBit_spreadBits_min_succ (pos : Nat → Nat) (i c p : Nat) :
    (spreadBits pos (min (i + 1) c)).testBit p = true ↔
      (spreadBits pos (min i c)).testBit p = true ∨ (i < c ∧ pos i = p) := by
  rw [spreadBits_min_succ]
  by_cases hi : i < c
  · rw [if_pos hi, Nat.testBit_or, Nat.testBit_two_pow, Bool.or_eq_true, decide_eq_true_iff]
    exact or_congr_right ⟨fun h => ⟨hi, h⟩, fun h => h.2⟩
  · rw [if_neg hi]
    exact ⟨Or.inl, fun h => h.elim id fun h' => absurd h'.1 hi⟩

theorem roundRobinCount_le_succ (cw ch cd i : Nat) :
    roundRobinCount cw ch cd i ≤ roundRobinCount cw ch cd (i + 1) := by
  unfold roundRobinCount
  omega

/-- Round `i` hands out the positions from `roundRobinCount` of `i` rounds on,
one to each side that is still short. -/
theorem roundRobinCount_le_pos (cw ch cd i : Nat) :
    (i < cw → roundRobinCount cw ch cd i ≤ posX ch cd i ∧
      posX ch cd i < roundRobinCount cw ch cd (i + 1)) ∧
    (i < ch → roundRobinCount cw ch cd i ≤ posY cw cd i ∧
      posY cw cd i < roundRobinCount cw ch cd (i + 1)) ∧
    (i < cd → roundRobinCount cw ch cd i ≤ posZ cw ch i ∧
      posZ cw ch i < roundRobinCount cw ch cd (i + 1)) := by
  unfold roundRobinCount posX posY posZ
  refine ⟨fun h => ?_, fun h => ?_, fun h => ?_⟩ <;> omega

theorem min_succ_cases (i c : Nat) :
    (i < c ∧ min i c = i ∧ min (i + 1) c = i + 1) ∨ (c ≤ i ∧ min i c = c ∧ min (i + 1) c = c) := by
  omega

theorem roundRobinCount_succ_cases {cw ch cd i p : Nat} (hlo : roundRobinCount cw ch cd i ≤ p)
    (hhi : p < roundRobinCount cw ch cd (i + 1)) :
    (i < cw ∧ posX ch cd i = p) ∨ (i < ch ∧ posY cw cd i = p) ∨ (i < cd ∧ posZ cw ch i = p) := by
  unfold roundRobinCount posX posY posZ at *
  -- each side that is still short takes one position this round
  rcases min_succ_cases i cw with ⟨hx, hx1, hx2⟩ | ⟨hx, hx1, hx2⟩ <;>
    rcases min_succ_cases i ch with ⟨hy, hy1, hy2⟩ | ⟨hy, hy1, hy2⟩ <;>
    rcases min_succ_cases i cd with ⟨hz, hz1, hz2⟩ | ⟨hz, hz1, hz2⟩ <;>
    simp only [hx1, hx2, hy1, hy2, hz1, hz2] at hlo hhi ⊢ <;> omega

theorem testBit_roundRobinMasks_union (cw ch cd p : Nat) :
    ∀ i, let m := roundRobinMasks cw ch cd i
      (m.1 ||| m.2.1 ||| m.2.2).testBit p = true ↔ p < roundRobinCount cw ch cd i
  | 0 => by simp [roundRobinMasks, roundRobinCount, spreadBits]
  | i + 1 => by
      have ih := testBit_roundRobinMasks_union cw ch cd p i
      have hmono := roundRobinCount_le_succ cw ch cd i
      obtain ⟨hposX, hposY, hposZ⟩ := roundRobinCount_le_pos cw ch cd i
      simp only [roundRobinMasks, Nat.testBit_or, Bool.or_eq_true] at ih ⊢
      rw [testBit_spreadBits_min_succ, testBit_spreadBits_min_succ, testBit_spreadBits_min_succ]
      constructor
      · rintro (((ha | ⟨hx, rfl⟩) | (hb | ⟨hy, rfl⟩)) | (hc | ⟨hz, rfl⟩))
        · exact lt_of_lt_of_le (ih.mp (Or.inl (Or.inl ha))) hmono
        · exact (hposX hx).2
        · exact lt_of_lt_of_le (ih.mp (Or.inl (Or.inr hb))) hmono
        · exact (hposY hy).2
        · exact lt_of_lt_of_le (ih.mp (Or.inr hc)) hmono
        · exact (hposZ hz).2
      · intro hp
        by_cases hlt : p < roundRobinCount cw ch cd i
        · rcases ih.mpr hlt with (ha | hb) | hc
          · exact Or.inl (Or.inl (Or.inl ha))
          · exact Or.inl (Or.inr (Or.inl hb))
          · exact Or.inr (Or.inl hc)
        · rcases roundRobinCount_succ_cases (Nat.le_of_not_lt hlt) hp with hx | hy | hz
          · exact Or.inl (Or.inl (Or.inr hx))
          · exact Or.inl (Or.inr (Or.inr hy))
          · exact Or.inr (Or.inr hz)

/-! ## The masks loop -/

theorem pow_lt_iff_lt_clog (i n : Nat) : 2 ^ i < n ↔ i < Nat.clog 2 n :=
  (Nat.lt_clog_iff_pow_lt (by decide)).symm

theorem two_pow_mod_of_lt {i : Nat} (hi : i < 32) : 2 ^ i % 2 ^ 32 = 2 ^ i :=
  Nat.mod_eq_of_lt (Nat.pow_lt_pow_right (by decide) hi)

theorem two_pow_shiftLeft_one (q : Nat) : 2 ^ q <<< 1 = 2 ^ (q + 1) := by
  rw [Nat.shiftLeft_eq, Nat.pow_one, Nat.pow_succ]

/-- One `if (bit < n)` of a round: an axis with bits left takes the bit at `q`. -/
theorem takeMaskBit_spread (pos : Nat → Nat) {i n c q : Nat} (q' : Nat) (hc : Nat.clog 2 n = c) (hi : i < 32)
    (hin : i < c → pos i = q ∧ q < 32 ∧ q' = q + 1) (hout : ¬i < c → q' = q) :
    takeMaskBit (2 ^ i % 2 ^ 32) n (spreadBits pos (min i c)) (2 ^ q % 2 ^ 32) =
      (spreadBits pos (min (i + 1) c), 2 ^ q' % 2 ^ 32) := by
  have hiff : 2 ^ i < n ↔ i < c := by rw [pow_lt_iff_lt_clog, hc]
  unfold takeMaskBit
  rw [two_pow_mod_of_lt hi, spreadBits_min_succ]
  by_cases hic : i < c
  · obtain ⟨hpos, hq, rfl⟩ := hin hic
    rw [if_pos (hiff.mpr hic), if_pos hic, two_pow_mod_of_lt hq, hpos, two_pow_shiftLeft_one]
  · rw [if_neg (mt hiff.mp hic), if_neg hic, hout hic]

section Loop

variable {width height depth cw ch cd : Nat}

/-- One round of the do-while loop of `generate_swizzle_masks`, from the masks
of `i` rounds. -/
theorem swizzleMaskLoop_round (hcw : Nat.clog 2 width = cw) (hch : Nat.clog 2 height = ch)
    (hcd : Nat.clog 2 depth = cd) (hk : cw + ch + cd ≤ 32) (fuel : Nat) {i : Nat} (hi : i < 32) :
    swizzleMaskLoop width height depth (fuel + 1) (2 ^ i % 2 ^ 32)
        (2 ^ roundRobinCount cw ch cd i % 2 ^ 32) (roundRobinMasks cw ch cd i) =
      if cw ≤ i ∧ ch ≤ i ∧ cd ≤ i then
        some ((roundRobinMasks cw ch cd (i + 1)).1, (roundRobinMasks cw ch cd (i + 1)).2.1,
          (roundRobinMasks cw ch cd (i + 1)).2.2, 2 ^ roundRobinCount cw ch cd (i + 1) % 2 ^ 32)
      else swizzleMaskLoop width height depth fuel (2 ^ (i + 1) % 2 ^ 32)
        (2 ^ roundRobinCount cw ch cd (i + 1) % 2 ^ 32) (roundRobinMasks cw ch cd (i + 1)) := by
  simp only [swizzleMaskLoop, roundRobinMasks, roundRobinCount]
  -- the three axes take the next positions in turn
  rw [takeMaskBit_spread (posX ch cd) (min (i + 1) cw + min i ch + min i cd) hcw hi
      (fun h => by unfold posX; omega) (fun h => by omega),
    takeMaskBit_spread (posY cw cd) (min (i + 1) cw + min (i + 1) ch + min i cd) hch hi
      (fun h => by unfold posY; omega) (fun h => by omega),
    takeMaskBit_spread (posZ cw ch) (min (i + 1) cw + min (i + 1) ch + min (i + 1) cd) hcd hi
      (fun h => by unfold posZ; omega) (fun h => by omega)]
  have hdone : (width ≤ 2 ^ i % 2 ^ 32 ∧ height ≤ 2 ^ i % 2 ^ 32 ∧ depth ≤ 2 ^ i % 2 ^ 32) ↔
      (cw ≤ i ∧ ch ≤ i ∧ cd ≤ i) := by
    simp only [two_pow_mod_of_lt hi, ← Nat.not_lt, pow_lt_iff_lt_clog, hcw, hch, hcd]
  by_cases hd : cw ≤ i ∧ ch ≤ i ∧ cd ≤ i
  · rw [if_pos (hdone.mpr hd), if_pos hd]
  · rw [if_neg (mt hdone.mp hd), if_neg hd, two_pow_mod_of_lt hi, two_pow_shiftLeft_one]

/-- From the masks of `i` rounds the loop runs to the round after the last axis
has all its bits, `n` rounds on. -/
theorem swizzleMaskLoop_run (hcw : Nat.clog 2 width = cw) (hch : Nat.clog 2 height = ch)
    (hcd : Nat.clog 2 depth = cd) (hk : cw + ch + cd ≤ 32) (hmax : max cw (max ch cd) < 32) :
    ∀ n i fuel, i + n = max cw (max ch cd) → n < fuel →
      swizzleMaskLoop width height depth fuel (2 ^ i % 2 ^ 32)
          (2 ^ roundRobinCount cw ch cd i % 2 ^ 32) (roundRobinMasks cw ch cd i) =
        some ((roundRobinMasks cw ch cd (i + n + 1)).1, (roundRobinMasks cw ch cd (i + n + 1)).2.1,
          (roundRobinMasks cw ch cd (i + n + 1)).2.2, 2 ^ roundRobinCount cw ch cd (i + n + 1) % 2 ^ 32)
  | _, _, 0, _, hfuel => absurd hfuel (Nat.not_lt_zero _)
  | 0, i, fuel + 1, hn, _ => by
      rw [swizzleMaskLoop_round hcw hch hcd hk fuel (by omega), if_pos (by omega)]
  | n + 1, i, fuel + 1, hn, hfuel => by
      rw [swizzleMaskLoop_round hcw hch hcd hk fuel (by omega), if_neg (by omega),
        swizzleMaskLoop_run hcw hch hcd hk hmax n (i + 1) fuel (by omega) (by omega),
        show i + 1 + n + 1 = i + (n + 1) + 1 by omega]

end Loop

/-! ## The masks -/

section Masks

variable (cw ch cd : Nat)

theorem roundRobinMasks_of_le {i : Nat} (hi : cw ≤ i ∧ ch ≤ i ∧ cd ≤ i) :
    roundRobinMasks cw ch cd i =
      (spreadBits (posX ch cd) cw, spreadBits (posY cw cd) ch, spreadBits (posZ cw ch) cd) := by
  simp only [roundRobinMasks, Nat.min_eq_right hi.1, Nat.min_eq_right hi.2.1, Nat.min_eq_right hi.2.2]

theorem roundRobinCount_of_le {i : Nat} (hi : cw ≤ i ∧ ch ≤ i ∧ cd ≤ i) :
    roundRobinCount cw ch cd i = cw + ch + cd := by
  simp only [roundRobinCount, Nat.min_eq_right hi.1, Nat.min_eq_right hi.2.1, Nat.min_eq_right hi.2.2]

theorem swizzleMasks_union :
    spreadBits (posX ch cd) cw ||| spreadBits (posY cw cd) ch ||| spreadBits (posZ cw ch) cd =
      2 ^ (cw + ch + cd) - 1 := by
  have hall : cw ≤ cw + ch + cd ∧ ch ≤ cw + ch + cd ∧ cd ≤ cw + ch + cd := by omega
  apply Nat.eq_of_testBit_eq
  intro p
  have h := testBit_roundRobinMasks_union cw ch cd p (cw + ch + cd)
  simp only [roundRobinMasks_of_le cw ch cd hall, roundRobinCount_of_le cw ch cd hall] at h
  rw [Nat.testBit_two_pow_sub_one, Bool.eq_iff_iff, h, decide_eq_true_iff]

theorem swizzleMasks_disjoint :
    spreadBits (posX ch cd) cw &&& spreadBits (posY cw cd) ch = 0 ∧
      spreadBits (posX ch cd) cw &&& spreadBits (posZ cw ch) cd = 0 ∧
      spreadBits (posY cw cd) ch &&& spreadBits (posZ cw ch) cd = 0 := by
  refine ⟨spreadBits_and_eq_zero fun t ht t' ht' => ?_, spreadBits_and_eq_zero fun t ht t' ht' => ?_,
    spreadBits_and_eq_zero fun t ht t' ht' => ?_⟩ <;>
    simp only [posX, posY, posZ] <;> omega

theorem popcountBits_swizzleMasks (hk : cw + ch + cd ≤ 32) :
    popcountBits 32 (spreadBits (posX ch cd) cw) = cw ∧ popcountBits 32 (spreadBits (posY cw cd) ch) = ch ∧
      popcountBits 32 (spreadBits (posZ cw ch) cd) = cd :=
  ⟨popcountBits_spreadBits (posX_lt_succ ch cd) cw fun t ht => by unfold posX; omega,
    popcountBits_spreadBits (posY_lt_succ cw cd) ch fun t ht => by unfold posY; omega,
    popcountBits_spreadBits (posZ_lt_succ cw ch) cd fun t ht => by unfold posZ; omega⟩

theorem testBit_zero_maskX : (spreadBits (posX ch cd) cw).testBit 0 = decide (0 < cw) := by
  rw [Bool.eq_iff_iff, testBit_spreadBits, decide_eq_true_iff]
  constructor
  · rintro ⟨t, ht, -⟩
    omega
  · intro h
    exact ⟨0, h, by simp [posX]⟩

theorem testBit_zero_maskY : (spreadBits (posY cw cd) ch).testBit 0 = decide (cw = 0 ∧ 0 < ch) := by
  rw [Bool.eq_iff_iff, testBit_spreadBits, decide_eq_true_iff]
  constructor
  · rintro ⟨t, ht, hpos⟩
    simp only [posY] at hpos
    omega
  · rintro ⟨hcw, hch⟩
    exact ⟨0, hch, by simp [posY, hcw]⟩

/-- The assertion `x ^ y ^ z == (mask_bit - 1)`, which is `x ^ y ^ (z == mask_bit - 1)`,
holds: when x or y has bit 0, z is not all the bits and `x ^ y` keeps bit 0;
otherwise z is all the bits. -/
theorem swizzleMasks_assert (hk : cw + ch + cd ≤ 32) :
    spreadBits (posX ch cd) cw ^^^ spreadBits (posY cw cd) ch ^^^
      (if spreadBits (posZ cw ch) cd = (2 ^ (cw + ch + cd) % 2 ^ 32 + 2 ^ 32 - 1) % 2 ^ 32 then 1 else 0) ≠ 0 := by
  have hmaskBit : (2 ^ (cw + ch + cd) % 2 ^ 32 + 2 ^ 32 - 1) % 2 ^ 32 = 2 ^ (cw + ch + cd) - 1 := by
    rcases Nat.lt_or_ge (cw + ch + cd) 32 with hlt | hge
    · have hpow := Nat.pow_lt_pow_right (by decide : 1 < 2) hlt
      have hpos := Nat.two_pow_pos (cw + ch + cd)
      rw [two_pow_mod_of_lt hlt]
      omega
    · rw [show cw + ch + cd = 32 by omega]
      decide
  have hunion := swizzleMasks_union cw ch cd
  rw [hmaskBit]
  by_cases hxy : cw = 0 ∧ ch = 0
  · obtain ⟨rfl, rfl⟩ := hxy
    simp only [spreadBits, Nat.zero_or] at hunion ⊢
    rw [if_pos hunion]
    decide
  · -- bit 0 is in x or in y, so not in z
    have hz0 : (spreadBits (posZ cw ch) cd).testBit 0 = false := by
      cases h : (spreadBits (posZ cw ch) cd).testBit 0
      · rfl
      · obtain ⟨t, ht, hpos⟩ := (testBit_spreadBits _ _ _).mp h
        simp only [posZ] at hpos
        omega
    have hne : spreadBits (posZ cw ch) cd ≠ 2 ^ (cw + ch + cd) - 1 := fun h => by
      rw [h, Nat.testBit_two_pow_sub_one, decide_eq_false_iff_not] at hz0
      omega
    rw [if_neg hne, Nat.xor_zero]
    intro h0
    have hbit := congrArg (fun v => v.testBit 0) h0
    simp only [Nat.testBit_xor, Nat.zero_testBit, testBit_zero_maskX, testBit_zero_maskY] at hbit
    by_cases hcw : 0 < cw
    · simp [hcw, show cw ≠ 0 by omega] at hbit
    · simp [show cw = 0 by omega, show 0 < ch by omega] at hbit

end Masks

/-! ## `generate_swizzle_masks` -/

section Generate

variable {width height depth cw ch cd : Nat}

/-- With every dimension at most `2 ^ 31` and at most 32 bits in all,
`generate_swizzle_masks` returns the round-robin masks. -/
theorem generateSwizzleMasks_eq (hcw : Nat.clog 2 width = cw) (hch : Nat.clog 2 height = ch)
    (hcd : Nat.clog 2 depth = cd) (hk : cw + ch + cd ≤ 32) (hmax : cw ≤ 31 ∧ ch ≤ 31 ∧ cd ≤ 31) :
    generateSwizzleMasks width height depth =
      some (spreadBits (posX ch cd) cw, spreadBits (posY cw cd) ch, spreadBits (posZ cw ch) cd) := by
  have hall : cw ≤ 0 + max cw (max ch cd) + 1 ∧ ch ≤ 0 + max cw (max ch cd) + 1 ∧
      cd ≤ 0 + max cw (max ch cd) + 1 := by omega
  have hrun := swizzleMaskLoop_run hcw hch hcd hk (by omega) (max cw (max ch cd)) 0 33 (by omega) (by omega)
  rw [roundRobinMasks_of_le cw ch cd hall, roundRobinCount_of_le cw ch cd hall] at hrun
  have hstart : swizzleMaskLoop width height depth 33 1 1 (0, 0, 0) =
      some (spreadBits (posX ch cd) cw, spreadBits (posY cw cd) ch, spreadBits (posZ cw ch) cd,
        2 ^ (cw + ch + cd) % 2 ^ 32) := by
    simpa [roundRobinMasks, roundRobinCount, spreadBits] using hrun
  unfold generateSwizzleMasks
  rw [hstart]
  simp only [if_pos (swizzleMasks_assert cw ch cd hk)]

end Generate

/-! ## `fill_pattern` -/

theorem and_two_pow_ne_zero_iff (pattern p : Nat) : pattern &&& 2 ^ p ≠ 0 ↔ (pattern >>> p) % 2 = 1 := by
  rw [← Nat.one_shiftLeft, and_one_shiftLeft_ne_zero_iff, Nat.testBit_eq_decide_div_mod_eq,
    decide_eq_true_iff, Nat.shiftRight_eq_div_pow]

/-- From bit `p` on, the loop of `fill_pattern` deposits what is left of the
value into the bits of the pattern from `p` up. -/
theorem fillPatternLoop_deposit (pattern : Nat) :
    ∀ n p value result, p + n = 32 → result < 2 ^ p → value < 2 ^ popcountBits n (pattern >>> p) →
      fillPatternLoop pattern n (2 ^ p % 2 ^ 32) value result =
        some (result + 2 ^ p * depositBits n (pattern >>> p) value)
  | 0, p, value, result, _, _, hv => by
      have hv0 : value = 0 := by simpa [popcountBits] using hv
      simp [fillPatternLoop, hv0, depositBits]
  | n + 1, p, value, result, hp, hr, hv => by
      rw [fillPatternLoop, two_pow_mod_of_lt (by omega), two_pow_shiftLeft_one]
      by_cases hv0 : value = 0
      · simp [hv0]
      rw [if_neg hv0]
      have hshift : pattern >>> (p + 1) = (pattern >>> p) / 2 := Nat.shiftRight_succ _ _
      rw [popcountBits, ← hshift] at hv
      unfold depositBits
      rw [← hshift]
      by_cases hodd : (pattern >>> p) % 2 = 1
      · -- the low bit of the value goes to bit `p`
        have hres : (result ||| if value &&& 1 ≠ 0 then 2 ^ p else 0) = result + value % 2 * 2 ^ p := by
          rw [Nat.and_one_is_mod]
          by_cases hlow : value % 2 = 1
          · rw [if_pos (by omega), hlow, Nat.one_mul, Nat.or_comm, ← Nat.mul_one (2 ^ p),
              ← Nat.two_pow_add_eq_or_of_lt hr, Nat.mul_one, Nat.add_comm]
          · rw [if_neg (by omega), show value % 2 = 0 by omega, Nat.zero_mul, Nat.or_zero, Nat.add_zero]
        rw [if_pos ((and_two_pow_ne_zero_iff pattern p).mpr hodd), if_pos hodd, hres, Nat.shiftRight_one,
          fillPatternLoop_deposit pattern n (p + 1) (value / 2) _ (by omega)
            (by
              have hlow : value % 2 * 2 ^ p ≤ 1 * 2 ^ p := Nat.mul_le_mul_right _ (by omega)
              rw [Nat.pow_succ]
              omega)
            (by rw [hodd, Nat.pow_add, Nat.pow_one] at hv; omega)]
        congr 1
        rw [Nat.pow_succ]
        ring
      · rw [if_neg (mt (and_two_pow_ne_zero_iff pattern p).mp hodd), if_neg hodd,
          fillPatternLoop_deposit pattern n (p + 1) value result (by omega)
            (Nat.lt_of_lt_of_le hr (Nat.pow_le_pow_right (by decide) (by omega)))
            (by rw [show (pattern >>> p) % 2 = 0 by omega, Nat.pow_add, Nat.pow_zero, Nat.one_mul] at hv; exact hv)]
        congr 1
        rw [Nat.pow_succ]
        ring

/-- `fill_pattern` comes back with the deposit whenever the value fits in the
pattern's bits. -/
theorem fillPattern_eq {pattern value : Nat} (hv : value < 2 ^ popcountBits 32 pattern) :
    fillPattern pattern value = some (depositBits 32 pattern value) := by
  have h := fillPatternLoop_deposit pattern 32 0 value 0 rfl (by decide) (by simpa using hv)
  simpa [fillPattern] using h

/-! ## Offsets -/

theorem getSwizzledOffset_eq {x y z maskX maskY maskZ : Nat} (bytesPerPixel : Nat)
    (hx : x < 2 ^ popcountBits 32 maskX) (hy : y < 2 ^ popcountBits 32 maskY)
    (hz : z < 2 ^ popcountBits 32 maskZ) :
    getSwizzledOffset x y z maskX maskY maskZ bytesPerPixel =
      some (bytesPerPixel * (depositBits 32 maskX x ||| depositBits 32 maskY y ||| depositBits 32 maskZ z) %
        2 ^ 32) := by
  simp [getSwizzledOffset, fillPattern_eq hx, fillPattern_eq hy, fillPattern_eq hz]

/-- The offset of a texel is the OR of three deposits into disjoint masks, so a
texel is read back from its offset. -/
theorem deposit3_injective {maskX maskY maskZ x y z x' y' z' : Nat}
    (hxy : maskX &&& maskY = 0) (hxz : maskX &&& maskZ = 0) (hyz : maskY &&& maskZ = 0)
    (hx : x < 2 ^ popcountBits 32 maskX) (hy : y < 2 ^ popcountBits 32 maskY)
    (hz : z < 2 ^ popcountBits 32 maskZ) (hx' : x' < 2 ^ popcountBits 32 maskX)
    (hy' : y' < 2 ^ popcountBits 32 maskY) (hz' : z' < 2 ^ popcountBits 32 maskZ)
    (h : depositBits 32 maskX x ||| depositBits 32 maskY y ||| depositBits 32 maskZ z =
      depositBits 32 maskX x' ||| depositBits 32 maskY y' ||| depositBits 32 maskZ z') :
    x = x' ∧ y = y' ∧ z = z' := by
  obtain ⟨hax, hay, haz⟩ := or3_and_eq (bitsIn_depositBits 32 maskX x) (bitsIn_depositBits 32 maskY y)
    (bitsIn_depositBits 32 maskZ z) hxy hxz hyz
  obtain ⟨hbx, hby, hbz⟩ := or3_and_eq (bitsIn_depositBits 32 maskX x') (bitsIn_depositBits 32 maskY y')
    (bitsIn_depositBits 32 maskZ z') hxy hxz hyz
  refine ⟨depositBits_injective 32 maskX x x' hx hx' ?_, depositBits_injective 32 maskY y y' hy hy' ?_,
    depositBits_injective 32 maskZ z z' hz hz' ?_⟩
  · rw [← hax, ← hbx, h]
  · rw [← hay, ← hby, h]
  · rw [← haz, ← hbz, h]

/-! ## The layout of a box -/

/-- What the masks of a box are for: disjoint, together the low bits the three
dimensions need, handed out round-robin from bit 0, and giving each texel of the
box its own offset below `2 ^ (cw + ch + cd)`. -/
structure SwizzleLayout (width height depth maskX maskY maskZ : Nat) : Prop where
  disjoint : maskX &&& maskY = 0 ∧ maskX &&& maskZ = 0 ∧ maskY &&& maskZ = 0
  union : maskX ||| maskY ||| maskZ = 2 ^ (Nat.clog 2 width + Nat.clog 2 height + Nat.clog 2 depth) - 1
  popcount : popcountBits 32 maskX = Nat.clog 2 width ∧ popcountBits 32 maskY = Nat.clog 2 height ∧
    popcountBits 32 maskZ = Nat.clog 2 depth
  roundRobin : ∀ p,
    (maskX.testBit p = true ↔ ∃ t < Nat.clog 2 width, posX (Nat.clog 2 height) (Nat.clog 2 depth) t = p) ∧
    (maskY.testBit p = true ↔ ∃ t < Nat.clog 2 height, posY (Nat.clog 2 width) (Nat.clog 2 depth) t = p) ∧
    (maskZ.testBit p = true ↔ ∃ t < Nat.clog 2 depth, posZ (Nat.clog 2 width) (Nat.clog 2 height) t = p)
  fill : (∀ x < width, ∃ r, fillPattern maskX x = some r) ∧ (∀ y < height, ∃ r, fillPattern maskY y = some r) ∧
    (∀ z < depth, ∃ r, fillPattern maskZ z = some r)
  offset_lt : ∀ x < width, ∀ y < height, ∀ z < depth, ∃ o,
    getSwizzledOffset x y z maskX maskY maskZ 1 = some o ∧
      o < 2 ^ (Nat.clog 2 width + Nat.clog 2 height + Nat.clog 2 depth)
  offset_injective : ∀ x y z x' y' z' o, x < width → y < height → z < depth →
    x' < width → y' < height → z' < depth →
    getSwizzledOffset x y z maskX maskY maskZ 1 = some o →
    getSwizzledOffset x' y' z' maskX maskY maskZ 1 = some o → x = x' ∧ y = y' ∧ z = z'

section Layout

variable {width height depth : Nat}

theorem clog_sum_le (hsize : 2 ^ Nat.clog 2 width * 2 ^ Nat.clog 2 height * 2 ^ Nat.clog 2 depth ≤ 2 ^ 32) :
    Nat.clog 2 width + Nat.clog 2 height + Nat.clog 2 depth ≤ 32 := by
  rw [← Nat.pow_add, ← Nat.pow_add] at hsize
  exact (Nat.pow_le_pow_iff_right (by decide)).mp hsize

theorem lt_two_pow_clog {n v : Nat} (hv : v < n) : v < 2 ^ Nat.clog 2 n :=
  Nat.lt_of_lt_of_le hv (Nat.le_pow_clog (by decide) n)

/-- The round-robin masks of a box whose bits fit in 32 lay it out as
`SwizzleLayout` says. -/
theorem roundRobin_swizzleLayout
    (hk : Nat.clog 2 width + Nat.clog 2 height + Nat.clog 2 depth ≤ 32) :
    SwizzleLayout width height depth
      (spreadBits (posX (Nat.clog 2 height) (Nat.clog 2 depth)) (Nat.clog 2 width))
      (spreadBits (posY (Nat.clog 2 width) (Nat.clog 2 depth)) (Nat.clog 2 height))
      (spreadBits (posZ (Nat.clog 2 width) (Nat.clog 2 height)) (Nat.clog 2 depth)) := by
  obtain ⟨hpx, hpy, hpz⟩ := popcountBits_swizzleMasks (Nat.clog 2 width) (Nat.clog 2 height)
    (Nat.clog 2 depth) hk
  obtain ⟨hxy, hxz, hyz⟩ := swizzleMasks_disjoint (Nat.clog 2 width) (Nat.clog 2 height) (Nat.clog 2 depth)
  have hunion := swizzleMasks_union (Nat.clog 2 width) (Nat.clog 2 height) (Nat.clog 2 depth)
  have hrr := fun p => And.intro (testBit_spreadBits (posX (Nat.clog 2 height) (Nat.clog 2 depth)) p
    (Nat.clog 2 width)) (And.intro (testBit_spreadBits (posY (Nat.clog 2 width) (Nat.clog 2 depth)) p
    (Nat.clog 2 height)) (testBit_spreadBits (posZ (Nat.clog 2 width) (Nat.clog 2 height)) p (Nat.clog 2 depth)))
  -- from here on only these facts about the masks are used
  generalize spreadBits (posX (Nat.clog 2 height) (Nat.clog 2 depth)) (Nat.clog 2 width) = maskX
    at hpx hxy hxz hunion hrr ⊢
  generalize spreadBits (posY (Nat.clog 2 width) (Nat.clog 2 depth)) (Nat.clog 2 height) = maskY
    at hpy hxy hyz hunion hrr ⊢
  generalize spreadBits (posZ (Nat.clog 2 width) (Nat.clog 2 height)) (Nat.clog 2 depth) = maskZ
    at hpz hxz hyz hunion hrr ⊢
  -- every coordinate of the box fits in the bits of its mask
  have hfx : ∀ x < width, x < 2 ^ popcountBits 32 maskX := fun x hx => hpx ▸ lt_two_pow_clog hx
  have hfy : ∀ y < height, y < 2 ^ popcountBits 32 maskY := fun y hy => hpy ▸ lt_two_pow_clog hy
  have hfz : ∀ z < depth, z < 2 ^ popcountBits 32 maskZ := fun z hz => hpz ▸ lt_two_pow_clog hz
  -- the offsets lie in the union of the masks
  have hlt : ∀ x y z, depositBits 32 maskX x ||| depositBits 32 maskY y ||| depositBits 32 maskZ z <
      2 ^ (Nat.clog 2 width + Nat.clog 2 height + Nat.clog 2 depth) := fun x y z => by
    have hle := (((bitsIn_depositBits 32 maskX x).or (bitsIn_depositBits 32 maskY y)).or
      (bitsIn_depositBits 32 maskZ z)).le
    rw [hunion] at hle
    have := Nat.two_pow_pos (Nat.clog 2 width + Nat.clog 2 height + Nat.clog 2 depth)
    omega
  have hmod : ∀ v, v < 2 ^ (Nat.clog 2 width + Nat.clog 2 height + Nat.clog 2 depth) → 1 * v % 2 ^ 32 = v :=
    fun v hv => by
      rw [Nat.one_mul]
      exact Nat.mod_eq_of_lt (Nat.lt_of_lt_of_le hv (Nat.pow_le_pow_right (by decide) hk))
  refine ⟨⟨hxy, hxz, hyz⟩, hunion, ⟨hpx, hpy, hpz⟩, hrr,
    ⟨fun x hx => ⟨_, fillPattern_eq (hfx x hx)⟩, fun y hy => ⟨_, fillPattern_eq (hfy y hy)⟩,
      fun z hz => ⟨_, fillPattern_eq (hfz z hz)⟩⟩, ?_, ?_⟩
  · intro x hx y hy z hz
    refine ⟨_, getSwizzledOffset_eq 1 (hfx x hx) (hfy y hy) (hfz z hz), ?_⟩
    rw [hmod _ (hlt x y z)]
    exact hlt x y z
  · intro x y z x' y' z' o hx hy hz hx' hy' hz' ho ho'
    rw [getSwizzledOffset_eq 1 (hfx x hx) (hfy y hy) (hfz z hz)] at ho
    rw [getSwizzledOffset_eq 1 (hfx x' hx') (hfy y' hy') (hfz z' hz')] at ho'
    have heq := Option.some.inj (ho.trans ho'.symm)
    rw [hmod _ (hlt x y z), hmod _ (hlt x' y' z')] at heq
    exact deposit3_injective hxy hxz hyz (hfx x hx) (hfy y hy) (hfz z hz) (hfx x' hx') (hfy y' hy')
      (hfz z' hz') heq

/-- For dimensions of at most `2 ^ 31` texels whose bits fit in 32,
`generate_swizzle_masks` comes back with masks that lay the box out as
`SwizzleLayout` says. -/
theorem generateSwizzleMasks_layout (hw : width ≤ 2 ^ 31) (hh : height ≤ 2 ^ 31) (hd : depth ≤ 2 ^ 31)
    (hsize : 2 ^ Nat.clog 2 width * 2 ^ Nat.clog 2 height * 2 ^ Nat.clog 2 depth ≤ 2 ^ 32) :
    ∃ maskX maskY maskZ, generateSwizzleMasks width height depth = some (maskX, maskY, maskZ) ∧
      SwizzleLayout width height depth maskX maskY maskZ := by
  have hk := clog_sum_le hsize
  have hmax : Nat.clog 2 width ≤ 31 ∧ Nat.clog 2 height ≤ 31 ∧ Nat.clog 2 depth ≤ 31 :=
    ⟨Nat.clog_le_of_le_pow hw, Nat.clog_le_of_le_pow hh, Nat.clog_le_of_le_pow hd⟩
  exact ⟨_, _, _, generateSwizzleMasks_eq rfl rfl rfl hk hmax, roundRobin_swizzleLayout hk⟩

/-- A box of 4 × 2 × 1 texels: x gets bits 0 and 2, y bit 1. -/
theorem generateSwizzleMasks_four_by_two :
    (4 ≤ 2 ^ 31 ∧ 2 ≤ 2 ^ 31 ∧ 1 ≤ 2 ^ 31 ∧ 2 ^ Nat.clog 2 4 * 2 ^ Nat.clog 2 2 * 2 ^ Nat.clog 2 1 ≤ 2 ^ 32) ∧
      ∃ maskX maskY maskZ, generateSwizzleMasks 4 2 1 = some (maskX, maskY, maskZ) ∧
        SwizzleLayout 4 2 1 maskX maskY maskZ :=
  ⟨⟨by decide, by decide, by decide, by decide⟩,
    generateSwizzleMasks_layout (by decide) (by decide) (by decide) (by decide)⟩

end Layout

/-! ## Dimensions above `2 ^ 31` -/

/-- Once `bit` is past `2 ^ 31` it overflows to 0 and stays there, still below a
dimension above `2 ^ 31`: the do-while loop never ends. -/
theorem swizzleMaskLoop_spins {width height depth : Nat}
    (hbig : 2 ^ 31 < width ∨ 2 ^ 31 < height ∨ 2 ^ 31 < depth) :
    ∀ fuel i maskBit masks, i ≤ 32 →
      swizzleMaskLoop width height depth fuel (2 ^ i % 2 ^ 32) maskBit masks = none
  | 0, _, _, _, _ => rfl
  | fuel + 1, i, maskBit, (x, y, z), hi => by
      have hbit : 2 ^ i % 2 ^ 32 ≤ 2 ^ 31 := by
        rcases Nat.lt_or_ge i 32 with hlt | hge
        · rw [two_pow_mod_of_lt hlt]
          exact Nat.pow_le_pow_right (by decide) (by omega)
        · rw [show i = 32 by omega]
          decide
      have hnext : (2 ^ i % 2 ^ 32) <<< 1 % 2 ^ 32 = 2 ^ (min (i + 1) 32) % 2 ^ 32 := by
        rcases Nat.lt_or_ge i 32 with hlt | hge
        · rw [two_pow_mod_of_lt hlt, two_pow_shiftLeft_one, Nat.min_eq_left (by omega)]
        · rw [show i = 32 by omega]
          decide
      simp only [swizzleMaskLoop]
      rw [if_neg (by omega), hnext]
      exact swizzleMaskLoop_spins hbig fuel _ _ _ (by omega)

/-- `2 ^ 31 + 1` texels wide needs 32 bits, within the `2 ^ 32` of the box, and
the masks loop never ends. -/
theorem generateSwizzleMasks_never_ends :
    2 ^ Nat.clog 2 (2 ^ 31 + 1) * 2 ^ Nat.clog 2 1 * 2 ^ Nat.clog 2 1 ≤ 2 ^ 32 ∧
      ∀ fuel, swizzleMaskLoop (2 ^ 31 + 1) 1 1 fuel 1 1 (0, 0, 0) = none := by
  have hclog : Nat.clog 2 (2 ^ 31 + 1) = 32 := by
    apply Nat.le_antisymm (Nat.clog_le_of_le_pow (by decide))
    exact (Nat.lt_clog_iff_pow_lt (by decide)).mpr (by decide)
  refine ⟨by rw [hclog, Nat.clog_one_right]; decide, fun fuel => ?_⟩
  exact swizzleMaskLoop_spins (Or.inl (by decide)) fuel 0 1 (0, 0, 0) (by decide)

end Xqemu.Nv2a
