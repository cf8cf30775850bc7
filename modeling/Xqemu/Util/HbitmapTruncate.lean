import Xqemu.Util.HbitmapCount

/-!
# `hbitmap_truncate` keeps a bitmap valid

Shrinking first resets the groups from the new `size` on; growing finds the
bits past the old `size` clear already.  Then the loop over the levels gives
each level the words of the `wordsAbove` chain over the new size, zeroing the
words a level gains.  Either way the result is valid, with the groups below the
new size (`hbitmapTruncateOwn_valid`).
-/

namespace Xqemu.Util

open Xqemu.Words Xqemu.Radix Xqemu.Faults

/-- One turn of the loop of `hbitmap_truncate`: level `i` gets `size` words, the ones it
gains zeroed when growing. -/
def HBitmap.resizeLevel (shrink : Bool) (i size : Nat) (hb : HBitmap) : HBitmap :=
  let old := hb.sizes i
  let hb := { hb with sizes := Function.update hb.sizes i size }
  if shrink then hb
  else { hb with levels := Function.update hb.levels i (fun j => if old ≤ j ∧ j < size then 0 else hb.levels i j) }

namespace HBitmap

variable (shrink : Bool) (i s : Nat) (hb : HBitmap)

@[simp] theorem resizeLevel_size : (hb.resizeLevel shrink i s).size = hb.size := by
  cases shrink <;> rfl
@[simp] theorem resizeLevel_count : (hb.resizeLevel shrink i s).count = hb.count := by
  cases shrink <;> rfl
@[simp] theorem resizeLevel_granularity : (hb.resizeLevel shrink i s).granularity = hb.granularity := by
  cases shrink <;> rfl
@[simp] theorem resizeLevel_sizes : (hb.resizeLevel shrink i s).sizes = Function.update hb.sizes i s := by
  cases shrink <;> rfl

theorem resizeLevel_levels (j w : Nat) :
    (hb.resizeLevel shrink i s).levels j w =
      if shrink = false ∧ j = i ∧ hb.sizes i ≤ w ∧ w < s then 0 else hb.levels j w := by
  cases shrink
  · by_cases hj : j = i
    · subst hj
      simp [resizeLevel]
    · simp [resizeLevel, hj]
  · simp [resizeLevel]

end HBitmap

theorem truncateLoop_succ (shrink : Bool) (k x : Nat) (hb : HBitmap) :
    truncateLoop shrink (k + 1) x hb =
      if hb.sizes k = wordsAbove x then hb
      else truncateLoop shrink k (wordsAbove x) (hb.resizeLevel shrink k (wordsAbove x)) := rfl

/-- Sizes that form the `wordsAbove` chain below level `k`. -/
def ChainBelow (sizes : Nat → Nat) (k : Nat) : Prop := ∀ j, j + 1 < k → sizes j = wordsAbove (sizes (j + 1))

theorem ChainBelow.iterate {sizes : Nat → Nat} {k x : Nat} (hc : ChainBelow sizes (k + 1))
    (htop : sizes k = wordsAbove x) : ∀ j ≤ k, sizes j = wordsAbove^[k + 1 - j] x := by
  have hd : ∀ d ≤ k, sizes (k - d) = wordsAbove^[d + 1] x := by
    intro d hd
    induction d with
    | zero => simpa using htop
    | succ d ih =>
      rw [hc (k - (d + 1)) (by omega), show k - (d + 1) + 1 = k - d by omega, ih (by omega),
        Function.iterate_succ_apply' wordsAbove (d + 1)]
  intro j hj
  have := hd (k - j) (by omega)
  rwa [Nat.sub_sub_self hj, show k - j + 1 = k + 1 - j by omega] at this

theorem ChainBelow.resizeLevel {sizes : Nat → Nat} {k s : Nat} (hc : ChainBelow sizes (k + 1)) :
    ChainBelow (Function.update sizes k s) k := fun j hj => by
  rw [Function.update_of_ne (by omega), Function.update_of_ne (by omega)]
  exact hc j (by omega)

section Loop

variable (shrink : Bool)

theorem truncateLoop_fields : ∀ (k x : Nat) (hb : HBitmap),
    (truncateLoop shrink k x hb).size = hb.size ∧ (truncateLoop shrink k x hb).count = hb.count ∧
      (truncateLoop shrink k x hb).granularity = hb.granularity
  | 0, _, _ => ⟨rfl, rfl, rfl⟩
  | k + 1, x, hb => by
    rw [truncateLoop_succ]
    split
    · exact ⟨rfl, rfl, rfl⟩
    · obtain ⟨h₁, h₂, h₃⟩ := truncateLoop_fields k (wordsAbove x) (hb.resizeLevel shrink k (wordsAbove x))
      simp only [h₁, h₂, h₃, HBitmap.resizeLevel_size, HBitmap.resizeLevel_count,
        HBitmap.resizeLevel_granularity, and_self]

/-- The loop leaves the levels below `k` with the `wordsAbove` chain over `x`. -/
theorem truncateLoop_sizes : ∀ (k x : Nat) (hb : HBitmap), ChainBelow hb.sizes k →
    ∀ j, (truncateLoop shrink k x hb).sizes j = if j < k then wordsAbove^[k - j] x else hb.sizes j
  | 0, _, _, _, j => by simp [truncateLoop]
  | k + 1, x, hb, hc, j => by
    rw [truncateLoop_succ]
    split
    · next hstop =>
      split
      · exact hc.iterate hstop j (by omega)
      · rfl
    · rw [truncateLoop_sizes k _ _ (by rw [HBitmap.resizeLevel_sizes]; exact hc.resizeLevel) j,
        HBitmap.resizeLevel_sizes]
      rcases Nat.lt_trichotomy j k with hjk | rfl | hjk
      · rw [if_pos hjk, if_pos (by omega), show k + 1 - j = (k - j) + 1 by omega, Function.iterate_succ_apply]
      · rw [if_neg (Nat.lt_irrefl j), if_pos (by omega), Function.update_self, Nat.add_sub_cancel_left,
          Function.iterate_one]
      · rw [if_neg (by omega), if_neg (by omega), Function.update_of_ne (by omega)]

/-- The loop zeroes, when growing, the words a level below `k` gains. -/
theorem truncateLoop_levels : ∀ (k x : Nat) (hb : HBitmap), ChainBelow hb.sizes k → ∀ j w,
    (truncateLoop shrink k x hb).levels j w =
      if shrink = false ∧ j < k ∧ hb.sizes j ≤ w ∧ w < wordsAbove^[k - j] x then 0 else hb.levels j w
  | 0, _, _, _, j, w => by simp [truncateLoop]
  | k + 1, x, hb, hc, j, w => by
    rw [truncateLoop_succ]
    split
    · next hstop =>
      rw [if_neg]
      rintro ⟨-, hj, hle, hlt⟩
      rw [← hc.iterate hstop j (by omega)] at hlt
      omega
    · rw [truncateLoop_levels k _ _ (by rw [HBitmap.resizeLevel_sizes]; exact hc.resizeLevel) j w,
        HBitmap.resizeLevel_sizes, HBitmap.resizeLevel_levels]
      rcases Nat.lt_trichotomy j k with hjk | rfl | hjk
      · rw [Function.update_of_ne (by omega), show k + 1 - j = (k - j) + 1 by omega, Function.iterate_succ_apply]
        simp only [show j ≠ k by omega, false_and, and_false, if_false]
        by_cases hs : shrink = false ∧ hb.sizes j ≤ w ∧ w < wordsAbove^[k - j] (wordsAbove x)
        · rw [if_pos ⟨hs.1, hjk, hs.2⟩, if_pos ⟨hs.1, by omega, hs.2⟩]
        · rw [if_neg fun h => hs ⟨h.1, h.2.2⟩, if_neg fun h => hs ⟨h.1, h.2.2⟩]
      · simp only [Nat.lt_irrefl, false_and, and_false, if_false, true_and, Nat.lt_succ_self,
          Nat.add_sub_cancel_left, Function.iterate_one]
      · simp only [show ¬(j < k) by omega, show j ≠ k by omega, show ¬(j < k + 1) by omega, false_and,
          and_false, if_false]

end Loop

/-! ## Resized bitmaps -/

theorem wordsAbove_mono : Monotone wordsAbove := fun a b hab => by
  unfold wordsAbove
  omega

theorem HBitmap.Shape.chainBelow {hb : HBitmap} (hs : hb.Shape) : ChainBelow hb.sizes 7 :=
  fun j hj => hs.sizes_up j (by omega)

theorem HBitmap.Shape.sizes_eq_iterate {hb : HBitmap} (hs : hb.Shape) :
    ∀ j ≤ 6, hb.sizes j = wordsAbove^[7 - j] hb.size :=
  hs.chainBelow.iterate hs.sizes_last

/-- Two shapes have their level sizes in the order of their sizes. -/
theorem HBitmap.Shape.sizes_le {hb hb' : HBitmap} (hs : hb.Shape) (hs' : hb'.Shape) (hle : hb.size ≤ hb'.size) :
    ∀ i ≤ 6, hb.sizes i ≤ hb'.sizes i := fun i hi => by
  rw [hs.sizes_eq_iterate i hi, hs'.sizes_eq_iterate i hi]
  exact wordsAbove_mono.iterate _ hle

/-- A bitmap grown from a valid one, with the words it had and zero words past them, is
valid and has the same groups. -/
theorem HBitmap.Valid.of_grown {hb hb' : HBitmap} (hv : hb.Valid) (hs' : hb'.Shape) (hsize : hb.size ≤ hb'.size)
    (hcount : hb'.count = hb.count)
    (hlev : ∀ i ≤ 6, ∀ w < hb'.sizes i, hb'.levels i w = if w < hb.sizes i then hb.levels i w else 0) :
    hb'.Valid ∧ hb'.groups = hb.groups := by
  have hmono := hv.toShape.sizes_le hs' hsize
  have hbit : ∀ r < 64 * hb'.sizes 6, hb'.bit r = (decide (r < 64 * hb.sizes 6) && hb.bit r) := by
    intro r hr
    rw [HBitmap.bit, HBitmap.bit, hlev 6 le_rfl (r / 64) (by omega)]
    by_cases hw : r / 64 < hb.sizes 6
    · rw [if_pos hw, decide_eq_true (by omega), Bool.true_and]
    · rw [if_neg hw, decide_eq_false (by omega), Bool.false_and, Nat.zero_testBit]
  have hlast' : hb'.size ≤ 64 * hb'.sizes 6 := by rw [hs'.sizes_last]; exact le_mul_wordsAbove _
  have hlast : hb.size ≤ 64 * hb.sizes 6 := by rw [hv.sizes_last]; exact le_mul_wordsAbove _
  have hgroups : hb'.groups = hb.groups := by
    ext r
    rw [HBitmap.mem_groups, HBitmap.mem_groups]
    constructor
    · rintro ⟨hr, hb'r⟩
      rw [hbit r (by omega), Bool.and_eq_true, decide_eq_true_iff] at hb'r
      exact ⟨(hv.mem_groups_iff hb'r.1).mpr hb'r.2 |> HBitmap.mem_groups.mp |>.1, hb'r.2⟩
    · rintro ⟨hr, hbr⟩
      refine ⟨by omega, ?_⟩
      rw [hbit r (by omega), hbr, decide_eq_true (by omega), Bool.and_true]
  refine ⟨⟨⟨hs', fun i hi w hw => ?_, fun r hr hr' => ?_, fun i hi k hk => ?_⟩, ?_⟩, hgroups⟩
  · rw [hlev i hi w hw]
    split
    · exact hv.word_lt i hi w ‹_›
    · exact Nat.two_pow_pos 64
  · rw [hbit r hr']
    by_cases hw : r < 64 * hb.sizes 6
    · rw [hv.last_clear r (by omega) hw, Bool.and_false]
    · rw [decide_eq_false hw, Bool.false_and]
  · -- a node keeps its bit where its word was allocated, and has none in a new word
    have hsizes := hmono (i + 1) (by omega)
    have hbelow : hb.sizes (i + 1) ≤ 64 * hb.sizes i := hv.sizes_le_mul hi
    have hlow : ∀ hk' : k < hb'.sizes (i + 1), hb'.levels (i + 1) k =
        if k < hb.sizes (i + 1) then hb.levels (i + 1) k else 0 := hlev (i + 1) (by omega) k
    rw [HBitmap.bitAt, hlev i (by omega) (k / 64) (by omega)]
    by_cases hw : k / 64 < hb.sizes i
    · rw [if_pos hw, ← HBitmap.bitAt, hv.up i hi k (by omega)]
      by_cases hk' : k < hb.sizes (i + 1)
      · rw [hlow (by omega), if_pos hk']
        exact or_congr_left ⟨fun h => ⟨by omega, h.2⟩, fun h => ⟨hk', h.2⟩⟩
      · refine or_congr_left ⟨fun h => absurd h.1 hk', fun h => ?_⟩
        rw [hlow h.1, if_neg hk'] at h
        exact absurd rfl h.2
    · rw [if_neg hw, Nat.zero_testBit]
      constructor
      · exact fun h => Bool.noConfusion h
      · rintro (⟨hk', hne⟩ | ⟨rfl, rfl⟩)
        · rw [hlow hk', if_neg (by omega)] at hne
          exact absurd rfl hne
        · have := hv.sizes_zero
          omega
  · rw [hcount, hv.count_eq, hgroups]

/-- A bitmap shrunk from a valid one without groups past its new size, with the same words,
is valid and has the same groups. -/
theorem HBitmap.Valid.of_shrunk {hb hb' : HBitmap} (hv : hb.Valid) (hs' : hb'.Shape) (hsize : hb'.size ≤ hb.size)
    (hin : ∀ r ∈ hb.groups, r < hb'.size) (hcount : hb'.count = hb.count) (hlev : hb'.levels = hb.levels) :
    hb'.Valid ∧ hb'.groups = hb.groups := by
  have hmono := hs'.sizes_le hv.toShape hsize
  have hbit : ∀ r, hb'.bit r = hb.bit r := fun r => by rw [HBitmap.bit, HBitmap.bit, hlev]
  have hbitAt : ∀ i k, hb'.bitAt i k = hb.bitAt i k := fun i k => by rw [HBitmap.bitAt, HBitmap.bitAt, hlev]
  have hgroups : hb'.groups = hb.groups := by
    ext r
    rw [HBitmap.mem_groups, HBitmap.mem_groups, hbit]
    constructor
    · rintro ⟨hr, hbr⟩
      exact ⟨by omega, hbr⟩
    · intro hr
      exact ⟨hin r (HBitmap.mem_groups.mpr hr), hr.2⟩
  refine ⟨⟨⟨hs', fun i hi w hw => ?_, fun r hr hr' => ?_, fun i hi k hk => ?_⟩, ?_⟩, hgroups⟩
  · rw [hlev]
    exact hv.word_lt i hi w (by have := hmono i hi; omega)
  · rw [hbit]
    by_contra hset
    have hlt : r < hb.size := Nat.lt_of_not_le fun hge =>
      hset (hv.last_clear r hge (by have := hmono 6 le_rfl; omega))
    exact absurd (hin r (HBitmap.mem_groups.mpr ⟨hlt, Bool.eq_true_of_not_eq_false hset⟩)) (by omega)
  · -- a nonzero word below lies over a group below the new size, so it is allocated there
    have hsizes := hmono (i + 1) (by omega)
    rw [hbitAt, hv.up i hi k (by have := hmono i (by omega); omega), hlev]
    refine or_congr_left ⟨?_, ?_⟩
    · rintro ⟨hk', hne⟩
      refine ⟨?_, hne⟩
      obtain ⟨b, hb64, hbitb⟩ := exists_testBit_lt hne (hv.word_lt (i + 1) (by omega) k hk')
      have hnode : hb.bitAt (i + 1) (64 * k + b) = true := by rwa [HBitmap.bitAt_mul_add _ _ _ hb64]
      obtain ⟨r, hr, hrk⟩ := (hv.bitAt_iff (i := i + 1) (by omega) (by omega) (by omega)).mp hnode
      have hdiv := hs'.div_lt_sizes (hin r hr) (5 - i) (by omega)
      rw [show 6 - (5 - i) = i + 1 by omega, show 5 - i + 1 = 6 - (i + 1) + 1 by omega, div_pow_succ, hrk] at hdiv
      omega
    · rintro ⟨hk', hne⟩
      exact ⟨by omega, hne⟩
  · rw [hcount, hv.count_eq, hgroups]

/-! ## `hbitmap_truncate` -/

/-- The loop from level 7 over the new size gives the shape `hbitmap_alloc` gives that size. -/
theorem truncateLoop_shape (shrink : Bool) {hb : HBitmap} (hc : ChainBelow hb.sizes 7) (hg : hb.granularity < 64)
    (hle : hb.size ≤ 2 ^ 41) (hmul : hb.size * 2 ^ hb.granularity < 2 ^ 64) :
    (truncateLoop shrink 7 hb.size hb).Shape := by
  obtain ⟨hsize, -, hgran⟩ := truncateLoop_fields shrink 7 hb.size hb
  have hsz := truncateLoop_sizes shrink 7 hb.size hb hc
  refine ⟨by rwa [hgran], by rwa [hsize], by rwa [hsize, hgran], ?_, fun i hi => ?_⟩
  · rw [hsz, if_pos (by omega), hsize, Function.iterate_one]
  · rw [hsz, hsz, if_pos (by omega), if_pos (by omega), show 7 - i = (7 - (i + 1)) + 1 by omega,
      Function.iterate_succ_apply']

/-- `ROUND_UP(n, 1 << g)`: `n + 2^g - 1` with its low `g` bits cleared. -/
theorem roundUp_two_pow (n : Nat) {g : Nat} (hg : g < 64) :
    roundUp n (1 <<< g) = (((n + (1 <<< g) - 1) % 2 ^ 64) >>> g) <<< g := by
  apply Nat.eq_of_testBit_eq
  intro j
  have hmask : (2 ^ 64 - 2 ^ g) % 2 ^ 64 = (2 ^ (63 + 1) % 2 ^ 64 + 2 ^ 64 - 2 ^ g) % 2 ^ 64 := by
    rw [Nat.mod_self, Nat.zero_add]
  rw [roundUp, Nat.testBit_and, Nat.one_shiftLeft, hmask, testBit_range_mask (by omega) (by omega),
    Nat.testBit_shiftLeft, Nat.testBit_shiftRight]
  by_cases hgj : g ≤ j
  · rw [show g + (j - g) = j by omega]
    by_cases hj : j ≤ 63
    · simp [hgj, hj]
    · rw [testBit_eq_false_of_le (Nat.mod_lt _ (Nat.two_pow_pos 64)) (by omega : 64 ≤ j)]
      simp
  · simp [hgj]

/-- Growing keeps every group, and the bitmap valid. -/
theorem truncateLoop_grow_valid {hb : HBitmap} (hv : hb.Valid) {s : Nat} (hgt : hb.size < s) (hle : s ≤ 2 ^ 41)
    (hmul : s * 2 ^ hb.granularity < 2 ^ 64) :
    (truncateLoop false 7 s { hb with size := s }).Valid ∧ (truncateLoop false 7 s { hb with size := s }).groups = hb.groups := by
  have hc : ChainBelow hb.sizes 7 := hv.toShape.chainBelow
  have hs' : (truncateLoop false 7 s { hb with size := s }).Shape :=
    @truncateLoop_shape false { hb with size := s } hc hv.granularity_lt hle hmul
  have hsz : ∀ j, (truncateLoop false 7 s { hb with size := s }).sizes j =
      if j < 7 then wordsAbove^[7 - j] s else hb.sizes j :=
    truncateLoop_sizes false 7 s { hb with size := s } hc
  have hlev : ∀ j w, (truncateLoop false 7 s { hb with size := s }).levels j w =
      if false = false ∧ j < 7 ∧ hb.sizes j ≤ w ∧ w < wordsAbove^[7 - j] s then 0 else hb.levels j w :=
    truncateLoop_levels false 7 s { hb with size := s } hc
  obtain ⟨hsize, hcount, -⟩ := truncateLoop_fields false 7 s { hb with size := s }
  refine hv.of_grown hs' (by rw [hsize]; exact hgt.le) hcount fun i hi w hw => ?_
  rw [hsz i, if_pos (by omega)] at hw
  rw [hlev]
  by_cases hold : w < hb.sizes i
  · rw [if_neg (by omega), if_pos hold]
  · rw [if_pos ⟨rfl, by omega, by omega, hw⟩, if_neg hold]

/-- Shrinking a bitmap whose groups lie below the new size keeps them, and the bitmap valid. -/
theorem truncateLoop_shrink_valid {hb : HBitmap} (hv : hb.Valid) {s : Nat} (hlt : s < hb.size)
    (hin : ∀ r ∈ hb.groups, r < s) :
    (truncateLoop true 7 s { hb with size := s }).Valid ∧ (truncateLoop true 7 s { hb with size := s }).groups = hb.groups := by
  have hc : ChainBelow hb.sizes 7 := hv.toShape.chainBelow
  have hmul : s * 2 ^ hb.granularity < 2 ^ 64 :=
    lt_of_le_of_lt (Nat.mul_le_mul_right _ hlt.le) hv.size_mul_lt
  have hs' : (truncateLoop true 7 s { hb with size := s }).Shape :=
    @truncateLoop_shape true { hb with size := s } hc hv.granularity_lt
      (by have := hv.size_le; dsimp only; omega) hmul
  have hlev : ∀ j w, (truncateLoop true 7 s { hb with size := s }).levels j w =
      if true = false ∧ j < 7 ∧ hb.sizes j ≤ w ∧ w < wordsAbove^[7 - j] s then 0 else hb.levels j w :=
    truncateLoop_levels true 7 s { hb with size := s } hc
  obtain ⟨hsize, hcount, -⟩ := truncateLoop_fields true 7 s { hb with size := s }
  refine hv.of_shrunk hs' (by rw [hsize]; exact hlt.le) (by rw [hsize]; exact hin) hcount ?_
  funext j w
  rw [hlev, if_neg (by simp)]

theorem shiftRight_mul_le (x g : Nat) : (x >>> g) * 2 ^ g ≤ x := by
  rw [Nat.shiftRight_eq_div_pow]
  exact Nat.div_mul_le_self x (2 ^ g)

/-- The range a shrinking `hbitmap_truncate` resets runs from the first element of group `s`
to the end of the old size, and it is not empty. -/
theorem truncate_fixCount {hb : HBitmap} (hv : hb.Valid) {s : Nat} (hlt : s < hb.size) :
    ((hb.size <<< hb.granularity) % 2 ^ 64 + 2 ^ 64 - s <<< hb.granularity) % 2 ^ 64 =
        hb.size * 2 ^ hb.granularity - s * 2 ^ hb.granularity ∧
      s * 2 ^ hb.granularity < hb.size * 2 ^ hb.granularity := by
  have hA := hv.size_mul_lt
  have hB : s * 2 ^ hb.granularity < hb.size * 2 ^ hb.granularity :=
    Nat.mul_lt_mul_of_pos_right hlt (Nat.two_pow_pos _)
  refine ⟨?_, hB⟩
  rw [Nat.shiftLeft_eq, Nat.shiftLeft_eq]
  generalize hb.size * 2 ^ hb.granularity = A at hA hB ⊢
  generalize s * 2 ^ hb.granularity = B at hB ⊢
  omega

/-- `hbitmap_truncate` keeps a bitmap valid: it gets the size of `n` elements, and keeps the
groups below it. -/
theorem hbitmapTruncateOwn_valid {hb hb' : HBitmap} {mb mb' : Option HBitmap} {n : Nat} {resized : Bool}
    (hv : hb.Valid) (h : hbitmapTruncateOwn hb mb n = .ok (hb', mb', resized)) :
    hb'.Valid ∧ hb'.granularity = hb.granularity ∧
      hb'.size = ((n + (1 <<< hb.granularity) - 1) % 2 ^ 64) >>> hb.granularity ∧
      hb'.groups = hb.groups.filter fun r => r < hb'.size := by
  have hg := hv.granularity_lt
  have hgroups_lt : ∀ r ∈ hb.groups, r < hb.size := fun r hr => (HBitmap.mem_groups.mp hr).1
  unfold hbitmapTruncateOwn at h
  generalize hs : ((n + (1 <<< hb.granularity) - 1) % 2 ^ 64) >>> hb.granularity = s at h ⊢
  have hsmul : s * 2 ^ hb.granularity < 2 ^ 64 := by
    rw [← hs]
    exact lt_of_le_of_lt (shiftRight_mul_le _ _) (Nat.mod_lt _ (Nat.two_pow_pos 64))
  dsimp only at h
  by_cases hle : s ≤ 1 <<< 41
  swap
  · rw [if_pos hle] at h
    cases h
  rw [if_neg (not_not_intro hle)] at h
  by_cases hsame : s = hb.size
  · -- the same size: nothing changes
    rw [if_pos hsame] at h
    cases h
    refine ⟨hv, rfl, hsame.symm, ?_⟩
    rw [Finset.filter_true_of_mem fun r hr => hgroups_lt r hr]
  · rw [if_neg hsame] at h
    obtain ⟨⟨hb₁, mb₁⟩, hfix, hloop⟩ := bind_eq_ok.mp h
    cases hloop
    rw [Nat.one_shiftLeft] at hle
    rcases Nat.lt_or_gt_of_ne hsame with hlt | hgt
    · -- shrinking: the groups from `s` on are reset first
      have hdec : decide (s < hb.size) = true := decide_eq_true hlt
      rw [hdec, if_pos rfl] at hfix
      rw [hdec]
      rw [roundUp_two_pow n hg, hs] at hfix
      have hA := hv.size_mul_lt
      obtain ⟨hfc, hB⟩ := truncate_fixCount hv hlt
      have hpow := Nat.two_pow_pos hb.granularity
      rw [hfc, if_neg (by omega), Nat.shiftLeft_eq] at hfix
      generalize hAB : s * 2 ^ hb.granularity = B at hfix hB hsmul
      obtain ⟨⟨c, hown⟩, -⟩ := hbitmapReset_eq_ok hfix
      obtain ⟨hv₁, hgroups₁⟩ := hbitmapResetOwn_valid hv hown
      obtain ⟨-, -, hsize₁, hgran₁, hsizes₁⟩ := hbitmapResetOwn_coherent hv.toCoherent hown
      have hfirst : B >>> hb.granularity = s := by
        rw [← hAB, ← Nat.shiftLeft_eq, Nat.shiftLeft_shiftRight]
      have hlast : ((B + (hb.size * 2 ^ hb.granularity - B) + 2 ^ 64 - 1) % 2 ^ 64) >>> hb.granularity =
          hb.size - 1 := by
        rw [show B + (hb.size * 2 ^ hb.granularity - B) + 2 ^ 64 - 1 = (hb.size * 2 ^ hb.granularity - 1) + 2 ^ 64 by
            omega, Nat.add_mod_right, Nat.mod_eq_of_lt (by omega), Nat.shiftRight_eq_div_pow]
        refine Nat.div_eq_of_lt_le ?_ ?_
        · rw [Nat.sub_mul, Nat.one_mul]
          omega
        · rw [Nat.sub_add_cancel (by omega)]
          omega
      rw [hfirst, hlast] at hgroups₁
      -- the reset leaves no group from `s` on
      have hin : ∀ r ∈ hb₁.groups, r < s := by
        intro r hr
        rw [hgroups₁, Finset.mem_sdiff, Finset.mem_Icc] at hr
        have := hgroups_lt r hr.1
        omega
      obtain ⟨hv', hgroups'⟩ := truncateLoop_shrink_valid hv₁ (by rw [hsize₁]; exact hlt) hin
      have hsize' : (truncateLoop true 7 s { hb₁ with size := s }).size = s :=
        (truncateLoop_fields true 7 s { hb₁ with size := s }).1
      have hgran' : (truncateLoop true 7 s { hb₁ with size := s }).granularity = hb₁.granularity :=
        (truncateLoop_fields true 7 s { hb₁ with size := s }).2.2
      refine ⟨hv', by rw [hgran', ← hgran₁], hsize', ?_⟩
      rw [hgroups', hsize', hgroups₁]
      ext r
      rw [Finset.mem_sdiff, Finset.mem_filter, Finset.mem_Icc]
      constructor
      · rintro ⟨hr, hnot⟩
        have := hgroups_lt r hr
        exact ⟨hr, by omega⟩
      · rintro ⟨hr, hrs⟩
        exact ⟨hr, by omega⟩
    · -- growing: nothing is reset
      have hdec : decide (s < hb.size) = false := decide_eq_false (by omega)
      rw [hdec, if_neg Bool.false_ne_true] at hfix
      cases hfix
      rw [hdec]
      obtain ⟨hv', hgroups'⟩ := truncateLoop_grow_valid hv hgt hle hsmul
      have hsize' : (truncateLoop false 7 s { hb with size := s }).size = s :=
        (truncateLoop_fields false 7 s { hb with size := s }).1
      have hgran' : (truncateLoop false 7 s { hb with size := s }).granularity = hb.granularity :=
        (truncateLoop_fields false 7 s { hb with size := s }).2.2
      refine ⟨hv', hgran', hsize', ?_⟩
      rw [hgroups', Finset.filter_true_of_mem fun r hr => by rw [hsize']; exact (hgroups_lt r hr).trans hgt]

theorem hbitmapTruncate_eq_ok {hb hb' : HBitmap} {mb mb' : Option HBitmap} {n : Nat}
    (h : hbitmapTruncate hb mb n = .ok (hb', mb')) :
    ∃ mb₁ resized, hbitmapTruncateOwn hb mb n = .ok (hb', mb₁, resized) := by
  obtain ⟨⟨hb₁, mb₁, resized⟩, hown, hrest⟩ := bind_eq_ok.mp h
  refine ⟨mb₁, resized, ?_⟩
  -- the meta bitmap is truncated on its own; the bitmap comes back as it was left
  rcases mb₁ with _ | m
  · cases hrest
    exact hown
  · cases resized
    · cases hrest
      exact hown
    · obtain ⟨_, -, hpure⟩ := bind_eq_ok.mp hrest
      cases hpure
      exact hown

end Xqemu.Util

