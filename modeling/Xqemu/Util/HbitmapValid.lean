import Xqemu.Util.Hbitmap
import Xqemu.Lib.WordBits
import Xqemu.Lib.Radix
import Xqemu.Lib.ErrorsIn

/-!
# The invariant of a hierarchical bitmap

Bit `k` of level `i` is node `k` of that level: bit `k % 64` of word `k / 64`.
Group `r` is node `r` of the last level, and its ancestor at height `h` is
node `r / 64^h` of level `6 - h`.  A bitmap is `Coherent` when the level sizes
are the chain `hbitmap_alloc` computes, the words are 64-bit, the last level
has no bit past `size`, every upper bit says whether the word below it is
nonzero (the level-0 sentinel apart); it is `Valid` when also `count`
counts the set groups.

Then an upper bit is set exactly when a set group lies under it
(`Coherent.bitAt_iff`), so two coherent bitmaps of one size with the same groups
have the same words (`Coherent.levels_eq`).  `hbitmap_alloc` and
`hbitmap_reset_all` make valid bitmaps without groups.
-/

namespace Xqemu.Util

open Xqemu.Words Xqemu.Radix

namespace HBitmap

/-- Node `k` of level `i`. -/
def bitAt (hb : HBitmap) (i k : Nat) : Bool := (hb.levels i (k / 64)).testBit (k % 64)

/-- The set groups. -/
def groups (hb : HBitmap) : Finset Nat := (Finset.range hb.size).filter fun r => hb.bit r = true

theorem bit_eq_bitAt (hb : HBitmap) (r : Nat) : hb.bit r = hb.bitAt 6 r := rfl

@[simp] theorem mem_groups {hb : HBitmap} {r : Nat} : r ∈ hb.groups ↔ r < hb.size ∧ hb.bit r = true := by
  simp [groups]

theorem bitAt_mul_add (hb : HBitmap) (i k : Nat) {b : Nat} (hb64 : b < 64) :
    hb.bitAt i (64 * k + b) = (hb.levels i k).testBit b := by
  have hdiv : (64 * k + b) / 64 = k := by omega
  have hmod : (64 * k + b) % 64 = b := by omega
  rw [bitAt, hdiv, hmod]

end HBitmap

/-- The words of the level above a level of `words` words: `MAX((words + 63) >> 6, 1)`. -/
def wordsAbove (words : Nat) : Nat := max ((words + 63) / 64) 1

theorem wordsAbove_pos (x : Nat) : 0 < wordsAbove x := by
  simp [wordsAbove]

theorem le_mul_wordsAbove (x : Nat) : x ≤ 64 * wordsAbove x := by
  unfold wordsAbove
  omega

theorem div_lt_wordsAbove {r x : Nat} (h : r < x) : r / 64 < wordsAbove x := by
  unfold wordsAbove
  omega

theorem wordsAbove_le_pow {x a : Nat} (h : x ≤ 2 ^ (a + 6)) : wordsAbove x ≤ 2 ^ a := by
  have hpow : 2 ^ (a + 6) = 64 * 2 ^ a := by rw [Nat.pow_add, Nat.mul_comm]
  have hpos := Nat.two_pow_pos a
  unfold wordsAbove
  omega

/-- The step `MAX((size + 63) >> 6, 1)` of `hbitmap_alloc` and `hbitmap_truncate`. -/
theorem max_shiftRight_eq_wordsAbove (x : Nat) : max ((x + 63) >>> 6) 1 = wordsAbove x := by
  rw [Nat.shiftRight_eq_div_pow]
  rfl

/-- The shape `hbitmap_alloc` gives a bitmap: the level sizes over `size`. -/
structure HBitmap.Shape (hb : HBitmap) : Prop where
  granularity_lt : hb.granularity < 64
  size_le : hb.size ≤ 2 ^ 41
  size_mul_lt : hb.size * 2 ^ hb.granularity < 2 ^ 64
  sizes_last : hb.sizes 6 = wordsAbove hb.size
  sizes_up : ∀ i < 6, hb.sizes i = wordsAbove (hb.sizes (i + 1))

/-- The levels of a bitmap agree with its size and with each other. -/
structure HBitmap.Coherent (hb : HBitmap) : Prop extends hb.Shape where
  word_lt : ∀ i ≤ 6, ∀ j < hb.sizes i, hb.levels i j < 2 ^ 64
  last_clear : ∀ r, hb.size ≤ r → r < 64 * hb.sizes 6 → hb.bit r = false
  up : ∀ i < 6, ∀ k < 64 * hb.sizes i,
    (hb.bitAt i k = true ↔ (k < hb.sizes (i + 1) ∧ hb.levels (i + 1) k ≠ 0) ∨ (i = 0 ∧ k = 63))

/-- The invariant of `struct HBitmap`: coherent levels, and `count` the number of set groups. -/
structure HBitmap.Valid (hb : HBitmap) : Prop extends hb.Coherent where
  count_eq : hb.count = hb.groups.card

namespace HBitmap.Shape

variable {hb : HBitmap} (hs : hb.Shape)
include hs

/-- Level `6 - h` has at most `2^(35 - 6h)` words: level 1 at most 32, level 0 one. -/
theorem sizes_le_pow : ∀ h ≤ 5, hb.sizes (6 - h) ≤ 2 ^ (35 - 6 * h)
  | 0, _ => by
    rw [hs.sizes_last]
    exact wordsAbove_le_pow (by simpa using hs.size_le)
  | h + 1, hh => by
    have hprev := sizes_le_pow h (by omega)
    rw [show 6 - (h + 1) = 5 - h by omega, hs.sizes_up (5 - h) (by omega),
      show 5 - h + 1 = 6 - h by omega]
    exact wordsAbove_le_pow (by rwa [show 35 - 6 * (h + 1) + 6 = 35 - 6 * h by omega])

theorem sizes_one_le : hb.sizes 1 ≤ 32 := hs.sizes_le_pow 5 (by omega)

theorem sizes_zero : hb.sizes 0 = 1 := by
  have h1 := hs.sizes_one_le
  rw [hs.sizes_up 0 (by omega), Nat.zero_add]
  unfold wordsAbove
  omega

theorem sizes_pos {i : Nat} (hi : i ≤ 6) : 0 < hb.sizes i := by
  rcases Nat.lt_or_ge i 6 with h | h
  · rw [hs.sizes_up i h]
    exact wordsAbove_pos _
  · rw [show i = 6 by omega, hs.sizes_last]
    exact wordsAbove_pos _

theorem sizes_le_mul {i : Nat} (hi : i < 6) : hb.sizes (i + 1) ≤ 64 * hb.sizes i := by
  rw [hs.sizes_up i hi]
  exact le_mul_wordsAbove _

/-- The ancestors of a group below `size` lie in allocated words. -/
theorem div_lt_sizes {r : Nat} (hr : r < hb.size) : ∀ h ≤ 6, r / 64 ^ (h + 1) < hb.sizes (6 - h)
  | 0, _ => by
    rw [hs.sizes_last]
    exact div_lt_wordsAbove hr
  | h + 1, hh => by
    rw [div_pow_succ, show 6 - (h + 1) = 5 - h by omega, hs.sizes_up (5 - h) (by omega),
      show 5 - h + 1 = 6 - h by omega]
    exact div_lt_wordsAbove (div_lt_sizes hr h (by omega))

/-- The nodes above an allocated word of the last level lie in allocated words. -/
theorem div_lt_sizes_of_lt {x : Nat} (hx : x < hb.sizes 6) : ∀ h ≤ 6, x / 64 ^ h < hb.sizes (6 - h)
  | 0, _ => by simpa using hx
  | h + 1, hh => by
    rw [div_pow_succ, show 6 - (h + 1) = 5 - h by omega, hs.sizes_up (5 - h) (by omega),
      show 5 - h + 1 = 6 - h by omega]
    exact div_lt_wordsAbove (div_lt_sizes_of_lt hx h (by omega))

/-- Two shapes of one size have the same level sizes. -/
theorem sizes_eq {hb' : HBitmap} (hs' : hb'.Shape) (hsize : hb.size = hb'.size) :
    ∀ i ≤ 6, hb.sizes i = hb'.sizes i := by
  have hheight : ∀ h ≤ 6, hb.sizes (6 - h) = hb'.sizes (6 - h) := by
    intro h hh
    induction h with
    | zero => rw [Nat.sub_zero, hs.sizes_last, hs'.sizes_last, hsize]
    | succ h ih =>
      rw [show 6 - (h + 1) = 5 - h by omega, hs.sizes_up (5 - h) (by omega), hs'.sizes_up (5 - h) (by omega),
        show 5 - h + 1 = 6 - h by omega, ih (by omega)]
  intro i hi
  simpa [Nat.sub_sub_self hi] using hheight (6 - i) (by omega)

end HBitmap.Shape

namespace HBitmap.Coherent

variable {hb : HBitmap} (hv : hb.Coherent)
include hv

theorem sentinel : hb.bitAt 0 63 = true := by
  rw [hv.up 0 (by omega) 63 (by rw [hv.sizes_zero]; omega)]
  exact .inr ⟨rfl, rfl⟩

/-- A node below the sentinel is set exactly when a set group lies under it; by
induction on the height `h` of level `6 - h`. -/
theorem bitAt_iff_height : ∀ h ≤ 6, ∀ k < 64 * hb.sizes (6 - h), ¬(h = 6 ∧ k = 63) →
    (hb.bitAt (6 - h) k = true ↔ ∃ r ∈ hb.groups, r / 64 ^ h = k)
  | 0, _, k, hk, _ => by
    simp only [Nat.sub_zero, Nat.pow_zero, Nat.div_one, exists_eq_right, HBitmap.mem_groups,
      ← HBitmap.bit_eq_bitAt]
    constructor
    · intro hbit
      refine ⟨Nat.lt_of_not_le fun hle => ?_, hbit⟩
      rw [hv.last_clear k hle hk] at hbit
      exact Bool.noConfusion hbit
    · exact And.right
  | h + 1, hh, k, hk, hsent => by
    have hi : 6 - (h + 1) + 1 = 6 - h := by omega
    rw [hv.up (6 - (h + 1)) (by omega) k hk, hi]
    have hnot : ¬(6 - (h + 1) = 0 ∧ k = 63) := fun ⟨h0, hk63⟩ => hsent ⟨by omega, hk63⟩
    simp only [hnot, or_false]
    constructor
    · rintro ⟨hks, hword⟩
      obtain ⟨b, hb64, hbit⟩ := exists_testBit_lt hword (hv.word_lt (6 - h) (by omega) k hks)
      have hnode : hb.bitAt (6 - h) (64 * k + b) = true := by rwa [HBitmap.bitAt_mul_add _ _ _ hb64]
      obtain ⟨r, hr, hrk⟩ := (bitAt_iff_height h (by omega) (64 * k + b) (by omega) (by omega)).mp hnode
      exact ⟨r, hr, by rw [div_pow_succ, hrk]; omega⟩
    · rintro ⟨r, hr, hrk⟩
      have hks : k < hb.sizes (6 - h) := hrk ▸ hv.div_lt_sizes (HBitmap.mem_groups.mp hr).1 h (by omega)
      have hsplit : r / 64 ^ h = 64 * k + r / 64 ^ h % 64 := by
        rw [← hrk, div_pow_succ]
        omega
      have hnode : hb.bitAt (6 - h) (64 * k + r / 64 ^ h % 64) = true := by
        rw [← hsplit]
        exact (bitAt_iff_height h (by omega) _ (by omega) (by omega)).mpr ⟨r, hr, rfl⟩
      rw [HBitmap.bitAt_mul_add _ _ _ (Nat.mod_lt _ (by omega))] at hnode
      exact ⟨hks, fun hzero => by rw [hzero, Nat.zero_testBit] at hnode; exact Bool.noConfusion hnode⟩

theorem bitAt_iff {i k : Nat} (hi : i ≤ 6) (hk : k < 64 * hb.sizes i) (hsent : ¬(i = 0 ∧ k = 63)) :
    hb.bitAt i k = true ↔ ∃ r ∈ hb.groups, r / 64 ^ (6 - i) = k := by
  have := hv.bitAt_iff_height (6 - i) (by omega) k (by rwa [Nat.sub_sub_self hi]) (by omega)
  rwa [Nat.sub_sub_self hi] at this

/-- A set group sets every node above it. -/
theorem bitAt_of_mem {r : Nat} (hr : r ∈ hb.groups) {i : Nat} (hi : i ≤ 6) :
    hb.bitAt i (r / 64 ^ (6 - i)) = true := by
  have hlt := hv.div_lt_sizes (HBitmap.mem_groups.mp hr).1 (6 - i) (by omega)
  rw [Nat.sub_sub_self hi, div_pow_succ] at hlt
  by_cases hsent : i = 0 ∧ r / 64 ^ (6 - i) = 63
  · obtain ⟨rfl, h63⟩ := hsent
    rw [h63]
    exact hv.sentinel
  · exact (hv.bitAt_iff hi (by omega) hsent).mpr ⟨r, hr, rfl⟩

/-- The allocated words of a valid bitmap follow from its size and its groups. -/
theorem levels_eq {hb' : HBitmap} (hv' : hb'.Coherent) (hsize : hb.size = hb'.size)
    (hgroups : hb.groups = hb'.groups) : ∀ i ≤ 6, ∀ j < hb.sizes i, hb.levels i j = hb'.levels i j := by
  have hsizes := hv.sizes_eq hv'.toShape hsize
  intro i hi j hj
  apply Nat.eq_of_testBit_eq
  intro b
  rcases Nat.lt_or_ge b 64 with hb64 | hb64
  · rw [← HBitmap.bitAt_mul_add _ _ _ hb64, ← HBitmap.bitAt_mul_add _ _ _ hb64]
    by_cases hsent : i = 0 ∧ 64 * j + b = 63
    · obtain ⟨rfl, h63⟩ := hsent
      rw [h63, hv.sentinel, hv'.sentinel]
    · have hk : 64 * j + b < 64 * hb.sizes i := by omega
      have hk' : 64 * j + b < 64 * hb'.sizes i := by rw [← hsizes i hi]; exact hk
      rw [Bool.eq_iff_iff, hv.bitAt_iff hi hk hsent, hv'.bitAt_iff hi hk' hsent, hgroups]
  · rw [testBit_eq_false_of_le (hv.word_lt i hi j hj) hb64,
      testBit_eq_false_of_le (hv'.word_lt i hi j (by rw [← hsizes i hi]; exact hj)) hb64]

end HBitmap.Coherent

/-- A bitmap of some shape whose allocated words are zero, the sentinel apart, is valid
and has no groups. -/
theorem HBitmap.Shape.valid_of_cleared {hb : HBitmap} (hs : hb.Shape) (hcount : hb.count = 0)
    (hwords : ∀ i ≤ 6, ∀ j < hb.sizes i, hb.levels i j = if i = 0 ∧ j = 0 then 1 <<< 63 else 0) :
    hb.Valid ∧ hb.groups = ∅ := by
  have hbit : ∀ r < 64 * hb.sizes 6, hb.bit r = false := by
    intro r hr
    rw [HBitmap.bit, hwords 6 (by omega) (r / 64) (by omega)]
    simp
  have hgroups : hb.groups = ∅ := by
    ext r
    simp only [HBitmap.mem_groups, Finset.notMem_empty, iff_false, not_and]
    intro hr
    rw [hbit r (lt_of_lt_of_le hr (by rw [hs.sizes_last]; exact le_mul_wordsAbove _))]
    exact Bool.false_ne_true
  refine ⟨⟨⟨hs, ?_, fun r _ hr => hbit r hr, ?_⟩, by rw [hcount, hgroups, Finset.card_empty]⟩, hgroups⟩
  · intro i hi j hj
    rw [hwords i hi j hj]
    split_ifs
    · rw [Nat.one_shiftLeft]
      exact Nat.pow_lt_pow_right (by omega) (by omega)
    · exact Nat.two_pow_pos 64
  · intro i hi k hk
    rw [HBitmap.bitAt, hwords i (by omega) (k / 64) (by omega)]
    -- the word below a node of the level is cleared: only the sentinel is left
    have hbelow : ∀ hk' : k < hb.sizes (i + 1), hb.levels (i + 1) k = 0 := fun hk' => by
      rw [hwords (i + 1) (by omega) k hk', if_neg (by omega)]
    rcases Nat.eq_zero_or_pos i with rfl | hpos
    · have hk64 : k < 64 := by rwa [hs.sizes_zero] at hk
      rw [if_pos ⟨rfl, by omega⟩, Nat.one_shiftLeft, Nat.testBit_two_pow]
      constructor
      · intro h63
        exact .inr ⟨rfl, by simp at h63; omega⟩
      · rintro (⟨hk', hne⟩ | ⟨-, rfl⟩)
        · exact absurd (hbelow hk') hne
        · rfl
    · rw [if_neg (by omega), Nat.zero_testBit]
      constructor
      · exact fun h => Bool.noConfusion h
      · rintro (⟨hk', hne⟩ | ⟨h0, -⟩)
        · exact absurd (hbelow hk') hne
        · omega

/-! ## Allocation and `hbitmap_reset_all` -/

/-- The loop of `hbitmap_alloc` leaves level `j < k` with `wordsAbove` applied `k - j` times. -/
theorem allocLoop_eq : ∀ (k x : Nat) (sizes : Nat → Nat),
    (allocLoop k x sizes).1 = (fun j => if j < k then wordsAbove^[k - j] x else sizes j) ∧
      (allocLoop k x sizes).2 = wordsAbove^[k] x
  | 0, x, sizes => by simp [allocLoop]
  | k + 1, x, sizes => by
    obtain ⟨h₁, h₂⟩ := allocLoop_eq k (wordsAbove x) (Function.update sizes k (wordsAbove x))
    simp only [allocLoop, max_shiftRight_eq_wordsAbove, h₁, h₂, Function.iterate_succ_apply, and_true]
    funext j
    by_cases hj : j < k
    · rw [if_pos hj, if_pos (by omega), show k + 1 - j = (k - j) + 1 by omega, Function.iterate_succ_apply]
    · by_cases hjk : j = k
      · subst hjk
        simp
      · rw [if_neg hj, if_neg (by omega), Function.update_of_ne hjk]

/-- What `hbitmap_alloc` returns: a valid bitmap with no group set. -/
theorem hbitmapAlloc_valid {size g : Nat} {hb : HBitmap} (h : hbitmapAlloc size g = .ok hb) :
    hb.Valid ∧ hb.groups = ∅ ∧ hb.origSize = size ∧ hb.granularity = g ∧
      hb.size = ((size + (1 <<< g) - 1) % 2 ^ 64) >>> g := by
  unfold hbitmapAlloc at h
  generalize hn : ((size + (1 <<< g) - 1) % 2 ^ 64) >>> g = n at h ⊢
  dsimp only at h
  split_ifs at h with hg hbound hroot
  obtain ⟨hsizes, -⟩ := allocLoop_eq 7 n fun _ => 0
  injection h with h
  have hfields : hb.origSize = size ∧ hb.size = n ∧ hb.count = 0 ∧ hb.granularity = g := by
    rw [← h]
    exact ⟨rfl, rfl, rfl, rfl⟩
  obtain ⟨horig, hsize, hcount, hgran⟩ := hfields
  have hsz : ∀ i, hb.sizes i = if i < 7 then wordsAbove^[7 - i] n else 0 := fun i => by
    rw [← h, hsizes]
  have hs : hb.Shape := by
    refine ⟨by omega, by simpa [hsize] using hbound, ?_, by simp [hsz, hsize], ?_⟩
    · rw [hsize, hgran, ← hn, Nat.shiftRight_eq_div_pow]
      exact lt_of_le_of_lt (Nat.div_mul_le_self _ _) (Nat.mod_lt _ (by omega))
    · intro i hi
      rw [hsz, hsz, if_pos (by omega), if_pos (by omega), show 7 - i = (7 - (i + 1)) + 1 by omega,
        Function.iterate_succ_apply']
  obtain ⟨hv, hgroups⟩ := hs.valid_of_cleared hcount fun i _ j _ => by rw [← h]
  exact ⟨hv, hgroups, horig, hgran, hsize⟩

/-- What `hbitmap_reset_all` leaves: the bitmap valid with no group set. -/
theorem hbitmapResetAll_valid {hb : HBitmap} (hv : hb.Coherent) :
    (hbitmapResetAll hb).Valid ∧ (hbitmapResetAll hb).groups = ∅ := by
  have hs : (hbitmapResetAll hb).Shape :=
    ⟨hv.granularity_lt, hv.size_le, hv.size_mul_lt, hv.sizes_last, hv.sizes_up⟩
  refine hs.valid_of_cleared rfl fun i hi j hj => ?_
  have hj0 : i = 0 → j = 0 := fun hi0 => by
    subst hi0
    have := hv.sizes_zero
    simp only [hbitmapResetAll] at hj
    omega
  simp only [hbitmapResetAll] at hj ⊢
  split_ifs with h0 h1
  · rfl
  · rfl
  · exact absurd ⟨by omega, hj0 (by omega)⟩ h0

end Xqemu.Util
