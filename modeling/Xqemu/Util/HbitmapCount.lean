import Xqemu.Util.HbitmapIter
import Xqemu.Util.HbitmapCoherent

/-!
# Counting the set groups of a range

`hb_count_between` walks the words of the last level with
`hbitmap_iter_next_word`, adding the population count of each word before the
word of `last + 1`, and then the bits of that word below `last + 1`.

`hbitmap_iter_next_word` returns the word of the least pending group that is set
and drops the whole word from the iterator.  While the pending set is the set
groups from some `x` on, the word comes back with exactly its set groups from `x`
on, and the iterator is left with the set groups from the next word on
(`hbitmapIterNextWord_spec`).  Each turn of the loop so uses up a word that holds a
set group, and `sizes[HBITMAP_LEVELS - 1] + 1` turns are enough.
-/

namespace Xqemu.Util

open Xqemu.Words Xqemu.Radix Xqemu.Scan Xqemu.Faults

namespace HBitmapIter

/-- The iterator `hbitmap_iter_next_word` leaves: its cached word of the last level cleared. -/
def dropLast (hbi : HBitmapIter) : HBitmapIter := { hbi with cur := Function.update hbi.cur 6 0 }

@[simp] theorem dropLast_pos (hbi : HBitmapIter) : hbi.dropLast.pos = hbi.pos := rfl
@[simp] theorem dropLast_granularity (hbi : HBitmapIter) : hbi.dropLast.granularity = hbi.granularity := rfl
@[simp] theorem dropLast_cur (hbi : HBitmapIter) : hbi.dropLast.cur = Function.update hbi.cur 6 0 := rfl

variable {hb : HBitmap} {hbi : HBitmapIter}

theorem Inv.dropLast (hi : hbi.Inv hb) : hbi.dropLast.Inv hb := by
  refine ⟨hi.granularity_eq, hi.pos_lt, fun i hi6 => ?_, fun i hi6 b hb' => ?_, ?_⟩
  · by_cases h6 : i = 6
    · subst h6
      rw [dropLast_cur, Function.update_self]
      exact Nat.two_pow_pos 64
    · rw [dropLast_cur, Function.update_of_ne h6]
      exact hi.cur_lt i hi6
  · rw [dropLast_cur, Function.update_of_ne (by omega)] at hb'
    exact hi.after_path i hi6 b hb'
  · rw [dropLast_cur, Function.update_of_ne (by omega)]
    exact hi.sentinel

/-- The groups of the last-level word `p` whose bits are set in `c`. -/
theorem mem_regionAt_zero {p c r : Nat} : r ∈ regionAt (64 * p) c 0 ↔ r / 64 = p ∧ c.testBit (r % 64) = true := by
  simp only [regionAt, Set.mem_ofPred_eq, Nat.zero_add, Nat.pow_one, Nat.pow_zero, Nat.div_one]
  constructor
  · rintro ⟨hw, hbit⟩
    exact ⟨by omega, hbit⟩
  · rintro ⟨hw, hbit⟩
    exact ⟨by omega, hbit⟩

/-- The pending groups are those of the cached word of the last level and those above it. -/
theorem pending_eq_union (hbi : HBitmapIter) :
    hbi.pending = hbi.dropLast.pending ∪ regionAt (64 * hbi.pos) (hbi.cur 6) 0 := by
  ext r
  constructor
  · rintro ⟨i, hi6, hreg⟩
    by_cases h6 : i = 6
    · subst h6
      exact .inr hreg
    · refine .inl ⟨i, hi6, ?_⟩
      rwa [dropLast_pos, dropLast_cur, Function.update_of_ne h6]
  · rintro (⟨i, hi6, hreg⟩ | hreg)
    · rw [dropLast_pos, dropLast_cur] at hreg
      by_cases h6 : i = 6
      · subst h6
        rw [Function.update_self] at hreg
        exact absurd hreg.2 (by rw [Nat.zero_testBit]; exact Bool.false_ne_true)
      · exact ⟨i, hi6, by rwa [Function.update_of_ne h6] at hreg⟩
    · exact ⟨6, le_rfl, hreg⟩

/-- The groups pending above the last level lie past the cached word. -/
theorem Inv.le_of_mem_dropLast (hi : hbi.Inv hb) {r : Nat} (hr : r ∈ hbi.dropLast.pending) :
    64 * hbi.pos + 64 ≤ r := by
  obtain ⟨i, hi6, hreg⟩ := hr
  rw [dropLast_pos, dropLast_cur] at hreg
  by_cases h6 : i = 6
  · subst h6
    rw [Function.update_self] at hreg
    exact absurd hreg.2 (by rw [Nat.zero_testBit]; exact Bool.false_ne_true)
  · rw [Function.update_of_ne h6] at hreg
    -- the last group of the cached word comes before every group above it
    have hlast : 64 * hbi.pos + 63 ∈ regionAt (64 * hbi.pos) (2 ^ 64 - 1) 0 := by
      refine mem_regionAt_zero.mpr ⟨by omega, ?_⟩
      rw [Nat.testBit_two_pow_sub_one]
      exact decide_eq_true (by omega)
    have hlt := regionAt_lt (by omega : 0 < 6 - i) (fun b hb' => hi.after_path i (by omega) b hb') hlast hreg
    omega

/-- Every pending group lies in the cached word of the last level or past it. -/
theorem Inv.le_of_mem_pending (hi : hbi.Inv hb) {r : Nat} (hr : r ∈ hbi.pending) : 64 * hbi.pos ≤ r := by
  rw [pending_eq_union] at hr
  rcases hr with hd | hw
  · have := hi.le_of_mem_dropLast hd
    omega
  · have := (mem_regionAt_zero.mp hw).1
    omega

/-- Dropping the cached word of the last level drops exactly the pending groups of that word. -/
theorem Inv.pending_dropLast (hi : hbi.Inv hb) :
    hbi.dropLast.pending = hbi.pending ∩ Set.Ici (64 * hbi.pos + 64) := by
  ext r
  constructor
  · intro hr
    exact ⟨by rw [pending_eq_union]; exact .inl hr, hi.le_of_mem_dropLast hr⟩
  · rintro ⟨hr, hle⟩
    rw [pending_eq_union] at hr
    rcases hr with hd | hw
    · exact hd
    · have := (mem_regionAt_zero.mp hw).1
      rw [Set.mem_Ici] at hle
      omega

/-- A group of the cached word of the last level is pending exactly when its bit of the word is set. -/
theorem Inv.mem_pending_of_div (hi : hbi.Inv hb) {r : Nat} (hw : r / 64 = hbi.pos) :
    r ∈ hbi.pending ↔ (hbi.cur 6).testBit (r % 64) = true := by
  rw [pending_eq_union]
  constructor
  · rintro (hd | hreg)
    · have := hi.le_of_mem_dropLast hd
      omega
    · exact (mem_regionAt_zero.mp hreg).2
  · intro hbit
    exact .inr (mem_regionAt_zero.mpr ⟨hw, hbit⟩)

/-- With the cached word of the last level empty, everything pending lies past it. -/
theorem Inv.le_of_mem_of_cur_zero (hi : hbi.Inv hb) (h0 : hbi.cur 6 = 0) {r : Nat} (hr : r ∈ hbi.pending) :
    64 * hbi.pos + 64 ≤ r := by
  rw [pending_eq_union, h0] at hr
  rcases hr with hd | hw
  · exact hi.le_of_mem_dropLast hd
  · exact absurd (mem_regionAt_zero.mp hw).2 (by rw [Nat.zero_testBit]; exact Bool.false_ne_true)

end HBitmapIter

/-- Below the allocated words of the last level, a group is set exactly when its bit is. -/
theorem HBitmap.Coherent.mem_groups_iff {hb : HBitmap} (hc : hb.Coherent) {r : Nat}
    (hr : r < 64 * hb.sizes 6) : r ∈ hb.groups ↔ hb.bit r = true := by
  rw [HBitmap.mem_groups]
  constructor
  · exact fun h => h.2
  · intro hbit
    refine ⟨Nat.lt_of_not_le fun hge => ?_, hbit⟩
    rw [hc.last_clear r hge hr] at hbit
    exact Bool.false_ne_true hbit

/-- The population count of a word whose bits below 64 are the members of `s` in word `w`. -/
theorem ctpop64_eq_card {c w : Nat} {s : Finset Nat}
    (hbits : ∀ b < 64, c.testBit b = true ↔ 64 * w + b ∈ s) :
    ctpop64 c = (s.filter fun r => r / 64 = w).card := by
  rw [ctpop64, countP_range_testBit]
  apply Finset.card_nbij' (fun b => 64 * w + b) (· % 64)
  · intro b hb
    rw [Finset.mem_coe, Finset.mem_filter, Finset.mem_range] at hb
    dsimp only
    exact Finset.mem_coe.mpr (Finset.mem_filter.mpr ⟨(hbits b hb.1).mp hb.2, by omega⟩)
  · intro r hr
    rw [Finset.mem_coe, Finset.mem_filter] at hr
    have hr64 : 64 * w + r % 64 = r := by omega
    refine Finset.mem_coe.mpr (Finset.mem_filter.mpr ⟨Finset.mem_range.mpr (Nat.mod_lt _ (by omega)), ?_⟩)
    rw [hbits (r % 64) (Nat.mod_lt _ (by omega)), hr64]
    exact hr.1
  · intro b hb
    rw [Finset.mem_coe, Finset.mem_filter, Finset.mem_range] at hb
    dsimp only
    omega
  · intro r hr
    rw [Finset.mem_coe, Finset.mem_filter] at hr
    dsimp only
    omega

/-! ## `hbitmap_iter_next_word` -/

open HBitmapIter

variable {hb : HBitmap} {hbi : HBitmapIter}

/-- While the cached word of the last level has bits left, `hbitmap_iter_next_word` returns them
and drops the word. -/
theorem hbitmapIterNextWord_of_ne (h : hbi.cur 6 ≠ 0) :
    hbitmapIterNextWord hb hbi = .ok (hbi.pos, hbi.cur 6, hbi.dropLast) := by
  unfold hbitmapIterNextWord
  simp only [if_neg h, pure_bind]
  rfl

/-- Otherwise it returns the word `hbitmap_iter_skip_words` moves to, and drops it. -/
theorem hbitmapIterNextWord_of_skip (h : hbi.cur 6 = 0) {c : Nat} {hbi' : HBitmapIter}
    (hs : hbitmapIterSkipWords hb hbi = .ok (c, hbi')) (hc0 : c ≠ 0) :
    hbitmapIterNextWord hb hbi = .ok (hbi'.pos, c, hbi'.dropLast) := by
  unfold hbitmapIterNextWord
  simp only [if_pos h, hs, ok_bind, if_neg hc0]
  rfl

/-- ... and `(size_t)-1` when `hbitmap_iter_skip_words` finds nothing. -/
theorem hbitmapIterNextWord_of_end (h : hbi.cur 6 = 0) (hs : hbitmapIterSkipWords hb hbi = .ok (0, hbi)) :
    hbitmapIterNextWord hb hbi = .ok (2 ^ 64 - 1, 0, hbi) := by
  unfold hbitmapIterNextWord
  simp only [if_pos h, hs, ok_bind, if_true]
  rfl

/-! ## One word of the count -/

/-- The pending set groups are those from `x` on, and from `y` on after a cut at `y ≥ x`. -/
theorem inter_Ici_eq_filter {P : Set Nat} {G : Finset Nat} {x y : Nat}
    (hP : P ∩ ↑G = ↑(G.filter fun r => x ≤ r)) (hxy : x ≤ y) :
    P ∩ Set.Ici y ∩ ↑G = ↑(G.filter fun r => y ≤ r) := by
  ext r
  have hr := Set.ext_iff.mp hP r
  simp only [Set.mem_inter_iff, Finset.mem_coe, Finset.mem_filter, Set.mem_Ici] at hr ⊢
  constructor
  · rintro ⟨⟨_, hy⟩, hg⟩
    exact ⟨hg, hy⟩
  · rintro ⟨hg, hy⟩
    exact ⟨⟨(hr.mpr ⟨hg, by omega⟩).1, hy⟩, hg⟩

/-- What the loop of `hb_count_between` keeps between turns: the pending set groups are those
from `x` on, `x` lies at most a word past the cached word of the last level, and that word has
only live bits. -/
structure CountInv (hb : HBitmap) (x : Nat) (hbi : HBitmapIter) : Prop where
  inv : hbi.Inv hb
  cur_live : hbi.cur 6 &&& hb.levels 6 hbi.pos = hbi.cur 6
  le_pos : x ≤ 64 * hbi.pos + 64
  pending : hbi.pending ∩ ↑hb.groups = ↑(hb.groups.filter fun r => x ≤ r)

/-- What `hbitmap_iter_next_word` returns under `CountInv` when a set group from `x` on is
left: the word `w` of the least of them, whose bits are the set groups of the word from `x`
on, and an iterator past the word. -/
structure WordFound (hb : HBitmap) (x w cur : Nat) (hbi : HBitmapIter) : Prop where
  inv : hbi.Inv hb
  cur_six : hbi.cur 6 = 0
  pos_eq : hbi.pos = w
  cur_lt : cur < 2 ^ 64
  cur_ne : cur ≠ 0
  le_first : ∀ r ∈ hb.groups, x ≤ r → 64 * w ≤ r
  testBit_cur : ∀ b < 64, cur.testBit b = true ↔ 64 * w + b ∈ hb.groups ∧ x ≤ 64 * w + b
  pending : hbi.pending ∩ ↑hb.groups = ↑(hb.groups.filter fun r => 64 * w + 64 ≤ r)

namespace CountInv

variable {x : Nat}

theorem mem_pending (h : CountInv hb x hbi) {r : Nat} (hr : r ∈ hb.groups) (hxr : x ≤ r) :
    r ∈ hbi.pending := by
  have hmem : r ∈ (↑(hb.groups.filter fun r => x ≤ r) : Set Nat) :=
    Finset.mem_coe.mpr (Finset.mem_filter.mpr ⟨hr, hxr⟩)
  rw [← h.pending] at hmem
  exact hmem.1

theorem le_of_mem (h : CountInv hb x hbi) {r : Nat} (hr : r ∈ hbi.pending) (hg : r ∈ hb.groups) : x ≤ r := by
  have hmem : r ∈ hbi.pending ∩ ↑hb.groups := ⟨hr, hg⟩
  rw [h.pending, Finset.mem_coe, Finset.mem_filter] at hmem
  exact hmem.2

theorem live (h : CountInv hb x hbi) {b : Nat} (hbit : (hbi.cur 6).testBit b = true) :
    (hb.levels 6 hbi.pos).testBit b = true := by
  rw [← h.cur_live, Nat.testBit_and, Bool.and_eq_true] at hbit
  exact hbit.2

/-- A cached word of the last level with bits left is returned as it is. -/
theorem wordFound_of_ne (hc : hb.Coherent) (h : CountInv hb x hbi) (h0 : hbi.cur 6 ≠ 0) :
    WordFound hb x hbi.pos (hbi.cur 6) hbi.dropLast where
  inv := h.inv.dropLast
  cur_six := by rw [dropLast_cur, Function.update_self]
  pos_eq := rfl
  cur_lt := h.inv.cur_lt 6 le_rfl
  cur_ne := h0
  le_first r hr hxr := h.inv.le_of_mem_pending (h.mem_pending hr hxr)
  testBit_cur b hb64 := by
    have hw : (64 * hbi.pos + b) / 64 = hbi.pos := by omega
    have hmod : (64 * hbi.pos + b) % 64 = b := by omega
    have hpend := h.inv.mem_pending_of_div hw
    rw [hmod] at hpend
    constructor
    · intro hbit
      -- a bit of the cached word is live, and live bits of allocated words are set groups
      have hg : 64 * hbi.pos + b ∈ hb.groups := by
        rw [hc.mem_groups_iff (by have := h.inv.pos_lt; omega), HBitmap.bit, hw, hmod]
        exact h.live hbit
      exact ⟨hg, h.le_of_mem (hpend.mpr hbit) hg⟩
    · rintro ⟨hg, hxr⟩
      exact hpend.mp (h.mem_pending hg hxr)
  pending := by
    rw [h.inv.pending_dropLast]
    exact inter_Ici_eq_filter h.pending h.le_pos

/-- With the cached word of the last level empty, `hbitmap_iter_next_word` climbs: it finds no
set group left, or it moves to the word of the least one. -/
theorem nextWord_of_cur_zero (hc : hb.Coherent) (h : CountInv hb x hbi) (h0 : hbi.cur 6 = 0) :
    (hbitmapIterNextWord hb hbi = .ok (2 ^ 64 - 1, 0, hbi) ∧ ∀ r ∈ hb.groups, r < x) ∨
      ∃ w cur hbi', hbitmapIterNextWord hb hbi = .ok (w, cur, hbi') ∧ WordFound hb x w cur hbi' := by
  have hi := h.inv
  rcases climb_cases hc hi with ⟨hzero, hsent⟩ | ⟨i, m, hi6, hne, hzero, hend, hm⟩
  · have hskip := hbitmapIterSkipWords_end hc hi (fun j hj hj5 => hzero j hj (by omega)) hsent
    refine .inl ⟨hbitmapIterNextWord_of_end h0 hskip, fun r hr => Nat.lt_of_not_le fun hxr => ?_⟩
    have hmem : r ∈ hbi.pending ∩ ↑hb.groups := ⟨h.mem_pending hr hxr, hr⟩
    rw [pending_inter_eq_empty hc hzero hsent] at hmem
    exact hmem
  · -- the masked word of the last level is empty, so the climb stops above it
    have hm6 : hbi.masked hb 6 = 0 := by rw [← masked_six, h0, Nat.zero_and]
    have hi5 : i < 6 := Nat.lt_of_le_of_ne hi6 fun h6 => hne (h6 ▸ hm6)
    have hleast := found_isLeast hc hi hi6 hne hm hzero
    have hmg : m ∈ hb.groups := hleast.1.2
    have hmpos : 64 * hbi.pos + 64 ≤ m := hi.le_of_mem_of_cur_zero h0 hleast.1.1
    have hxm : x ≤ m := h.le_of_mem hleast.1.1 hmg
    have hmw : m / 64 < hb.sizes 6 := by
      simpa using hc.div_lt_sizes (HBitmap.mem_groups.mp hmg).1 0 (by omega)
    have hskip := hbitmapIterSkipWords_found hc hi hi5 hne (fun j hj hj5 => hzero j hj (by omega)) hend hm
    have hL6 := levels_six_ne_zero (HBitmap.mem_groups.mp hmg).2
    have hinv := moveTo_inv hc hi hi6 hne hm hend
    have hpos : (hbi.moveTo hb m i).pos = m / 64 := rfl
    -- the set groups left after the move are those past `m`
    have hmove : (hbi.moveTo hb m i).pending ∩ ↑hb.groups = ↑(hb.groups.filter fun r => m + 1 ≤ r) := by
      ext r
      rw [Finset.mem_coe, Finset.mem_filter]
      constructor
      · rintro ⟨hr, hg⟩
        exact ⟨hg, (moveTo_pending_subset hc hi hi6 hne hm hr).2⟩
      · rintro ⟨hg, hmr⟩
        exact ⟨pending_subset_moveTo hc hi hi6 hne hm hzero ⟨⟨h.mem_pending hg (by omega), hg⟩, hmr⟩, hg⟩
    refine .inr ⟨m / 64, hb.levels 6 (m / 64), (hbi.moveTo hb m i).dropLast, ?_, ?_⟩
    · rw [hbitmapIterNextWord_of_skip h0 hskip hL6]
      simp only [dropLast, moveTo, Function.update_idem]
    · exact {
        inv := hinv.dropLast
        cur_six := by rw [dropLast_cur, Function.update_self]
        pos_eq := hpos
        cur_lt := hc.word_lt 6 le_rfl _ hmw
        cur_ne := hL6
        le_first := fun r hr hxr => by
          have := hleast.2 ⟨h.mem_pending hr hxr, hr⟩
          omega
        testBit_cur := fun b hb64 => by
          -- the whole word lies past `x`, so its bits are its set groups
          have hxp := h.le_pos
          rw [hc.mem_groups_iff (by omega), HBitmap.bit_eq_bitAt, HBitmap.bitAt_mul_add _ _ _ hb64]
          constructor
          · exact fun hbit => ⟨hbit, by omega⟩
          · exact fun hbit => hbit.1
        pending := by
          rw [hinv.pending_dropLast, hpos]
          exact inter_Ici_eq_filter hmove (by omega) }

/-- One call of `hbitmap_iter_next_word` in the loop of `hb_count_between`: `(size_t)-1` when no
set group from `x` on is left, and otherwise the word of the least of them. -/
theorem nextWord (hc : hb.Coherent) (h : CountInv hb x hbi) :
    (hbitmapIterNextWord hb hbi = .ok (2 ^ 64 - 1, 0, hbi) ∧ ∀ r ∈ hb.groups, r < x) ∨
      ∃ w cur hbi', hbitmapIterNextWord hb hbi = .ok (w, cur, hbi') ∧ WordFound hb x w cur hbi' := by
  by_cases h0 : hbi.cur 6 = 0
  · exact h.nextWord_of_cur_zero hc h0
  · exact .inr ⟨hbi.pos, hbi.cur 6, hbi.dropLast, hbitmapIterNextWord_of_ne h0, h.wordFound_of_ne hc h0⟩

end CountInv

theorem WordFound.countInv {x w cur : Nat} (h : WordFound hb x w cur hbi) : CountInv hb (64 * w + 64) hbi where
  inv := h.inv
  cur_live := by rw [h.cur_six, Nat.zero_and]
  le_pos := by rw [h.pos_eq]
  pending := h.pending

/-! ## The loop of `hb_count_between` -/

/-- The words of the last level that hold a set group from `x` on: what bounds the turns of the loop. -/
def wordsFrom (hb : HBitmap) (x : Nat) : Finset Nat := (hb.groups.filter fun r => x ≤ r).image (· / 64)

theorem wordsFrom_card_le (hc : hb.Coherent) (x : Nat) : (wordsFrom hb x).card ≤ hb.sizes 6 :=
  calc (wordsFrom hb x).card ≤ (Finset.range (hb.sizes 6)).card := Finset.card_le_card fun v hv => by
        obtain ⟨r, hr, hw⟩ := Finset.mem_image.mp hv
        have hlt := hc.div_lt_sizes (HBitmap.mem_groups.mp (Finset.mem_filter.mp hr).1).1 0 (by omega)
        rw [Finset.mem_range, ← hw]
        simpa using hlt
    _ = hb.sizes 6 := Finset.card_range _

namespace WordFound

variable {x w cur : Nat}

/-- The word returned holds a set group from `x` on. -/
theorem exists_mem (h : WordFound hb x w cur hbi) : ∃ r ∈ hb.groups, x ≤ r ∧ r / 64 = w := by
  obtain ⟨b, hbit⟩ := Nat.exists_testBit_of_ne_zero h.cur_ne
  have hb64 : b < 64 := Nat.lt_of_not_le fun hge => by
    rw [Nat.testBit_eq_false_of_lt (lt_of_lt_of_le h.cur_lt (Nat.pow_le_pow_right (by omega) hge))] at hbit
    exact Bool.false_ne_true hbit
  obtain ⟨hg, hxr⟩ := (h.testBit_cur b hb64).mp hbit
  exact ⟨64 * w + b, hg, hxr, by omega⟩

theorem le_next (h : WordFound hb x w cur hbi) : x ≤ 64 * w + 64 := by
  obtain ⟨r, _, hxr, hw⟩ := h.exists_mem
  omega

/-- Each turn uses up a word that holds a set group. -/
theorem wordsFrom_lt (h : WordFound hb x w cur hbi) :
    (wordsFrom hb (64 * w + 64)).card < (wordsFrom hb x).card := by
  apply Finset.card_lt_card
  rw [Finset.ssubset_iff_of_subset]
  · obtain ⟨r, hg, hxr, hw⟩ := h.exists_mem
    refine ⟨w, Finset.mem_image.mpr ⟨r, Finset.mem_filter.mpr ⟨hg, hxr⟩, hw⟩, fun hmem => ?_⟩
    obtain ⟨r', hr', hw'⟩ := Finset.mem_image.mp hmem
    have := (Finset.mem_filter.mp hr').2
    omega
  · intro v hv
    obtain ⟨r, hr, hw⟩ := Finset.mem_image.mp hv
    obtain ⟨hg, hle⟩ := Finset.mem_filter.mp hr
    exact Finset.mem_image.mpr ⟨r, Finset.mem_filter.mpr ⟨hg, le_trans h.le_next hle⟩, hw⟩

/-- The population count of the word is the number of its set groups from `x` on. -/
theorem ctpop64_eq (h : WordFound hb x w cur hbi) :
    ctpop64 cur = ((hb.groups.filter fun r => x ≤ r).filter fun r => r / 64 = w).card :=
  ctpop64_eq_card fun b hb64 => (h.testBit_cur b hb64).trans Finset.mem_filter.symm

/-- The set groups from `x` on in the words before `e > w` are those of word `w` and those from
the next word on. -/
theorem card_split (h : WordFound hb x w cur hbi) {e : Nat} (he : w < e) :
    (hb.groups.filter fun r => x ≤ r ∧ r / 64 < e).card =
      ((hb.groups.filter fun r => x ≤ r).filter fun r => r / 64 = w).card +
        (hb.groups.filter fun r => 64 * w + 64 ≤ r ∧ r / 64 < e).card := by
  have hnext := h.le_next
  rw [← Finset.card_union_of_disjoint]
  · congr 1
    ext r
    simp only [Finset.mem_union, Finset.mem_filter]
    constructor
    · rintro ⟨hg, hxr, hre⟩
      have := h.le_first r hg hxr
      by_cases hrw : r / 64 = w
      · exact .inl ⟨⟨hg, hxr⟩, hrw⟩
      · exact .inr ⟨hg, by omega, hre⟩
    · rintro (⟨⟨hg, hxr⟩, hrw⟩ | ⟨hg, hr, hre⟩)
      · exact ⟨hg, hxr, by omega⟩
      · exact ⟨hg, by omega, hre⟩
  · rw [Finset.disjoint_left]
    intro r hr hr'
    have := (Finset.mem_filter.mp hr).2
    have := (Finset.mem_filter.mp hr').2
    omega

end WordFound

/-- The loop of `hb_count_between` from an iterator whose pending set groups are those from `x`
on, with more turns left than words that hold them: it adds up the set groups from `x` on of the
words before `endPos`, and it stops at word `endPos`, with its set groups from `x` on as bits,
unless none of them is set. -/
theorem countBetweenLoop_spec (hc : hb.Coherent) {endPos : Nat} (hend : endPos < 2 ^ 64 - 1) :
    ∀ (fuel x : Nat) (hbi : HBitmapIter) (count : Nat), CountInv hb x hbi → (wordsFrom hb x).card < fuel →
      ∃ pos cur, countBetweenLoop hb endPos fuel hbi count =
          .ok (pos, cur, count + (hb.groups.filter fun r => x ≤ r ∧ r / 64 < endPos).card) ∧
        (pos = endPos → ∀ b < 64, cur.testBit b = true ↔ 64 * endPos + b ∈ hb.groups ∧ x ≤ 64 * endPos + b) ∧
        (pos ≠ endPos → ∀ r ∈ hb.groups, x ≤ r → r / 64 ≠ endPos)
  | 0, _, _, _, _, hfuel => absurd hfuel (Nat.not_lt_zero _)
  | fuel + 1, x, hbi, count, h, hfuel => by
    rcases h.nextWord hc with ⟨hnw, hnone⟩ | ⟨w, cur, hbi', hnw, hw⟩
    · -- no set group is left: the loop stops at once
      have hzero : (hb.groups.filter fun r => x ≤ r ∧ r / 64 < endPos).card = 0 :=
        Finset.card_eq_zero.mpr (Finset.filter_eq_empty_iff.mpr fun r hr hxr => by
          have := hnone r hr
          omega)
      refine ⟨2 ^ 64 - 1, 0, ?_, fun heq => absurd heq (by omega), fun _ r hr hxr => absurd (hnone r hr) (by omega)⟩
      rw [countBetweenLoop, hnw, ok_bind]
      simp only [if_pos (show 2 ^ 64 - 1 ≥ endPos by omega), hzero, Nat.add_zero]
      rfl
    · by_cases hge : w ≥ endPos
      · -- the word lies past the range: nothing before it is counted
        have hzero : (hb.groups.filter fun r => x ≤ r ∧ r / 64 < endPos).card = 0 :=
          Finset.card_eq_zero.mpr (Finset.filter_eq_empty_iff.mpr fun r hr hxr => by
            have := hw.le_first r hr hxr.1
            omega)
        refine ⟨w, cur, ?_, fun heq => heq ▸ hw.testBit_cur, fun hne r hr hxr => ?_⟩
        · rw [countBetweenLoop, hnw, ok_bind]
          simp only [if_pos hge, hzero, Nat.add_zero]
          rfl
        · have := hw.le_first r hr hxr
          omega
      · -- the word is counted whole, and the loop goes on past it
        obtain ⟨pos, cur', hrun, hbits, hnot⟩ := countBetweenLoop_spec hc hend fuel (64 * w + 64) hbi'
          (count + ctpop64 cur) hw.countInv (by have := hw.wordsFrom_lt; omega)
        have hnext := hw.le_next
        refine ⟨pos, cur', ?_, fun heq b hb64 => ?_, fun hne r hr hxr hre => ?_⟩
        · rw [countBetweenLoop, hnw, ok_bind]
          simp only [if_neg hge]
          rw [hrun, hw.card_split (by omega), hw.ctpop64_eq, Nat.add_assoc]
        · rw [hbits heq b hb64]
          constructor
          · exact fun hb' => ⟨hb'.1, by omega⟩
          · exact fun hb' => ⟨hb'.1, by omega⟩
        · have := hw.le_first r hr hxr
          exact hnot hne r hr (by omega) hre

/-! ## `hb_count_between` -/

/-- The cached word of the last level that `hbitmap_iter_init` leaves has only live bits. -/
theorem initWord_six_and (hb : HBitmap) (p : Nat) : initWord hb 6 p &&& hb.levels 6 (p / 64) = initWord hb 6 p := by
  apply Nat.eq_of_testBit_eq
  intro b
  rw [Nat.testBit_and, testBit_initWord]
  cases (hb.levels 6 (p / 64)).testBit b <;> simp

/-- The count starts from the iterator `hbitmap_iter_init` builds at `first`: its pending set
groups are those from `first`'s group on. -/
theorem countInv_init (hc : hb.Coherent) {first : Nat} (hq : first >>> hb.granularity < hb.size)
    (h : hbitmapIterInit hb first = .ok hbi) : CountInv hb (first >>> hb.granularity) hbi := by
  obtain ⟨hinv, hsub, hsup⟩ := hbitmapIterInit_spec hc h
  rw [hbitmapIterInit_eq hq] at h
  injection h with h
  subst h
  refine ⟨hinv, ?_, by dsimp only; omega, ?_⟩
  · dsimp only
    rw [if_pos (by omega), Nat.sub_self, Nat.pow_zero, Nat.div_one]
    exact initWord_six_and hb _
  · ext r
    rw [Finset.mem_coe, Finset.mem_filter]
    constructor
    · rintro ⟨hr, hg⟩
      exact ⟨hg, hsub hr⟩
    · rintro ⟨hg, hle⟩
      exact ⟨hsup ⟨hg, hle⟩, hg⟩

/-- The set groups of `[start, last]` are those of the words before the word of `last + 1` and
those of that word up to `last`. -/
theorem card_filter_split (G : Finset Nat) (start last : Nat) :
    (G.filter fun r => start ≤ r ∧ r ≤ last).card =
      (G.filter fun r => start ≤ r ∧ r / 64 < (last + 1) / 64).card +
        ((G.filter fun r => start ≤ r ∧ r ≤ last).filter fun r => r / 64 = (last + 1) / 64).card := by
  rw [← Finset.card_filter_add_card_filter_not (s := G.filter fun r => start ≤ r ∧ r ≤ last)
    (fun r => r / 64 = (last + 1) / 64), Nat.add_comm]
  congr 2
  ext r
  simp only [Finset.mem_filter]
  constructor
  · rintro ⟨⟨hg, hs, hl⟩, hne⟩
    exact ⟨hg, hs, by omega⟩
  · rintro ⟨hg, hs, hlt⟩
    exact ⟨⟨hg, hs, by omega⟩, by omega⟩

/-- `hb_count_between` counts the set groups from `start` to `last`, and always has turns
enough to. -/
theorem hbCountBetween_eq (hc : hb.Coherent) {start last : Nat} (hs : start < hb.size) (hl : last < hb.size) :
    hbCountBetween hb start last = .ok (hb.groups.filter fun r => start ≤ r ∧ r ≤ last).card := by
  have hsize := hc.size_le
  have he : (last + 1) % 2 ^ 64 = last + 1 := Nat.mod_eq_of_lt (by omega)
  have hend : (last + 1) >>> 6 = (last + 1) / 64 := Nat.shiftRight_eq_div_pow _ _
  have hfirst : ((start <<< hb.granularity) % 2 ^ 64) >>> hb.granularity = start := by
    have hlt : start <<< hb.granularity < 2 ^ 64 := by
      rw [Nat.shiftLeft_eq]
      calc start * 2 ^ hb.granularity < hb.size * 2 ^ hb.granularity :=
            Nat.mul_lt_mul_of_pos_right hs (Nat.two_pow_pos _)
        _ < 2 ^ 64 := hc.size_mul_lt
    rw [Nat.mod_eq_of_lt hlt, Nat.shiftLeft_shiftRight]
  obtain ⟨hbi, hinit⟩ : ∃ hbi, hbitmapIterInit hb ((start <<< hb.granularity) % 2 ^ 64) = .ok hbi :=
    ⟨_, hbitmapIterInit_eq (by rw [hfirst]; exact hs)⟩
  have hcount := countInv_init hc (by rw [hfirst]; exact hs) hinit
  rw [hfirst] at hcount
  obtain ⟨pos, cur, hrun, hbits, hnot⟩ := countBetweenLoop_spec hc (show (last + 1) >>> 6 < 2 ^ 64 - 1 by omega)
    (hb.sizes 6 + 1) start hbi 0 hcount (by have := wordsFrom_card_le hc start; omega)
  unfold hbCountBetween
  simp only [he, hinit, ok_bind, hrun, Nat.zero_add]
  rw [card_filter_split, hend]
  by_cases hpos : pos = (last + 1) / 64
  · -- the word of `last + 1` is counted up to `last`
    have hk : (last + 1) &&& 63 = (last + 1) % 64 := Nat.and_two_pow_sub_one_eq_mod _ 6
    have hword : ctpop64 (cur &&& ((1 <<< ((last + 1) &&& 63)) - 1)) =
        ((hb.groups.filter fun r => start ≤ r ∧ r ≤ last).filter fun r => r / 64 = (last + 1) / 64).card := by
      refine ctpop64_eq_card fun b hb64 => ?_
      rw [Nat.testBit_and, hk, Nat.one_shiftLeft, Nat.testBit_two_pow_sub_one, Bool.and_eq_true,
        hbits (hpos.trans hend.symm) b hb64, decide_eq_true_iff, Finset.mem_filter, hend]
      constructor
      · rintro ⟨⟨hg, hsr⟩, hb'⟩
        exact ⟨hg, hsr, by omega⟩
      · rintro ⟨hg, hsr, hlr⟩
        exact ⟨⟨hg, hsr⟩, by omega⟩
    rw [if_pos hpos, hword]
    rfl
  · -- no set group of `[start, last]` lies in the word of `last + 1`
    have hempty : ((hb.groups.filter fun r => start ≤ r ∧ r ≤ last).filter fun r => r / 64 = (last + 1) / 64).card = 0 :=
      Finset.card_eq_zero.mpr (Finset.filter_eq_empty_iff.mpr fun r hr hrw =>
        hnot (fun h => hpos (h.trans hend)) r (Finset.mem_filter.mp hr).1 (Finset.mem_filter.mp hr).2.1
          (by rw [hend]; exact hrw))
    rw [if_neg hpos, hempty, Nat.add_zero]
    rfl

/-! ## `count` across `hbitmap_set` and `hbitmap_reset` -/

/-- `hb_set_between` leaves `count` as `hbitmap_set` has just set it. -/
theorem count_of_hbSetBetween {hb hb' : HBitmap} {n s l : Nat} {changed : Bool} (hv : hb.Coherent)
    (hl : l < hb.size) (h : hbSetBetween 6 { hb with count := n } s l = .ok (hb', changed)) : hb'.count = n := by
  obtain ⟨lv, ch, heq, -⟩ := hbSetBetween_coherent (hv.setCount n) (le_of_hbSetBetween h) hl
  rw [heq] at h
  obtain ⟨rfl, -⟩ := Prod.mk.inj (Except.ok.inj h)
  rfl

/-- `hb_reset_between` leaves `count` as `hbitmap_reset` has just set it. -/
theorem count_of_hbResetBetween {hb hb' : HBitmap} {n s l : Nat} {changed : Bool} (hv : hb.Coherent)
    (hl : l < hb.size) (h : hbResetBetween 6 { hb with count := n } s l = .ok (hb', changed)) : hb'.count = n := by
  obtain ⟨lv, ch, heq, -⟩ := hbResetBetween_coherent (hv.setCount n) (le_of_hbResetBetween h) hl
  rw [heq] at h
  obtain ⟨rfl, -⟩ := Prod.mk.inj (Except.ok.inj h)
  rfl

theorem inter_Icc_eq_filter (G : Finset Nat) (first last : Nat) :
    G ∩ Finset.Icc first last = G.filter fun r => first ≤ r ∧ r ≤ last := by
  ext r
  rw [Finset.mem_inter, Finset.mem_filter, Finset.mem_Icc]

theorem HBitmap.card_groups_le (hb : HBitmap) : hb.groups.card ≤ hb.size :=
  (Finset.card_filter_le _ _).trans (Finset.card_range _).le

/-- `hbitmap_set` keeps a bitmap valid: `count` goes up by the groups of the range that were
clear, which `hb_count_between` counts. -/
theorem hbitmapSetOwn_valid {hb hb' : HBitmap} {start count : Nat} {changed : Bool} (hv : hb.Valid)
    (h : hbitmapSetOwn hb start count = .ok (hb', changed)) :
    hb'.Valid ∧ hb'.groups = hb.groups ∪ Finset.Icc (start >>> hb.granularity)
        (((start + count + 2 ^ 64 - 1) % 2 ^ 64) >>> hb.granularity) := by
  obtain ⟨hcoh, hgroups, -⟩ := hbitmapSetOwn_coherent hv.toCoherent h
  refine ⟨⟨hcoh, ?_⟩, hgroups⟩
  rw [hgroups]
  unfold hbitmapSetOwn at h
  dsimp only at h
  split_ifs at h with hlast
  obtain ⟨c, hc, hbetween⟩ := bind_eq_ok.mp h
  generalize start >>> hb.granularity = first at *
  generalize ((start + count + 2 ^ 64 - 1) % 2 ^ 64) >>> hb.granularity = last at *
  have hle := le_of_hbSetBetween hbetween
  rw [count_of_hbSetBetween hv.toCoherent hlast hbetween]
  rw [hbCountBetween_eq hv.toCoherent (by omega) hlast] at hc
  obtain rfl := (Except.ok.inj hc).symm
  -- the union counts the old groups and the range, less the groups of the range already set
  have hunion := Finset.card_union_add_card_inter hb.groups (Finset.Icc first last)
  rw [inter_Icc_eq_filter, Nat.card_Icc] at hunion
  have hinter : (hb.groups.filter fun r => first ≤ r ∧ r ≤ last).card ≤ last + 1 - first := by
    rw [← Nat.card_Icc, ← inter_Icc_eq_filter]
    exact Finset.card_le_card Finset.inter_subset_right
  have hsize := hv.size_le
  have hcard := hb.card_groups_le
  have hcount := hv.count_eq
  omega

/-- `hbitmap_reset` keeps a bitmap valid: `count` goes down by the groups of the range that
were set. -/
theorem hbitmapResetOwn_valid {hb hb' : HBitmap} {start count : Nat} {changed : Bool} (hv : hb.Valid)
    (h : hbitmapResetOwn hb start count = .ok (hb', changed)) :
    hb'.Valid ∧ hb'.groups = hb.groups \ Finset.Icc (start >>> hb.granularity)
        (((start + count + 2 ^ 64 - 1) % 2 ^ 64) >>> hb.granularity) := by
  obtain ⟨hcoh, hgroups, -⟩ := hbitmapResetOwn_coherent hv.toCoherent h
  refine ⟨⟨hcoh, ?_⟩, hgroups⟩
  rw [hgroups]
  unfold hbitmapResetOwn at h
  dsimp only at h
  split_ifs at h with hlast
  obtain ⟨c, hc, hbetween⟩ := bind_eq_ok.mp h
  generalize start >>> hb.granularity = first at *
  generalize ((start + count + 2 ^ 64 - 1) % 2 ^ 64) >>> hb.granularity = last at *
  have hle := le_of_hbResetBetween hbetween
  rw [count_of_hbResetBetween hv.toCoherent hlast hbetween]
  rw [hbCountBetween_eq hv.toCoherent (by omega) hlast] at hc
  obtain rfl := (Except.ok.inj hc).symm
  -- the difference keeps the old groups less those of the range
  rw [Finset.card_sdiff, Finset.inter_comm, inter_Icc_eq_filter]
  have hinter : (hb.groups.filter fun r => first ≤ r ∧ r ≤ last).card ≤ hb.groups.card :=
    Finset.card_filter_le _ _
  have hsize := hv.size_le
  have hcard := hb.card_groups_le
  have hcount := hv.count_eq
  omega

end Xqemu.Util
