import Xqemu.Util.HbitmapValid
import Xqemu.Lib.PendingIter
import Xqemu.Lib.ErrorsIn

/-!
# The iterator of a hierarchical bitmap

`HBitmapIter` caches one word per level.  The word of level `i` sits on the
path of the word `pos` of the last level, and its bits are nodes still to be
visited; the groups under them are the iterator's pending set.  Between calls
the bits cached above the last level lie after the path, and level 0 keeps the
sentinel.

`hbitmap_iter_init` makes the pending set the groups from `first`'s on, and
each `hbitmap_iter_next` is one call of `PendingIter.NextSpec` over the groups
set in the bitmap at that moment: the climb masks every cached word with the
live word and stops at the deepest one that is not empty, and the descent takes
the lowest bit down to the least group under it.
-/

namespace Xqemu.Util

open Xqemu.Words Xqemu.Radix Xqemu.Scan Xqemu.Faults

/-- The groups under the bits of a word `c` that sits at height `h + 1` on the path of
group `p`: those below `p`'s node there whose node at height `h` is a bit of `c`. -/
def regionAt (p c h : Nat) : Set Nat :=
  {r | r / 64 ^ (h + 1) = p / 64 ^ (h + 1) ∧ c.testBit (r / 64 ^ h % 64) = true}

theorem regionAt_congr {p p' c h : Nat} (hp : p / 64 ^ (h + 1) = p' / 64 ^ (h + 1)) :
    regionAt p c h = regionAt p' c h := by
  ext r
  simp only [regionAt, Set.mem_ofPred_eq, hp]

/-- The groups of a word lower on the path come before those of a word higher up whose bits
lie after the path. -/
theorem regionAt_lt {p c c' h h' r r' : Nat} (hh : h < h')
    (hafter : ∀ b, c'.testBit b = true → p / 64 ^ h' % 64 < b)
    (hr : r ∈ regionAt p c h) (hr' : r' ∈ regionAt p c' h') : r < r' := by
  have hnode : r / 64 ^ h' = p / 64 ^ h' := div_pow_eq_of_le hr.1 (by omega)
  have hpar : r / 64 ^ (h' + 1) = r' / 64 ^ (h' + 1) := by
    rw [div_pow_eq_of_le hr.1 (by omega : h + 1 ≤ h' + 1), hr'.1]
  exact lt_of_digit_lt hpar (by rw [hnode]; exact hafter _ hr'.2)

/-- `ctz64` of a word is its lowest set bit. -/
theorem ctz64_eq {w c : Nat} (hc64 : c < 64) (hc : w.testBit c = true)
    (hbelow : ∀ b < c, w.testBit b = false) : ctz64 w = c :=
  firstFrom_eq ⟨Nat.zero_le c, Nat.le_of_lt hc64, fun _ => hc, fun k _ hk => hbelow k hk⟩

/-- The word `pos` of the last level sits on the path of group `64 * pos`. -/
theorem path_div (q h : Nat) : 64 * (q / 64) / 64 ^ (h + 1) = q / 64 ^ (h + 1) := by
  rw [mul_div_pow_succ (by omega), Nat.div_div_eq_div_mul, ← Nat.pow_succ']

/-- Below `2^41` groups, level 0 has one word and its nodes lie below 32. -/
theorem div_pow_six_lt {r : Nat} (hr : r < 2 ^ 41) : r / 64 ^ 6 < 32 ∧ r / 64 ^ 7 = 0 := by
  constructor
  · rw [Nat.div_lt_iff_lt_mul (by decide)]
    exact lt_of_lt_of_eq hr (by decide)
  · exact Nat.div_eq_of_lt (lt_trans hr (by decide))

namespace HBitmapIter

/-- The groups the iterator has still to look at. -/
def pending (hbi : HBitmapIter) : Set Nat :=
  {r | ∃ i ≤ 6, r ∈ regionAt (64 * hbi.pos) (hbi.cur i) (6 - i)}

/-- The word cached for level `i` masked with the live word of the level, as the climb of
`hbitmap_iter_skip_words` reads it. -/
def masked (hb : HBitmap) (hbi : HBitmapIter) (i : Nat) : Nat :=
  hbi.cur i &&& hb.levels i (hbi.pos / 64 ^ (6 - i))

/-- What the iterator keeps between calls on a bitmap. -/
structure Inv (hb : HBitmap) (hbi : HBitmapIter) : Prop where
  granularity_eq : hbi.granularity = hb.granularity
  pos_lt : hbi.pos < hb.sizes 6
  cur_lt : ∀ i ≤ 6, hbi.cur i < 2 ^ 64
  after_path : ∀ i < 6, ∀ b, (hbi.cur i).testBit b = true → 64 * hbi.pos / 64 ^ (6 - i) % 64 < b
  sentinel : (hbi.cur 0).testBit 63 = true

/-- The iterator only reads the granularity and the size of the last level: a write that
keeps them keeps the invariant. -/
theorem Inv.of_eq {hb hb' : HBitmap} {hbi : HBitmapIter} (hi : hbi.Inv hb)
    (hg : hb'.granularity = hb.granularity) (hs : hb'.sizes 6 = hb.sizes 6) : hbi.Inv hb' :=
  ⟨hi.granularity_eq.trans hg.symm, hs ▸ hi.pos_lt, hi.cur_lt, hi.after_path, hi.sentinel⟩

end HBitmapIter

/-! ## `hbitmap_iter_init` -/

/-- The word the loop of `hbitmap_iter_init` caches for level `i`, with `pos` the node of
`first`'s group in level `i`. -/
def initWord (hb : HBitmap) (i pos : Nat) : Nat :=
  let w := hb.levels i (pos >>> 6) &&& (((1 <<< (pos &&& 63)) - 1) ^^^ (2 ^ 64 - 1))
  if i ≠ 6 then w &&& ((1 <<< (pos &&& 63)) ^^^ (2 ^ 64 - 1)) else w

theorem iterInitLoop_eq (hb : HBitmap) (q : Nat) :
    ∀ n ≤ 7, ∀ C : Nat → Nat,
      iterInitLoop hb n (q / 64 ^ (7 - n)) C = fun j => if j < n then initWord hb j (q / 64 ^ (6 - j)) else C j
  | 0, _, C => by
    funext j
    simp [iterInitLoop]
  | n + 1, hn, C => by
    have hpos : (q / 64 ^ (6 - n)) >>> 6 = q / 64 ^ (7 - n) := by
      rw [Nat.shiftRight_eq_div_pow, show 7 - n = 6 - n + 1 by omega, div_pow_succ 64 q (6 - n)]
    -- one turn of the loop caches the word of level `n`
    have hstep : iterInitLoop hb (n + 1) (q / 64 ^ (7 - (n + 1))) C =
        iterInitLoop hb n (q / 64 ^ (7 - n)) (Function.update C n (initWord hb n (q / 64 ^ (6 - n)))) := by
      rw [show 7 - (n + 1) = 6 - n by omega, ← hpos]
      rfl
    rw [hstep, iterInitLoop_eq hb q n (by omega)]
    funext j
    by_cases hj : j < n
    · rw [if_pos hj, if_pos (by omega)]
    · rw [if_neg hj]
      by_cases hjn : j = n
      · subst hjn
        rw [Function.update_self, if_pos (Nat.lt_succ_self j)]
      · rw [Function.update_of_ne hjn, if_neg (by omega)]

theorem testBit_initWord (hb : HBitmap) (i pos b : Nat) :
    (initWord hb i pos).testBit b = ((hb.levels i (pos / 64)).testBit b && decide (b < 64) &&
      decide (pos % 64 ≤ b) && (decide (i = 6) || decide (b ≠ pos % 64))) := by
  have hbit : pos &&& 63 = pos % 64 := Nat.and_two_pow_sub_one_eq_mod pos 6
  have hlow : (1 <<< (pos % 64)) - 1 < 2 ^ 64 := by
    rw [Nat.one_shiftLeft]
    have := Nat.pow_lt_pow_right (a := 2) (by omega) (Nat.mod_lt pos (by omega : 64 > 0))
    omega
  have hone : 1 <<< (pos % 64) < 2 ^ 64 := by
    rw [Nat.one_shiftLeft]
    exact Nat.pow_lt_pow_right (by omega) (Nat.mod_lt pos (by omega))
  unfold initWord
  rw [hbit, Nat.shiftRight_eq_div_pow]
  by_cases hi : i = 6
  · rw [if_neg (not_not_intro hi), Nat.testBit_and, testBit_xor_ones hlow, testBit_one_shiftLeft_sub_one]
    rcases Nat.lt_or_ge b (pos % 64) with hlt | hge
    · simp [hi, hlt, Nat.not_le.mpr hlt]
    · simp [hi, hge, Nat.not_lt.mpr hge]
  · rw [if_pos hi, Nat.testBit_and, Nat.testBit_and, testBit_xor_ones hlow, testBit_xor_ones hone,
      testBit_one_shiftLeft_sub_one, Nat.one_shiftLeft, Nat.testBit_two_pow]
    rcases Nat.lt_trichotomy b (pos % 64) with hlt | rfl | hgt
    · simp [hi, hlt, Nat.not_le.mpr hlt]
    · simp [hi]
    · simp [hi, hgt.le, Nat.not_lt.mpr hgt.le, Nat.ne_of_lt hgt, Nat.ne_of_gt hgt]

/-- The bits `hbitmap_iter_init` caches for level `j`: the live bits of `q`'s path from
`q`'s node on, without the node itself above the last level. -/
theorem testBit_initWord_iff (hb : HBitmap) (q j b : Nat) :
    (initWord hb j (q / 64 ^ (6 - j))).testBit b = true ↔
      (hb.levels j (q / 64 ^ (6 - j + 1))).testBit b = true ∧ b < 64 ∧
        (q / 64 ^ (6 - j) % 64 < b ∨ (j = 6 ∧ b = q / 64 ^ (6 - j) % 64)) := by
  rw [testBit_initWord, ← div_pow_succ]
  generalize (hb.levels j (q / 64 ^ (6 - j + 1))).testBit b = t
  generalize q / 64 ^ (6 - j) % 64 = d
  cases t <;> by_cases hj6 : j = 6 <;> simp [hj6] <;> omega

/-- What `hbitmap_iter_init` builds from a group `q` below `size`. -/
theorem hbitmapIterInit_eq {hb : HBitmap} {first : Nat} (hq : first >>> hb.granularity < hb.size) :
    hbitmapIterInit hb first = .ok
      { pos := (first >>> hb.granularity) / 64, granularity := hb.granularity,
        cur := fun j => if j < 7 then initWord hb j ((first >>> hb.granularity) / 64 ^ (6 - j)) else 0 } := by
  have hloop := iterInitLoop_eq hb (first >>> hb.granularity) 7 (Nat.le_refl 7) fun _ => 0
  rw [Nat.sub_self, Nat.pow_zero, Nat.div_one] at hloop
  rw [hbitmapIterInit, if_neg (not_not_intro hq), Nat.shiftRight_eq_div_pow, hloop]
  rfl

/-- `hbitmap_iter_init` from `first`: the iterator keeps its invariant, nothing before
`first`'s group is pending, and every set group from it on is. -/
theorem hbitmapIterInit_spec {hb : HBitmap} (hc : hb.Coherent) {first : Nat} {hbi : HBitmapIter}
    (h : hbitmapIterInit hb first = .ok hbi) :
    hbi.Inv hb ∧ hbi.pending ⊆ Set.Ici (first >>> hb.granularity) ∧
      ↑hb.groups ∩ Set.Ici (first >>> hb.granularity) ⊆ hbi.pending := by
  generalize hq : first >>> hb.granularity = q
  have hqs : q < hb.size := by
    by_contra hge
    rw [hbitmapIterInit, hq, if_pos hge] at h
    cases h
  rw [hbitmapIterInit_eq (hq ▸ hqs), hq] at h
  injection h with h
  subst h
  have hsmall := div_pow_six_lt (lt_of_lt_of_le hqs hc.size_le)
  -- the cached word of level `j ≤ 6`, bit by bit
  have hbits : ∀ j ≤ 6, ∀ b, (if j < 7 then initWord hb j (q / 64 ^ (6 - j)) else 0).testBit b = true ↔
      (hb.levels j (q / 64 ^ (6 - j + 1))).testBit b = true ∧ b < 64 ∧
        (q / 64 ^ (6 - j) % 64 < b ∨ (j = 6 ∧ b = q / 64 ^ (6 - j) % 64)) := fun j hj b => by
    rw [if_pos (by omega)]
    exact testBit_initWord_iff hb q j b
  refine ⟨⟨rfl, ?_, fun i hi => ?_, fun i hi b hb' => ?_, ?_⟩, ?_, ?_⟩
  · simpa using hc.div_lt_sizes hqs 0 (by omega)
  · apply Nat.lt_pow_two_of_testBit
    intro b hb64
    by_contra hne
    have := ((hbits i hi b).mp (by simpa using hne)).2.1
    omega
  · dsimp only
    rw [show 6 - i = 5 - i + 1 by omega, path_div, ← show 6 - i = 5 - i + 1 by omega]
    have := (hbits i (by omega) b).mp hb'
    omega
  · dsimp only
    refine (hbits 0 (by omega) 63).mpr ⟨?_, by omega, by omega⟩
    have hsent := hc.sentinel
    rw [show 6 - 0 + 1 = 7 by rfl, hsmall.2]
    exact hsent
  · rintro r ⟨j, hj, hword, hbit⟩
    rw [path_div] at hword
    rcases ((hbits j hj _).mp hbit).2.2 with hlt | ⟨rfl, heq⟩
    · exact le_of_lt (lt_of_digit_lt hword.symm hlt)
    · show q ≤ r
      have := div_pow_eq 64 r 0
      have := div_pow_eq 64 q 0
      simp only [Nat.pow_zero, Nat.div_one, Nat.zero_add, Nat.pow_one] at *
      omega
  · rintro r ⟨hr, hle⟩
    have hrg := HBitmap.mem_groups.mp hr
    rcases Nat.eq_or_lt_of_le (Set.mem_Ici.mp hle) with rfl | hlt
    · refine ⟨6, le_rfl, by rw [path_div], (hbits 6 le_rfl _).mpr ⟨?_, Nat.mod_lt _ (by omega), .inr ⟨rfl, rfl⟩⟩⟩
      simpa [HBitmap.bit] using hrg.2
    · have htop : q / 64 ^ 7 = r / 64 ^ 7 := by
        rw [hsmall.2, (div_pow_six_lt (lt_of_lt_of_le hrg.1 hc.size_le)).2]
      obtain ⟨h, hh, hpar, hdig⟩ := exists_digit_lt_of_lt (by omega) hlt htop
      refine ⟨6 - h, by omega, ?_, ?_⟩
      · rw [Nat.sub_sub_self (by omega), path_div, hpar]
      · rw [Nat.sub_sub_self (by omega)]
        refine (hbits (6 - h) (by omega) _).mpr ⟨?_, Nat.mod_lt _ (by omega), .inl ?_⟩
        · have hnode := hc.bitAt_of_mem hr (i := 6 - h) (by omega)
          rw [Nat.sub_sub_self (by omega), HBitmap.bitAt, ← div_pow_succ] at hnode
          rwa [Nat.sub_sub_self (by omega), hpar]
        · rwa [Nat.sub_sub_self (by omega)]

/-! ## The climb and the descent of `hbitmap_iter_skip_words` -/

/-- The set groups under node `n` of height `h`. -/
def HBitmap.under (hb : HBitmap) (h n : Nat) : Set Nat := {r | r ∈ hb.groups ∧ r / 64 ^ h = n}

/-- The least group under a node is the least under each of its nodes below. -/
theorem isLeast_under_of_le {hb : HBitmap} {h k n m : Nat} (hm : IsLeast (hb.under h n) m)
    (hle : k ≤ h) : IsLeast (hb.under k (m / 64 ^ k)) m :=
  ⟨⟨hm.1.1, rfl⟩, fun _ hr => hm.2 ⟨hr.1, (div_pow_eq_of_le hr.2 hle).trans hm.1.2⟩⟩

/-- Below a node, the lowest set bit of the word of its children is the child over the least
group under the node. -/
theorem HBitmap.Coherent.lowest_child {hb : HBitmap} (hc : hb.Coherent) {i m : Nat} (hi : i < 6)
    (hm : IsLeast (hb.under (6 - i) (m / 64 ^ (6 - i))) m) :
    (hb.levels (i + 1) (m / 64 ^ (6 - i))).testBit (m / 64 ^ (5 - i) % 64) = true ∧
      ∀ b < m / 64 ^ (5 - i) % 64, (hb.levels (i + 1) (m / 64 ^ (6 - i))).testBit b = false := by
  have hsplit : m / 64 ^ (5 - i) = 64 * (m / 64 ^ (6 - i)) + m / 64 ^ (5 - i) % 64 := by
    rw [div_pow_eq 64 m (5 - i), show 5 - i + 1 = 6 - i by omega]
    omega
  have hmg := HBitmap.mem_groups.mp hm.1.1
  have hnode := hc.bitAt_of_mem hm.1.1 (i := i + 1) (by omega)
  rw [show 6 - (i + 1) = 5 - i by omega, hsplit, HBitmap.bitAt_mul_add _ _ _ (Nat.mod_lt _ (by omega))] at hnode
  refine ⟨hnode, fun b hb64 => ?_⟩
  by_contra hset
  -- a lower child set would hold a group below `m` under the same node
  have hset' : hb.bitAt (i + 1) (64 * (m / 64 ^ (6 - i)) + b) = true := by
    rw [HBitmap.bitAt_mul_add _ _ _ (by omega)]
    simpa using hset
  have hks : m / 64 ^ (6 - i) < hb.sizes (i + 1) := by
    have := hc.div_lt_sizes hmg.1 (5 - i) (by omega)
    rwa [show 5 - i + 1 = 6 - i by omega, show 6 - (5 - i) = i + 1 by omega] at this
  obtain ⟨r, hr, hrk⟩ := (hc.bitAt_iff (i := i + 1) (by omega) (by omega) (by omega)).mp hset'
  rw [show 6 - (i + 1) = 5 - i by omega] at hrk
  have hrn : r / 64 ^ (6 - i) = m / 64 ^ (6 - i) := by
    have hup : r / 64 ^ (6 - i) = r / 64 ^ (5 - i) / 64 := by
      rw [← div_pow_succ, show 5 - i + 1 = 6 - i by omega]
    rw [hup, hrk]
    omega
  have hle : m ≤ r := hm.2 ⟨hr, hrn⟩
  exact absurd hle (Nat.not_le.mpr (lt_of_div_pow_lt (b := 64) (h := 5 - i) (by omega)))

theorem HBitmap.Coherent.ctz64_child {hb : HBitmap} (hc : hb.Coherent) {i m : Nat} (hi : i < 6)
    (hm : IsLeast (hb.under (6 - i) (m / 64 ^ (6 - i))) m) :
    ctz64 (hb.levels (i + 1) (m / 64 ^ (6 - i))) = m / 64 ^ (5 - i) % 64 :=
  ctz64_eq (Nat.mod_lt _ (by omega)) (hc.lowest_child hi hm).1 (hc.lowest_child hi hm).2

namespace HBitmapIter

variable {hb : HBitmap} {hbi : HBitmapIter}

theorem masked_lt (hi : hbi.Inv hb) {i : Nat} (hi6 : i ≤ 6) : hbi.masked hb i < 2 ^ 64 :=
  lt_of_le_of_lt Nat.and_le_left (hi.cur_lt i hi6)

/-- The sentinel keeps the masked word of level 0 nonzero: the climb stops there at the
latest. -/
theorem masked_zero_testBit (hc : hb.Coherent) (hi : hbi.Inv hb) : (hbi.masked hb 0).testBit 63 = true := by
  have hpos : hbi.pos / 64 ^ 6 = 0 :=
    Nat.div_eq_of_lt (lt_of_lt_of_le hi.pos_lt (le_trans (hc.sizes_le_pow 0 (by omega)) (by decide)))
  rw [masked, Nat.testBit_and, hi.sentinel, Nat.sub_zero, hpos]
  exact hc.sentinel

theorem masked_zero_ne (hc : hb.Coherent) (hi : hbi.Inv hb) : hbi.masked hb 0 ≠ 0 := by
  intro hzero
  have hbit := masked_zero_testBit hc hi
  rw [hzero, Nat.zero_testBit] at hbit
  exact Bool.noConfusion hbit

theorem skipWordsUp_succ {n : Nat} (hn : n ≤ 5) :
    skipWordsUp hb hbi (n + 1) (hbi.pos / 64 ^ (5 - n)) =
      if hbi.masked hb n = 0 then skipWordsUp hb hbi n (hbi.pos / 64 ^ (6 - n))
      else .ok (n, hbi.pos / 64 ^ (6 - n), hbi.masked hb n) := by
  have hword : (hbi.pos / 64 ^ (5 - n)) >>> 6 = hbi.pos / 64 ^ (6 - n) := by
    rw [Nat.shiftRight_eq_div_pow, show 6 - n = 5 - n + 1 by omega, div_pow_succ 64 _ (5 - n)]
  rw [skipWordsUp, hword]
  rfl

/-- The climb from level `n` stops at the deepest level up from `n` whose masked word is not
empty; by induction on `n`, the sentinel ending it at level 0. -/
theorem skipWordsUp_eq (hc : hb.Coherent) (hi : hbi.Inv hb) :
    ∀ n ≤ 5, (∀ j, n < j → j ≤ 5 → hbi.masked hb j = 0) →
      ∃ i ≤ n, skipWordsUp hb hbi (n + 1) (hbi.pos / 64 ^ (5 - n)) =
          .ok (i, hbi.pos / 64 ^ (6 - i), hbi.masked hb i) ∧
        hbi.masked hb i ≠ 0 ∧ ∀ j, i < j → j ≤ 5 → hbi.masked hb j = 0
  | 0, _, hzero =>
    ⟨0, le_rfl, by rw [skipWordsUp_succ (by omega), if_neg (masked_zero_ne hc hi)], masked_zero_ne hc hi, hzero⟩
  | n + 1, hn, hzero => by
    by_cases hm : hbi.masked hb (n + 1) = 0
    · have hzero' : ∀ j, n < j → j ≤ 5 → hbi.masked hb j = 0 := by
        intro j hj hj5
        rcases Nat.eq_or_lt_of_le hj with rfl | hj
        · exact hm
        · exact hzero j hj hj5
      obtain ⟨i, hin, heq, hne, hz⟩ := skipWordsUp_eq hc hi n (by omega) hzero'
      refine ⟨i, by omega, ?_, hne, hz⟩
      rw [skipWordsUp_succ hn, if_pos hm, show 6 - (n + 1) = 5 - n by omega, heq]
    · exact ⟨n + 1, le_rfl, by rw [skipWordsUp_succ hn, if_neg hm], hm, hzero⟩

end HBitmapIter

/-- The words `hbitmap_iter_next` leaves cached when it returns group `m`, found under a bit
of the word `cur` of level `i`: `cur` without its lowest bit, and below it each word on the
path to `m` without the bit followed. -/
def nextCur (hb : HBitmap) (m i cur : Nat) (C : Nat → Nat) (j : Nat) : Nat :=
  if j < i ∨ 6 < j then C j
  else if j = i then cur &&& (cur - 1)
  else hb.levels j (m / 64 ^ (6 - j + 1)) &&& (hb.levels j (m / 64 ^ (6 - j + 1)) - 1)

/-- The iterator `hbitmap_iter_next` leaves when it returns group `m`, found from level `i`. -/
def HBitmapIter.moveTo (hbi : HBitmapIter) (hb : HBitmap) (m i : Nat) : HBitmapIter :=
  { pos := m / 64, granularity := hbi.granularity, cur := nextCur hb m i (hbi.masked hb i) hbi.cur }

/-- The descent of `hbitmap_iter_skip_words` from the lowest bit of `cur`, a word of level `i`:
it reaches the last-level word of the least group `m` under that bit.  By induction on the
levels left, the least group under each node followed being `m`. -/
theorem skipWordsDown_eq {hb : HBitmap} (hc : hb.Coherent) {m : Nat} :
    ∀ k i w cur (C : Nat → Nat), i + k = 6 → 0 < k → cur ≠ 0 →
      IsLeast (hb.under (6 - i) (64 * w + ctz64 cur)) m →
      skipWordsDown hb k i w cur C =
        .ok (m / 64, hb.levels 6 (m / 64), Function.update (nextCur hb m i cur C) 6 (C 6))
  | 0, _, _, _, _, _, hk, _, _ => absurd hk (Nat.lt_irrefl 0)
  | k + 1, i, w, cur, C, hik, _, hcur, hm => by
    have hnode : 64 * w + ctz64 cur = m / 64 ^ (6 - i) := hm.1.2.symm
    have hpos : (w <<< 6) + ctz64 cur = m / 64 ^ (6 - i) := by
      rw [Nat.shiftLeft_eq, Nat.mul_comm]
      exact hnode
    rw [skipWordsDown, if_neg hcur]
    dsimp only
    rw [hpos]
    cases k with
    | zero =>
      -- from level 5 the word reached is the last level's
      obtain rfl : i = 5 := by omega
      have hcache : Function.update C 5 (cur &&& (cur - 1)) = Function.update (nextCur hb m 5 cur C) 6 (C 6) := by
        funext j
        by_cases hj6 : j = 6
        · subst hj6
          simp
        · rw [Function.update_of_ne hj6]
          unfold nextCur
          by_cases hj5 : j = 5
          · subst hj5
            simp
          · rw [Function.update_of_ne hj5, if_pos (by omega)]
      rw [skipWordsDown, hcache]
      rfl
    | succ k =>
      have hm' := isLeast_under_of_le (k := 6 - (i + 1)) (hnode ▸ hm) (by omega)
      have hchild := hc.ctz64_child (i := i) (by omega) (hnode ▸ hm)
      have hword : hb.levels (i + 1) (m / 64 ^ (6 - i)) ≠ 0 := by
        intro hzero
        rw [hzero] at hchild
        have hbit := (HBitmap.mem_groups.mp hm.1.1).2
        have hnode' := hc.bitAt_of_mem hm.1.1 (i := i + 1) (by omega)
        rw [show 6 - (i + 1) = 5 - i by omega, div_pow_eq 64 m (5 - i), show 5 - i + 1 = 6 - i by omega,
          HBitmap.bitAt_mul_add _ _ _ (Nat.mod_lt _ (by omega)), hzero, Nat.zero_testBit] at hnode'
        exact Bool.noConfusion hnode'
      have hnext : 64 * (m / 64 ^ (6 - i)) + ctz64 (hb.levels (i + 1) (m / 64 ^ (6 - i))) =
          m / 64 ^ (6 - (i + 1)) := by
        have hsplit := div_pow_eq 64 m (5 - i)
        rw [show 5 - i + 1 = 6 - i by omega] at hsplit
        rw [hchild, show 6 - (i + 1) = 5 - i by omega]
        omega
      have hcache : Function.update (nextCur hb m (i + 1) (hb.levels (i + 1) (m / 64 ^ (6 - i)))
          (Function.update C i (cur &&& (cur - 1)))) 6 (C 6) = Function.update (nextCur hb m i cur C) 6 (C 6) := by
        funext j
        by_cases hj6 : j = 6
        · subst hj6
          simp
        · rw [Function.update_of_ne hj6, Function.update_of_ne hj6]
          unfold nextCur
          by_cases hji : j < i
          · rw [if_pos (.inl (by omega)), if_pos (.inl hji), Function.update_of_ne (by omega)]
          · by_cases hjeq : j = i
            · subst hjeq
              rw [if_pos (.inl (Nat.lt_succ_self j)), if_neg (by omega), if_pos rfl, Function.update_self]
            · by_cases hj1 : j = i + 1
              · subst hj1
                rw [if_neg (by omega), if_pos rfl, if_neg (by omega), if_neg (by omega),
                  show 6 - (i + 1) + 1 = 6 - i by omega]
              · by_cases hjbig : 6 < j
                · rw [if_pos (.inr hjbig), if_pos (.inr hjbig), Function.update_of_ne (by omega)]
                · rw [if_neg (by omega), if_neg hj1, if_neg (by omega), if_neg hjeq]
      rw [skipWordsDown_eq hc (k + 1) (i + 1) _ _ _ (by omega) (by omega) hword (by rw [hnext]; exact hm'),
        Function.update_of_ne (show 6 ≠ i by omega), hcache]

/-! ## One call of `hbitmap_iter_next` -/

namespace HBitmapIter

variable {hb : HBitmap} {hbi : HBitmapIter}

theorem masked_six (hbi : HBitmapIter) : hbi.cur 6 &&& hb.levels 6 hbi.pos = hbi.masked hb 6 := by
  simp only [masked, Nat.sub_self, Nat.pow_zero, Nat.div_one]

/-- A set group lies in a nonzero word of the last level. -/
theorem levels_six_ne_zero {r : Nat} (h : hb.bit r = true) : hb.levels 6 (r / 64) ≠ 0 := by
  intro hzero
  rw [HBitmap.bit, hzero, Nat.zero_testBit] at h
  exact Bool.noConfusion h

/-- `hbitmap_iter_skip_words` when the deepest level above the last whose masked word is not
empty is `i`, and that word is not the sentinel alone: it moves to the word of the least group
`m` under the word's lowest bit. -/
theorem hbitmapIterSkipWords_found (hc : hb.Coherent) (hi : hbi.Inv hb) {i m : Nat} (hi5 : i < 6)
    (hne : hbi.masked hb i ≠ 0) (hzero : ∀ j, i < j → j ≤ 5 → hbi.masked hb j = 0)
    (hend : ¬(i = 0 ∧ hbi.masked hb 0 = 1 <<< 63))
    (hm : IsLeast (hb.under (6 - i) (64 * (hbi.pos / 64 ^ (6 - i)) + ctz64 (hbi.masked hb i))) m) :
    hbitmapIterSkipWords hb hbi = .ok (hb.levels 6 (m / 64),
      ⟨m / 64, hbi.granularity, Function.update (nextCur hb m i (hbi.masked hb i) hbi.cur) 6 (hbi.cur 6)⟩) := by
  obtain ⟨i', _, hup, hne', hz'⟩ := skipWordsUp_eq hc hi 5 le_rfl fun j hj hj5 => absurd hj5 (by omega)
  have hii : i' = i := by
    by_contra hdiff
    rcases Nat.lt_or_gt_of_ne hdiff with h | h
    · exact hne (hz' i h (by omega))
    · exact hne' (hzero i' h (by omega))
  subst hii
  rw [Nat.sub_self, Nat.pow_zero, Nat.div_one] at hup
  have hdown := skipWordsDown_eq hc (6 - i') i' (hbi.pos / 64 ^ (6 - i')) (hbi.masked hb i') hbi.cur
    (by omega) (by omega) hne' hm
  unfold hbitmapIterSkipWords
  rw [hup, ok_bind]
  dsimp only
  rw [if_neg (by rintro ⟨rfl, hs⟩; exact hend ⟨rfl, hs⟩), hdown, ok_bind]
  dsimp only
  rw [if_neg (levels_six_ne_zero (HBitmap.mem_groups.mp hm.1.1).2)]
  rfl

/-- `hbitmap_iter_skip_words` when only the sentinel is left: it returns 0 and keeps the iterator. -/
theorem hbitmapIterSkipWords_end (hc : hb.Coherent) (hi : hbi.Inv hb)
    (hzero : ∀ j, 0 < j → j ≤ 5 → hbi.masked hb j = 0) (hsent : hbi.masked hb 0 = 1 <<< 63) :
    hbitmapIterSkipWords hb hbi = .ok (0, hbi) := by
  obtain ⟨i', _, hup, hne', _⟩ := skipWordsUp_eq hc hi 5 le_rfl fun j hj hj5 => absurd hj5 (by omega)
  have hi0 : i' = 0 := by
    by_contra hpos
    exact hne' (hzero i' (by omega) (by omega))
  subst hi0
  rw [Nat.sub_self, Nat.pow_zero, Nat.div_one] at hup
  unfold hbitmapIterSkipWords
  rw [hup, ok_bind]
  dsimp only
  rw [if_pos ⟨rfl, hsent⟩]
  rfl

/-- `hbitmap_iter_next` when the deepest level whose masked word is not empty is `i`, and that
word is not the sentinel alone: it returns the least group `m` under the word's lowest bit. -/
theorem hbitmapIterNext_found (hc : hb.Coherent) (hi : hbi.Inv hb) {i m : Nat} (hi6 : i ≤ 6)
    (hne : hbi.masked hb i ≠ 0) (hzero : ∀ j, i < j → j ≤ 6 → hbi.masked hb j = 0)
    (hend : ¬(i = 0 ∧ hbi.masked hb 0 = 1 <<< 63))
    (hm : IsLeast (hb.under (6 - i) (64 * (hbi.pos / 64 ^ (6 - i)) + ctz64 (hbi.masked hb i))) m) :
    hbitmapIterNext hb hbi = .ok (Xqemu.TwosComplement.toSigned 63 ((m <<< hbi.granularity) % 2 ^ 64),
      hbi.moveTo hb m i) := by
  obtain ⟨pos, g, cur⟩ := hbi
  rcases Nat.eq_or_lt_of_le hi6 with rfl | hlt
  · -- the cached word of the last level still has a live bit
    have hlow : ctz64 (masked hb ⟨pos, g, cur⟩ 6) < 64 := (isFirst_lowest hne (masked_lt hi le_rfl)).1
    have hm6 : m = 64 * pos + ctz64 (masked hb ⟨pos, g, cur⟩ 6) := by
      simpa using hm.1.2
    have hitem : (pos <<< 6) + ctz64 (masked hb ⟨pos, g, cur⟩ 6) = m := by
      rw [Nat.shiftLeft_eq, hm6]
      omega
    have hcache : Function.update cur 6 (masked hb ⟨pos, g, cur⟩ 6 &&& (masked hb ⟨pos, g, cur⟩ 6 - 1)) =
        nextCur hb m 6 (masked hb ⟨pos, g, cur⟩ 6) cur := by
      funext j
      unfold nextCur
      by_cases hj : j = 6
      · subst hj
        simp
      · rw [Function.update_of_ne hj, if_pos (by omega)]
    have h6 : cur 6 &&& hb.levels 6 pos = masked hb ⟨pos, g, cur⟩ 6 := @masked_six hb ⟨pos, g, cur⟩
    unfold hbitmapIterNext
    simp only [h6, if_neg hne, pure_bind]
    rw [hitem, hcache, HBitmapIter.moveTo, show m / 64 = pos by omega]
    rfl
  · -- the climb stops at level `i` and the descent finds `m`
    have hskip := hbitmapIterSkipWords_found hc hi hlt hne (fun j hj hj5 => hzero j hj (by omega)) hend hm
    have hctz : ctz64 (hb.levels 6 (m / 64)) = m % 64 := by
      simpa using hc.ctz64_child (i := 5) (by omega) (isLeast_under_of_le hm (by omega))
    have hL6 : hb.levels 6 (m / 64) ≠ 0 := levels_six_ne_zero (HBitmap.mem_groups.mp hm.1.1).2
    have hcache : Function.update (Function.update (nextCur hb m i (masked hb ⟨pos, g, cur⟩ i) cur) 6 (cur 6)) 6
        (hb.levels 6 (m / 64) &&& (hb.levels 6 (m / 64) - 1)) = nextCur hb m i (masked hb ⟨pos, g, cur⟩ i) cur := by
      funext j
      by_cases hj : j = 6
      · subst hj
        simp [nextCur, show ¬(6 < i) by omega, show (6 : Nat) ≠ i by omega]
      · rw [Function.update_of_ne hj, Function.update_of_ne hj]
    have hitem : ((m / 64) <<< 6) + ctz64 (hb.levels 6 (m / 64)) = m := by
      rw [Nat.shiftLeft_eq, hctz]
      omega
    have h6 : cur 6 &&& hb.levels 6 pos = masked hb ⟨pos, g, cur⟩ 6 := @masked_six hb ⟨pos, g, cur⟩
    unfold hbitmapIterNext
    simp only [h6, hzero 6 hlt le_rfl, if_true, hskip, ok_bind, if_neg hL6]
    rw [hitem, hcache]
    rfl

/-- `hbitmap_iter_next` when only the sentinel is left: it returns -1 and keeps the iterator. -/
theorem hbitmapIterNext_end (hc : hb.Coherent) (hi : hbi.Inv hb)
    (hzero : ∀ j, 0 < j → j ≤ 6 → hbi.masked hb j = 0) (hsent : hbi.masked hb 0 = 1 <<< 63) :
    hbitmapIterNext hb hbi = .ok (-1, hbi) := by
  have hskip := hbitmapIterSkipWords_end hc hi (fun j hj hj5 => hzero j hj (by omega)) hsent
  have h6 : hbi.cur 6 &&& hb.levels 6 hbi.pos = hbi.masked hb 6 := masked_six _
  unfold hbitmapIterNext
  simp only [h6, hzero 6 (by omega) le_rfl, if_true, hskip, ok_bind]
  rfl

end HBitmapIter

/-! ## The pending set across a call -/

/-- A word of 64 bits whose lowest set bit is bit 63 is the sentinel alone. -/
theorem eq_sentinel_of_lowest {w : Nat} (hw : w < 2 ^ 64) (h63 : w.testBit 63 = true)
    (hbelow : ∀ b < 63, w.testBit b = false) : w = 1 <<< 63 := by
  rw [Nat.one_shiftLeft]
  apply Nat.eq_of_testBit_eq
  intro b
  rw [Nat.testBit_two_pow]
  rcases Nat.lt_trichotomy b 63 with hb | rfl | hb
  · rw [hbelow b hb]
    simp [Nat.ne_of_gt hb]
  · simp [h63]
  · rw [testBit_eq_false_of_le hw (by omega)]
    simp [Nat.ne_of_lt hb]

namespace HBitmapIter

variable {hb : HBitmap} {hbi : HBitmapIter}

theorem cur_testBit_of_masked {j b : Nat} (h : (hbi.masked hb j).testBit b = true) :
    (hbi.cur j).testBit b = true := by
  rw [masked, Nat.testBit_and, Bool.and_eq_true] at h
  exact h.1

/-- A pending group that is set keeps its node's bit in the masked word of its level. -/
theorem masked_testBit_of_mem (hc : hb.Coherent) {r j : Nat} (hj : j ≤ 6) (hr : r ∈ hb.groups)
    (hreg : r ∈ regionAt (64 * hbi.pos) (hbi.cur j) (6 - j)) :
    (hbi.masked hb j).testBit (r / 64 ^ (6 - j) % 64) = true := by
  have hnode := hc.bitAt_of_mem hr hj
  rw [HBitmap.bitAt, ← div_pow_succ, hreg.1, mul_div_pow_succ (by omega)] at hnode
  rw [masked, Nat.testBit_and, hreg.2, hnode]
  rfl

theorem not_mem_of_masked_zero (hc : hb.Coherent) {r j : Nat} (hj : j ≤ 6) (hr : r ∈ hb.groups)
    (hzero : hbi.masked hb j = 0) : r ∉ regionAt (64 * hbi.pos) (hbi.cur j) (6 - j) := fun hreg => by
  have hbit := masked_testBit_of_mem hc hj hr hreg
  rw [hzero, Nat.zero_testBit] at hbit
  exact Bool.noConfusion hbit

/-- With the sentinel alone left, no pending group is set. -/
theorem pending_inter_eq_empty (hc : hb.Coherent) (hzero : ∀ j, 0 < j → j ≤ 6 → hbi.masked hb j = 0)
    (hsent : hbi.masked hb 0 = 1 <<< 63) : hbi.pending ∩ ↑hb.groups = ∅ := by
  ext r
  simp only [Set.mem_inter_iff, Finset.mem_coe, Set.mem_empty_iff_false, iff_false, not_and]
  rintro ⟨j, hj, hreg⟩ hr
  rcases Nat.eq_zero_or_pos j with rfl | hjpos
  · -- only the node 63 of level 0 is left, and no group lies under it
    have hbit := masked_testBit_of_mem hc (Nat.zero_le 6) hr hreg
    have hsmall := (div_pow_six_lt (lt_of_lt_of_le (HBitmap.mem_groups.mp hr).1 hc.size_le)).1
    rw [hsent, Nat.one_shiftLeft, Nat.testBit_two_pow, Nat.sub_zero] at hbit
    have h63 : 63 = r / 64 ^ 6 % 64 := of_decide_eq_true hbit
    omega
  · exact not_mem_of_masked_zero hc hj hr (hzero j hjpos hj) hreg

theorem lowest_masked (hi : hbi.Inv hb) {i : Nat} (hi6 : i ≤ 6) (hne : hbi.masked hb i ≠ 0) :
    ctz64 (hbi.masked hb i) < 64 ∧ (hbi.masked hb i).testBit (ctz64 (hbi.masked hb i)) = true ∧
      ∀ b < ctz64 (hbi.masked hb i), (hbi.masked hb i).testBit b = false :=
  isFirst_lowest hne (masked_lt hi hi6)

section Found

/-! The call that finds group `m` under the lowest bit of the masked word of level `i`. -/

variable (hc : hb.Coherent) (hi : hbi.Inv hb) {i m : Nat} (hi6 : i ≤ 6) (hne : hbi.masked hb i ≠ 0)
  (hm : IsLeast (hb.under (6 - i) (64 * (hbi.pos / 64 ^ (6 - i)) + ctz64 (hbi.masked hb i))) m)
include hi hi6 hne hm

theorem found_word : m / 64 ^ (6 - i + 1) = 64 * hbi.pos / 64 ^ (6 - i + 1) := by
  have hlow := (lowest_masked hi hi6 hne).1
  rw [div_pow_succ, hm.1.2, mul_div_pow_succ (by omega)]
  omega

theorem found_digit : m / 64 ^ (6 - i) % 64 = ctz64 (hbi.masked hb i) := by
  have hlow := (lowest_masked hi hi6 hne).1
  rw [hm.1.2]
  omega

theorem found_mem_region : m ∈ regionAt (64 * hbi.pos) (hbi.cur i) (6 - i) :=
  ⟨found_word hi hi6 hne hm,
    by rw [found_digit hi hi6 hne hm]; exact cur_testBit_of_masked (lowest_masked hi hi6 hne).2.1⟩

/-- Above level `i`, the new path is the old one. -/
theorem moveTo_region_of_lt {j : Nat} (hji : j < i) (C : Nat) :
    regionAt (64 * (m / 64)) C (6 - j) = regionAt (64 * hbi.pos) C (6 - j) :=
  regionAt_congr (by rw [path_div, div_pow_eq_of_le (found_word hi hi6 hne hm) (by omega)])

omit hi hi6 hne hm in
theorem moveTo_cur_of_lt {j : Nat} (hji : j < i) : (hbi.moveTo hb m i).cur j = hbi.cur j :=
  if_pos (.inl hji)

omit hm in
theorem testBit_moveTo_self (b : Nat) :
    ((hbi.moveTo hb m i).cur i).testBit b = true ↔
      (hbi.masked hb i).testBit b = true ∧ ctz64 (hbi.masked hb i) < b := by
  have hcur : (hbi.moveTo hb m i).cur i = hbi.masked hb i &&& (hbi.masked hb i - 1) := by
    simp [moveTo, nextCur, Nat.not_lt.mpr hi6]
  rw [hcur, testBit_and_sub_one_iff (lowest_masked hi hi6 hne).2.1 (lowest_masked hi hi6 hne).2.2]

omit hi hne in
include hc in
/-- Below level `i`, each new cached word is the live word on `m`'s path without `m`'s bit,
which is its lowest. -/
theorem testBit_moveTo_of_gt {j : Nat} (hij : i < j) (hj : j ≤ 6) (b : Nat) :
    ((hbi.moveTo hb m i).cur j).testBit b = true ↔
      (hb.levels j (m / 64 ^ (6 - j + 1))).testBit b = true ∧ m / 64 ^ (6 - j) % 64 < b := by
  have hchild := hc.lowest_child (i := j - 1) (by omega)
    (isLeast_under_of_le (k := 6 - (j - 1)) hm (by omega))
  rw [show j - 1 + 1 = j by omega, show 6 - (j - 1) = 6 - j + 1 by omega,
    show 5 - (j - 1) = 6 - j by omega] at hchild
  have hcur : (hbi.moveTo hb m i).cur j =
      hb.levels j (m / 64 ^ (6 - j + 1)) &&& (hb.levels j (m / 64 ^ (6 - j + 1)) - 1) := by
    simp only [moveTo, nextCur, if_neg (show ¬(j < i ∨ 6 < j) by omega), if_neg (show j ≠ i by omega)]
  rw [hcur, testBit_and_sub_one_iff hchild.1 hchild.2]

include hc in
/-- The group found is the least pending set group. -/
theorem found_isLeast (hzero : ∀ j, i < j → j ≤ 6 → hbi.masked hb j = 0) :
    IsLeast (hbi.pending ∩ ↑hb.groups) m := by
  have hmreg := found_mem_region hi hi6 hne hm
  have hlow := lowest_masked hi hi6 hne
  refine ⟨⟨⟨i, hi6, hmreg⟩, hm.1.1⟩, ?_⟩
  rintro r ⟨⟨j, hj, hreg⟩, hr⟩
  rcases Nat.lt_trichotomy j i with hji | rfl | hij
  · exact le_of_lt (regionAt_lt (by omega) (hi.after_path j (by omega)) hmreg hreg)
  · have hd := masked_testBit_of_mem hc hj hr hreg
    have hcd : ctz64 (hbi.masked hb j) ≤ r / 64 ^ (6 - j) % 64 := Nat.le_of_not_lt fun hlt => by
      rw [hlow.2.2 _ hlt] at hd
      exact Bool.noConfusion hd
    rcases Nat.eq_or_lt_of_le hcd with heq | hlt
    · -- `r` lies under the node followed, where `m` is the least
      refine hm.2 ⟨hr, ?_⟩
      rw [div_pow_eq 64 r (6 - j), hreg.1, mul_div_pow_succ (by omega), ← heq]
    · exact le_of_lt (lt_of_digit_lt ((found_word hi hi6 hne hm).trans hreg.1.symm)
        (by rw [found_digit hi hi6 hne hm]; exact hlt))
  · exact absurd hreg (not_mem_of_masked_zero hc hj hr (hzero j hij hj))

include hc in
/-- Afterwards only larger groups are pending, and all of them were. -/
theorem moveTo_pending_subset : (hbi.moveTo hb m i).pending ⊆ hbi.pending ∩ Set.Ioi m := by
  have hmreg := found_mem_region hi hi6 hne hm
  have hword := found_word hi hi6 hne hm
  have hdig := found_digit hi hi6 hne hm
  rintro r ⟨j, hj, hreg⟩
  rcases Nat.lt_trichotomy j i with hji | rfl | hij
  · rw [show (hbi.moveTo hb m i).pos = m / 64 from rfl, moveTo_cur_of_lt hji,
      moveTo_region_of_lt hi hi6 hne hm hji] at hreg
    exact ⟨⟨j, hj, hreg⟩, regionAt_lt (by omega) (hi.after_path j (by omega)) hmreg hreg⟩
  · obtain ⟨hrword, hrbit⟩ := hreg
    rw [testBit_moveTo_self hi hi6 hne] at hrbit
    have hrword' : r / 64 ^ (6 - j + 1) = 64 * hbi.pos / 64 ^ (6 - j + 1) := by
      rw [hrword, show (hbi.moveTo hb m j).pos = m / 64 from rfl, path_div, hword]
    refine ⟨⟨j, hj, hrword', cur_testBit_of_masked hrbit.1⟩, ?_⟩
    exact lt_of_digit_lt (hword.trans hrword'.symm) (by rw [hdig]; exact hrbit.2)
  · obtain ⟨hrword, hrbit⟩ := hreg
    rw [testBit_moveTo_of_gt hc hi6 hm hij hj] at hrbit
    rw [show (hbi.moveTo hb m i).pos = m / 64 from rfl, path_div] at hrword
    refine ⟨⟨i, hi6, ?_, ?_⟩, lt_of_digit_lt hrword.symm hrbit.2⟩
    · rw [div_pow_eq_of_le hrword (by omega : 6 - j + 1 ≤ 6 - i + 1), hword]
    · rw [div_pow_eq_of_le hrword (by omega : 6 - j + 1 ≤ 6 - i), hdig]
      exact cur_testBit_of_masked (lowest_masked hi hi6 hne).2.1

include hc in
/-- Every larger pending group that is set stays pending. -/
theorem pending_subset_moveTo (hzero : ∀ j, i < j → j ≤ 6 → hbi.masked hb j = 0) :
    hbi.pending ∩ ↑hb.groups ∩ Set.Ioi m ⊆ (hbi.moveTo hb m i).pending := by
  have hword := found_word hi hi6 hne hm
  have hdig := found_digit hi hi6 hne hm
  have hlow := lowest_masked hi hi6 hne
  rintro r ⟨⟨⟨j, hj, hreg⟩, hr⟩, hmr⟩
  rcases Nat.lt_trichotomy j i with hji | rfl | hij
  · refine ⟨j, hj, ?_⟩
    rw [show (hbi.moveTo hb m i).pos = m / 64 from rfl, moveTo_cur_of_lt hji,
      moveTo_region_of_lt hi hi6 hne hm hji]
    exact hreg
  · have hd := masked_testBit_of_mem hc hj hr hreg
    by_cases hdc : r / 64 ^ (6 - j) % 64 = ctz64 (hbi.masked hb j)
    · -- `r` is under the node `m` was found under: they part below level `j`
      have hnode : m / 64 ^ (6 - j) = r / 64 ^ (6 - j) := by
        rw [div_pow_eq 64 r (6 - j), div_pow_eq 64 m (6 - j), hreg.1, hword, hdc, hdig]
      obtain ⟨h, hh, hpar, hdig'⟩ := exists_digit_lt_of_lt (by omega) hmr hnode
      refine ⟨6 - h, by omega, ?_, ?_⟩
      · rw [Nat.sub_sub_self (by omega), show (hbi.moveTo hb m j).pos = m / 64 from rfl, path_div, hpar]
      · rw [Nat.sub_sub_self (by omega)]
        refine (testBit_moveTo_of_gt hc hi6 hm (by omega) (by omega) _).mpr ⟨?_, ?_⟩
        · have hnode' := hc.bitAt_of_mem hr (i := 6 - h) (by omega)
          rw [Nat.sub_sub_self (by omega), HBitmap.bitAt, ← div_pow_succ] at hnode'
          rwa [Nat.sub_sub_self (by omega), hpar]
        · rwa [Nat.sub_sub_self (by omega)]
    · refine ⟨j, hj, ?_, ?_⟩
      · rw [show (hbi.moveTo hb m j).pos = m / 64 from rfl, path_div, hword, hreg.1]
      · refine (testBit_moveTo_self hi hi6 hne _).mpr ⟨hd, Nat.lt_of_le_of_ne ?_ (Ne.symm hdc)⟩
        exact Nat.le_of_not_lt fun hlt => by
          rw [hlow.2.2 _ hlt] at hd
          exact Bool.noConfusion hd
  · exact absurd hreg (not_mem_of_masked_zero hc hj hr (hzero j hij hj))

include hc in
/-- The iterator left by the call keeps the invariant. -/
theorem moveTo_inv (hend : ¬(i = 0 ∧ hbi.masked hb 0 = 1 <<< 63)) : (hbi.moveTo hb m i).Inv hb := by
  have hword := found_word hi hi6 hne hm
  have hdig := found_digit hi hi6 hne hm
  have hlow := lowest_masked hi hi6 hne
  have hmg := HBitmap.mem_groups.mp hm.1.1
  refine ⟨hi.granularity_eq, ?_, fun j hj => ?_, fun j hj b hb' => ?_, ?_⟩
  · show m / 64 < hb.sizes 6
    simpa using hc.div_lt_sizes hmg.1 0 (by omega)
  · rcases Nat.lt_trichotomy j i with hji | rfl | hij
    · rw [moveTo_cur_of_lt hji]
      exact hi.cur_lt j hj
    · simp only [moveTo, nextCur, lt_irrefl, false_or, if_neg (show ¬(6 < j) by omega), if_true]
      exact and_sub_one_lt (masked_lt hi hj)
    · have hidx : m / 64 ^ (6 - j + 1) < hb.sizes j := by
        simpa [Nat.sub_sub_self hj] using hc.div_lt_sizes hmg.1 (6 - j) (by omega)
      simp only [moveTo, nextCur, if_neg (show ¬(j < i ∨ 6 < j) by omega), if_neg (show j ≠ i by omega)]
      exact and_sub_one_lt (hc.word_lt j hj _ hidx)
  · -- the digit of the new path at level `j` is `m`'s
    show 64 * (m / 64) / 64 ^ (6 - j) % 64 < b
    rw [show 6 - j = 5 - j + 1 by omega, path_div, ← show 6 - j = 5 - j + 1 by omega]
    rcases Nat.lt_trichotomy j i with hji | rfl | hij
    · rw [moveTo_cur_of_lt hji] at hb'
      rw [div_pow_eq_of_le hword (by omega : 6 - i + 1 ≤ 6 - j)]
      exact hi.after_path j hj b hb'
    · rw [hdig]
      exact ((testBit_moveTo_self hi hi6 hne b).mp hb').2
    · exact ((testBit_moveTo_of_gt hc hi6 hm hij (by omega) b).mp hb').2
  · rcases Nat.eq_zero_or_pos i with rfl | hpos
    · -- the lowest bit followed from level 0 is not the sentinel
      refine (testBit_moveTo_self hi hi6 hne 63).mpr ⟨masked_zero_testBit hc hi, ?_⟩
      by_contra hge
      have h63 : ctz64 (hbi.masked hb 0) = 63 := by omega
      exact hend ⟨rfl, eq_sentinel_of_lowest (masked_lt hi hi6) (masked_zero_testBit hc hi)
        fun b hb => hlow.2.2 b (h63 ▸ hb)⟩
    · rw [moveTo_cur_of_lt hpos]
      exact hi.sentinel

end Found

/-- Where the climb of the next call stops: either only the sentinel is left above the last
level, or the deepest level `i` whose masked word is not empty leads to a least set group `m`
under the word's lowest bit. -/
theorem climb_cases (hc : hb.Coherent) (hi : hbi.Inv hb) :
    ((∀ j, 0 < j → j ≤ 6 → hbi.masked hb j = 0) ∧ hbi.masked hb 0 = 1 <<< 63) ∨
      ∃ i m, i ≤ 6 ∧ hbi.masked hb i ≠ 0 ∧ (∀ j, i < j → j ≤ 6 → hbi.masked hb j = 0) ∧
        ¬(i = 0 ∧ hbi.masked hb 0 = 1 <<< 63) ∧
        IsLeast (hb.under (6 - i) (64 * (hbi.pos / 64 ^ (6 - i)) + ctz64 (hbi.masked hb i))) m := by
  -- the deepest level whose masked word is not empty; level 0 always is
  have hex : ∃ j ≤ 6, hbi.masked hb j ≠ 0 := ⟨0, by omega, masked_zero_ne hc hi⟩
  set i := Nat.findGreatest (fun j => hbi.masked hb j ≠ 0) 6 with hi_def
  have hi6 : i ≤ 6 := Nat.findGreatest_le 6
  have hne : hbi.masked hb i ≠ 0 := by
    obtain ⟨j, hj, hjne⟩ := hex
    exact Nat.findGreatest_spec (P := fun j => hbi.masked hb j ≠ 0) hj hjne
  have hzero : ∀ j, i < j → j ≤ 6 → hbi.masked hb j = 0 := fun j hij hj =>
    not_not.mp (Nat.findGreatest_is_greatest hij hj)
  by_cases hend : i = 0 ∧ hbi.masked hb 0 = 1 <<< 63
  · obtain ⟨hi0, hsent⟩ := hend
    exact .inl ⟨fun j hj => hzero j (by omega), hsent⟩
  · -- the node followed is set and not the sentinel, so a least group lies under it
    have hlow := lowest_masked hi hi6 hne
    have hword : hbi.pos / 64 ^ (6 - i) < hb.sizes i := by
      simpa [Nat.sub_sub_self hi6] using hc.div_lt_sizes_of_lt hi.pos_lt (6 - i) (by omega)
    have hnode : hb.bitAt i (64 * (hbi.pos / 64 ^ (6 - i)) + ctz64 (hbi.masked hb i)) = true := by
      rw [HBitmap.bitAt_mul_add _ _ _ hlow.1]
      have h := hlow.2.1
      rw [masked, Nat.testBit_and, Bool.and_eq_true] at h
      exact h.2
    have hsent : ¬(i = 0 ∧ 64 * (hbi.pos / 64 ^ (6 - i)) + ctz64 (hbi.masked hb i) = 63) := by
      rintro ⟨hi0, h63⟩
      have hpos0 : hbi.pos / 64 ^ (6 - i) = 0 := by
        rw [hi0]
        exact Nat.div_eq_of_lt (lt_of_lt_of_le hi.pos_lt
          (le_trans (hc.sizes_le_pow 0 (by omega)) (by decide)))
      have hctz : ctz64 (hbi.masked hb 0) = 63 := by
        rw [hpos0] at h63
        rw [← hi0]
        omega
      exact hend ⟨hi0, eq_sentinel_of_lowest (masked_lt hi (by omega))
        (masked_zero_testBit hc hi) fun b hb => by
          have := hlow.2.2 b (by rw [hi0, hctz]; exact hb)
          rwa [hi0] at this⟩
    have hnonempty : ∃ r, r ∈ hb.under (6 - i) (64 * (hbi.pos / 64 ^ (6 - i)) + ctz64 (hbi.masked hb i)) :=
      let ⟨r, hr, hrk⟩ := (hc.bitAt_iff hi6 (by omega) hsent).mp hnode
      ⟨r, hr, hrk⟩
    classical
    exact .inr ⟨i, Nat.find hnonempty, hi6, hne, hzero, hend,
      Nat.find_spec hnonempty, fun r hr => Nat.find_min' hnonempty hr⟩

end HBitmapIter

/-- What `hbitmap_iter_next` returns for a group found, or for none. -/
def iterValue (g : Nat) : Option Nat → Int
  | none => -1
  | some r => Xqemu.TwosComplement.toSigned 63 ((r <<< g) % 2 ^ 64)

/-- Each `hbitmap_iter_next` on a coherent bitmap is a `next` of the pending-set iterator over
the groups set at that moment, and keeps the iterator's invariant. -/
theorem hbitmapIterNext_spec {hb : HBitmap} {hbi : HBitmapIter} (hc : hb.Coherent) (hi : hbi.Inv hb) :
    ∃ o hbi', hbitmapIterNext hb hbi = .ok (iterValue hbi.granularity o, hbi') ∧ hbi'.Inv hb ∧
      PendingIter.NextSpec hbi.pending ↑hb.groups o hbi'.pending := by
  rcases HBitmapIter.climb_cases hc hi with ⟨hzero, hsent⟩ | ⟨i, m, hi6, hne, hzero, hend, hm⟩
  · exact ⟨none, hbi, HBitmapIter.hbitmapIterNext_end hc hi hzero hsent, hi,
      HBitmapIter.pending_inter_eq_empty hc hzero hsent, rfl⟩
  · exact ⟨some m, hbi.moveTo hb m i,
      HBitmapIter.hbitmapIterNext_found hc hi hi6 hne hzero hend hm,
      HBitmapIter.moveTo_inv hc hi hi6 hne hm hend,
      HBitmapIter.found_isLeast hc hi hi6 hne hm hzero,
      HBitmapIter.moveTo_pending_subset hc hi hi6 hne hm,
      HBitmapIter.pending_subset_moveTo hc hi hi6 hne hm hzero⟩

end Xqemu.Util
