import Xqemu.Util.HbitmapTruncate
import Xqemu.Lib.ByteMemory

/-!
# Serializing a bitmap and reading it back

`hbitmap_serialize_part` copies the words of the last level that a chunk of
elements covers into the buffer, little-endian; `hbitmap_deserialize_part`
copies them back.  A chunk that `serialization_chunk` accepts starts on a word,
so the chunks of a partition of the elements cover each allocated word of the
last level, and deserializing all of them into a fresh bitmap, in any order,
gives it the last level of the original.  `hbitmap_deserialize_finish` then
rebuilds every upper level from the one below, which leaves a coherent bitmap
with the original's groups, hence the original's words and count.
-/

namespace Xqemu.Util

open Xqemu.Memory Xqemu.Words Xqemu.Faults

/-! ## The copy loops -/

theorem serializeWords_apply (hb : HBitmap) : ∀ (k : Nat) (buf : Mem) (b cur x : Nat),
    serializeWords hb k buf b cur x =
      if b ≤ x ∧ x < b + 8 * k then UInt8.ofNat (hb.levels 6 (cur + (x - b) / 8) / 256 ^ ((x - b) % 8))
      else buf x
  | 0, buf, b, cur, x => by
    rw [serializeWords, if_neg (by omega)]
  | k + 1, buf, b, cur, x => by
    rw [serializeWords, serializeWords_apply hb k]
    by_cases hlo : b + 8 ≤ x ∧ x < b + 8 + 8 * k
    · rw [if_pos hlo, if_pos (by omega), show (x - b) / 8 = (x - (b + 8)) / 8 + 1 by omega,
        show (x - b) % 8 = (x - (b + 8)) % 8 by omega, Nat.add_assoc cur 1, Nat.add_comm 1]
    · rw [if_neg hlo]
      by_cases hword : b ≤ x ∧ x < b + 8
      · rw [stqLe, storeLe_of_mem _ hword.1 hword.2, if_pos (by omega), show (x - b) / 8 = 0 by omega,
          show (x - b) % 8 = x - b by omega, Nat.add_zero]
      · rw [if_neg (by omega), stqLe]
        rcases Nat.lt_or_ge x b with hx | hx
        · exact storeLe_of_lt _ hx
        · exact storeLe_of_ge _ (by omega)

theorem deserializeWords_apply (buf : Mem) : ∀ (k b cur : Nat) (w : Nat → Nat) (j : Nat),
    deserializeWords buf k b cur w j = if cur ≤ j ∧ j < cur + k then loadLe buf (b + 8 * (j - cur)) 8 else w j
  | 0, b, cur, w, j => by
    rw [deserializeWords, if_neg (by omega)]
  | k + 1, b, cur, w, j => by
    rw [deserializeWords, deserializeWords_apply buf k]
    by_cases hlo : cur + 1 ≤ j ∧ j < cur + 1 + k
    · rw [if_pos hlo, if_pos (by omega), show b + 8 * (j - cur) = b + 8 + 8 * (j - (cur + 1)) by omega]
    · rw [if_neg hlo]
      by_cases hj : j = cur
      · subst hj
        rw [Function.update_self, if_pos (by omega), Nat.sub_self, Nat.mul_zero, Nat.add_zero]
      · rw [Function.update_of_ne hj, if_neg (by omega)]

/-- The word at `8 * m` of a buffer that `serializeWords` filled from word `cur` on. -/
theorem loadLe_serializeWords {hb : HBitmap} {k m cur : Nat} (buf : Mem) (hm : m < k)
    (hlt : hb.levels 6 (cur + m) < 2 ^ 64) : loadLe (serializeWords hb k buf 0 cur) (8 * m) 8 = hb.levels 6 (cur + m) := by
  have hagree : AgreeOn (serializeWords hb k buf 0 cur) (stqLe buf (8 * m) (hb.levels 6 (cur + m))) (8 * m) 8 := by
    intro x hx₁ hx₂
    rw [serializeWords_apply, if_pos (by omega), stqLe, storeLe_of_mem _ hx₁ hx₂, Nat.sub_zero,
      show x / 8 = m by omega, show x % 8 = x - 8 * m by omega]
  rw [loadLe_congr hagree, stqLe, loadLe_storeLe_self, Nat.mod_eq_of_lt (by simpa using hlt)]

/-! ## Chunks -/

theorem two_pow_add_six (g : Nat) : 2 ^ (g + 6) = 2 ^ g * 64 := Nat.pow_add 2 g 6

/-- `hbitmap_serialization_align` is `64 << granularity` below granularity 58. -/
theorem hbitmapSerializationAlign_eq {hb : HBitmap} (hg : hb.granularity < 58) :
    hbitmapSerializationAlign hb = .ok (2 ^ (hb.granularity + 6)) := by
  have hlt : 2 ^ (hb.granularity + 6) < 2 ^ 64 := Nat.pow_lt_pow_right (by omega) (by omega)
  rw [hbitmapSerializationAlign, if_pos hg, Nat.shiftLeft_eq, Nat.mul_comm, ← two_pow_add_six,
    Nat.mod_eq_of_lt hlt]
  rfl

/-- What `serialization_chunk` checks and returns: the start is aligned to `64 << granularity`
elements, the last group lies below `size`, and the words are those from `start`'s to `last`'s. -/
theorem serializationChunk_eq_ok {hb : HBitmap} {s c first k : Nat}
    (h : serializationChunk hb s c = .ok (first, k)) :
    hb.granularity < 58 ∧ s % 2 ^ (hb.granularity + 6) = 0 ∧
      ((s + c + 2 ^ 64 - 1) % 2 ^ 64) >>> hb.granularity < hb.size ∧
      first = s / 2 ^ (hb.granularity + 6) ∧
      k = (s + c + 2 ^ 64 - 1) % 2 ^ 64 / 2 ^ (hb.granularity + 6) - first + 1 := by
  unfold serializationChunk at h
  by_cases hg : hb.granularity < 58
  swap
  · rw [hbitmapSerializationAlign, if_neg hg] at h
    cases h
  rw [hbitmapSerializationAlign_eq hg, ok_bind, Nat.and_two_pow_sub_one_eq_mod] at h
  by_cases halign : s % 2 ^ (hb.granularity + 6) ≠ 0
  · rw [if_pos halign] at h
    cases h
  rw [if_neg halign] at h
  by_cases hlast : ¬((s + c + 2 ^ 64 - 1) % 2 ^ 64) >>> hb.granularity < hb.size
  · rw [if_pos hlast] at h
    cases h
  rw [if_neg hlast] at h
  split_ifs at h
  cases h
  refine ⟨hg, not_not.mp halign, not_not.mp hlast, ?_, ?_⟩
  · rw [← Nat.shiftRight_add, Nat.shiftRight_eq_div_pow]
  · rw [← Nat.shiftRight_add, Nat.shiftRight_eq_div_pow, ← Nat.shiftRight_add, Nat.shiftRight_eq_div_pow]

/-- `serialization_chunk` reads only the size and the granularity of the bitmap. -/
theorem serializationChunk_congr {hb hb' : HBitmap} (hg : hb'.granularity = hb.granularity)
    (hsize : hb'.size = hb.size) (s c : Nat) : serializationChunk hb' s c = serializationChunk hb s c := by
  unfold serializationChunk hbitmapSerializationAlign
  rw [hg, hsize]

/-- With an aligned start, the words from `s / G` to `l / G` are those whose first element lies
in `[s, l]`. -/
theorem aligned_div_range {G s l j : Nat} (hG : 0 < G) (hs : s % G = 0) (hsl : s ≤ l) :
    (s / G ≤ j ∧ j < s / G + (l / G - s / G + 1)) ↔ (s ≤ G * j ∧ G * j ≤ l) := by
  have hfirst : s / G ≤ j ↔ s ≤ G * j := by
    constructor
    · intro h
      calc s = G * (s / G) := (Nat.mul_div_cancel' (Nat.dvd_of_mod_eq_zero hs)).symm
        _ ≤ G * j := Nat.mul_le_mul_left G h
    · intro h
      calc s / G ≤ G * j / G := Nat.div_le_div_right h
        _ = j := Nat.mul_div_cancel_left j hG
  have hlast : j ≤ l / G ↔ G * j ≤ l := by rw [Nat.le_div_iff_mul_le hG, Nat.mul_comm]
  have hle : s / G ≤ l / G := Nat.div_le_div_right hsl
  omega

/-- Chunk `p = (start, count)` holds the first element `(64 * j) << granularity` of word `j` of
the last level. -/
def coversWord (g : Nat) (p : Nat × Nat) (j : Nat) : Bool :=
  decide (p.2 ≠ 0 ∧ p.1 ≤ (64 * j) <<< g ∧ (64 * j) <<< g < p.1 + p.2)

theorem shiftLeft_mul_sixtyfour (g j : Nat) : (64 * j) <<< g = 2 ^ (g + 6) * j := by
  rw [Nat.shiftLeft_eq, two_pow_add_six, Nat.mul_comm (2 ^ g), Nat.mul_right_comm]

/-- The words `serialization_chunk` gives a chunk are the words whose first element it holds. -/
theorem serializationChunk_words_iff {hb : HBitmap} {s c first k : Nat} (hc : c ≠ 0) (hend : s + c ≤ 2 ^ 64)
    (h : serializationChunk hb s c = .ok (first, k)) (j : Nat) :
    (first ≤ j ∧ j < first + k) ↔ coversWord hb.granularity (s, c) j = true := by
  obtain ⟨-, halign, -, rfl, rfl⟩ := serializationChunk_eq_ok h
  have hlast : (s + c + 2 ^ 64 - 1) % 2 ^ 64 = s + c - 1 :=
    TwosComplement.add_two_pow_sub_one_mod (by omega) hend
  rw [hlast, aligned_div_range (Nat.two_pow_pos _) halign (by omega), coversWord, shiftLeft_mul_sixtyfour,
    decide_eq_true_iff]
  omega

/-- The words of a chunk lie in the last level. -/
theorem lt_sizes_of_coversWord {hb : HBitmap} (hs : hb.Shape) {s c first k j : Nat} (hend : s + c ≤ 2 ^ 64)
    (h : serializationChunk hb s c = .ok (first, k)) (hcov : coversWord hb.granularity (s, c) j = true) :
    j < hb.sizes 6 := by
  obtain ⟨-, -, hbelow, -, -⟩ := serializationChunk_eq_ok h
  rw [coversWord, decide_eq_true_iff] at hcov
  obtain ⟨hc, -, hlt⟩ := hcov
  have hlast : (s + c + 2 ^ 64 - 1) % 2 ^ 64 = s + c - 1 :=
    TwosComplement.add_two_pow_sub_one_mod (by omega) hend
  rw [hlast, Nat.shiftRight_eq_div_pow] at hbelow
  have hword : 64 * j ≤ (s + c - 1) / 2 ^ hb.granularity := by
    rw [Nat.le_div_iff_mul_le (Nat.two_pow_pos _), ← Nat.shiftLeft_eq]
    omega
  rw [hs.sizes_last]
  simpa using div_lt_wordsAbove (show 64 * j < hb.size by omega)

/-- `hbitmap_serialize_part` writes the `hbitmap_serialization_size` first bytes of the buffer,
with the words of the chunk, and leaves the rest as it was. -/
theorem hbitmapSerializePart_spec {hb : HBitmap} {s c : Nat} {buf out : Mem}
    (h : hbitmapSerializePart hb buf s c = .ok out) :
    ∃ n, hbitmapSerializationSize hb s c = .ok n ∧ ∀ x, out x =
      if x < n then UInt8.ofNat (hb.levels 6 (s / 2 ^ (hb.granularity + 6) + x / 8) / 256 ^ (x % 8)) else buf x := by
  unfold hbitmapSerializePart at h
  by_cases hc : c = 0
  · rw [if_pos hc] at h
    cases h
    exact ⟨0, by rw [hbitmapSerializationSize, if_pos hc]; rfl, fun x => by rw [if_neg (Nat.not_lt_zero x)]⟩
  rw [if_neg hc] at h
  obtain ⟨⟨first, k⟩, hchunk, hout⟩ := bind_eq_ok.mp h
  cases hout
  obtain ⟨-, -, -, hfirst, -⟩ := serializationChunk_eq_ok hchunk
  refine ⟨k * 8, by rw [hbitmapSerializationSize, if_neg hc, hchunk]; rfl, fun x => ?_⟩
  rw [serializeWords_apply, ← hfirst, Nat.sub_zero]
  by_cases hx : x < k * 8
  · rw [if_pos ⟨Nat.zero_le x, by omega⟩, if_pos hx]
  · rw [if_neg (by omega), if_neg hx]

/-! ## Deserializing the chunks -/

/-- `hbitmap_deserialize_part` of a buffer that `hbitmap_serialize_part` filled from a coherent
bitmap of the same size and granularity: the words of the chunk become those of the original. -/
theorem hbitmapDeserializePart_serialized {hb b : HBitmap} (hc : hb.Coherent) (hg : b.granularity = hb.granularity)
    (hsize : b.size = hb.size) {s c : Nat} {buf out : Mem} (hend : c ≠ 0 → s + c ≤ 2 ^ 64)
    (hser : hbitmapSerializePart hb buf s c = .ok out) :
    hbitmapDeserializePart b out s c false = .ok (b.withLevels (Function.update b.levels 6 fun j =>
      if coversWord hb.granularity (s, c) j then hb.levels 6 j else b.levels 6 j)) := by
  by_cases hc0 : c = 0
  · have hnone : ∀ j, coversWord hb.granularity (s, c) j = false := fun j => by
      simp [coversWord, hc0]
    simp only [hbitmapDeserializePart, if_pos hc0, hnone, Bool.false_eq_true, if_false, Function.update_eq_self]
    rfl
  unfold hbitmapSerializePart at hser
  rw [if_neg hc0] at hser
  obtain ⟨⟨first, k⟩, hchunk, hout⟩ := bind_eq_ok.mp hser
  cases hout
  rw [hbitmapDeserializePart, if_neg hc0, serializationChunk_congr hg hsize, hchunk, ok_bind]
  show Except.ok (b.withLevels (Function.update b.levels 6 (deserializeWords (serializeWords hb k buf 0 first)
    k 0 first (b.levels 6)))) = _
  congr 3
  funext j
  rw [deserializeWords_apply, ← hg]
  by_cases hcov : coversWord b.granularity (s, c) j = true
  · have hj := (serializationChunk_words_iff hc0 (hend hc0) hchunk j).mpr (hg ▸ hcov)
    have hlt : j < hb.sizes 6 := lt_sizes_of_coversWord hc.toShape (hend hc0) hchunk (hg ▸ hcov)
    rw [if_pos hj, if_pos hcov, Nat.zero_add, loadLe_serializeWords buf (by omega)
      (by rw [Nat.add_sub_cancel' hj.1]; exact hc.word_lt 6 le_rfl j hlt), Nat.add_sub_cancel' hj.1]
  · rw [if_neg (fun hj => hcov (hg ▸ (serializationChunk_words_iff hc0 (hend hc0) hchunk j).mp hj)), if_neg hcov]

/-- Deserializing serialized chunks one after the other, in the order of the list: each word a
chunk covers becomes the original's, and the other words stay. -/
theorem foldlM_hbitmapDeserializePart {hb : HBitmap} (hc : hb.Coherent) (out : Nat × Nat → Mem) :
    ∀ (l : List (Nat × Nat)) (b : HBitmap), b.granularity = hb.granularity → b.size = hb.size →
      (∀ p ∈ l, (p.2 ≠ 0 → p.1 + p.2 ≤ 2 ^ 64) ∧ ∃ buf, hbitmapSerializePart hb buf p.1 p.2 = .ok (out p)) →
      l.foldlM (fun b p => hbitmapDeserializePart b (out p) p.1 p.2 false) b =
        .ok (b.withLevels (Function.update b.levels 6 fun j =>
          if l.any fun p => coversWord hb.granularity p j then hb.levels 6 j else b.levels 6 j))
  | [], b, _, _, _ => by
    simp only [List.foldlM_nil, List.any_nil, Bool.false_eq_true, if_false, Function.update_eq_self]
    rfl
  | (s, c) :: l, b, hg, hsize, hparts => by
    obtain ⟨hend, buf, hser⟩ := hparts (s, c) List.mem_cons_self
    have hrest := foldlM_hbitmapDeserializePart hc out l (b.withLevels (Function.update b.levels 6 fun j =>
      if coversWord hb.granularity (s, c) j then hb.levels 6 j else b.levels 6 j)) hg hsize
      fun p hp => hparts p (List.mem_cons_of_mem _ hp)
    rw [List.foldlM_cons, hbitmapDeserializePart_serialized hc hg hsize hend hser, ok_bind, hrest,
      HBitmap.withLevels_withLevels, HBitmap.withLevels_levels, Function.update_idem]
    congr 3
    funext j
    rw [Function.update_self, List.any_cons]
    -- a word the first chunk covers is the original's whichever chunks follow
    cases coversWord hb.granularity (s, c) j
    · rw [Bool.false_or, if_neg Bool.false_ne_true]
    · rw [Bool.true_or, if_pos rfl, ite_self]

/-! ## Rebuilding the upper levels -/

/-- Or-ing `1 << (i & 63)` into word `i >> 6` sets node `i` and no other. -/
theorem testBit_update_or_shiftLeft (w : Nat → Nat) (i x : Nat) :
    (Function.update w (i >>> 6) (w (i >>> 6) ||| 1 <<< (i &&& 63)) (x / 64)).testBit (x % 64) = true ↔
      (w (x / 64)).testBit (x % 64) = true ∨ x = i := by
  have hi6 : i >>> 6 = i / 64 := by simp [Nat.shiftRight_eq_div_pow]
  rw [hi6]
  by_cases hx : x / 64 = i / 64
  · rw [hx, Function.update_self, Nat.testBit_or, Nat.and_two_pow_sub_one_eq_mod i 6, Nat.one_shiftLeft,
      Nat.testBit_two_pow, Bool.or_eq_true, decide_eq_true_iff]
    have hnode : i % 2 ^ 6 = x % 64 ↔ x = i := by omega
    rw [hnode]
  · rw [Function.update_of_ne hx]
    have hne : x ≠ i := fun h => hx (h ▸ rfl)
    simp [hne]

/-- The loop over the words of a level in `hbitmap_deserialize_finish` sets node `x` of the
level above for each nonzero word `x` it passes. -/
theorem finishLevelLoop_testBit (lower : Nat → Nat) : ∀ (n i : Nat) (w : Nat → Nat) (x : Nat),
    (finishLevelLoop lower n i w (x / 64)).testBit (x % 64) = true ↔
      (w (x / 64)).testBit (x % 64) = true ∨ (i ≤ x ∧ x < i + n ∧ lower x ≠ 0)
  | 0, i, w, x => by
    rw [finishLevelLoop, or_iff_left (by omega)]
  | n + 1, i, w, x => by
    rw [finishLevelLoop, finishLevelLoop_testBit lower n (i + 1)]
    by_cases hxi : x = i
    · subst hxi
      by_cases hlow : lower x ≠ 0
      · rw [if_pos hlow, testBit_update_or_shiftLeft]
        simp [hlow]
      · rw [if_neg hlow]
        simp only [hlow, and_false, or_false]
    · have hword : ((if lower i ≠ 0 then
          Function.update w (i >>> 6) (w (i >>> 6) ||| 1 <<< (i &&& 63)) else w) (x / 64)).testBit (x % 64) =
            (w (x / 64)).testBit (x % 64) := by
        by_cases hlow : lower i ≠ 0
        · rw [if_pos hlow, Bool.eq_iff_iff, testBit_update_or_shiftLeft, or_iff_left hxi]
        · rw [if_neg hlow]
      rw [hword]
      have hlo : i + 1 ≤ x ↔ i ≤ x := by omega
      rw [hlo, show i + 1 + n = i + (n + 1) by omega]

/-- The loop keeps a 64-bit word 64-bit. -/
theorem finishLevelLoop_lt (lower : Nat → Nat) {j : Nat} : ∀ (n i : Nat) (w : Nat → Nat),
    w j < 2 ^ 64 → finishLevelLoop lower n i w j < 2 ^ 64
  | 0, _, _, hw => hw
  | n + 1, i, w, hw => by
    rw [finishLevelLoop]
    refine finishLevelLoop_lt lower n (i + 1) _ ?_
    by_cases hlow : lower i ≠ 0
    · rw [if_pos hlow]
      by_cases hj : j = i >>> 6
      · subst hj
        have hbit : 1 <<< (i &&& 63) < 2 ^ 64 := by
          rw [Nat.one_shiftLeft]
          exact Nat.pow_lt_pow_right (by omega) (lt_of_le_of_lt Nat.and_le_right (by omega))
        rw [Function.update_self]
        exact Nat.or_lt_two_pow hw hbit
      · rw [Function.update_of_ne hj]
        exact hw
    · rw [if_neg hlow]
      exact hw

theorem finishLoop_succ (lev size : Nat) (L : Nat → Nat → Nat) :
    finishLoop (lev + 1) size L = finishLoop lev (wordsAbove size)
      (Function.update L lev (finishLevelLoop (L (lev + 1)) size 0 fun j =>
        if j < wordsAbove size then 0 else L lev j)) := by
  simp only [finishLoop, max_shiftRight_eq_wordsAbove]

/-- The levels `hbitmap_deserialize_finish` leaves: from `lev` on as they were, and below
each level rebuilt from the one under it, after its first words were cleared. -/
theorem finishLoop_apply : ∀ (lev size : Nat) (L : Nat → Nat → Nat) (i : Nat),
    finishLoop lev size L i = if lev ≤ i then L i else
      finishLevelLoop (finishLoop lev size L (i + 1)) (wordsAbove^[lev - 1 - i] size) 0
        fun j => if j < wordsAbove^[lev - i] size then 0 else L i j
  | 0, size, L, i => by rw [finishLoop, if_pos (Nat.zero_le i)]
  | lev + 1, size, L, i => by
    rw [finishLoop_succ, finishLoop_apply lev (wordsAbove size) _ i]
    rcases lt_trichotomy i lev with hlt | rfl | hgt
    · rw [if_neg (by omega), if_neg (by omega), Function.update_of_ne (by omega), ← Function.iterate_succ_apply,
        ← Function.iterate_succ_apply, show (lev - 1 - i).succ = lev + 1 - 1 - i by omega,
        show (lev - i).succ = lev + 1 - i by omega]
    · -- the level the first turn rebuilds
      rw [if_pos le_rfl, if_neg (by omega), Function.update_self, finishLoop_apply i _ _ (i + 1), if_pos (by omega),
        Function.update_of_ne (by omega), show i + 1 - 1 - i = 0 by omega, show i + 1 - i = 1 by omega,
        Function.iterate_zero_apply, Function.iterate_one]
    · rw [if_pos hgt.le, if_pos (Nat.succ_le_of_lt hgt), Function.update_of_ne (by omega)]

theorem finishLoop_of_le {lev i : Nat} (h : lev ≤ i) (size : Nat) (L : Nat → Nat → Nat) :
    finishLoop lev size L i = L i := by
  rw [finishLoop_apply, if_pos h]

section Finish

variable {hb : HBitmap} (hs : hb.Shape)
include hs

/-- On a bitmap of some shape, each level below the last is rebuilt over its own words from
all the words of the level under it. -/
theorem finishLoop_of_lt {i : Nat} (hi : i < 6) :
    finishLoop 6 (wordsAbove hb.size) hb.levels i =
      finishLevelLoop (finishLoop 6 (wordsAbove hb.size) hb.levels (i + 1)) (hb.sizes (i + 1)) 0
        fun j => if j < hb.sizes i then 0 else hb.levels i j := by
  rw [finishLoop_apply, if_neg (by omega), ← Function.iterate_succ_apply, ← Function.iterate_succ_apply,
    hs.sizes_eq_iterate i (by omega), hs.sizes_eq_iterate (i + 1) (by omega),
    show (6 - 1 - i).succ = 7 - (i + 1) by omega, show (6 - i).succ = 7 - i by omega]

/-- Node `k` of a rebuilt level is set exactly when word `k` of the level under it is a
nonzero allocated word. -/
theorem finishLoop_testBit {i k : Nat} (hi : i < 6) (hk : k < 64 * hb.sizes i) :
    (finishLoop 6 (wordsAbove hb.size) hb.levels i (k / 64)).testBit (k % 64) = true ↔
      k < hb.sizes (i + 1) ∧ finishLoop 6 (wordsAbove hb.size) hb.levels (i + 1) k ≠ 0 := by
  rw [finishLoop_of_lt hs hi, finishLevelLoop_testBit, if_pos (by omega), Nat.zero_testBit]
  simp only [Bool.false_eq_true, false_or, Nat.zero_le, true_and, Nat.zero_add]

theorem finishLoop_lt {i j : Nat} (hi : i < 6) (hj : j < hb.sizes i) :
    finishLoop 6 (wordsAbove hb.size) hb.levels i j < 2 ^ 64 := by
  rw [finishLoop_of_lt hs hi]
  refine finishLevelLoop_lt _ _ _ _ ?_
  rw [if_pos hj]
  exact Nat.two_pow_pos 64

/-- The rebuilt levels with the sentinel or-ed back into word 0 of level 0 make a coherent
bitmap, given a last level of 64-bit words clear past `size`. -/
theorem finishLevels_coherent (hw : ∀ j < hb.sizes 6, hb.levels 6 j < 2 ^ 64)
    (hclear : ∀ r, hb.size ≤ r → r < 64 * hb.sizes 6 → hb.bit r = false) :
    (hb.withLevels (Function.update (finishLoop 6 (wordsAbove hb.size) hb.levels) 0
      (Function.update (finishLoop 6 (wordsAbove hb.size) hb.levels 0) 0
        (finishLoop 6 (wordsAbove hb.size) hb.levels 0 0 ||| 1 <<< 63)))).Coherent := by
  generalize hR : finishLoop 6 (wordsAbove hb.size) hb.levels = R
  have hR6 : R 6 = hb.levels 6 := by rw [← hR, finishLoop_of_le le_rfl]
  have hsent : 1 <<< 63 < 2 ^ 64 := by decide
  refine ⟨hs.withLevels _, fun i hi j hj => ?_, fun r hr₁ hr₂ => ?_, fun i hi k hk => ?_⟩
  · -- word_lt: every rebuilt word is 64-bit, the sentinel word too
    rw [HBitmap.withLevels_sizes] at hj
    rw [HBitmap.withLevels_levels]
    rcases Nat.lt_or_ge i 6 with hi6 | hi6
    · have hword : R i j < 2 ^ 64 := hR ▸ finishLoop_lt hs hi6 hj
      by_cases h00 : i = 0 ∧ j = 0
      · obtain ⟨rfl, rfl⟩ := h00
        rw [Function.update_self, Function.update_self]
        exact Nat.or_lt_two_pow hword hsent
      · by_cases hi0 : i = 0
        · subst hi0
          rw [Function.update_self, Function.update_of_ne (by omega)]
          exact hword
        · rw [Function.update_of_ne hi0]
          exact hword
    · obtain rfl : i = 6 := by omega
      rw [Function.update_of_ne (by omega), hR6]
      exact hw j hj
  · -- last_clear: the last level is the one deserialized
    show ((Function.update R 0 (Function.update (R 0) 0 (R 0 0 ||| 1 <<< 63))) 6 (r / 64)).testBit (r % 64) = false
    rw [Function.update_of_ne (by omega), hR6]
    exact hclear r hr₁ hr₂
  · -- up: the loop's bits, and the sentinel in level 0
    rw [HBitmap.withLevels_sizes] at hk
    rw [HBitmap.bitAt_withLevels, HBitmap.withLevels_sizes, HBitmap.withLevels_levels,
      Function.update_of_ne (by omega : i + 1 ≠ 0)]
    have hbit := finishLoop_testBit hs hi hk
    rw [hR] at hbit
    by_cases hi0 : i = 0
    · subst hi0
      have hk64 : k < 64 := by have := hs.sizes_zero; omega
      rw [show k / 64 = 0 by omega, show k % 64 = k by omega] at hbit ⊢
      rw [Function.update_self, Function.update_self, Nat.testBit_or, Bool.or_eq_true, hbit, Nat.one_shiftLeft,
        Nat.testBit_two_pow, decide_eq_true_iff]
      simp only [true_and, eq_comm]
    · rw [Function.update_of_ne hi0, hbit]
      simp [hi0]

end Finish

/-- Words of the last level are all the groups read. -/
theorem HBitmap.groups_withLevels (hb : HBitmap) {lv : Nat → Nat → Nat} (h : lv 6 = hb.levels 6) :
    (hb.withLevels lv).groups = hb.groups := by
  unfold HBitmap.groups HBitmap.bit
  rw [HBitmap.withLevels_size, HBitmap.withLevels_levels, h]

/-- `hbitmap_deserialize_finish` makes a bitmap valid again from its last level alone: the
upper levels are rebuilt, the sentinel put back, and `count` set to the number of groups. -/
theorem hbitmapDeserializeFinish_valid {hb : HBitmap} (hs : hb.Shape) (hpos : 0 < hb.size)
    (hw : ∀ j < hb.sizes 6, hb.levels 6 j < 2 ^ 64)
    (hclear : ∀ r, hb.size ≤ r → r < 64 * hb.sizes 6 → hb.bit r = false) :
    ∃ hb', hbitmapDeserializeFinish hb = .ok hb' ∧ hb'.Valid ∧ hb'.groups = hb.groups ∧
      hb'.size = hb.size ∧ hb'.granularity = hb.granularity ∧ hb'.sizes = hb.sizes := by
  have hc := finishLevels_coherent hs hw hclear
  generalize hF : Function.update (finishLoop 6 (wordsAbove hb.size) hb.levels) 0
    (Function.update (finishLoop 6 (wordsAbove hb.size) hb.levels 0) 0
      (finishLoop 6 (wordsAbove hb.size) hb.levels 0 0 ||| 1 <<< 63)) = F at hc
  have hgroups : (hb.withLevels F).groups = hb.groups := by
    refine hb.groups_withLevels ?_
    rw [← hF, Function.update_of_ne (by omega), finishLoop_of_le le_rfl]
  have hlast : (hb.size + 2 ^ 64 - 1) % 2 ^ 64 = hb.size - 1 := by
    have := hs.size_le
    omega
  have hcount := hbCountBetween_eq hc (show 0 < (hb.withLevels F).size from hpos)
    (show hb.size - 1 < (hb.withLevels F).size by simp only [HBitmap.withLevels_size]; omega)
  -- every group lies in `[0, size - 1]`, so the count is the number of groups
  have hall : ((hb.withLevels F).groups.filter fun r => 0 ≤ r ∧ r ≤ hb.size - 1) = (hb.withLevels F).groups := by
    refine Finset.filter_true_of_mem fun r hr => ⟨Nat.zero_le r, ?_⟩
    have := (HBitmap.mem_groups.mp hr).1
    simp only [HBitmap.withLevels_size] at this
    omega
  rw [hall] at hcount
  refine ⟨{ hb.withLevels F with count := (hb.withLevels F).groups.card }, ?_,
    ⟨hc.setCount _, rfl⟩, hgroups, rfl, rfl, rfl⟩
  unfold hbitmapDeserializeFinish
  rw [max_shiftRight_eq_wordsAbove]
  dsimp only
  rw [hF]
  show (hbCountBetween (hb.withLevels F) 0 ((hb.size + 2 ^ 64 - 1) % 2 ^ 64) >>= fun c =>
    pure { hb.withLevels F with count := c }) = _
  rw [hlast, hcount]
  rfl

/-! ## The round trip -/

/-- The chunks `(start, count)` cover exactly the elements below `n`.  A partition of
`[0, n)` is such a cover with disjoint chunks; the round trip needs no disjointness, since every
chunk carries the original's words. -/
def CoversRange (n : Nat) (chunks : List (Nat × Nat)) : Prop :=
  ∀ x, x < n ↔ ∃ p ∈ chunks, p.1 ≤ x ∧ x < p.1 + p.2

theorem CoversRange.end_le {n : Nat} {chunks : List (Nat × Nat)} (hcover : CoversRange n chunks) {p : Nat × Nat}
    (hp : p ∈ chunks) (hc : p.2 ≠ 0) : p.1 + p.2 ≤ n := by
  have hlast := (hcover (p.1 + p.2 - 1)).mpr ⟨p, hp, by omega, by omega⟩
  omega

/-- A cover of the elements of a bitmap covers the first element of each word of its last level. -/
theorem CoversRange.exists_coversWord {hb : HBitmap} (hs : hb.Shape) (hpos : 0 < hb.size)
    {chunks : List (Nat × Nat)} (hcover : CoversRange (hb.size <<< hb.granularity) chunks) {j : Nat}
    (hj : j < hb.sizes 6) : ∃ p ∈ chunks, coversWord hb.granularity p j = true := by
  rw [hs.sizes_last, wordsAbove] at hj
  have hword : 64 * j < hb.size := by omega
  have helem : (64 * j) <<< hb.granularity < hb.size <<< hb.granularity := by
    rw [Nat.shiftLeft_eq, Nat.shiftLeft_eq]
    exact Nat.mul_lt_mul_of_pos_right hword (Nat.two_pow_pos _)
  obtain ⟨p, hp, hlo, hhi⟩ := (hcover _).mp helem
  exact ⟨p, hp, decide_eq_true ⟨by omega, hlo, hhi⟩⟩

theorem hbitmapSerializePart_ok {hb : HBitmap} {s c : Nat} {r : Nat × Nat} (buf : Mem)
    (h : serializationChunk hb s c = .ok r) : ∃ out, hbitmapSerializePart hb buf s c = .ok out := by
  unfold hbitmapSerializePart
  by_cases hc : c = 0
  · exact ⟨buf, by rw [if_pos hc]; rfl⟩
  · exact ⟨_, by rw [if_neg hc, h]; rfl⟩

/-- Serialization round trip.  On a valid bitmap of at least one group, with chunks that
`serialization_chunk` accepts and that cover `[0, size << granularity)`:
`hbitmap_serialize_part` writes the `hbitmap_serialization_size` first bytes of each buffer; and
the buffers, deserialized in any order into a fresh bitmap of the same size and granularity and
then finished, give back every allocated word and the count. -/
theorem hbitmap_serialize_roundtrip {hb : HBitmap} (hv : hb.Valid) (hpos : 0 < hb.size)
    {chunks : List (Nat × Nat)} (hcover : CoversRange (hb.size <<< hb.granularity) chunks)
    (hacc : ∀ p ∈ chunks, ∃ r, serializationChunk hb p.1 p.2 = .ok r) :
    (∀ p ∈ chunks, ∀ buf : Mem, ∃ n out, hbitmapSerializationSize hb p.1 p.2 = .ok n ∧
      hbitmapSerializePart hb buf p.1 p.2 = .ok out ∧ ∀ x, out x =
        if x < n then UInt8.ofNat (hb.levels 6 (p.1 / 2 ^ (hb.granularity + 6) + x / 8) / 256 ^ (x % 8))
        else buf x) ∧
    ∀ out : Nat × Nat → Mem, (∀ p ∈ chunks, ∃ buf, hbitmapSerializePart hb buf p.1 p.2 = .ok (out p)) →
      ∀ order : List (Nat × Nat), order.Perm chunks → ∀ n fresh, hbitmapAlloc n hb.granularity = .ok fresh →
        fresh.size = hb.size →
        ∃ hb', (order.foldlM (fun b p => hbitmapDeserializePart b (out p) p.1 p.2 false) fresh >>=
            hbitmapDeserializeFinish) = .ok hb' ∧
          (∀ i ≤ 6, hb'.sizes i = hb.sizes i ∧ ∀ j < hb.sizes i, hb'.levels i j = hb.levels i j) ∧
          hb'.count = hb.count := by
  have hend : ∀ p ∈ chunks, p.2 ≠ 0 → p.1 + p.2 ≤ 2 ^ 64 := fun p hp hc =>
    le_trans (hcover.end_le hp hc) (by rw [Nat.shiftLeft_eq]; exact hv.size_mul_lt.le)
  refine ⟨fun p hp buf => ?_, fun out hser order hperm n fresh halloc hsize => ?_⟩
  · obtain ⟨r, hchunk⟩ := hacc p hp
    obtain ⟨out, hout⟩ := hbitmapSerializePart_ok buf hchunk
    obtain ⟨n, hn, hbytes⟩ := hbitmapSerializePart_spec hout
    exact ⟨n, out, hn, hout, hbytes⟩
  obtain ⟨hvf, -, -, hgf, -⟩ := hbitmapAlloc_valid halloc
  have hsizes : ∀ i ≤ 6, fresh.sizes i = hb.sizes i := hvf.sizes_eq hv.toShape hsize
  -- after the chunks, the last level of the fresh bitmap holds the original's words
  have hfold := foldlM_hbitmapDeserializePart hv.toCoherent out order fresh hgf hsize fun p hp =>
    ⟨hend p (hperm.mem_iff.mp hp), hser p (hperm.mem_iff.mp hp)⟩
  generalize hW : (fun j => if order.any (fun p => coversWord hb.granularity p j) then hb.levels 6 j
    else fresh.levels 6 j) = W at hfold
  have hWeq : ∀ j < hb.sizes 6, W j = hb.levels 6 j := fun j hj => by
    obtain ⟨p, hp, hcov⟩ := hcover.exists_coversWord hv.toShape hpos hj
    rw [← hW]
    exact if_pos (List.any_eq_true.mpr ⟨p, hperm.mem_iff.mpr hp, hcov⟩)
  generalize hB : fresh.withLevels (Function.update fresh.levels 6 W) = B at hfold
  have hBs : B.Shape := hB ▸ hvf.toShape.withLevels _
  have hB6 : ∀ j < B.sizes 6, B.levels 6 j = hb.levels 6 j := fun j hj => by
    rw [← hB] at hj ⊢
    rw [HBitmap.withLevels_sizes, hsizes 6 le_rfl] at hj
    rw [HBitmap.withLevels_levels, Function.update_self, hWeq j hj]
  have hBsize : B.size = hb.size := by rw [← hB, HBitmap.withLevels_size, hsize]
  have hBsizes : ∀ i ≤ 6, B.sizes i = hb.sizes i := fun i hi => by rw [← hB, HBitmap.withLevels_sizes, hsizes i hi]
  have hBbit : ∀ r < 64 * hb.sizes 6, B.bit r = hb.bit r := fun r hr => by
    unfold HBitmap.bit
    rw [hB6 _ (by rw [hBsizes 6 le_rfl]; omega)]
  obtain ⟨hb', hfin, hv', hgroups', hsize', -, hsizes'⟩ := hbitmapDeserializeFinish_valid hBs (hBsize ▸ hpos)
    (fun j hj => by rw [hB6 j hj]; exact hv.word_lt 6 le_rfl j (hBsizes 6 le_rfl ▸ hj))
    (fun r hr₁ hr₂ => by
      rw [hBsizes 6 le_rfl] at hr₂
      rw [hBbit r hr₂]
      exact hv.last_clear r (hBsize ▸ hr₁) hr₂)
  have hgroups : hb'.groups = hb.groups := by
    rw [hgroups']
    ext r
    simp only [HBitmap.mem_groups, hBsize]
    constructor
    · rintro ⟨hr, hbit⟩
      exact ⟨hr, hBbit r (by have := le_mul_wordsAbove hb.size; rw [hv.sizes_last]; omega) ▸ hbit⟩
    · rintro ⟨hr, hbit⟩
      exact ⟨hr, (hBbit r (by have := le_mul_wordsAbove hb.size; rw [hv.sizes_last]; omega)).symm ▸ hbit⟩
  have hwords := hv.levels_eq hv'.toCoherent (by rw [hsize', hBsize]) hgroups.symm
  refine ⟨hb', by rw [hfold, ok_bind, hfin], fun i hi => ⟨by rw [hsizes', hBsizes i hi], fun j hj => ?_⟩, ?_⟩
  · exact (hwords i hi j hj).symm
  · rw [hv'.count_eq, hgroups, hv.count_eq]

/-- The round trip of a bitmap of two words with groups 3…100 set, across the word boundary,
serialised in two chunks and restored from them in either order. -/
theorem hbitmap_serialize_roundtrip_two_words :
    ∃ hb₀ hb c, hbitmapAlloc 128 0 = .ok hb₀ ∧ hbitmapSetOwn hb₀ 3 98 = .ok (hb, c) ∧
      hb.groups = Finset.Icc 3 100 ∧
      (hb.Valid ∧ 0 < hb.size ∧ CoversRange (hb.size <<< hb.granularity) [(64, 64), (0, 64)] ∧
        ∀ p ∈ [(64, 64), (0, 64)], ∃ r, serializationChunk hb p.1 p.2 = .ok r) ∧
      (∀ p ∈ [(64, 64), (0, 64)], ∀ buf : Mem, ∃ n out, hbitmapSerializationSize hb p.1 p.2 = .ok n ∧
        hbitmapSerializePart hb buf p.1 p.2 = .ok out ∧ ∀ x, out x =
          if x < n then UInt8.ofNat (hb.levels 6 (p.1 / 2 ^ (hb.granularity + 6) + x / 8) / 256 ^ (x % 8))
          else buf x) ∧
      ∀ out : Nat × Nat → Mem,
        (∀ p ∈ [(64, 64), (0, 64)], ∃ buf, hbitmapSerializePart hb buf p.1 p.2 = .ok (out p)) →
        ∀ order : List (Nat × Nat), order.Perm [(64, 64), (0, 64)] →
          ∀ n fresh, hbitmapAlloc n hb.granularity = .ok fresh → fresh.size = hb.size →
          ∃ hb', (order.foldlM (fun b p => hbitmapDeserializePart b (out p) p.1 p.2 false) fresh >>=
              hbitmapDeserializeFinish) = .ok hb' ∧
            (∀ i ≤ 6, hb'.sizes i = hb.sizes i ∧ ∀ j < hb.sizes i, hb'.levels i j = hb.levels i j) ∧
            hb'.count = hb.count := by
  obtain ⟨hb₀, halloc⟩ : ∃ hb, hbitmapAlloc 128 0 = .ok hb := ⟨_, rfl⟩
  obtain ⟨⟨hb, c⟩, hset⟩ : ∃ p, hbitmapSetOwn hb₀ 3 98 = .ok p := by
    cases halloc
    exact ⟨_, rfl⟩
  have hv₀ := (hbitmapAlloc_valid halloc).1
  obtain ⟨hv, hgroups⟩ := hbitmapSetOwn_valid hv₀ hset
  obtain ⟨-, -, hsize, hgran, -⟩ := hbitmapSetOwn_coherent hv₀.toCoherent hset
  have hg : hb.groups = Finset.Icc 3 100 := by
    rw [hgroups]
    cases halloc
    decide
  have hpos : 0 < hb.size := by
    rw [hsize]
    cases halloc
    decide
  have hcover : CoversRange (hb.size <<< hb.granularity) [(64, 64), (0, 64)] := by
    rw [hsize, hgran]
    cases halloc
    show CoversRange 128 _
    intro x
    simp only [List.mem_cons, List.not_mem_nil, or_false, exists_eq_or_imp, exists_eq_left]
    omega
  have hacc : ∀ p ∈ [(64, 64), (0, 64)], ∃ r, serializationChunk hb p.1 p.2 = .ok r := by
    cases halloc
    cases hset
    intro p hp
    simp only [List.mem_cons, List.not_mem_nil, or_false] at hp
    rcases hp with rfl | rfl <;> exact ⟨_, rfl⟩
  exact ⟨hb₀, hb, c, halloc, hset, hg, ⟨hv, hpos, hcover, hacc⟩,
    hbitmap_serialize_roundtrip hv hpos hcover hacc⟩

-- Without a group the round trip stops in `hbitmap_deserialize_finish`: `hb_count_between(0, -1)`
-- starts its iterator at group 0, past the end, and `hbitmap_iter_init` asserts.
example : (do
    let hb ← hbitmapAlloc 0 0
    let hb ← hbitmapDeserializeFinish hb
    pure hb.count : Except HbFault Nat) = .error .assertion := by
  decide

end Xqemu.Util
