import Xqemu.Util.HbitmapTruncate

/-!
# Merging bitmaps

`hbitmap_merge(a, b, result)` writes `a->levels[i][j] | b->levels[i][j]` into every word of
`result` and then recounts `result` with `hb_count_between`.  On three bitmaps of one size and
granularity, with `a` and `b` valid, the or of two coherent bitmaps is coherent, word by word
and level by level: a bit of level `i` says that a word of level `i + 1` is nonzero, and the or
of two words is nonzero exactly when one of them is.  So the merged bitmap is valid and its
groups are the union of the two.

The early return when `b` is empty is the one branch that does not write `result`: merging
into `a` itself (`hbitmap_merge(a, b, a)`, what the dirty-bitmap layer does) still ends with
the union, merging into a third bitmap does not.
-/

namespace Xqemu.Util

open Xqemu.Faults

/-- The words `hbitmap_merge` writes into `result`. -/
def mergedLevels (a b result : HBitmap) : Nat → Nat → Nat :=
  fun i j => if i ≤ 6 ∧ j < a.sizes i then a.levels i j ||| b.levels i j else result.levels i j

/-- A merged word is nonzero exactly when the word of `a` or of `b` is. -/
theorem mergedLevels_ne_zero {a b result : HBitmap} {i j : Nat} (hi : i ≤ 6) (hj : j < a.sizes i) :
    mergedLevels a b result i j ≠ 0 ↔ a.levels i j ≠ 0 ∨ b.levels i j ≠ 0 := by
  rw [mergedLevels, if_pos ⟨hi, hj⟩, Ne, Nat.or_eq_zero_iff]
  tauto

/-- A node of the merged levels is set exactly when it is set in `a` or in `b`. -/
theorem bitAt_mergedLevels {a b result : HBitmap} (ha : a.Shape) (hb : b.Shape) (hab : a.size = b.size)
    {i k : Nat} (hi : i ≤ 6) (hk : k < 64 * a.sizes i) :
    (result.withLevels (mergedLevels a b result)).bitAt i k = (a.bitAt i k || b.bitAt i k) := by
  have hbs := ha.sizes_eq hb hab i hi
  rw [HBitmap.bitAt_withLevels, mergedLevels, if_pos ⟨hi, by omega⟩, Nat.testBit_or]
  rfl

section Merged

variable {a b result : HBitmap} (ha : a.Coherent) (hb : b.Coherent) (hr : result.Shape)
  (hab : a.size = b.size) (har : a.size = result.size)
include ha hb hr hab har

/-- The or of two coherent bitmaps of one shape, written over a third, is coherent. -/
theorem mergedLevels_coherent : (result.withLevels (mergedLevels a b result)).Coherent := by
  have hsa := fun i hi => ha.sizes_eq hr har i hi
  have hsb := fun i hi => hb.sizes_eq hr (hab ▸ har) i hi
  refine ⟨hr.withLevels _, fun i hi j hj => ?_, fun r hr₁ hr₂ => ?_, fun i hi k hk => ?_⟩
  · -- both words are 64-bit
    rw [HBitmap.withLevels_sizes, ← hsa i hi] at hj
    rw [HBitmap.withLevels_levels, mergedLevels, if_pos ⟨hi, hj⟩]
    exact Nat.or_lt_two_pow (ha.word_lt i hi j hj) (hb.word_lt i hi j (hsb i hi ▸ hsa i hi ▸ hj))
  · -- past `size` both last levels are clear
    rw [HBitmap.withLevels_size, ← har] at hr₁
    rw [HBitmap.withLevels_sizes, ← hsa 6 le_rfl] at hr₂
    rw [HBitmap.bit_eq_bitAt, bitAt_mergedLevels ha.toShape hb.toShape hab le_rfl hr₂, ← HBitmap.bit_eq_bitAt,
      ← HBitmap.bit_eq_bitAt, ha.last_clear r hr₁ hr₂,
      hb.last_clear r (hab ▸ hr₁) (hsb 6 le_rfl ▸ hsa 6 le_rfl ▸ hr₂), Bool.or_false]
  · -- a node is set when a word below is nonzero in `a` or in `b`
    rw [HBitmap.withLevels_sizes, ← hsa i (by omega)] at hk
    have hk' : k < 64 * b.sizes i := hsb i (by omega) ▸ hsa i (by omega) ▸ hk
    rw [bitAt_mergedLevels ha.toShape hb.toShape hab (by omega) hk, Bool.or_eq_true, ha.up i hi k hk, hb.up i hi k hk',
      HBitmap.withLevels_sizes, HBitmap.withLevels_levels, ← hsa (i + 1) (by omega),
      hsb (i + 1) (by omega), ← hsa (i + 1) (by omega)]
    by_cases hks : k < a.sizes (i + 1)
    · rw [mergedLevels_ne_zero (by omega) hks]
      tauto
    · simp only [hks, false_and, false_or, or_self]

omit hr in
/-- The merged groups are the groups of `a` and of `b`. -/
theorem groups_mergedLevels :
    (result.withLevels (mergedLevels a b result)).groups = a.groups ∪ b.groups := by
  ext r
  rw [Finset.mem_union, HBitmap.mem_groups, HBitmap.mem_groups, HBitmap.mem_groups, HBitmap.withLevels_size,
    ← har, ← hab]
  constructor
  · rintro ⟨hrs, hbit⟩
    have hw : r / 64 < a.sizes 6 := by simpa using ha.div_lt_sizes hrs 0 (by decide)
    rw [HBitmap.bit_eq_bitAt, bitAt_mergedLevels ha.toShape hb.toShape hab le_rfl (by omega), Bool.or_eq_true] at hbit
    exact hbit.imp (fun h => ⟨hrs, h⟩) fun h => ⟨hrs, h⟩
  · intro h
    have hrs : r < a.size := h.elim (·.1) (·.1)
    have hw : r / 64 < a.sizes 6 := by simpa using ha.div_lt_sizes hrs 0 (by decide)
    refine ⟨hrs, ?_⟩
    rw [HBitmap.bit_eq_bitAt, bitAt_mergedLevels ha.toShape hb.toShape hab le_rfl (by omega), Bool.or_eq_true]
    exact h.imp (·.2) (·.2)

end Merged

/-- `hbitmap_count(b)` is zero exactly when `b` has no group: `count << granularity` does not
wrap. -/
theorem hbitmapCount_eq_zero_iff {b : HBitmap} (hv : b.Valid) : hbitmapCount b = 0 ↔ b.groups = ∅ := by
  have hle : b.count * 2 ^ b.granularity < 2 ^ 64 :=
    lt_of_le_of_lt (Nat.mul_le_mul_right _ (hv.count_eq ▸ b.card_groups_le)) hv.size_mul_lt
  rw [hbitmapCount, Nat.shiftLeft_eq, Nat.mod_eq_of_lt hle, Nat.mul_eq_zero, hv.count_eq,
    Finset.card_eq_zero]
  have hpow := Nat.two_pow_pos b.granularity
  constructor
  · rintro (h | h)
    · exact h
    · omega
  · exact Or.inl

theorem hbitmapCanMerge_of_eq {a b : HBitmap} (h : a.size = b.size ∧ a.granularity = b.granularity) :
    hbitmapCanMerge a b = true := by
  simp only [hbitmapCanMerge, Bool.and_eq_true, beq_iff_eq]
  exact h

/-- A nonempty merge of bitmaps of one size and granularity: `result` gets the or of the
levels and the count of its groups. -/
theorem hbitmapMerge_of_ne_empty {a b result : HBitmap} (ha : a.Valid) (hb : b.Valid) (hr : result.Shape)
    (hab : a.size = b.size ∧ a.granularity = b.granularity)
    (har : a.size = result.size ∧ a.granularity = result.granularity) (hne : b.groups ≠ ∅) :
    ∃ hb', hbitmapMerge a b result = .ok (true, hb') ∧ hb'.Valid ∧ hb'.groups = a.groups ∪ b.groups ∧
      hb'.size = result.size ∧ hb'.granularity = result.granularity ∧ hb'.sizes = result.sizes := by
  have hcoh := mergedLevels_coherent ha.toCoherent hb.toCoherent hr hab.1 har.1
  have hgroups := groups_mergedLevels ha.toCoherent hb.toCoherent hab.1 har.1
  -- `b` has a group, so the bitmaps are not empty and `size - 1` is the last group
  obtain ⟨r, hrb⟩ := Finset.nonempty_iff_ne_empty.mpr hne
  have hpos : 0 < result.size := by
    have := (HBitmap.mem_groups.mp hrb).1
    omega
  have hlast : (result.size + 2 ^ 64 - 1) % 2 ^ 64 = result.size - 1 :=
    TwosComplement.add_two_pow_sub_one_mod hpos (by have := hr.size_le; omega)
  have hcan : hbitmapCanMerge a b = true ∧ hbitmapCanMerge a result = true ∧ hbitmapCanMerge b result = true :=
    ⟨hbitmapCanMerge_of_eq hab, hbitmapCanMerge_of_eq har, hbitmapCanMerge_of_eq ⟨hab.1 ▸ har.1, hab.2 ▸ har.2⟩⟩
  have hcount : hbitmapCount b ≠ 0 := fun h => hne ((hbitmapCount_eq_zero_iff hb).mp h)
  have hcb := hbCountBetween_eq hcoh (show 0 < (result.withLevels (mergedLevels a b result)).size from hpos)
    (show result.size - 1 < (result.withLevels (mergedLevels a b result)).size by simp; omega)
  -- the count covers every group: they all lie below `size`
  have hall : (result.withLevels (mergedLevels a b result)).groups.filter (fun r => 0 ≤ r ∧ r ≤ result.size - 1) =
      (result.withLevels (mergedLevels a b result)).groups := by
    apply Finset.filter_true_of_mem
    intro r hr'
    have := (HBitmap.mem_groups.mp hr').1
    simp only [HBitmap.withLevels_size] at this
    omega
  have hcb' : hbCountBetween
      { result with levels := fun i j => if i ≤ 6 ∧ j < a.sizes i then a.levels i j ||| b.levels i j else result.levels i j }
      0 (result.size - 1) = .ok (result.withLevels (mergedLevels a b result)).groups.card := by
    rw [← hall]
    exact hcb
  unfold hbitmapMerge
  rw [hcan.1, hcan.2.1, hcan.2.2, if_neg (by decide), if_neg (by decide), if_neg hcount]
  dsimp only
  rw [hlast, hcb', ok_bind]
  exact ⟨_, rfl, ⟨hcoh.setCount _, rfl⟩, hgroups, rfl, rfl, rfl⟩

/-- `hbitmap_merge(a, b, a)` on valid bitmaps of one size and granularity leaves `a` valid with
the groups of both; an empty `b` leaves `a` as it is, which already is the union. -/
theorem hbitmapMerge_into_self {a b : HBitmap} (ha : a.Valid) (hb : b.Valid)
    (hab : a.size = b.size ∧ a.granularity = b.granularity) :
    ∃ a', hbitmapMerge a b a = .ok (true, a') ∧ a'.Valid ∧ a'.groups = a.groups ∪ b.groups ∧
      a'.size = a.size ∧ a'.granularity = a.granularity := by
  by_cases hne : b.groups = ∅
  · refine ⟨a, ?_, ha, by rw [hne, Finset.union_empty], rfl, rfl⟩
    have hba : b.size = a.size ∧ b.granularity = a.granularity := ⟨hab.1.symm, hab.2.symm⟩
    unfold hbitmapMerge
    rw [hbitmapCanMerge_of_eq hab, hbitmapCanMerge_of_eq ⟨rfl, rfl⟩, hbitmapCanMerge_of_eq hba,
      if_neg (by decide), if_neg (by decide), if_pos ((hbitmapCount_eq_zero_iff hb).mpr hne)]
    rfl
  · obtain ⟨a', heq, hv, hg, hs, hgr, -⟩ := hbitmapMerge_of_ne_empty ha hb ha.toShape hab ⟨rfl, rfl⟩ hne
    exact ⟨a', heq, hv, hg, hs, hgr⟩

theorem hbitmapMerge_into_self_two_sets :
    ∃ a b ca cb, (hbitmapAlloc 128 0 >>= fun hb => hbitmapSetOwn hb 0 10) = .ok (a, ca) ∧
      (hbitmapAlloc 128 0 >>= fun hb => hbitmapSetOwn hb 60 10) = .ok (b, cb) ∧
      (a.Valid ∧ b.Valid ∧ (a.size = b.size ∧ a.granularity = b.granularity)) ∧
      ∃ a', hbitmapMerge a b a = .ok (true, a') ∧ a'.Valid ∧ a'.groups = a.groups ∪ b.groups ∧
        a'.size = a.size ∧ a'.granularity = a.granularity := by
  obtain ⟨hb₀, halloc⟩ : ∃ hb, hbitmapAlloc 128 0 = .ok hb := ⟨_, rfl⟩
  obtain ⟨⟨a, ca⟩, hseta⟩ : ∃ r, hbitmapSetOwn hb₀ 0 10 = .ok r := by
    cases halloc
    exact ⟨_, rfl⟩
  obtain ⟨⟨b, cb⟩, hsetb⟩ : ∃ r, hbitmapSetOwn hb₀ 60 10 = .ok r := by
    cases halloc
    exact ⟨_, rfl⟩
  have hv₀ := (hbitmapAlloc_valid halloc).1
  have ha := (hbitmapSetOwn_valid hv₀ hseta).1
  have hb := (hbitmapSetOwn_valid hv₀ hsetb).1
  obtain ⟨-, -, hsa, hga, -⟩ := hbitmapSetOwn_coherent hv₀.toCoherent hseta
  obtain ⟨-, -, hsb, hgb, -⟩ := hbitmapSetOwn_coherent hv₀.toCoherent hsetb
  have hab : a.size = b.size ∧ a.granularity = b.granularity := ⟨hsa.trans hsb.symm, hga.trans hgb.symm⟩
  exact ⟨a, b, ca, cb, by rw [halloc, ok_bind, hseta], by rw [halloc, ok_bind, hsetb], ⟨ha, hb, hab⟩,
    hbitmapMerge_into_self ha hb hab⟩

/-- `hbitmap_merge` leaves a valid `result` whatever it returns: unchanged when it does not
merge or `b` is empty, the or of `a` and `b` otherwise. -/
theorem hbitmapMerge_valid {a b result hb' : HBitmap} {m : Bool} (ha : a.Valid) (hb : b.Valid)
    (hr : result.Valid) (h : hbitmapMerge a b result = .ok (m, hb')) : hb'.Valid := by
  have hunf := h
  unfold hbitmapMerge at hunf
  -- the assertion's branch cannot return; the two early returns leave `result`
  split_ifs at hunf with hcan hbr hcount
  · cases hunf
    exact hr
  · cases hunf
    exact hr
  · have hcan' : hbitmapCanMerge a b = true ∧ hbitmapCanMerge a result = true := by
      cases h₁ : hbitmapCanMerge a b <;> cases h₂ : hbitmapCanMerge a result <;> simp_all
    simp only [hbitmapCanMerge, Bool.and_eq_true, beq_iff_eq] at hcan'
    have hne : b.groups ≠ ∅ := fun he => hcount ((hbitmapCount_eq_zero_iff hb).mpr he)
    obtain ⟨hb'', heq, hv, -⟩ := hbitmapMerge_of_ne_empty ha hb hr.toShape hcan'.1 hcan'.2 hne
    rw [heq] at h
    cases h
    exact hv

/-! ## Reachable bitmaps -/

/-- The bitmaps `hbitmap_alloc` makes and `hbitmap_set`, `hbitmap_reset`, `hbitmap_reset_all`,
`hbitmap_truncate` and `hbitmap_merge` then write, with any meta bitmap beside them. -/
inductive HBitmap.Reachable : HBitmap → Prop
  | alloc {n g : Nat} {hb : HBitmap} : hbitmapAlloc n g = .ok hb → HBitmap.Reachable hb
  | set {hb hb' : HBitmap} {mb mb' : Option HBitmap} {start count : Nat} :
      HBitmap.Reachable hb → hbitmapSet hb mb start count = .ok (hb', mb') → HBitmap.Reachable hb'
  | reset {hb hb' : HBitmap} {mb mb' : Option HBitmap} {start count : Nat} :
      HBitmap.Reachable hb → hbitmapReset hb mb start count = .ok (hb', mb') → HBitmap.Reachable hb'
  | resetAll {hb : HBitmap} : HBitmap.Reachable hb → HBitmap.Reachable (hbitmapResetAll hb)
  | truncate {hb hb' : HBitmap} {mb mb' : Option HBitmap} {n : Nat} :
      HBitmap.Reachable hb → hbitmapTruncate hb mb n = .ok (hb', mb') → HBitmap.Reachable hb'
  | merge {a b result hb' : HBitmap} {m : Bool} :
      HBitmap.Reachable a → HBitmap.Reachable b → HBitmap.Reachable result →
        hbitmapMerge a b result = .ok (m, hb') → HBitmap.Reachable hb'

/-- Every reachable bitmap is valid. -/
theorem HBitmap.Reachable.valid {hb : HBitmap} (h : hb.Reachable) : hb.Valid := by
  induction h with
  | alloc h => exact (hbitmapAlloc_valid h).1
  | set _ h ih =>
    obtain ⟨⟨c, hown⟩, -⟩ := hbitmapSet_eq_ok h
    exact (hbitmapSetOwn_valid ih hown).1
  | reset _ h ih =>
    obtain ⟨⟨c, hown⟩, -⟩ := hbitmapReset_eq_ok h
    exact (hbitmapResetOwn_valid ih hown).1
  | resetAll _ ih => exact (hbitmapResetAll_valid ih.toCoherent).1
  | truncate _ h ih =>
    obtain ⟨mb₁, resized, hown⟩ := hbitmapTruncate_eq_ok h
    exact (hbitmapTruncateOwn_valid ih hown).1
  | merge _ _ _ h iha ihb ihr => exact hbitmapMerge_valid iha ihb ihr h

theorem reachable_alloc_set_valid :
    ∃ hb r, hbitmapAlloc 128 0 = .ok hb ∧ hbitmapSet hb none 0 10 = .ok r ∧ r.1.Reachable ∧ r.1.Valid := by
  obtain ⟨hb, halloc⟩ : ∃ hb, hbitmapAlloc 128 0 = .ok hb := ⟨_, rfl⟩
  obtain ⟨⟨hb', mb'⟩, hset⟩ : ∃ r, hbitmapSet hb none 0 10 = .ok r := by
    cases halloc
    exact ⟨_, rfl⟩
  have hr : hb'.Reachable := .set (.alloc halloc) hset
  exact ⟨hb, (hb', mb'), halloc, hset, hr, HBitmap.Reachable.valid hr⟩

end Xqemu.Util
