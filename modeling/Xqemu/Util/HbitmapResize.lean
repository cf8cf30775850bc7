import Xqemu.Util.Hbitmap

/-!
# Merging and truncating hierarchical bitmaps

`hbitmap_merge` returns early when `b` counts no element, before it writes
`result`; that is right when `result` is `a`, and loses `a` when `result` is a
third bitmap.  `hbitmap_truncate` gives the bitmap its new `size` but keeps the
`orig_size` of `hbitmap_alloc`, which bounds the window of
`hbitmap_next_zero` and `hbitmap_next_dirty_area`.
-/

namespace Xqemu.Util

theorem hbitmapCanMerge_eq_true {a b : HBitmap} :
    hbitmapCanMerge a b = true ↔ a.size = b.size ∧ a.granularity = b.granularity := by
  simp [hbitmapCanMerge]

/-- The early return of `hbitmap_merge` when `b` is empty: `result` comes back as it was.
With `a` holding group 0 and `b` and `result` fresh, the merge reports success and
`result` still lacks group 0. -/
theorem hbitmapMerge_skips_when_b_empty :
    (∀ a b result : HBitmap, hbitmapCanMerge a b = true → hbitmapCanMerge a result = true →
        hbitmapCount b = 0 → hbitmapMerge a b result = .ok (true, result)) ∧
      (do
        let fresh ← hbitmapAlloc 64 0
        let (a, _) ← hbitmapSetOwn fresh 0 1
        let (merged, result) ← hbitmapMerge a fresh fresh
        pure (merged, a.bit 0, result.bit 0) : Except HbFault (Bool × Bool × Bool)) =
        .ok (true, true, false) := by
  refine ⟨fun a b result hab har hcount => ?_, by decide +kernel⟩
  have hbr : hbitmapCanMerge b result = true := by
    rw [hbitmapCanMerge_eq_true] at *
    omega
  simp [hbitmapMerge, hab, har, hbr, hcount, pure, Except.pure]

/-- A bitmap of 64 groups grown to 128 keeps `orig_size = 64`.  With group 100 set in it
and in a fresh bitmap of 128 groups, the two answer differently from element 64 on:
`hbitmap_next_zero` gives -1 against 64, and `hbitmap_next_dirty_area` finds nothing
against the area of group 100. -/
theorem hbitmapTruncate_keeps_origSize :
    (do
      let hb ← hbitmapAlloc 64 0
      let (grown, _) ← hbitmapTruncate hb none 128
      let fresh ← hbitmapAlloc 128 0
      let (grown, _) ← hbitmapSetOwn grown 100 1
      let (fresh, _) ← hbitmapSetOwn fresh 100 1
      let zeroGrown ← hbitmapNextZero grown 64 64
      let zeroFresh ← hbitmapNextZero fresh 64 64
      let dirtyGrown ← hbitmapNextDirtyArea grown 64 64
      let dirtyFresh ← hbitmapNextDirtyArea fresh 64 64
      pure ((grown.origSize, fresh.origSize), (zeroGrown, zeroFresh), (dirtyGrown, dirtyFresh)) :
        Except HbFault ((Nat × Nat) × (Int × Int) × ((Bool × Nat × Nat) × (Bool × Nat × Nat)))) =
      .ok ((64, 128), (-1, 64), ((false, 64, 64), (true, 100, 1))) := by
  decide +kernel

end Xqemu.Util
