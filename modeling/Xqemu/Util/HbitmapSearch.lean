import Xqemu.Util.Hbitmap

/-!
# Searching hierarchical bitmaps: hbitmap_next_zero and hbitmap_next_dirty_area

`hbitmap_next_zero` initialises `cur = last_lev[pos]` with its declarations,
before it returns -1 for `start >= orig_size`.  So it reads a word of the last
level for every `start`, the ones past the allocated words included.
-/

namespace Xqemu.Util

/-- Every `start` whose word lies past the last level is read there.  On a bitmap
of one element, `start = 64` already is. -/
theorem hbitmapNextZero_reads_before_check :
    (∀ (hb : HBitmap) (start count : Nat), hb.sizes 6 ≤ (start >>> hb.granularity) >>> 6 →
        hbitmapNextZero hb start count = .error .outOfBounds) ∧
      (do let hb ← hbitmapAlloc 1 0; hbitmapNextZero hb 64 1 : Except HbFault Int) = .error .outOfBounds := by
  refine ⟨fun hb start count hpast => ?_, by decide +kernel⟩
  have hread : readLastLevel hb ((start >>> hb.granularity) >>> 6) = .error .outOfBounds := by
    simp [readLastLevel, Nat.not_lt.mpr hpast, throw, throwThe, MonadExceptOf.throw]
  simp only [hbitmapNextZero, hread]
  rfl

end Xqemu.Util
