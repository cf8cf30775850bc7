import Xqemu.Util.Hbitmap

/-!
# Serializing hierarchical bitmaps

A chunk is serialized as the little-endian words of the last level that hold
its groups.  `hbitmap_deserialize_part`, `_zeroes` and `_ones` write those
words whole, and `hbitmap_deserialize_finish` rebuilds the upper levels from
every nonzero word but counts only the groups below `size`.
-/

namespace Xqemu.Util

/-- `hbitmap_deserialize_ones` fills the last word of the chunk whole, so on a bitmap of
one group the bits of groups 1 to 63 are set too.  `count` stays 1 while the iterator
returns group 1 after group 0. -/
theorem hbitmapDeserializeOnes_sets_past_size :
    (do
      let hb ← hbitmapAlloc 1 0
      let hb ← hbitmapDeserializeOnes hb 0 1 true
      let hbi ← hbitmapIterInit hb 0
      let (first, hbi) ← hbitmapIterNext hb hbi
      let (second, _) ← hbitmapIterNext hb hbi
      pure ((hb.size, hb.count), (hb.bit 1, (first, second))) :
        Except HbFault ((Nat × Nat) × (Bool × (Int × Int)))) = .ok ((1, 1), (true, (0, 1))) := by
  decide +kernel

end Xqemu.Util
