import Xqemu.Lib.ByteMemory

/-!
# Texture swizzling

Swizzled Xbox textures keep their texels in an interleaved order:
`generate_swizzle_masks` spreads the bits of x, y and z over alternating bit
positions, `fill_pattern` deposits a coordinate's bits into its mask, and
`unswizzle_box` copies every texel from its swizzled offset to row-major order
(`swizzle.c`).  Both loops shift a `uint32_t` bit; once it has overflowed to 0
with work left the loop never ends, which the model returns as `none`.
-/

namespace Xqemu.Nv2a

open Xqemu.Memory

/-- One `if (bit < n) { m |= mask_bit; mask_bit <<= 1; done = false; }`. -/
def takeMaskBit (bit n m maskBit : Nat) : Nat × Nat :=
  if bit < n then (m ||| maskBit, (maskBit <<< 1) % 2 ^ 32) else (m, maskBit)

/-- The do-while loop of `generate_swizzle_masks` at `bit`. -/
def swizzleMaskLoop (width height depth : Nat) :
    Nat → Nat → Nat → Nat × Nat × Nat → Option (Nat × Nat × Nat × Nat)
  | 0, _, _, _ => none
  | fuel + 1, bit, maskBit, (x, y, z) =>
      let (x, maskBit) := takeMaskBit bit width x maskBit
      let (y, maskBit) := takeMaskBit bit height y maskBit
      let (z, maskBit) := takeMaskBit bit depth z maskBit
      if width ≤ bit ∧ height ≤ bit ∧ depth ≤ bit then some (x, y, z, maskBit)
      else swizzleMaskLoop width height depth fuel ((bit <<< 1) % 2 ^ 32) maskBit (x, y, z)

/-- `generate_swizzle_masks`.  Its assertion `x ^ y ^ z == (mask_bit - 1)` parses
as `x ^ y ^ (z == (mask_bit - 1))`, and is checked so. -/
def generateSwizzleMasks (width height depth : Nat) : Option (Nat × Nat × Nat) :=
  match swizzleMaskLoop width height depth 33 1 1 (0, 0, 0) with
  | none => none
  | some (x, y, z, maskBit) =>
      if x ^^^ y ^^^ (if z = (maskBit + 2 ^ 32 - 1) % 2 ^ 32 then 1 else 0) ≠ 0 then some (x, y, z)
      else none

example : generateSwizzleMasks 4 2 1 = some (5, 2, 0) := by decide

/-- The `while (value)` loop of `fill_pattern` at `bit`. -/
def fillPatternLoop (pattern : Nat) : Nat → Nat → Nat → Nat → Option Nat
  | 0, _, value, result => if value = 0 then some result else none
  | fuel + 1, bit, value, result =>
      if value = 0 then some result
      else if pattern &&& bit ≠ 0 then
        fillPatternLoop pattern fuel ((bit <<< 1) % 2 ^ 32) (value >>> 1)
          (result ||| if value &&& 1 ≠ 0 then bit else 0)
      else fillPatternLoop pattern fuel ((bit <<< 1) % 2 ^ 32) value result

/-- `fill_pattern`. -/
def fillPattern (pattern value : Nat) : Option Nat :=
  fillPatternLoop pattern 32 1 value 0

example : fillPattern 5 3 = some 5 ∧ fillPattern 5 4 = none := by decide

/-- `get_swizzled_offset`. -/
def getSwizzledOffset (x y z maskX maskY maskZ bytesPerPixel : Nat) : Option Nat := do
  let fx ← fillPattern maskX x
  let fy ← fillPattern maskY y
  let fz ← fillPattern maskZ z
  pure (bytesPerPixel * (fx ||| fy ||| fz) % 2 ^ 32)

/-- The `(x, y, z)` of the loops `for z … for y … for x …`, in the order they run. -/
def boxIndices (width height depth : Nat) : List (Nat × Nat × Nat) :=
  (List.range depth).flatMap fun z =>
    (List.range height).flatMap fun y => (List.range width).map fun x => (x, y, z)

/-- The masks of the box, then the swizzled offset of each of its texels. -/
def swizzledTexels (width height depth bytesPerPixel : Nat) :
    Option (List ((Nat × Nat × Nat) × Nat)) := do
  let (maskX, maskY, maskZ) ← generateSwizzleMasks width height depth
  (boxIndices width height depth).mapM fun (x, y, z) =>
    (getSwizzledOffset x y z maskX maskY maskZ bytesPerPixel).map fun o => ((x, y, z), o)

/-- Where `unswizzle_box` writes texel `(x, y, z)`: `dst_buf` has moved on by
`z` slices, and `y * row_pitch` and `x * bytes_per_pixel` are products of
`unsigned int`s, taken modulo `2 ^ 32`. -/
def unswizzleDest (rowPitch slicePitch bytesPerPixel : Nat) (p : Nat × Nat × Nat) : Nat :=
  p.2.2 * slicePitch + p.2.1 * rowPitch % 2 ^ 32 + p.1 * bytesPerPixel % 2 ^ 32

/-- A row or column offset inside a box whose extent fits in a word does not wrap. -/
theorem mul_mod_of_lt_of_mul_le {a n m : Nat} (ha : a < n) (h : n * m ≤ 2 ^ 32) :
    a * m % 2 ^ 32 = a * m := by
  rcases Nat.eq_zero_or_pos m with rfl | hm
  · simp
  · have hsucc := Nat.mul_le_mul_right m (show a + 1 ≤ n from ha)
    rw [Nat.succ_mul] at hsucc
    exact Nat.mod_eq_of_lt (by omega)

/-- Inside a box whose rows and columns fit in a word, the offset without the wrap. -/
theorem unswizzleDest_eq {rowPitch slicePitch bytesPerPixel width height x y z : Nat}
    (hx : x < width) (hy : y < height) (hwfit : width * bytesPerPixel ≤ 2 ^ 32)
    (hhfit : height * rowPitch ≤ 2 ^ 32) :
    unswizzleDest rowPitch slicePitch bytesPerPixel (x, y, z) =
      z * slicePitch + y * rowPitch + x * bytesPerPixel := by
  simp only [unswizzleDest, mul_mod_of_lt_of_mul_le hy hhfit, mul_mod_of_lt_of_mul_le hx hwfit]

/-- `unswizzle_box` from `src` into the buffer `dst`.  The offsets are all
found before the copies, where the source interleaves the two: `fill_pattern`
reads no buffer, so a texel whose offset is never found stops both alike. -/
def unswizzleBox (src : Mem) (width height depth : Nat) (dst : Mem)
    (rowPitch slicePitch bytesPerPixel : Nat) : Option Mem :=
  (swizzledTexels width height depth bytesPerPixel).map fun texels =>
    texels.foldl (fun buf t =>
      memcpy buf (unswizzleDest rowPitch slicePitch bytesPerPixel t.1) src t.2 bytesPerPixel) dst

/-- `unswizzle_rect`. -/
def unswizzleRect (src : Mem) (width height : Nat) (dst : Mem) (pitch bytesPerPixel : Nat) :
    Option Mem :=
  unswizzleBox src width height 1 dst pitch 0 bytesPerPixel

/-- The offsets `swizzle_box` writes to: `get_swizzled_offset(x, y, 0, mask_x,
mask_y, 0, ...)`, without the z part. -/
def swizzleBoxTexels (width height depth bytesPerPixel : Nat) :
    Option (List ((Nat × Nat × Nat) × Nat)) := do
  let (maskX, maskY, _) ← generateSwizzleMasks width height depth
  (boxIndices width height depth).mapM fun (x, y, z) =>
    (getSwizzledOffset x y 0 maskX maskY 0 bytesPerPixel).map fun o => ((x, y, z), o)

/-- `swizzle_box` from `src` into `dst`: `src_buf` moves on by a slice after
each `z`, and `dst_buf` does not move. -/
def swizzleBox (src : Mem) (width height depth : Nat) (dst : Mem)
    (rowPitch slicePitch bytesPerPixel : Nat) : Option Mem :=
  (swizzleBoxTexels width height depth bytesPerPixel).map fun texels =>
    texels.foldl (fun buf t =>
      memcpy buf t.2 src (unswizzleDest rowPitch slicePitch bytesPerPixel t.1) bytesPerPixel) dst

/-- `swizzle_rect`. -/
def swizzleRect (src : Mem) (width height : Nat) (dst : Mem) (pitch bytesPerPixel : Nat) :
    Option Mem :=
  swizzleBox src width height 1 dst pitch 0 bytesPerPixel

/-- Two one-byte texels, `0xA` in slice 0 and `0xB` in slice 1. -/
def twoSliceTexels (i : Nat) : UInt8 := if i = 0 then 0xA else 0xB

/-- `swizzle_box` leaves z out of the offset and does not move `dst_buf`: on a
1 × 1 × 2 box both slices land at offset 0, and `unswizzle_box` brings back
slice 1 in slice 0 and an unwritten byte in slice 1. -/
theorem swizzleBox_unswizzleBox_two_slices :
    (do
      let swizzled ← swizzleBox twoSliceTexels 1 1 2 (fun _ => 0) 1 1 1
      let back ← unswizzleBox swizzled 1 1 2 (fun _ => 0) 1 1 1
      pure (back 0, back 1)) = some (0xB, 0) := by
  decide

/-! ## The texel at the origin -/

/-- Whether `unswizzle_box` comes back depends on the box alone. -/
theorem unswizzleBox_isSome (src src' dst dst' : Mem) (width height depth : Nat)
    (rowPitch slicePitch bytesPerPixel : Nat) :
    (unswizzleBox src width height depth dst rowPitch slicePitch bytesPerPixel).isSome =
      (unswizzleBox src' width height depth dst' rowPitch slicePitch bytesPerPixel).isSome := by
  simp [unswizzleBox]

theorem fillPattern_zero (pattern : Nat) : fillPattern pattern 0 = some 0 := rfl

theorem getSwizzledOffset_origin (maskX maskY maskZ bytesPerPixel : Nat) :
    getSwizzledOffset 0 0 0 maskX maskY maskZ bytesPerPixel = some 0 := by
  simp [getSwizzledOffset, fillPattern_zero]

@[simp] theorem mem_boxIndices {width height depth : Nat} {p : Nat × Nat × Nat} :
    p ∈ boxIndices width height depth ↔ p.1 < width ∧ p.2.1 < height ∧ p.2.2 < depth := by
  obtain ⟨x, y, z⟩ := p
  simp only [boxIndices, List.mem_flatMap, List.mem_range, List.mem_map, Prod.mk.injEq]
  constructor
  · rintro ⟨z', hz, y', hy, x', hx, rfl, rfl, rfl⟩
    exact ⟨hx, hy, hz⟩
  · rintro ⟨hx, hy, hz⟩
    exact ⟨z, hz, y, hy, x, hx, rfl, rfl, rfl⟩

/-- A `mapM` that pairs each element with what it computes keeps the elements. -/
theorem map_fst_of_mapM {α β : Type} {g : α → Option β} {l : List α} {ts : List (α × β)}
    (h : l.mapM (fun a => (g a).map fun o => (a, o)) = some ts) :
    ts.map Prod.fst = l ∧ ∀ t ∈ ts, g t.1 = some t.2 := by
  induction l generalizing ts with
  | nil =>
      simp only [List.mapM_nil, pure, Option.some.injEq] at h
      subst h
      simp
  | cons a l ih =>
      simp only [List.mapM_cons, Option.bind_eq_bind, pure] at h
      cases hg : g a with
      | none => simp [hg] at h
      | some o =>
          cases hl : l.mapM (fun a => (g a).map fun o => (a, o)) with
          | none => simp [hg, hl] at h
          | some ts' =>
              simp only [hg, hl, Option.map_some, Option.bind_some, Option.some.injEq] at h
              subst h
              obtain ⟨hfst, hval⟩ := ih hl
              refine ⟨by simp [hfst], ?_⟩
              rintro t (_ | ⟨_, ht⟩)
              · exact hg
              · exact hval t ht

theorem swizzledTexels_spec {width height depth bytesPerPixel : Nat}
    {ts : List ((Nat × Nat × Nat) × Nat)}
    (h : swizzledTexels width height depth bytesPerPixel = some ts) :
    ts.map Prod.fst = boxIndices width height depth ∧
      ∃ maskX maskY maskZ, ∀ t ∈ ts,
        getSwizzledOffset t.1.1 t.1.2.1 t.1.2.2 maskX maskY maskZ bytesPerPixel = some t.2 := by
  unfold swizzledTexels at h
  cases hm : generateSwizzleMasks width height depth with
  | none => simp [hm] at h
  | some masks =>
      obtain ⟨maskX, maskY, maskZ⟩ := masks
      simp only [hm, Option.bind_eq_bind, Option.bind_some] at h
      obtain ⟨hfst, hval⟩ := map_fst_of_mapM h
      exact ⟨hfst, maskX, maskY, maskZ, hval⟩

/-- The first texel of a box is copied from the start of the swizzled data,
whenever the pitches keep the other rows and slices clear of it and no row or
column offset wraps onto it. -/
theorem unswizzleBox_origin {src dst buf : Mem} {width height depth : Nat}
    {rowPitch slicePitch bytesPerPixel k : Nat}
    (hw : 0 < width) (hh : 0 < height) (hd : 0 < depth)
    (hrow : 1 < height → bytesPerPixel ≤ rowPitch) (hslice : 1 < depth → bytesPerPixel ≤ slicePitch)
    (hwfit : width * bytesPerPixel ≤ 2 ^ 32) (hhfit : height * rowPitch ≤ 2 ^ 32)
    (hk : k < bytesPerPixel)
    (hu : unswizzleBox src width height depth dst rowPitch slicePitch bytesPerPixel = some buf) :
    buf k = src k := by
  unfold unswizzleBox at hu
  cases ht : swizzledTexels width height depth bytesPerPixel with
  | none => simp [ht] at hu
  | some ts =>
      simp only [ht, Option.map_some, Option.some.injEq] at hu
      subst hu
      obtain ⟨hfst, maskX, maskY, maskZ, hval⟩ := swizzledTexels_spec ht
      have hmem : ∀ t ∈ ts, t.1 ∈ boxIndices width height depth := fun t htm => by
        rw [← hfst]
        exact List.mem_map_of_mem htm
      -- only the origin's copy covers the bytes below `bytesPerPixel`
      have horigin : ∀ t ∈ ts, unswizzleDest rowPitch slicePitch bytesPerPixel t.1 < bytesPerPixel →
          t.1 = (0, 0, 0) := by
        rintro ⟨⟨x, y, z⟩, o⟩ htm hlt
        obtain ⟨hx, hy, hz⟩ := mem_boxIndices.mp (hmem _ htm)
        dsimp only at hlt hx hy hz
        rw [unswizzleDest_eq hx hy hwfit hhfit] at hlt
        have hx0 : x = 0 := by
          rcases Nat.eq_zero_or_pos x with h0 | h0
          · exact h0
          · have : bytesPerPixel ≤ x * bytesPerPixel := Nat.le_mul_of_pos_left _ h0
            omega
        have hy0 : y = 0 := by
          rcases Nat.eq_zero_or_pos y with h0 | h0
          · exact h0
          · have : rowPitch ≤ y * rowPitch := Nat.le_mul_of_pos_left _ h0
            have := hrow (by omega)
            omega
        have hz0 : z = 0 := by
          rcases Nat.eq_zero_or_pos z with h0 | h0
          · exact h0
          · have : slicePitch ≤ z * slicePitch := Nat.le_mul_of_pos_left _ h0
            have := hslice (by omega)
            omega
        simp [hx0, hy0, hz0]
      refine foldl_memcpy_apply ts (fun t htm hcov => ?_) ?_ dst
      · have h0 := horigin t htm (by omega)
        have ho := hval t htm
        rw [h0, getSwizzledOffset_origin, Option.some.injEq] at ho
        simp only [h0, unswizzleDest] at hcov ⊢
        rw [← ho]
        simp
      · have hin : ((0, 0, 0) : Nat × Nat × Nat) ∈ ts.map Prod.fst := by
          rw [hfst]
          exact mem_boxIndices.mpr ⟨hw, hh, hd⟩
        obtain ⟨t, htm, ht0⟩ := List.mem_map.mp hin
        exact ⟨t, htm, by simp [ht0, unswizzleDest]; omega⟩

end Xqemu.Nv2a
