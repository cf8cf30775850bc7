import Xqemu.Nv2a.SwizzleMasks
import Mathlib.Data.List.Basic

/-! # Where swizzled texels go

Under masks that lay a box out, the offset of a texel is `bytes_per_pixel`
times a code of its own below `2 ^ k`, `k` being the bits of the box.  So
`unswizzle_box` reads nothing of its source from `bytes_per_pixel * 2 ^ k` on,
and for a rectangle, where `swizzle_rect` and `unswizzle_rect` use the same
offsets, unswizzling gives back every texel that swizzling moved, while the
offsets stay below `2 ^ 32`.
-/

namespace Xqemu.Nv2a

open Xqemu.Bits Xqemu.Memory

theorem mapM_congr_of_mem {α β : Type} {f g : α → Option β} :
    ∀ {l : List α}, (∀ a ∈ l, f a = g a) → l.mapM f = l.mapM g
  | [], _ => rfl
  | a :: l, h => by
      rw [List.mapM_cons, List.mapM_cons, h a List.mem_cons_self,
        mapM_congr_of_mem fun b hb => h b (List.mem_cons_of_mem a hb)]

/-- The offset of a texel at one byte per pixel. -/
def texelCode (maskX maskY maskZ : Nat) (p : Nat × Nat × Nat) : Nat :=
  (getSwizzledOffset p.1 p.2.1 p.2.2 maskX maskY maskZ 1).getD 0

theorem getSwizzledOffset_of_one {x y z maskX maskY maskZ o : Nat} (bytesPerPixel : Nat)
    (h : getSwizzledOffset x y z maskX maskY maskZ 1 = some o) :
    getSwizzledOffset x y z maskX maskY maskZ bytesPerPixel = some (bytesPerPixel * o % 2 ^ 32) := by
  simp only [getSwizzledOffset, Option.bind_eq_bind, Option.bind_eq_some_iff, Option.pure_def,
    Option.some.injEq] at h ⊢
  obtain ⟨fx, hfx, fy, hfy, fz, hfz, rfl⟩ := h
  exact ⟨fx, hfx, fy, hfy, fz, hfz, by rw [Nat.one_mul, Nat.mul_mod_mod]⟩

/-- `swizzle_box` leaves z out, which for a rectangle, all of whose texels have
z = 0, changes nothing. -/
theorem swizzleBoxTexels_rect (width height bytesPerPixel : Nat) :
    swizzleBoxTexels width height 1 bytesPerPixel = swizzledTexels width height 1 bytesPerPixel := by
  unfold swizzleBoxTexels swizzledTexels
  cases generateSwizzleMasks width height 1 with
  | none => rfl
  | some masks =>
      obtain ⟨maskX, maskY, maskZ⟩ := masks
      simp only [Option.bind_eq_bind, Option.bind_some]
      apply mapM_congr_of_mem
      rintro ⟨x, y, z⟩ hp
      obtain rfl : z = 0 := by
        have hz : z < 1 := (mem_boxIndices.mp hp).2.2
        omega
      simp [getSwizzledOffset, fillPattern_zero]

section Layout

variable {width height depth maskX maskY maskZ : Nat}

theorem getSwizzledOffset_texelCode (hl : SwizzleLayout width height depth maskX maskY maskZ)
    {p : Nat × Nat × Nat} (hp : p ∈ boxIndices width height depth) (bytesPerPixel : Nat) :
    getSwizzledOffset p.1 p.2.1 p.2.2 maskX maskY maskZ bytesPerPixel =
      some (bytesPerPixel * texelCode maskX maskY maskZ p % 2 ^ 32) := by
  obtain ⟨hx, hy, hz⟩ := mem_boxIndices.mp hp
  obtain ⟨o, ho, -⟩ := hl.offset_lt _ hx _ hy _ hz
  rw [getSwizzledOffset_of_one bytesPerPixel ho, texelCode, ho, Option.getD_some]

theorem texelCode_lt (hl : SwizzleLayout width height depth maskX maskY maskZ)
    {p : Nat × Nat × Nat} (hp : p ∈ boxIndices width height depth) :
    texelCode maskX maskY maskZ p < 2 ^ (Nat.clog 2 width + Nat.clog 2 height + Nat.clog 2 depth) := by
  obtain ⟨hx, hy, hz⟩ := mem_boxIndices.mp hp
  obtain ⟨o, ho, hlt⟩ := hl.offset_lt _ hx _ hy _ hz
  rwa [texelCode, ho, Option.getD_some]

theorem texelCode_injective (hl : SwizzleLayout width height depth maskX maskY maskZ)
    {p q : Nat × Nat × Nat} (hp : p ∈ boxIndices width height depth)
    (hq : q ∈ boxIndices width height depth)
    (h : texelCode maskX maskY maskZ p = texelCode maskX maskY maskZ q) : p = q := by
  obtain ⟨hx, hy, hz⟩ := mem_boxIndices.mp hp
  obtain ⟨hx', hy', hz'⟩ := mem_boxIndices.mp hq
  obtain ⟨o, ho, -⟩ := hl.offset_lt _ hx _ hy _ hz
  obtain ⟨o', ho', -⟩ := hl.offset_lt _ hx' _ hy' _ hz'
  rw [texelCode, ho, Option.getD_some, texelCode, ho', Option.getD_some] at h
  subst h
  obtain ⟨h1, h2, h3⟩ := hl.offset_injective _ _ _ _ _ _ _ hx hy hz hx' hy' hz' ho ho'
  exact Prod.ext h1 (Prod.ext h2 h3)

theorem swizzledTexels_of_layout
    (hgen : generateSwizzleMasks width height depth = some (maskX, maskY, maskZ))
    (hl : SwizzleLayout width height depth maskX maskY maskZ) (bytesPerPixel : Nat) :
    swizzledTexels width height depth bytesPerPixel =
      some ((boxIndices width height depth).map fun p =>
        (p, bytesPerPixel * texelCode maskX maskY maskZ p % 2 ^ 32)) := by
  simp only [swizzledTexels, hgen, Option.bind_eq_bind, Option.bind_some]
  rw [mapM_congr_of_mem (g := fun p => pure (p, bytesPerPixel * texelCode maskX maskY maskZ p % 2 ^ 32)),
    List.mapM_pure]
  · rfl
  · rintro ⟨x, y, z⟩ hp
    simp only [getSwizzledOffset_texelCode hl hp, Option.map_some, Option.pure_def]

/-- `unswizzle_box` reads its source only below `bytes_per_pixel * 2 ^ k`. -/
theorem unswizzleBox_congr {src src' dst : Mem} {rowPitch slicePitch bytesPerPixel : Nat}
    (hgen : generateSwizzleMasks width height depth = some (maskX, maskY, maskZ))
    (hl : SwizzleLayout width height depth maskX maskY maskZ)
    (hwrap : bytesPerPixel * 2 ^ (Nat.clog 2 width + Nat.clog 2 height + Nat.clog 2 depth) ≤ 2 ^ 32)
    (hsrc : AgreeOn src src' 0
      (bytesPerPixel * 2 ^ (Nat.clog 2 width + Nat.clog 2 height + Nat.clog 2 depth))) :
    unswizzleBox src width height depth dst rowPitch slicePitch bytesPerPixel =
      unswizzleBox src' width height depth dst rowPitch slicePitch bytesPerPixel := by
  unfold unswizzleBox
  rw [swizzledTexels_of_layout hgen hl, Option.map_some, Option.map_some]
  congr 1
  refine List.foldl_ext _ _ _ fun buf t ht => ?_
  obtain ⟨p, hp, rfl⟩ := List.mem_map.mp ht
  -- the texel's bytes end by the last code's, below the bound
  have hcode := texelCode_lt hl hp
  have hend : bytesPerPixel * texelCode maskX maskY maskZ p + bytesPerPixel ≤
      bytesPerPixel * 2 ^ (Nat.clog 2 width + Nat.clog 2 height + Nat.clog 2 depth) := by
    rw [← Nat.mul_succ]
    exact Nat.mul_le_mul_left _ hcode
  have hmod : bytesPerPixel * texelCode maskX maskY maskZ p % 2 ^ 32 =
      bytesPerPixel * texelCode maskX maskY maskZ p := by
    by_cases hb : bytesPerPixel = 0
    · simp [hb]
    · exact Nat.mod_eq_of_lt (by omega)
  simp only [hmod]
  exact memcpy_congr fun x _ hx => hsrc x (Nat.zero_le _) (by omega)

end Layout

/-! ## A rectangle and back -/

/-- Two texels of `bytesPerPixel` bytes that share a byte have the same code. -/
theorem code_eq_of_overlap {c c' k bytesPerPixel : Nat} (hk : k < bytesPerPixel)
    (hlo : bytesPerPixel * c' ≤ bytesPerPixel * c + k)
    (hhi : bytesPerPixel * c + k < bytesPerPixel * c' + bytesPerPixel) : c' = c := by
  have h1 : bytesPerPixel * c' < bytesPerPixel * (c + 1) := by
    rw [Nat.mul_succ]
    omega
  have h2 : bytesPerPixel * c < bytesPerPixel * (c' + 1) := by
    rw [Nat.mul_succ]
    omega
  have := Nat.lt_of_mul_lt_mul_left h1
  have := Nat.lt_of_mul_lt_mul_left h2
  omega

/-- In a rectangle of rows `pitch` apart, two texels that share a byte are the
same texel. -/
theorem rect_place_eq_of_overlap {x y x' y' k width pitch bytesPerPixel : Nat}
    (hx : x < width) (hx' : x' < width) (hk : k < bytesPerPixel)
    (hpitch : width * bytesPerPixel ≤ pitch)
    (hlo : y' * pitch + x' * bytesPerPixel ≤ y * pitch + x * bytesPerPixel + k)
    (hhi : y * pitch + x * bytesPerPixel + k < y' * pitch + x' * bytesPerPixel + bytesPerPixel) :
    x' = x ∧ y' = y := by
  have hrow : ∀ x, x < width → x * bytesPerPixel + bytesPerPixel ≤ pitch := fun x hx => by
    have h := Nat.mul_le_mul_right bytesPerPixel (show x + 1 ≤ width by omega)
    rw [Nat.succ_mul] at h
    omega
  have hr := hrow x hx
  have hr' := hrow x' hx'
  -- the shared byte lies in row `y` and in row `y'`
  have hy : (y * pitch + x * bytesPerPixel + k) / pitch = y :=
    Nat.div_eq_of_lt_le (by omega) (by rw [Nat.succ_mul]; omega)
  have hy' : (y * pitch + x * bytesPerPixel + k) / pitch = y' :=
    Nat.div_eq_of_lt_le (by omega) (by rw [Nat.succ_mul]; omega)
  obtain rfl : y' = y := hy'.symm.trans hy
  -- and within the row, in texel `x` and in texel `x'`
  have hx1 : (x * bytesPerPixel + k) / bytesPerPixel = x :=
    Nat.div_eq_of_lt_le (by omega) (by rw [Nat.succ_mul]; omega)
  have hx2 : (x * bytesPerPixel + k) / bytesPerPixel = x' :=
    Nat.div_eq_of_lt_le (by omega) (by rw [Nat.succ_mul]; omega)
  exact ⟨hx2.symm.trans hx1, rfl⟩

/-- Inside the rectangle, while its linear offsets fit in a word, neither product
of `unswizzle_rect` wraps. -/
theorem unswizzleDest_rect {width height pitch bytesPerPixel x y : Nat} (hx : x < width)
    (hy : y < height) (hbpp : 0 < bytesPerPixel)
    (hlin : (height - 1) * pitch + width * bytesPerPixel ≤ 2 ^ 32) :
    unswizzleDest pitch 0 bytesPerPixel (x, y, 0) = y * pitch + x * bytesPerPixel := by
  have hrow : y * pitch ≤ (height - 1) * pitch := Nat.mul_le_mul_right _ (by omega)
  have hcol : x * bytesPerPixel + bytesPerPixel ≤ width * bytesPerPixel := by
    rw [← Nat.succ_mul]
    exact Nat.mul_le_mul_right _ hx
  simp only [unswizzleDest, Nat.zero_mul, Nat.zero_add,
    Nat.mod_eq_of_lt (show y * pitch < 2 ^ 32 by omega),
    Nat.mod_eq_of_lt (show x * bytesPerPixel < 2 ^ 32 by omega)]

end Xqemu.Nv2a
