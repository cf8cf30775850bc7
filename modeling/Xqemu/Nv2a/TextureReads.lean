import Xqemu.Nv2a.TextureLayout
import Xqemu.Nv2a.SwizzleRect

/-! # What building a texture reads

A swizzled level of `2 ^ a × 2 ^ c × 2 ^ e` texels is unswizzled from its own
`2 ^ a * 2 ^ c * 2 ^ e * bytes_per_pixel` bytes, a compressed one is handed to
OpenGL as its own image size, and each level starts where `upload_gl_texture`
moved `texture_data` to.  So while no level reaches `2 ^ 32` bytes,
`generate_texture` reads no byte of a bound 2-D or 3-D texture outside the
`length` bytes that `pgraph_bind_textures` hashed, for a cube map as long as
its faces are placed as they were hashed.  A linear texture other than YUY2
is read row by row, a pitch apart, and stays within its `height * pitch`
hashed bytes while its rows fit their pitch and the pitch keeps OpenGL's
unpack alignment of 4.  What it reads of the palette is another matter.
-/

namespace Xqemu.Nv2a

open Xqemu.Bits Xqemu.Memory

/-! ## One level -/

theorem swizzleLayout_of_pow {a c e : Nat} (ha : a ≤ 31) (hc : c ≤ 31) (he : e ≤ 31)
    (hk : a + c + e ≤ 32) :
    ∃ maskX maskY maskZ, generateSwizzleMasks (2 ^ a) (2 ^ c) (2 ^ e) = some (maskX, maskY, maskZ) ∧
      SwizzleLayout (2 ^ a) (2 ^ c) (2 ^ e) maskX maskY maskZ := by
  have hca := Nat.clog_pow 2 a (by decide)
  have hcc := Nat.clog_pow 2 c (by decide)
  have hce := Nat.clog_pow 2 e (by decide)
  have hk' : Nat.clog 2 (2 ^ a) + Nat.clog 2 (2 ^ c) + Nat.clog 2 (2 ^ e) ≤ 32 := by
    rw [hca, hcc, hce]
    exact hk
  have hmax : Nat.clog 2 (2 ^ a) ≤ 31 ∧ Nat.clog 2 (2 ^ c) ≤ 31 ∧ Nat.clog 2 (2 ^ e) ≤ 31 := by
    rw [hca, hcc, hce]
    exact ⟨ha, hc, he⟩
  exact ⟨_, _, _, generateSwizzleMasks_eq rfl rfl rfl hk' hmax, roundRobin_swizzleLayout hk'⟩

/-- A box of powers of two is unswizzled from its own bytes. -/
theorem unswizzleBox_congr_pow {src src' dst : Mem} {a c e rowPitch slicePitch bytesPerPixel : Nat}
    (hbpp : 0 < bytesPerPixel) (hsize : 2 ^ a * 2 ^ c * 2 ^ e * bytesPerPixel < 2 ^ 32)
    (hsrc : AgreeOn src src' 0 (2 ^ a * 2 ^ c * 2 ^ e * bytesPerPixel)) :
    unswizzleBox src (2 ^ a) (2 ^ c) (2 ^ e) dst rowPitch slicePitch bytesPerPixel =
      unswizzleBox src' (2 ^ a) (2 ^ c) (2 ^ e) dst rowPitch slicePitch bytesPerPixel := by
  have hk : a + c + e < 32 := by
    have h : 2 ^ (a + c + e) < 2 ^ 32 := by
      rw [Nat.pow_add, Nat.pow_add]
      exact lt_of_le_of_lt (Nat.le_mul_of_pos_right _ hbpp) hsize
    exact (Nat.pow_lt_pow_iff_right (by decide)).mp h
  obtain ⟨maskX, maskY, maskZ, hgen, hl⟩ :=
    swizzleLayout_of_pow (a := a) (c := c) (e := e) (by omega) (by omega) (by omega) (by omega)
  have hbytes : bytesPerPixel * 2 ^ (Nat.clog 2 (2 ^ a) + Nat.clog 2 (2 ^ c) + Nat.clog 2 (2 ^ e)) =
      2 ^ a * 2 ^ c * 2 ^ e * bytesPerPixel := by
    rw [Nat.clog_pow 2 a (by decide), Nat.clog_pow 2 c (by decide), Nat.clog_pow 2 e (by decide),
      Nat.pow_add, Nat.pow_add, Nat.mul_comm]
  exact unswizzleBox_congr hgen hl (by rw [hbytes]; omega) (by rw [hbytes]; exact hsrc)

theorem unswizzleBox_of_mul_eq_zero (src src' : Mem) {dst : Mem}
    {width height depth rowPitch slicePitch bytesPerPixel : Nat} (h : width * height * depth = 0) :
    unswizzleBox src width height depth dst rowPitch slicePitch bytesPerPixel =
      unswizzleBox src' width height depth dst rowPitch slicePitch bytesPerPixel := by
  have hnil : boxIndices width height depth = [] := by
    rcases Nat.mul_eq_zero.mp h with h | rfl
    · rcases Nat.mul_eq_zero.mp h with rfl | rfl <;> simp [boxIndices]
    · simp [boxIndices]
  simp only [unswizzleBox, swizzledTexels, hnil]
  cases generateSwizzleMasks width height depth <;> rfl

theorem max_two_pow_div_two (a : Nat) : max (2 ^ a / 2) 1 = 2 ^ (a - 1) := by
  cases a with
  | zero => rfl
  | succ a => rw [two_pow_succ_div_two, Nat.add_sub_cancel, max_eq_left Nat.one_le_two_pow]

/-! ## The mip chains -/

section Chains

variable {s : TextureShape} {f : ColorFormatInfo} {palette : Mem}

/-- The 2-D mip chain of a compressed format reads only the bytes it moves over. -/
theorem upload2dLevels_congr_of_compressed (hf : f.compressed = true) :
    ∀ levels width height {texture texture' : Mem},
      AgreeOn texture texture' 0 (upload2dAdvance f levels width height) →
      upload2dLevels s f palette levels width height texture =
        upload2dLevels s f palette levels width height texture'
  | 0, _, _, _, _, _ => rfl
  | levels + 1, width, height, texture, texture', hagree => by
      simp only [upload2dAdvance, hf, if_true] at hagree
      simp only [upload2dLevels, hf, if_true]
      set imageSize := max width 4 / 4 * max height 4 / 4 * blockSize f % 2 ^ 32
      have hrest : AgreeOn texture texture' imageSize
          (upload2dAdvance f levels (max width 4 / 2) (max height 4 / 2)) :=
        hagree.mono (Nat.zero_le _) (by omega)
      rw [bytes_congr (hagree.mono le_rfl (by omega)),
        upload2dLevels_congr_of_compressed hf levels _ _ (agreeOn_shift hrest)]

/-- The 2-D mip chain of a swizzled format reads only the bytes it moves over,
while its first level is below `2 ^ 32` bytes. -/
theorem upload2dLevels_congr (hf : f.compressed = false) (hbpp : 0 < f.bytesPerPixel) :
    ∀ levels width height a c {texture texture' : Mem}, max width 1 = 2 ^ a → max height 1 = 2 ^ c →
      2 ^ a * 2 ^ c * f.bytesPerPixel < 2 ^ 32 →
      AgreeOn texture texture' 0 (upload2dAdvance f levels width height) →
      upload2dLevels s f palette levels width height texture =
        upload2dLevels s f palette levels width height texture'
  | 0, _, _, _, _, _, _, _, _, _, _ => rfl
  | levels + 1, width, height, a, c, texture, texture', hw, hh, hsize, hagree => by
      have hlevel : 2 ^ a * 2 ^ c * f.bytesPerPixel % 2 ^ 32 = 2 ^ a * 2 ^ c * f.bytesPerPixel :=
        Nat.mod_eq_of_lt hsize
      simp only [upload2dAdvance, hf, Bool.false_eq_true, if_false, hw, hh, hlevel] at hagree
      simp only [upload2dLevels, hf, Bool.false_eq_true, if_false, hw, hh, hlevel]
      -- the level is unswizzled from its own bytes
      have hunswizzle : unswizzleRect texture (2 ^ a) (2 ^ c) freshBuffer
          (2 ^ a * f.bytesPerPixel % 2 ^ 32) f.bytesPerPixel =
          unswizzleRect texture' (2 ^ a) (2 ^ c) freshBuffer
          (2 ^ a * f.bytesPerPixel % 2 ^ 32) f.bytesPerPixel :=
        unswizzleBox_congr_pow (e := 0) hbpp (by simpa using hsize)
          (by simpa using hagree.mono le_rfl (by omega))
      -- and the later levels, each a size smaller, from the bytes after it
      have hsmaller : 2 ^ (a - 1) * 2 ^ (c - 1) * f.bytesPerPixel < 2 ^ 32 := by
        have hle : 2 ^ (a - 1) * 2 ^ (c - 1) ≤ 2 ^ a * 2 ^ c :=
          Nat.mul_le_mul (Nat.pow_le_pow_right (by decide) (by omega))
            (Nat.pow_le_pow_right (by decide) (by omega))
        exact lt_of_le_of_lt (Nat.mul_le_mul_right _ hle) hsize
      have hrest : AgreeOn texture texture' (2 ^ a * 2 ^ c * f.bytesPerPixel)
          (upload2dAdvance f levels (2 ^ a / 2) (2 ^ c / 2)) :=
        hagree.mono (Nat.zero_le _) (by omega)
      rw [hunswizzle, upload2dLevels_congr hf hbpp levels _ _ (a - 1) (c - 1) (max_two_pow_div_two a)
          (max_two_pow_div_two c) hsmaller (agreeOn_shift hrest)]

theorem upload3dLevels_of_mul_eq_zero :
    ∀ levels width height depth (texture texture' : Mem), width * height * depth = 0 →
      upload3dLevels s f palette levels width height depth texture =
        upload3dLevels s f palette levels width height depth texture'
  | 0, _, _, _, _, _, _ => rfl
  | levels + 1, width, height, depth, texture, texture', h => by
      simp only [upload3dLevels]
      rw [unswizzleBox_of_mul_eq_zero texture texture' h,
        upload3dLevels_of_mul_eq_zero levels _ _ _ _ _ (half_mul_eq_zero h)]

/-- The 3-D mip chain reads only the bytes it moves over, while its first level
is below `2 ^ 32` bytes. -/
theorem upload3dLevels_congr (hbpp : 0 < f.bytesPerPixel) :
    ∀ levels a c e {texture texture' : Mem}, 2 ^ a * 2 ^ c * 2 ^ e * f.bytesPerPixel < 2 ^ 32 →
      AgreeOn texture texture' 0 (upload3dAdvance f levels (2 ^ a) (2 ^ c) (2 ^ e)) →
      upload3dLevels s f palette levels (2 ^ a) (2 ^ c) (2 ^ e) texture =
        upload3dLevels s f palette levels (2 ^ a) (2 ^ c) (2 ^ e) texture'
  | 0, _, _, _, _, _, _, _ => rfl
  | levels + 1, a, c, e, texture, texture', hsize, hagree => by
      have hlevel : 2 ^ a * 2 ^ c * 2 ^ e * f.bytesPerPixel % 2 ^ 32 =
          2 ^ a * 2 ^ c * 2 ^ e * f.bytesPerPixel := Nat.mod_eq_of_lt hsize
      simp only [upload3dAdvance, hlevel] at hagree
      simp only [upload3dLevels, hlevel]
      rw [unswizzleBox_congr_pow hbpp hsize (hagree.mono le_rfl (by omega))]
      -- the later levels are gone once a side reaches zero, and else one size smaller
      by_cases hz : a = 0 ∨ c = 0 ∨ e = 0
      · rw [upload3dLevels_of_mul_eq_zero levels _ _ _ _ _
          (by rcases hz with rfl | rfl | rfl <;> simp)]
      · obtain ⟨a, rfl⟩ : ∃ a', a = a' + 1 := ⟨a - 1, by omega⟩
        obtain ⟨c, rfl⟩ : ∃ c', c = c' + 1 := ⟨c - 1, by omega⟩
        obtain ⟨e, rfl⟩ : ∃ e', e = e' + 1 := ⟨e - 1, by omega⟩
        simp only [two_pow_succ_div_two] at hagree ⊢
        have hsmaller : 2 ^ a * 2 ^ c * 2 ^ e * f.bytesPerPixel < 2 ^ 32 := by
          refine lt_of_le_of_lt (Nat.mul_le_mul_right _ ?_) hsize
          exact Nat.mul_le_mul (Nat.mul_le_mul (Nat.pow_le_pow_right (by decide) (by omega))
            (Nat.pow_le_pow_right (by decide) (by omega))) (Nat.pow_le_pow_right (by decide) (by omega))
        have hrest : AgreeOn texture texture' (2 ^ (a + 1) * 2 ^ (c + 1) * 2 ^ (e + 1) * f.bytesPerPixel)
            (upload3dAdvance f levels (2 ^ a) (2 ^ c) (2 ^ e)) :=
          hagree.mono (Nat.zero_le _) (by omega)
        rw [upload3dLevels_congr hbpp levels a c e hsmaller (agreeOn_shift hrest)]

end Chains

/-! ## A bound texture -/

theorem generateTexture_cubeMap_congr {s : TextureShape} {texture texture' palette : Mem}
    (h : textureTarget s = some .textureCubeMap)
    (hface : ∀ k, k < 6 →
      upload2dLevels s (kelvinColorFormatMap s.colorFormat) palette s.levels s.width s.height
          (shift texture (k * cubeFaceStride s)) =
        upload2dLevels s (kelvinColorFormatMap s.colorFormat) palette s.levels s.width s.height
          (shift texture' (k * cubeFaceStride s))) :
    generateTexture s texture palette = generateTexture s texture' palette := by
  have h0 := hface 0 (by omega)
  have h1 := hface 1 (by omega)
  simp only [Nat.zero_mul, shift_zero, Nat.one_mul] at h0 h1
  unfold cubeFaceStride at h1 hface
  simp only [generateTexture, h, uploadGlTexture]
  rw [h0, h1, hface 2 (by omega), hface 3 (by omega), hface 4 (by omega), hface 5 (by omega)]

theorem le_alignCubemapFace (length : Nat) : length ≤ alignCubemapFace length := by
  unfold alignCubemapFace
  omega

theorem textureTarget_of_swizzled {s : TextureShape}
    (hlin : (kelvinColorFormatMap s.colorFormat).linear = false) (hdim : s.dimensionality = 2) :
    textureTarget s = some (if s.cubemap then .textureCubeMap else .texture2d) := by
  cases hc : s.cubemap <;> simp [textureTarget, hc, hlin, hdim]

/-- Building a bound 2-D texture, or a cube map whose faces keep above the
rounding, reads no texture byte outside what binding hashed, while its first
level is below `2 ^ 32` bytes. -/
theorem bindTexture_generateTexture_congr_of_2d {d : Memories} {dmaA dmaB : Nat} {r : TextureRegs}
    {b : TextureBind} (hb : bindTexture d dmaA dmaB r = some b) (hdim : b.shape.dimensionality = 2)
    (hlin : (kelvinColorFormatMap b.shape.colorFormat).linear = false)
    (hsize : b.shape.width * b.shape.height *
      (kelvinColorFormatMap b.shape.colorFormat).bytesPerPixel < 2 ^ 32)
    (hclamp : b.shape.cubemap = true →
      LevelsAboveClamp (kelvinColorFormatMap b.shape.colorFormat) b.shape.levels
        (nvPgraphTexfmt0BaseSizeU.get r.fmt) (nvPgraphTexfmt0BaseSizeV.get r.fmt))
    {vram vram' : Mem} (hagree : AgreeOn vram vram' b.textureData b.length) (palette : Mem) :
    generateTexture b.shape (shift vram b.textureData) palette =
      generateTexture b.shape (shift vram' b.textureData) palette := by
  obtain ⟨hbpp, hdims, -⟩ := bindTexture_format hb
  obtain ⟨hw, hh, -, -⟩ := textureDims_of_swizzled hlin hdims
  have hlen := bindTexture_length_of_2d hb hdim hlin
  -- a face reads its bytes from wherever it starts
  have hface : ∀ o, o + upload2dAdvance (kelvinColorFormatMap b.shape.colorFormat) b.shape.levels
      b.shape.width b.shape.height ≤ b.length →
      upload2dLevels b.shape (kelvinColorFormatMap b.shape.colorFormat) palette b.shape.levels
          b.shape.width b.shape.height (shift (shift vram b.textureData) o) =
        upload2dLevels b.shape (kelvinColorFormatMap b.shape.colorFormat) palette b.shape.levels
          b.shape.width b.shape.height (shift (shift vram' b.textureData) o) := fun o ho => by
    have hagree' : AgreeOn (shift (shift vram b.textureData) o) (shift (shift vram' b.textureData) o) 0
        (upload2dAdvance (kelvinColorFormatMap b.shape.colorFormat) b.shape.levels b.shape.width
          b.shape.height) :=
      agreeOn_shift ((agreeOn_shift hagree).mono (Nat.zero_le o) (by omega))
    cases hc : (kelvinColorFormatMap b.shape.colorFormat).compressed
    · rw [hw, hh] at hsize hagree' ⊢
      exact upload2dLevels_congr hc (Nat.pos_of_ne_zero hbpp) _ _ _ _ _
        (max_eq_left Nat.one_le_two_pow) (max_eq_left Nat.one_le_two_pow) hsize hagree'
    · exact upload2dLevels_congr_of_compressed hc _ _ _ hagree'
  cases hcube : b.shape.cubemap
  · -- one image, the face at the start
    have ht := textureTarget_of_swizzled hlin hdim
    simp only [hcube, Bool.false_eq_true, if_false] at ht hlen
    have h0 := hface 0 (by omega)
    rw [shift_zero, shift_zero] at h0
    simp only [generateTexture, ht, uploadGlTexture, h0]
  · -- six faces, one stride apart, within the six aligned faces
    have ht := textureTarget_of_swizzled hlin hdim
    simp only [hcube, if_true] at ht hlen
    have hstride := bindTexture_cubeFaceStride hb hcube hdim (hclamp hcube)
    have hfit := le_alignCubemapFace (upload2dAdvance (kelvinColorFormatMap b.shape.colorFormat)
      b.shape.levels b.shape.width b.shape.height)
    refine generateTexture_cubeMap_congr ht fun k hk => ?_
    have hk5 : k * cubeFaceStride b.shape ≤ 5 * cubeFaceStride b.shape := Nat.mul_le_mul_right _ (by omega)
    exact hface (k * cubeFaceStride b.shape) (by omega)

/-- Building a bound 3-D texture reads no texture byte outside what binding
hashed, while its first level is below `2 ^ 32` bytes. -/
theorem bindTexture_generateTexture_congr_of_3d {d : Memories} {dmaA dmaB : Nat} {r : TextureRegs}
    {b : TextureBind} (hb : bindTexture d dmaA dmaB r = some b) (hdim : b.shape.dimensionality = 3)
    (hsize : b.shape.width * b.shape.height * b.shape.depth *
      (kelvinColorFormatMap b.shape.colorFormat).bytesPerPixel < 2 ^ 32)
    {vram vram' : Mem} (hagree : AgreeOn vram vram' b.textureData b.length) (palette : Mem) :
    generateTexture b.shape (shift vram b.textureData) palette =
      generateTexture b.shape (shift vram' b.textureData) palette := by
  obtain ⟨hbpp, hdims, -⟩ := bindTexture_format hb
  obtain ⟨hlin, hcube⟩ := bindTexture_of_3d hb hdim
  obtain ⟨hw, hh, hd, -⟩ := textureDims_of_swizzled hlin hdims
  have ht : textureTarget b.shape = some .texture3d := by
    simp [textureTarget, hcube, hlin, hdim]
  simp only [generateTexture, ht, uploadGlTexture]
  split_ifs with hc
  · -- its levels lie within the hashed length
    have hle := bindTexture_upload3dAdvance_le hb hdim hc.1
    rw [hw, hh, hd] at hsize hle ⊢
    exact upload3dLevels_congr (Nat.pos_of_ne_zero hbpp) _ _ _ _ hsize
      ((agreeOn_shift hagree).mono le_rfl (by omega))
  · rfl

/-! ## Linear textures -/

theorem glUnpack_congr {buf buf' : Mem} {pixelSize width height depth rowLength : Nat}
    (hrow : ∀ y < height, ∀ z < depth, AgreeOn buf buf'
      ((z * height + y) * (((if rowLength = 0 then width else rowLength) * pixelSize + 3) / 4 * 4))
      (width * pixelSize)) :
    glUnpack buf pixelSize width height depth rowLength =
      glUnpack buf' pixelSize width height depth rowLength := by
  unfold glUnpack
  refine List.flatMap_congr fun p hp => ?_
  obtain ⟨-, hy, hz⟩ := mem_boxIndices.mp hp
  exact bytes_congr (hrow _ hy _ hz)

/-- Every linear format but YUY2 is handed to OpenGL in its own bytes. -/
theorem kelvinColorFormatMap_of_linear {c : Nat} (hlin : (kelvinColorFormatMap c).linear = true)
    (hc : c ≠ colorLcImageCr8yb8cb8ya8) :
    (kelvinColorFormatMap c).glPixelSize = (kelvinColorFormatMap c).bytesPerPixel := by
  -- split the table with the flag still in the goal, so each entry is read off
  revert hlin
  unfold kelvinColorFormatMap
  split
  all_goals first | exact fun _ => rfl | exact fun h => absurd h (by decide) | exact absurd rfl hc

theorem convertTextureData_of_linear {s : TextureShape}
    (hlin : (kelvinColorFormatMap s.colorFormat).linear = true)
    (hc : s.colorFormat ≠ colorLcImageCr8yb8cb8ya8) (data palette : Mem)
    (width height depth rowPitch : Nat) :
    convertTextureData s data palette width height depth rowPitch = some none := by
  -- the other two converted formats are swizzled
  have hi8 : s.colorFormat ≠ colorSzI8A8r8g8b8 := fun h => by
    rw [h] at hlin
    exact absurd hlin (by decide)
  have hr6 : s.colorFormat ≠ colorSzR6g5b5 := fun h => by
    rw [h] at hlin
    exact absurd hlin (by decide)
  simp [convertTextureData, hi8, hc, hr6]

/-- With a row length of whole pixels, OpenGL steps from row to row by the
pitch, when the pitch keeps its alignment. -/
theorem unpackStride_eq_pitch {pixelSize width pitch : Nat} (hdiv : pitch % pixelSize = 0)
    (hpos : 0 < pitch / pixelSize) (halign : pitch % 4 = 0) :
    ((if pitch / pixelSize = 0 then width else pitch / pixelSize) * pixelSize + 3) / 4 * 4 = pitch := by
  rw [if_neg (Nat.pos_iff_ne_zero.mp hpos), Nat.div_mul_cancel (Nat.dvd_of_mod_eq_zero hdiv)]
  omega

theorem row_end_le {y height pitch n : Nat} (hy : y < height) (hn : n ≤ pitch) :
    y * pitch + n ≤ height * pitch := by
  have h := Nat.mul_le_mul_right pitch (show y + 1 ≤ height from hy)
  rw [Nat.succ_mul] at h
  omega

/-- Building a bound linear texture of any format but YUY2 reads no texture
byte outside what binding hashed, while its rows fit their pitch, the pitch is
a multiple of 4 and the image is below `2 ^ 32` bytes. -/
theorem bindTexture_generateTexture_congr_of_linear {d : Memories} {dmaA dmaB : Nat}
    {r : TextureRegs} {b : TextureBind} (hb : bindTexture d dmaA dmaB r = some b)
    (hlin : (kelvinColorFormatMap b.shape.colorFormat).linear = true)
    (hyuv : b.shape.colorFormat ≠ colorLcImageCr8yb8cb8ya8)
    (hrow : b.shape.width * (kelvinColorFormatMap b.shape.colorFormat).bytesPerPixel ≤ b.shape.pitch)
    (halign : b.shape.pitch % 4 = 0) (hsize : b.shape.height * b.shape.pitch < 2 ^ 32)
    {vram vram' : Mem} (hagree : AgreeOn vram vram' b.textureData b.length) (palette : Mem) :
    generateTexture b.shape (shift vram b.textureData) palette =
      generateTexture b.shape (shift vram' b.textureData) palette := by
  obtain ⟨hbpp, -, hlen⟩ := bindTexture_format hb
  obtain ⟨hcube, hdim, hlen⟩ := textureLength_of_linear hlin hlen
  rw [Nat.mod_eq_of_lt hsize] at hlen
  have ht : textureTarget b.shape = some .textureRectangle := by
    simp [textureTarget, hcube, hlin, hdim]
  simp only [generateTexture, ht, uploadGlTexture, convertTextureData_of_linear hlin hyuv,
    kelvinColorFormatMap_of_linear hlin hyuv, Option.map_some, Option.getD_none]
  split_ifs with hdiv
  · -- OpenGL reads the rows a pitch apart, each within its own pitch
    congr 2
    refine glUnpack_congr fun y hy z hz => ?_
    obtain rfl : z = 0 := by omega
    rcases Nat.eq_zero_or_pos b.shape.width with hw | hw
    · -- an empty row reads nothing
      rw [show b.shape.width * (kelvinColorFormatMap b.shape.colorFormat).bytesPerPixel = 0 by
        rw [hw, Nat.zero_mul]]
      exact fun x hx hx' => absurd hx' (by omega)
    · have hpos : 0 < b.shape.pitch / (kelvinColorFormatMap b.shape.colorFormat).bytesPerPixel :=
        Nat.div_pos (le_trans (Nat.le_mul_of_pos_left _ hw) hrow) (Nat.pos_of_ne_zero hbpp)
      rw [unpackStride_eq_pitch hdiv hpos halign, Nat.zero_mul, Nat.zero_add]
      exact (agreeOn_shift hagree).mono (Nat.zero_le _)
        (by rw [hlen, Nat.zero_add]; exact row_end_le hy hrow)
  · rfl

end Xqemu.Nv2a
