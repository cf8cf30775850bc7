import Xqemu.Nv2a.Texture
import Mathlib.Tactic.Ring

/-! # The sizes of a texture's layout

`pgraph_bind_textures` sums a face's mip chain to know how many bytes to hash,
`upload_gl_texture` walks the same chain and moves `texture_data` on after each
level, and for a cube map `generate_texture` sums it once more for the stride
between faces.  The first two round each level up to one texel, or to one 4×4
block when compressed, and agree on every texture.  The stride does not round,
so it is the hashed one only while no level falls below that size.  A 3-D level
halves its depth as well, and the uploads of a 3-D texture stay within the hashed
length, which counts every level at full depth.
-/

namespace Xqemu.Nv2a

open Xqemu.Bits Xqemu.Memory

/-! ## The three sums -/

/-- The mip-chain sum of one face in `pgraph_bind_textures`, before a cube
map's alignment. -/
def faceLength (f : ColorFormatInfo) (levels width height : Nat) : Nat :=
  if f.compressed then compressedMipLength (blockSize f) levels width height
  else mipLength f.bytesPerPixel levels width height

/-- How far the 2D mip loop of `upload_gl_texture` moves `texture_data`. -/
def upload2dAdvance (f : ColorFormatInfo) : Nat → Nat → Nat → Nat
  | 0, _, _ => 0
  | levels + 1, width, height =>
      if f.compressed then
        let width := max width 4
        let height := max height 4
        width / 4 * height / 4 * blockSize f % 2 ^ 32 +
          upload2dAdvance f levels (width / 2) (height / 2)
      else
        let width := max width 1
        let height := max height 1
        width * height * f.bytesPerPixel % 2 ^ 32 +
          upload2dAdvance f levels (width / 2) (height / 2)

/-- How far the 3D mip loop of `upload_gl_texture` moves `texture_data`. -/
def upload3dAdvance (f : ColorFormatInfo) : Nat → Nat → Nat → Nat → Nat
  | 0, _, _, _ => 0
  | levels + 1, width, height, depth =>
      width * height * depth * f.bytesPerPixel % 2 ^ 32 +
        upload3dAdvance f levels (width / 2) (height / 2) (depth / 2)

/-- `length` in the cube-map branch of `generate_texture`: where each face
after the first starts. -/
def cubeFaceStride (s : TextureShape) : Nat :=
  alignCubemapFace (cubeFaceLevels (kelvinColorFormatMap s.colorFormat) s.levels s.width s.height)

theorem upload2dAdvance_eq_faceLength (f : ColorFormatInfo) :
    ∀ levels width height, upload2dAdvance f levels width height = faceLength f levels width height
  | 0, _, _ => by unfold faceLength; split <;> rfl
  | levels + 1, width, height => by
      have ih := upload2dAdvance_eq_faceLength f levels
      simp only [faceLength] at ih ⊢
      cases hc : f.compressed <;>
        simp only [upload2dAdvance, mipLength, compressedMipLength, hc, ih, if_true,
          Bool.false_eq_true, if_false]

theorem textureLength_of_swizzled {f : ColorFormatInfo} {s : TextureShape} (hf : f.linear = false)
    (hdim : 2 ≤ s.dimensionality) :
    textureLength f s =
      if s.cubemap then
        if s.dimensionality = 2 then
          some (alignCubemapFace (faceLength f s.levels s.width s.height) * 6)
        else none
      else
        some (if 3 ≤ s.dimensionality then faceLength f s.levels s.width s.height * s.depth
          else faceLength f s.levels s.width s.height) := by
  unfold textureLength faceLength
  rw [if_neg (by simp [hf]), if_neg (by omega)]
  split_ifs <;> simp_all

/-- A linear texture is hashed only as one flat 2-D image, `height` rows of
`pitch` bytes. -/
theorem textureLength_of_linear {f : ColorFormatInfo} {s : TextureShape} {length : Nat}
    (hf : f.linear = true) (h : textureLength f s = some length) :
    s.cubemap = false ∧ s.dimensionality = 2 ∧ length = s.height * s.pitch % 2 ^ 32 := by
  simp only [textureLength, hf, if_true] at h
  split at h
  · next hs => exact ⟨hs.1, hs.2, (Option.some.inj h).symm⟩
  · cases h

/-! ## What binding fixed -/

theorem textureFormat_eq {c : Nat} {f : ColorFormatInfo} (h : textureFormat c = some f) :
    f = kelvinColorFormatMap c ∧ f.bytesPerPixel ≠ 0 := by
  unfold textureFormat at h
  split at h
  · next hc => exact ⟨(Option.some.inj h).symm, (Option.some.inj h) ▸ hc.2⟩
  · cases h

theorem bindTexture_format {d : Memories} {dmaA dmaB : Nat} {r : TextureRegs} {b : TextureBind}
    (hb : bindTexture d dmaA dmaB r = some b) :
    (kelvinColorFormatMap b.shape.colorFormat).bytesPerPixel ≠ 0 ∧
      textureDims (kelvinColorFormatMap b.shape.colorFormat) r =
        some (b.shape.width, b.shape.height, b.shape.depth, b.shape.levels) ∧
      textureLength (kelvinColorFormatMap b.shape.colorFormat) b.shape = some b.length := by
  obtain ⟨f, hf, hdims, hlen, -⟩ := bindTexture_spec hb
  obtain ⟨rfl, hbpp⟩ := textureFormat_eq hf
  exact ⟨hbpp, hdims, hlen⟩

theorem kelvinColorFormatMap_bytesPerPixel (c : Nat) :
    (kelvinColorFormatMap c).bytesPerPixel = 0 ∨ ∃ k, (kelvinColorFormatMap c).bytesPerPixel = 2 ^ k := by
  unfold kelvinColorFormatMap
  split
  all_goals first | exact .inl rfl | exact .inr ⟨0, rfl⟩ | exact .inr ⟨1, rfl⟩ | exact .inr ⟨2, rfl⟩

theorem textureDims_levels {f : ColorFormatInfo} {r : TextureRegs} {width height depth levels : Nat}
    (hf : f.linear = false) (h : textureDims f r = some (width, height, depth, levels)) :
    levels = clampLevels f (nvPgraphTexfmt0MipmapLevels.get r.fmt) (nvPgraphTexctl00MaxLodClamp.get r.ctl0)
      (nvPgraphTexfmt0BaseSizeU.get r.fmt) (nvPgraphTexfmt0BaseSizeV.get r.fmt) := by
  simp only [textureDims, hf, Bool.false_eq_true, if_false] at h
  split at h
  · simp only [Option.some.injEq, Prod.mk.injEq] at h
    exact h.2.2.2.symm
  · cases h

/-- A compressed texture of at least 4×4 keeps its levels at 4×4 or more. -/
theorem clampLevels_succ_le {f : ColorFormatInfo} (hf : f.compressed = true)
    {levels maxMipmapLevel logWidth logHeight : Nat} (hw : 2 ≤ logWidth) (hh : 2 ≤ logHeight) :
    clampLevels f levels maxMipmapLevel logWidth logHeight + 1 ≤ min logWidth logHeight := by
  simp only [clampLevels, hf, Bool.true_eq_false, if_false]
  rw [if_neg (by omega)]
  omega

/-! ## The stride between cube faces -/

theorem two_pow_succ_div_two (a : Nat) : 2 ^ (a + 1) / 2 = 2 ^ a := by
  rw [Nat.pow_succ, Nat.mul_div_cancel _ (by decide)]

/-- While every level is a texel or more, the unrounded sum is the hashed one. -/
theorem cubeFaceLevels_eq_mipLength {f : ColorFormatInfo} (hf : f.compressed = false) :
    ∀ levels a c, levels ≤ min a c + 1 →
      cubeFaceLevels f levels (2 ^ a) (2 ^ c) = mipLength f.bytesPerPixel levels (2 ^ a) (2 ^ c)
  | 0, _, _, _ => rfl
  | levels + 1, a, c, h => by
      have hw : max (2 ^ a) 1 = 2 ^ a := max_eq_left Nat.one_le_two_pow
      have hh : max (2 ^ c) 1 = 2 ^ c := max_eq_left Nat.one_le_two_pow
      simp only [cubeFaceLevels, mipLength, hf, Bool.false_eq_true, if_false, hw, hh]
      congr 1
      cases levels with
      | zero => rfl
      | succ levels =>
          -- a further level halves both sides, which stay a texel or more
          obtain ⟨a, rfl⟩ : ∃ a', a = a' + 1 := ⟨a - 1, by omega⟩
          obtain ⟨c, rfl⟩ : ∃ c', c = c' + 1 := ⟨c - 1, by omega⟩
          rw [two_pow_succ_div_two, two_pow_succ_div_two]
          exact cubeFaceLevels_eq_mipLength hf (levels + 1) a c (by omega)

/-- While every level is a block or more, the unrounded sum is the hashed one. -/
theorem cubeFaceLevels_eq_compressedMipLength {f : ColorFormatInfo} (hf : f.compressed = true) :
    ∀ levels a c, levels + 1 ≤ min a c →
      cubeFaceLevels f levels (2 ^ a) (2 ^ c) =
        compressedMipLength (blockSize f) levels (2 ^ a) (2 ^ c)
  | 0, _, _, _ => rfl
  | levels + 1, a, c, h => by
      have hw : max (2 ^ a) 4 = 2 ^ a :=
        max_eq_left (Nat.pow_le_pow_right (n := 2) (by decide) (show 2 ≤ a by omega))
      have hh : max (2 ^ c) 4 = 2 ^ c :=
        max_eq_left (Nat.pow_le_pow_right (n := 2) (by decide) (show 2 ≤ c by omega))
      simp only [cubeFaceLevels, compressedMipLength, hf, if_true, hw, hh]
      obtain ⟨a, rfl⟩ : ∃ a', a = a' + 1 := ⟨a - 1, by omega⟩
      obtain ⟨c, rfl⟩ : ∃ c', c = c' + 1 := ⟨c - 1, by omega⟩
      rw [two_pow_succ_div_two, two_pow_succ_div_two]
      exact congrArg _ (cubeFaceLevels_eq_compressedMipLength hf levels a c (by omega))

/-- No level of a face falls below what the hashed sum rounds it up to: one
texel, or for a compressed format one 4×4 block, at which binding stops the
levels of a base level that is at least 4×4. -/
def LevelsAboveClamp (f : ColorFormatInfo) (levels logWidth logHeight : Nat) : Prop :=
  if f.compressed then 2 ≤ logWidth ∧ 2 ≤ logHeight else levels ≤ min logWidth logHeight + 1

instance (f : ColorFormatInfo) (levels logWidth logHeight : Nat) :
    Decidable (LevelsAboveClamp f levels logWidth logHeight) :=
  inferInstanceAs (Decidable (if f.compressed then _ else _))

theorem cubeFaceLevels_eq_faceLength {f : ColorFormatInfo}
    {levels levelsField maxMipmapLevel logWidth logHeight : Nat}
    (hl : levels = clampLevels f levelsField maxMipmapLevel logWidth logHeight)
    (h : LevelsAboveClamp f levels logWidth logHeight) :
    cubeFaceLevels f levels (2 ^ logWidth) (2 ^ logHeight) =
      faceLength f levels (2 ^ logWidth) (2 ^ logHeight) := by
  unfold LevelsAboveClamp at h
  unfold faceLength
  cases hf : f.compressed
  · rw [hf] at h
    exact cubeFaceLevels_eq_mipLength hf levels logWidth logHeight h
  · rw [hf, if_pos rfl] at h
    exact cubeFaceLevels_eq_compressedMipLength hf levels logWidth logHeight
      (hl ▸ clampLevels_succ_le hf h.1 h.2)

/-- A texture that binding accepts is swizzled unless it is a 2-D non-cube one. -/
theorem linear_eq_false_of_textureLength {f : ColorFormatInfo} {s : TextureShape} {length : Nat}
    (h : textureLength f s = some length) (hs : s.cubemap = true ∨ s.dimensionality ≠ 2) :
    f.linear = false := by
  cases hl : f.linear
  · rfl
  · simp only [textureLength, hl, if_true] at h
    split at h
    · next hc => cases hs <;> simp_all
    · cases h

/-- For a bound cube map whose levels keep above the rounding, `generate_texture`
places the faces as binding hashed them. -/
theorem bindTexture_cubeFaceStride {d : Memories} {dmaA dmaB : Nat} {r : TextureRegs}
    {b : TextureBind} (hb : bindTexture d dmaA dmaB r = some b) (hcube : b.shape.cubemap = true)
    (hdim : b.shape.dimensionality = 2)
    (hclamp : LevelsAboveClamp (kelvinColorFormatMap b.shape.colorFormat) b.shape.levels
      (nvPgraphTexfmt0BaseSizeU.get r.fmt) (nvPgraphTexfmt0BaseSizeV.get r.fmt)) :
    b.length = 6 * cubeFaceStride b.shape := by
  obtain ⟨-, hdims, hlen⟩ := bindTexture_format hb
  have hlin := linear_eq_false_of_textureLength hlen (.inl hcube)
  obtain ⟨hw, hh, -, -⟩ := textureDims_of_swizzled hlin hdims
  rw [textureLength_of_swizzled hlin (by omega), if_pos hcube, if_pos hdim] at hlen
  rw [← Option.some.inj hlen, cubeFaceStride, hw, hh,
    cubeFaceLevels_eq_faceLength (textureDims_levels hlin hdims) hclamp, Nat.mul_comm]

/-- A 2-D texture's upload moves on by exactly the hashed face sum, which a cube
map aligns and counts six times. -/
theorem bindTexture_length_of_2d {d : Memories} {dmaA dmaB : Nat} {r : TextureRegs}
    {b : TextureBind} (hb : bindTexture d dmaA dmaB r = some b) (hdim : b.shape.dimensionality = 2)
    (hlin : (kelvinColorFormatMap b.shape.colorFormat).linear = false) :
    b.length =
      let advance := upload2dAdvance (kelvinColorFormatMap b.shape.colorFormat) b.shape.levels
        b.shape.width b.shape.height
      if b.shape.cubemap then alignCubemapFace advance * 6 else advance := by
  obtain ⟨-, -, hlen⟩ := bindTexture_format hb
  rw [textureLength_of_swizzled hlin (by omega)] at hlen
  simp only [upload2dAdvance_eq_faceLength, hdim, if_true] at hlen ⊢
  split <;> simp_all

/-! ## The levels of a 3-D texture -/

theorem half_mul_eq_zero {width height depth : Nat} (h : width * height * depth = 0) :
    width / 2 * (height / 2) * (depth / 2) = 0 := by
  rcases Nat.mul_eq_zero.mp h with h | h
  · rcases Nat.mul_eq_zero.mp h with h | h <;> simp [h]
  · simp [h]

theorem upload3dAdvance_of_mul_eq_zero (f : ColorFormatInfo) :
    ∀ levels width height depth, width * height * depth = 0 →
      upload3dAdvance f levels width height depth = 0
  | 0, _, _, _, _ => rfl
  | levels + 1, width, height, depth, h => by
      simp only [upload3dAdvance, h, Nat.zero_mul, Nat.zero_mod, Nat.zero_add]
      exact upload3dAdvance_of_mul_eq_zero f levels _ _ _ (half_mul_eq_zero h)

/-- Scaling a power of two by `2 ^ e` after its wrap to 32 bits gives no less
than wrapping the scaled one. -/
theorem two_pow_mul_mod_le (p e : Nat) : 2 ^ p * 2 ^ e % 2 ^ 32 ≤ 2 ^ p % 2 ^ 32 * 2 ^ e := by
  by_cases hp : p < 32
  · rw [Nat.mod_eq_of_lt (Nat.pow_lt_pow_right (by decide) hp)]
    exact Nat.mod_le _ _
  · have hdvd : 2 ^ 32 ∣ 2 ^ p * 2 ^ e := Dvd.dvd.mul_right (Nat.pow_dvd_pow 2 (by omega)) _
    rw [Nat.mod_eq_zero_of_dvd hdvd]
    exact Nat.zero_le _

/-- Each level of a 3-D texture takes no more than its face at full depth. -/
theorem upload3dAdvance_le {f : ColorFormatInfo} {k : Nat} (hk : f.bytesPerPixel = 2 ^ k) :
    ∀ levels a c e, upload3dAdvance f levels (2 ^ a) (2 ^ c) (2 ^ e) ≤
      mipLength f.bytesPerPixel levels (2 ^ a) (2 ^ c) * 2 ^ e
  | 0, _, _, _ => Nat.zero_le _
  | levels + 1, a, c, e => by
      have hw : max (2 ^ a) 1 = 2 ^ a := max_eq_left Nat.one_le_two_pow
      have hh : max (2 ^ c) 1 = 2 ^ c := max_eq_left Nat.one_le_two_pow
      have hlevel : 2 ^ a * 2 ^ c * 2 ^ e * f.bytesPerPixel % 2 ^ 32 ≤
          2 ^ a * 2 ^ c * f.bytesPerPixel % 2 ^ 32 * 2 ^ e := by
        have h1 : 2 ^ a * 2 ^ c * 2 ^ e * 2 ^ k = 2 ^ (a + c + k) * 2 ^ e := by ring
        have h2 : 2 ^ a * 2 ^ c * 2 ^ k = 2 ^ (a + c + k) := by ring
        rw [hk, h1, h2]
        exact two_pow_mul_mod_le (a + c + k) e
      -- the later levels are gone once a side reaches zero, and else one size smaller
      have hrest : upload3dAdvance f levels (2 ^ a / 2) (2 ^ c / 2) (2 ^ e / 2) ≤
          mipLength f.bytesPerPixel levels (2 ^ a / 2) (2 ^ c / 2) * 2 ^ e := by
        by_cases hz : a = 0 ∨ c = 0 ∨ e = 0
        · rw [upload3dAdvance_of_mul_eq_zero f levels _ _ _
            (by rcases hz with rfl | rfl | rfl <;> simp)]
          exact Nat.zero_le _
        · obtain ⟨a, rfl⟩ : ∃ a', a = a' + 1 := ⟨a - 1, by omega⟩
          obtain ⟨c, rfl⟩ : ∃ c', c = c' + 1 := ⟨c - 1, by omega⟩
          obtain ⟨e, rfl⟩ : ∃ e', e = e' + 1 := ⟨e - 1, by omega⟩
          simp only [two_pow_succ_div_two]
          calc upload3dAdvance f levels (2 ^ a) (2 ^ c) (2 ^ e)
              ≤ mipLength f.bytesPerPixel levels (2 ^ a) (2 ^ c) * 2 ^ e :=
                upload3dAdvance_le hk levels a c e
            _ ≤ mipLength f.bytesPerPixel levels (2 ^ a) (2 ^ c) * 2 ^ (e + 1) :=
                Nat.mul_le_mul_left _ (Nat.pow_le_pow_right (by decide) (by omega))
      simp only [upload3dAdvance, mipLength, hw, hh, Nat.add_mul]
      exact Nat.add_le_add hlevel hrest

theorem bindTexture_of_3d {d : Memories} {dmaA dmaB : Nat} {r : TextureRegs} {b : TextureBind}
    (hb : bindTexture d dmaA dmaB r = some b) (hdim : b.shape.dimensionality = 3) :
    (kelvinColorFormatMap b.shape.colorFormat).linear = false ∧ b.shape.cubemap = false := by
  obtain ⟨-, -, hlen⟩ := bindTexture_format hb
  have hlin := linear_eq_false_of_textureLength hlen (.inr (by omega))
  refine ⟨hlin, ?_⟩
  rw [textureLength_of_swizzled hlin (by omega)] at hlen
  cases hcb : b.shape.cubemap
  · rfl
  · simp [hcb, hdim] at hlen

/-- The uploads of a bound 3-D texture stay within the length binding hashed. -/
theorem bindTexture_upload3dAdvance_le {d : Memories} {dmaA dmaB : Nat} {r : TextureRegs}
    {b : TextureBind} (hb : bindTexture d dmaA dmaB r = some b) (hdim : b.shape.dimensionality = 3)
    (hc : (kelvinColorFormatMap b.shape.colorFormat).compressed = false) :
    upload3dAdvance (kelvinColorFormatMap b.shape.colorFormat) b.shape.levels b.shape.width
      b.shape.height b.shape.depth ≤ b.length := by
  obtain ⟨hbpp, hdims, hlen⟩ := bindTexture_format hb
  obtain ⟨hlin, hcube⟩ := bindTexture_of_3d hb hdim
  obtain ⟨hw, hh, hd, -⟩ := textureDims_of_swizzled hlin hdims
  obtain ⟨k, hk⟩ := (kelvinColorFormatMap_bytesPerPixel _).resolve_left hbpp
  rw [textureLength_of_swizzled hlin (by omega)] at hlen
  simp only [hcube, Bool.false_eq_true, if_false, hdim, faceLength, hc] at hlen
  rw [← Option.some.inj hlen, if_pos (by omega), hw, hh, hd]
  exact upload3dAdvance_le hk ..

/-! ## Cube maps that fall below the rounding -/

/-- With a zero stride every face is uploaded from the bytes of the first. -/
theorem generateTexture_of_zero_stride {s : TextureShape} (texture palette : Mem)
    (h : textureTarget s = some .textureCubeMap) (h0 : cubeFaceStride s = 0) :
    generateTexture s texture palette =
      (upload2dLevels s (kelvinColorFormatMap s.colorFormat) palette s.levels s.width s.height
        texture).map fun px => px ++ px ++ px ++ px ++ px ++ px := by
  unfold cubeFaceStride at h0
  simp only [generateTexture, h, h0, Nat.mul_zero, shift_zero, uploadGlTexture]
  cases upload2dLevels s (kelvinColorFormatMap s.colorFormat) palette s.levels s.width s.height
    texture <;> rfl

/-- RAMIN with a DMA object at 0 for the first 64 KiB of a 64 MiB machine. -/
def cubeDmaRamin : Mem := fun a => if a = 0 then 0x3d else if a = 6 then 1 else 0

def cubeMemories (vram : Mem) : Memories :=
  { ramin := cubeDmaRamin, vram := vram, vramSize := 0x4000000 }

/-- A 2×2 DXT1 cube map of one level, at offset 0 of that object, on an enabled unit. -/
def dxt1CubeRegs : TextureRegs :=
  { ctl0 := 0x40000000, ctl1 := 0, fmt := 0x01110C84, imageRect := 0, offset := 0, palette := 0 }

/-- A 64×1 A8R8G8B8 cube map of seven levels, at offset 0 of that object, on an enabled unit. -/
def wideCubeRegs : TextureRegs :=
  { ctl0 := 0x40000180, ctl1 := 0, fmt := 0x00670684, imageRect := 0, offset := 0, palette := 0 }

/-- Binding hashes one padded block per face of the 2×2 DXT1 cube map, 128 bytes
apart, but `generate_texture` rounds nothing, finds a stride of 0 and uploads
the first face six times.  For the 64×1 cube map the faces are hashed 512
bytes apart and uploaded 256 apart. -/
theorem cubeFaceStride_differs_from_hashed (vram texture palette : Mem) :
    (∃ b, bindTexture (cubeMemories vram) 0 0 dxt1CubeRegs = some b ∧ b.length = 6 * 128 ∧
      cubeFaceStride b.shape = 0 ∧
      generateTexture b.shape texture palette =
        (upload2dLevels b.shape (kelvinColorFormatMap b.shape.colorFormat) palette b.shape.levels
          b.shape.width b.shape.height texture).map fun px => px ++ px ++ px ++ px ++ px ++ px) ∧
    (∃ b, bindTexture (cubeMemories vram) 0 0 wideCubeRegs = some b ∧ b.length = 6 * 512 ∧
      cubeFaceStride b.shape = 256) := by
  have hvram : ∀ r, bindTexture (cubeMemories vram) 0 0 r =
      bindTexture (cubeMemories fun _ => 0) 0 0 r := fun r =>
    bindTexture_vram (cubeMemories fun _ => 0) vram 0 0 r
  refine ⟨⟨⟨⟨true, 2, 0x0C, 1, 2, 2, 1, 0, 0, 0⟩, 0, 0, 768, 256⟩, by rw [hvram]; decide, rfl,
    by decide, generateTexture_of_zero_stride texture palette (by decide) (by decide)⟩,
    ⟨⟨⟨true, 2, 0x06, 7, 64, 1, 1, 0, 6, 0⟩, 0, 0, 3072, 256⟩, by rw [hvram]; decide, rfl,
    by decide⟩⟩

end Xqemu.Nv2a
