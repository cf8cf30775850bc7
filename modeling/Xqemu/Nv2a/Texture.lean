import Xqemu.Nv2a.Dma
import Xqemu.Nv2a.Swizzle

/-!
# Binding and uploading a texture

For each enabled texture unit whose registers changed, `pgraph_bind_textures`
decodes the format and control registers into a `TextureShape`, maps the
texture and its palette through their DMA objects, and hashes `length` bytes of
texture and `palette_length` bytes of palette for the texture cache.  On a miss
`generate_texture` builds the texture: `upload_gl_texture` walks the mip
levels, unswizzles each one, converts the formats OpenGL lacks
(`convert_texture_data`) and hands the buffers to OpenGL, which reads them by
its unpack rules.

Pointers are offsets into VRAM and buffers are byte memories; a failed
assertion or a loop that never ends is `none`.  A built texture is the list of
byte strings OpenGL reads, one per `glTexImage*` call.  XXH64 is a parameter:
which bytes are hashed is the question here, not how.
-/

namespace Xqemu.Nv2a

open Xqemu.Bits Xqemu.Memory

/-! ## Colour formats -/

/-- The fields of `ColorFormatInfo` the texture paths read: `compressed` is
`gl_format == 0`, `dxt1` is `gl_internal_format ==
GL_COMPRESSED_RGBA_S3TC_DXT1_EXT`, and `glPixelSize` is the size in bytes of a
pixel of `gl_format` and `gl_type` (0 for compressed formats, which OpenGL reads
by image size). -/
structure ColorFormatInfo where
  bytesPerPixel : Nat
  linear : Bool
  compressed : Bool
  dxt1 : Bool
  glPixelSize : Nat
  deriving DecidableEq, Repr

/-- `NV097_SET_TEXTURE_FORMAT_COLOR_SZ_I8_A8R8G8B8`. -/
def colorSzI8A8r8g8b8 : Nat := 0x0B
/-- `NV097_SET_TEXTURE_FORMAT_COLOR_LC_IMAGE_CR8YB8CB8YA8`. -/
def colorLcImageCr8yb8cb8ya8 : Nat := 0x24
/-- `NV097_SET_TEXTURE_FORMAT_COLOR_SZ_R6G5B5`. -/
def colorSzR6g5b5 : Nat := 0x27

/-- `kelvin_color_format_map`; the entries the source leaves out are zero. -/
def kelvinColorFormatMap : Nat → ColorFormatInfo
  | 0x00 | 0x01 | 0x19 => ⟨1, false, false, false, 1⟩
  | 0x0B => ⟨1, false, false, false, 4⟩
  | 0x02 | 0x03 | 0x04 | 0x05 | 0x1A | 0x28 | 0x29 => ⟨2, false, false, false, 2⟩
  | 0x27 => ⟨2, false, false, false, 3⟩
  | 0x06 | 0x07 | 0x3A | 0x3C => ⟨4, false, false, false, 4⟩
  | 0x0C => ⟨4, false, true, true, 0⟩
  | 0x0E | 0x0F => ⟨4, false, true, false, 0⟩
  | 0x13 | 0x1B | 0x1F => ⟨1, true, false, false, 1⟩
  | 0x10 | 0x11 | 0x1C | 0x1D | 0x20 | 0x30 | 0x35 => ⟨2, true, false, false, 2⟩
  | 0x24 => ⟨2, true, false, false, 4⟩
  | 0x12 | 0x1E | 0x2E | 0x3F | 0x40 | 0x41 => ⟨4, true, false, false, 4⟩
  | _ => ⟨0, false, true, false, 0⟩

/-! ## Registers -/

def nvPgraphTexctl00Enable : Field := ⟨30, 1⟩
def nvPgraphTexctl00MaxLodClamp : Field := ⟨6, 12⟩
def nvPgraphTexctl00MinLodClamp : Field := ⟨18, 12⟩
def nvPgraphTexctl10ImagePitch : Field := ⟨16, 16⟩
def nvPgraphTexfmt0ContextDma : Field := ⟨1, 1⟩
def nvPgraphTexfmt0Cubemapenable : Field := ⟨2, 1⟩
def nvPgraphTexfmt0Dimensionality : Field := ⟨6, 2⟩
def nvPgraphTexfmt0Color : Field := ⟨8, 7⟩
def nvPgraphTexfmt0MipmapLevels : Field := ⟨16, 4⟩
def nvPgraphTexfmt0BaseSizeU : Field := ⟨20, 4⟩
def nvPgraphTexfmt0BaseSizeV : Field := ⟨24, 4⟩
def nvPgraphTexfmt0BaseSizeP : Field := ⟨28, 4⟩
def nvPgraphTeximagerect0Width : Field := ⟨16, 13⟩
def nvPgraphTeximagerect0Height : Field := ⟨0, 13⟩
def nvPgraphTexpalette0ContextDma : Field := ⟨0, 1⟩
def nvPgraphTexpalette0Length : Field := ⟨2, 2⟩
def nvPgraphTexpalette0Offset : Nat := 0xFFFFFFC0

example : nvPgraphTexctl00Enable.mask = 0x40000000 ∧ nvPgraphTexctl00MaxLodClamp.mask = 0x0003FFC0 ∧
    nvPgraphTexctl00MinLodClamp.mask = 0x3FFC0000 ∧ nvPgraphTexctl10ImagePitch.mask = 0xFFFF0000 ∧
    nvPgraphTexfmt0Dimensionality.mask = 0x000000C0 ∧ nvPgraphTexfmt0Color.mask = 0x00007F00 ∧
    nvPgraphTexfmt0MipmapLevels.mask = 0x000F0000 ∧ nvPgraphTexfmt0BaseSizeU.mask = 0x00F00000 ∧
    nvPgraphTexfmt0BaseSizeV.mask = 0x0F000000 ∧ nvPgraphTexfmt0BaseSizeP.mask = 0xF0000000 ∧
    nvPgraphTeximagerect0Width.mask = 0x1FFF0000 ∧ nvPgraphTeximagerect0Height.mask = 0x00001FFF ∧
    nvPgraphTexpalette0Length.mask = 0x0000000C := by
  decide

/-- The registers of a texture unit that `pgraph_bind_textures` reads for the
texture's data: `NV_PGRAPH_TEXCTL0_0`, `TEXCTL1_0`, `TEXFMT0`, `TEXIMAGERECT0`,
`TEXOFFSET0` and `TEXPALETTE0` of the unit. -/
structure TextureRegs where
  ctl0 : Nat
  ctl1 : Nat
  fmt : Nat
  imageRect : Nat
  offset : Nat
  palette : Nat
  deriving DecidableEq, Repr

/-- `TextureShape`, the key the texture cache compares. -/
structure TextureShape where
  cubemap : Bool
  dimensionality : Nat
  colorFormat : Nat
  levels : Nat
  width : Nat
  height : Nat
  depth : Nat
  minMipmapLevel : Nat
  maxMipmapLevel : Nat
  pitch : Nat
  deriving DecidableEq, Repr

/-! ## Binding -/

/-- The `switch (palette_length_index)` of `pgraph_bind_textures`. -/
def texPaletteLength : Nat → Option Nat
  | 0 => some 256
  | 1 => some 128
  | 2 => some 64
  | 3 => some 32
  | _ => none

/-- The format lookup, with `assert(color_format <
ARRAY_SIZE(kelvin_color_format_map))` and the abort on a format without bytes
per pixel. -/
def textureFormat (colorFormat : Nat) : Option ColorFormatInfo :=
  if colorFormat < 66 ∧ (kelvinColorFormatMap colorFormat).bytesPerPixel ≠ 0 then
    some (kelvinColorFormatMap colorFormat)
  else none

/-- The clamp of `levels` for a swizzled or compressed texture. -/
def clampLevels (f : ColorFormatInfo) (levels maxMipmapLevel logWidth logHeight : Nat) : Nat :=
  let levels := min levels (maxMipmapLevel + 1)
  if f.compressed = false then min levels (max logWidth logHeight + 1)
  else if logWidth < 2 ∨ logHeight < 2 then 1
  else min levels (min logWidth logHeight - 1)

/-- Width, height, depth and levels: a linear texture takes its size from
`TEXIMAGERECT0`, any other its base sizes from `TEXFMT0`, with `levels` clamped
and `assert(levels > 0)`. -/
def textureDims (f : ColorFormatInfo) (r : TextureRegs) : Option (Nat × Nat × Nat × Nat) :=
  let levels := nvPgraphTexfmt0MipmapLevels.get r.fmt
  if f.linear then
    if nvPgraphTexfmt0Dimensionality.get r.fmt = 2 then
      some (nvPgraphTeximagerect0Width.get r.imageRect, nvPgraphTeximagerect0Height.get r.imageRect,
        1, levels)
    else none
  else
    let logWidth := nvPgraphTexfmt0BaseSizeU.get r.fmt
    let logHeight := nvPgraphTexfmt0BaseSizeV.get r.fmt
    let levels := clampLevels f levels (nvPgraphTexctl00MaxLodClamp.get r.ctl0) logWidth logHeight
    if 0 < levels then
      some (1 <<< logWidth, 1 <<< logHeight, 1 <<< nvPgraphTexfmt0BaseSizeP.get r.fmt, levels)
    else none

/-- DXT1 packs a 4×4 block into 8 bytes, the other DXT formats into 16. -/
def blockSize (f : ColorFormatInfo) : Nat :=
  if f.dxt1 then 8 else 16

/-- The uncompressed mip loop of the hashed `length`. -/
def mipLength (bytesPerPixel : Nat) : Nat → Nat → Nat → Nat
  | 0, _, _ => 0
  | levels + 1, w, h =>
      let w := max w 1
      let h := max h 1
      w * h * bytesPerPixel % 2 ^ 32 + mipLength bytesPerPixel levels (w / 2) (h / 2)

/-- The compressed mip loop of the hashed `length`. -/
def compressedMipLength (blockSize : Nat) : Nat → Nat → Nat → Nat
  | 0, _, _ => 0
  | levels + 1, w, h =>
      let w := max w 4
      let h := max h 4
      w / 4 * h / 4 * blockSize % 2 ^ 32 + compressedMipLength blockSize levels (w / 2) (h / 2)

/-- `(length + NV2A_CUBEMAP_FACE_ALIGNMENT - 1) & ~(NV2A_CUBEMAP_FACE_ALIGNMENT - 1)`. -/
def alignCubemapFace (length : Nat) : Nat :=
  (length + 127) / 128 * 128

/-- The `length` of texture that `pgraph_bind_textures` hashes. -/
def textureLength (f : ColorFormatInfo) (s : TextureShape) : Option Nat :=
  if f.linear then
    if s.cubemap = false ∧ s.dimensionality = 2 then some (s.height * s.pitch % 2 ^ 32) else none
  else if s.dimensionality < 2 then some 0
  else
    let length := if f.compressed then compressedMipLength (blockSize f) s.levels s.width s.height
      else mipLength f.bytesPerPixel s.levels s.width s.height
    let length : Option Nat :=
      if s.cubemap then
        if s.dimensionality = 2 then some (alignCubemapFace length * 6) else none
      else some length
    length.map fun length => if 3 ≤ s.dimensionality then length * s.depth else length

/-- What `pgraph_bind_textures` holds for a texture when it looks up the cache:
the key's shape and pointers, and the two hashed lengths. -/
structure TextureBind where
  shape : TextureShape
  textureData : Nat
  paletteData : Nat
  length : Nat
  paletteLength : Nat
  deriving DecidableEq, Repr

/-- `pgraph_bind_textures` for one texture, up to the cache lookup; `dmaA` and
`dmaB` are `pg->dma_a` and `pg->dma_b`. -/
def bindTexture (d : Memories) (dmaA dmaB : Nat) (r : TextureRegs) : Option TextureBind := do
  let paletteLength ← texPaletteLength (nvPgraphTexpalette0Length.get r.palette)
  let f ← textureFormat (nvPgraphTexfmt0Color.get r.fmt)
  let (width, height, depth, levels) ← textureDims f r
  let (textureBase, dmaLen) ←
    nvDmaMap d (if nvPgraphTexfmt0ContextDma.get r.fmt = 0 then dmaA else dmaB)
  let (paletteBase, paletteDmaLen) ←
    nvDmaMap d (if nvPgraphTexpalette0ContextDma.get r.palette = 0 then dmaA else dmaB)
  let paletteOffset := r.palette &&& nvPgraphTexpalette0Offset
  let shape : TextureShape := {
    cubemap := nvPgraphTexfmt0Cubemapenable.get r.fmt != 0
    dimensionality := nvPgraphTexfmt0Dimensionality.get r.fmt
    colorFormat := nvPgraphTexfmt0Color.get r.fmt
    levels := levels
    width := width
    height := height
    depth := depth
    minMipmapLevel := nvPgraphTexctl00MinLodClamp.get r.ctl0
    maxMipmapLevel := nvPgraphTexctl00MaxLodClamp.get r.ctl0
    pitch := nvPgraphTexctl10ImagePitch.get r.ctl1 }
  let length ← textureLength f shape
  if r.offset < dmaLen ∧ paletteOffset < paletteDmaLen then
    some {
      shape := shape
      textureData := textureBase + r.offset
      paletteData := paletteBase + paletteOffset
      length := length
      paletteLength := paletteLength }
  else none

/-- `fast_hash(texture_data, length, 5003) ^ fnv_hash(palette_data,
palette_length)`, both of which are `XXH64(data, len, 0)`. -/
def textureHash (xxh64 : List UInt8 → UInt64) (vram : Mem) (b : TextureBind) : UInt64 :=
  xxh64 (bytes vram b.textureData b.length) ^^^ xxh64 (bytes vram b.paletteData b.paletteLength)

/-! ## Conversion -/

/-- A buffer fresh from `g_malloc`; the model reads its bytes as 0. -/
def freshBuffer : Mem :=
  fun _ => 0

/-- The `(x, y)` of the loops `for y … for x …`, in the order they run. -/
def rectIndices (width height : Nat) : List (Nat × Nat) :=
  (List.range height).flatMap fun y => (List.range width).map fun x => (x, y)

/-- The paletted branch of `convert_texture_data`: texel `(x, y)` is the four
palette bytes at `index * 4`. -/
def convertI8 (data palette : Mem) (width height rowPitch : Nat) : Mem :=
  (rectIndices width height).foldl (fun buf p =>
    memcpy buf (p.2 * width * 4 + p.1 * 4) palette ((data (p.2 * rowPitch + p.1)).toNat * 4) 4)
    freshBuffer

/-- `cliptobyte`. -/
def cliptobyte (x : Int) : UInt8 :=
  if x < 0 then 0 else if x > 255 then 255 else UInt8.ofNat x.toNat

/-- `convert_yuy2_to_rgb`: R, G and B of pixel `ix` of a line. -/
def convertYuy2ToRgb (line : Mem) (ix : Nat) : UInt8 × UInt8 × UInt8 :=
  let c : Int := (line (ix * 2)).toNat - 16
  let (d, e) : Int × Int :=
    if ix % 2 = 1 then ((line (ix * 2 - 1)).toNat - 128, (line (ix * 2 + 1)).toNat - 128)
    else ((line (ix * 2 + 1)).toNat - 128, (line (ix * 2 + 3)).toNat - 128)
  (cliptobyte ((298 * c + 409 * e + 128) >>> (8 : Nat)),
    cliptobyte ((298 * c - 100 * d - 208 * e + 128) >>> (8 : Nat)),
    cliptobyte ((298 * c + 516 * d + 128) >>> (8 : Nat)))

/-- The YUV branch of `convert_texture_data`: its lines are `s.width * 2`
bytes apart and its pixels are written `s.width` to a row, whatever `width`
it is given. -/
def convertYuy2 (s : TextureShape) (data : Mem) (width height : Nat) : Mem :=
  (rectIndices width height).foldl (fun buf p =>
    let (r, g, b) := convertYuy2ToRgb (shift data (p.2 * s.width * 2)) p.1
    storeBytes buf ((p.2 * s.width + p.1) * 4) [r, g, b, 255]) freshBuffer

/-- The R6G5B5 branch of `convert_texture_data`: three signed bytes per texel. -/
def convertR6g5b5 (data : Mem) (width height rowPitch : Nat) : Mem :=
  (rectIndices width height).foldl (fun buf p =>
    let rgb655 := loadLe data (p.2 * rowPitch + p.1 * 2) 2 ^^^ ((1 <<< 9) ||| (1 <<< 4))
    storeBytes buf ((p.2 * width + p.1) * 3)
      [UInt8.ofNat (((rgb655 &&& 0xFC00) >>> 10) * 0x7F / 0x3F),
        UInt8.ofNat (((rgb655 &&& 0x03E0) >>> 5) * 0xFF / 0x1F + 256 - 0x80),
        UInt8.ofNat ((rgb655 &&& 0x001F) * 0xFF / 0x1F + 256 - 0x80)]) freshBuffer

/-- `convert_texture_data`: `some none` is its `NULL`, for the formats it
leaves alone, and `none` a failed `assert(depth == 1)`. -/
def convertTextureData (s : TextureShape) (data palette : Mem) (width height depth rowPitch : Nat) :
    Option (Option Mem) :=
  if s.colorFormat = colorSzI8A8r8g8b8 then
    if depth = 1 then some (some (convertI8 data palette width height rowPitch)) else none
  else if s.colorFormat = colorLcImageCr8yb8cb8ya8 then
    if depth = 1 then some (some (convertYuy2 s data width height)) else none
  else if s.colorFormat = colorSzR6g5b5 then
    if depth = 1 then some (some (convertR6g5b5 data width height rowPitch)) else none
  else some none

/-! ## Upload -/

/-- The bytes `glTexImage2D` and `glTexImage3D` read from `buf`: `depth`
images of `height` rows of `width` pixels of `pixelSize` bytes.  Rows start
`GL_UNPACK_ROW_LENGTH` pixels apart (`width` when it is 0), rounded up to the
default `GL_UNPACK_ALIGNMENT` of 4. -/
def glUnpack (buf : Mem) (pixelSize width height depth rowLength : Nat) : List UInt8 :=
  let stride := ((if rowLength = 0 then width else rowLength) * pixelSize + 3) / 4 * 4
  (boxIndices 1 height depth).flatMap fun p =>
    bytes buf ((p.2.2 * height + p.2.1) * stride) (width * pixelSize)

/-- The mip loop of the 2D branch of `upload_gl_texture`, which also uploads
each face of a cube map. -/
def upload2dLevels (s : TextureShape) (f : ColorFormatInfo) (palette : Mem) :
    Nat → Nat → Nat → Mem → Option (List (List UInt8))
  | 0, _, _, _ => some []
  | levels + 1, width, height, texture =>
      if f.compressed then
        let width := max width 4
        let height := max height 4
        let imageSize := width / 4 * height / 4 * blockSize f % 2 ^ 32
        (upload2dLevels s f palette levels (width / 2) (height / 2) (shift texture imageSize)).map
          (bytes texture 0 imageSize :: ·)
      else
        let width := max width 1
        let height := max height 1
        let pitch := width * f.bytesPerPixel % 2 ^ 32
        do
          let unswizzled ← unswizzleRect texture width height freshBuffer pitch f.bytesPerPixel
          let converted ← convertTextureData s unswizzled palette width height 1 pitch
          let rest ← upload2dLevels s f palette levels (width / 2) (height / 2)
            (shift texture (width * height * f.bytesPerPixel % 2 ^ 32))
          pure (glUnpack (converted.getD unswizzled) f.glPixelSize width height 1 0 :: rest)

/-- The mip loop of the 3D branch of `upload_gl_texture`. -/
def upload3dLevels (s : TextureShape) (f : ColorFormatInfo) (palette : Mem) :
    Nat → Nat → Nat → Nat → Mem → Option (List (List UInt8))
  | 0, _, _, _, _ => some []
  | levels + 1, width, height, depth, texture =>
      let rowPitch := width * f.bytesPerPixel % 2 ^ 32
      let slicePitch := rowPitch * height % 2 ^ 32
      do
        let unswizzled ← unswizzleBox texture width height depth freshBuffer rowPitch slicePitch
          f.bytesPerPixel
        let converted ← convertTextureData s unswizzled palette width height depth rowPitch
        let rest ← upload3dLevels s f palette levels (width / 2) (height / 2) (depth / 2)
          (shift texture (width * height * depth * f.bytesPerPixel % 2 ^ 32))
        pure (glUnpack (converted.getD unswizzled) f.glPixelSize width height depth 0 :: rest)

/-- The OpenGL targets of `generate_texture` and `upload_gl_texture`. -/
inductive GlTarget
  | texture1d
  | texture2d
  | texture3d
  | textureRectangle
  | textureCubeMap
  | textureCubeMapPositiveX
  | textureCubeMapNegativeX
  | textureCubeMapPositiveY
  | textureCubeMapNegativeY
  | textureCubeMapPositiveZ
  | textureCubeMapNegativeZ
  deriving DecidableEq, Repr

/-- `upload_gl_texture`; `texture` and `palette` are memory as seen through
`texture_data` and `palette_data`. -/
def uploadGlTexture (glTarget : GlTarget) (s : TextureShape) (texture palette : Mem) :
    Option (List (List UInt8)) :=
  let f := kelvinColorFormatMap s.colorFormat
  match glTarget with
  | .textureRectangle =>
      if s.pitch % f.bytesPerPixel = 0 then
        (convertTextureData s texture palette s.width s.height 1 s.pitch).map fun converted =>
          [glUnpack (converted.getD texture) f.glPixelSize s.width s.height 1
            (s.pitch / f.bytesPerPixel)]
      else none
  | .texture2d | .textureCubeMapPositiveX | .textureCubeMapNegativeX | .textureCubeMapPositiveY
  | .textureCubeMapNegativeY | .textureCubeMapPositiveZ | .textureCubeMapNegativeZ =>
      upload2dLevels s f palette s.levels s.width s.height texture
  | .texture3d =>
      if f.compressed = false ∧ f.linear = false then
        upload3dLevels s f palette s.levels s.width s.height s.depth texture
      else none
  | .texture1d | .textureCubeMap => none

/-- The target `generate_texture` picks, with its assertions. -/
def textureTarget (s : TextureShape) : Option GlTarget :=
  let f := kelvinColorFormatMap s.colorFormat
  if s.cubemap then
    if f.linear = false ∧ s.dimensionality = 2 then some .textureCubeMap else none
  else if f.linear then
    if s.dimensionality = 2 then some .textureRectangle else none
  else
    match s.dimensionality with
    | 1 => some .texture1d
    | 2 => some .texture2d
    | 3 => some .texture3d
    | _ => none

/-- The mip loop of a cube face's `length` in `generate_texture`; unlike the
hashed one it does not round small levels up. -/
def cubeFaceLevels (f : ColorFormatInfo) : Nat → Nat → Nat → Nat
  | 0, _, _ => 0
  | levels + 1, w, h =>
      (if f.compressed then w / 4 * h / 4 * blockSize f else w * h * f.bytesPerPixel) % 2 ^ 32 +
        cubeFaceLevels f levels (w / 2) (h / 2)

/-- `generate_texture`, up to the texture parameters it sets: the uploads to
its target, six faces `length` apart for a cube map. -/
def generateTexture (s : TextureShape) (texture palette : Mem) : Option (List (List UInt8)) :=
  match textureTarget s with
  | none => none
  | some .textureCubeMap =>
      let length := alignCubemapFace
        (cubeFaceLevels (kelvinColorFormatMap s.colorFormat) s.levels s.width s.height)
      do
        let px ← uploadGlTexture .textureCubeMapPositiveX s texture palette
        let nx ← uploadGlTexture .textureCubeMapNegativeX s (shift texture length) palette
        let py ← uploadGlTexture .textureCubeMapPositiveY s (shift texture (2 * length)) palette
        let ny ← uploadGlTexture .textureCubeMapNegativeY s (shift texture (3 * length)) palette
        let pz ← uploadGlTexture .textureCubeMapPositiveZ s (shift texture (4 * length)) palette
        let nz ← uploadGlTexture .textureCubeMapNegativeZ s (shift texture (5 * length)) palette
        pure (px ++ nx ++ py ++ ny ++ pz ++ nz)
  | some glTarget => uploadGlTexture glTarget s texture palette

/-! ## What binding and building read -/

/-- Binding maps the DMA objects, which live in RAMIN: it reads no VRAM. -/
theorem bindTexture_vram (d : Memories) (vram : Mem) (dmaA dmaB : Nat) (r : TextureRegs) :
    bindTexture { d with vram := vram } dmaA dmaB r = bindTexture d dmaA dmaB r := rfl

/-- The cache hash reads only its two ranges. -/
theorem textureHash_congr (xxh64 : List UInt8 → UInt64) {vram vram' : Mem} {b : TextureBind}
    (htex : AgreeOn vram vram' b.textureData b.length)
    (hpal : AgreeOn vram vram' b.paletteData b.paletteLength) :
    textureHash xxh64 vram b = textureHash xxh64 vram' b := by
  unfold textureHash
  rw [bytes_congr htex, bytes_congr hpal]

/-- Everything `pgraph_bind_textures` checked of a texture it binds. -/
theorem bindTexture_spec {d : Memories} {dmaA dmaB : Nat} {r : TextureRegs} {b : TextureBind}
    (h : bindTexture d dmaA dmaB r = some b) :
    ∃ f, textureFormat b.shape.colorFormat = some f ∧
      textureDims f r = some (b.shape.width, b.shape.height, b.shape.depth, b.shape.levels) ∧
      textureLength f b.shape = some b.length ∧
      texPaletteLength (nvPgraphTexpalette0Length.get r.palette) = some b.paletteLength ∧
      b.shape.colorFormat = nvPgraphTexfmt0Color.get r.fmt ∧
      b.shape.cubemap = (nvPgraphTexfmt0Cubemapenable.get r.fmt != 0) ∧
      b.shape.dimensionality = nvPgraphTexfmt0Dimensionality.get r.fmt := by
  unfold bindTexture at h
  simp only [Option.bind_eq_bind, Option.bind_eq_some_iff] at h
  obtain ⟨paletteLength, hp, f, hf, ⟨width, height, depth, levels⟩, hd, ⟨textureBase, dmaLen⟩, -,
    ⟨paletteBase, paletteDmaLen⟩, -, length, hlen, h⟩ := h
  split at h
  · obtain rfl := (Option.some.inj h).symm
    exact ⟨f, hf, hd, hlen, hp, rfl, rfl, rfl⟩
  · cases h

/-- Two binds whose first steps fail together, and whose continuations all fail
together, fail together. -/
theorem isSome_bind_of_isSome {α β γ δ : Type} {x : Option α} {y : Option β}
    {f : α → Option γ} {g : β → Option δ} (hxy : x.isSome = y.isSome)
    (hfg : ∀ a b, (f a).isSome = (g b).isSome) : (x.bind f).isSome = (y.bind g).isSome := by
  cases x with
  | none =>
      cases y with
      | none => rfl
      | some b => simp at hxy
  | some a =>
      cases y with
      | none => simp at hxy
      | some b => exact hfg a b

theorem convertTextureData_isSome (s : TextureShape) (data data' palette palette' : Mem)
    (width height depth rowPitch : Nat) :
    (convertTextureData s data palette width height depth rowPitch).isSome =
      (convertTextureData s data' palette' width height depth rowPitch).isSome := by
  unfold convertTextureData
  split_ifs <;> simp

theorem upload2dLevels_isSome (s : TextureShape) (f : ColorFormatInfo) (palette palette' : Mem) :
    ∀ levels width height (texture texture' : Mem),
      (upload2dLevels s f palette levels width height texture).isSome =
        (upload2dLevels s f palette' levels width height texture').isSome
  | 0, _, _, _, _ => rfl
  | levels + 1, width, height, texture, texture' => by
      have ih := upload2dLevels_isSome s f palette palette' levels
      simp only [upload2dLevels, unswizzleRect]
      split
      · simp only [Option.isSome_map]
        exact ih ..
      · -- a level fails as its unswizzle, its conversion or a later level does
        simp only [Option.bind_eq_bind]
        exact isSome_bind_of_isSome (unswizzleBox_isSome ..) fun _ _ =>
          isSome_bind_of_isSome (convertTextureData_isSome ..) fun _ _ =>
            isSome_bind_of_isSome (ih ..) fun _ _ => rfl

theorem upload3dLevels_isSome (s : TextureShape) (f : ColorFormatInfo) (palette palette' : Mem) :
    ∀ levels width height depth (texture texture' : Mem),
      (upload3dLevels s f palette levels width height depth texture).isSome =
        (upload3dLevels s f palette' levels width height depth texture').isSome
  | 0, _, _, _, _, _ => rfl
  | levels + 1, width, height, depth, texture, texture' => by
      have ih := upload3dLevels_isSome s f palette palette' levels
      simp only [upload3dLevels, Option.bind_eq_bind]
      exact isSome_bind_of_isSome (unswizzleBox_isSome ..) fun _ _ =>
        isSome_bind_of_isSome (convertTextureData_isSome ..) fun _ _ =>
          isSome_bind_of_isSome (ih ..) fun _ _ => rfl

theorem uploadGlTexture_isSome (glTarget : GlTarget) (s : TextureShape)
    (texture texture' palette palette' : Mem) :
    (uploadGlTexture glTarget s texture palette).isSome =
      (uploadGlTexture glTarget s texture' palette').isSome := by
  unfold uploadGlTexture
  cases glTarget <;> dsimp only
  case textureRectangle =>
    split_ifs
    · simp only [Option.isSome_map]
      exact convertTextureData_isSome ..
    · rfl
  case texture3d =>
    split_ifs
    · exact upload3dLevels_isSome ..
    · rfl
  all_goals exact upload2dLevels_isSome ..

/-- Whether a texture can be built depends on its shape alone, not on the bytes
of its texture or palette. -/
theorem generateTexture_isSome (s : TextureShape) (texture texture' palette palette' : Mem) :
    (generateTexture s texture palette).isSome = (generateTexture s texture' palette').isSome := by
  unfold generateTexture
  split
  · rfl
  · simp only [Option.bind_eq_bind]
    exact isSome_bind_of_isSome (uploadGlTexture_isSome ..) fun _ _ =>
      isSome_bind_of_isSome (uploadGlTexture_isSome ..) fun _ _ =>
        isSome_bind_of_isSome (uploadGlTexture_isSome ..) fun _ _ =>
          isSome_bind_of_isSome (uploadGlTexture_isSome ..) fun _ _ =>
            isSome_bind_of_isSome (uploadGlTexture_isSome ..) fun _ _ =>
              isSome_bind_of_isSome (uploadGlTexture_isSome ..) fun _ _ => rfl
  · exact uploadGlTexture_isSome ..

/-! ## The first texel of a paletted texture -/

@[simp] theorem mem_rectIndices {width height : Nat} {p : Nat × Nat} :
    p ∈ rectIndices width height ↔ p.1 < width ∧ p.2 < height := by
  obtain ⟨x, y⟩ := p
  simp only [rectIndices, List.mem_flatMap, List.mem_range, List.mem_map, Prod.mk.injEq]
  constructor
  · rintro ⟨y', hy, x', hx, rfl, rfl⟩
    exact ⟨hx, hy⟩
  · rintro ⟨hx, hy⟩
    exact ⟨y, hy, x, hx, rfl, rfl⟩

/-- The first converted texel is the palette entry its index selects. -/
theorem convertI8_origin {data palette : Mem} {width height rowPitch k : Nat}
    (hw : 0 < width) (hh : 0 < height) (hk : k < 4) :
    convertI8 data palette width height rowPitch k = palette ((data 0).toNat * 4 + k) := by
  unfold convertI8
  refine foldl_memcpy_apply _ (fun p _ hcov => ?_) ⟨(0, 0), mem_rectIndices.mpr ⟨hw, hh⟩, ?_⟩ _
  · -- only texel (0, 0) is written below byte 4
    obtain ⟨x, y⟩ := p
    dsimp only at hcov
    have hx : x = 0 := by omega
    have hy : y = 0 := by
      have hyw : y * width = 0 := by omega
      rcases Nat.mul_eq_zero.mp hyw with hy | hw0
      · exact hy
      · omega
    subst hx hy
    simp
  · simp only
    omega

theorem glUnpack_head {buf : Mem} {pixelSize width height depth rowLength : Nat}
    (hw : 0 < width * pixelSize) (hh : 0 < height) (hd : 0 < depth) :
    (glUnpack buf pixelSize width height depth rowLength).head? = some (buf 0) := by
  obtain ⟨n, hn⟩ : ∃ n, width * pixelSize = n + 1 := ⟨_, (Nat.succ_pred_eq_of_pos hw).symm⟩
  obtain ⟨height, rfl⟩ : ∃ h, height = h + 1 := ⟨_, (Nat.succ_pred_eq_of_pos hh).symm⟩
  obtain ⟨depth, rfl⟩ : ∃ d, depth = d + 1 := ⟨_, (Nat.succ_pred_eq_of_pos hd).symm⟩
  simp [glUnpack, boxIndices, List.range_succ_eq_map, bytes, hn]

theorem kelvinColorFormatMap_i8 :
    kelvinColorFormatMap colorSzI8A8r8g8b8 = ⟨1, false, false, false, 4⟩ := rfl

/-- The first level of a paletted 2D texture starts with the palette entry of
its first texel. -/
theorem upload2dLevels_i8_head {s : TextureShape} {palette texture : Mem}
    {levels width height : Nat} {imgs : List (List UInt8)} (hs : s.colorFormat = colorSzI8A8r8g8b8)
    (hw : width < 2 ^ 32) (hh : max height 1 * max width 1 ≤ 2 ^ 32)
    (h : upload2dLevels s (kelvinColorFormatMap colorSzI8A8r8g8b8) palette (levels + 1) width height
      texture = some imgs) :
    ∃ img rest, imgs = img :: rest ∧ img.head? = some (palette ((texture 0).toNat * 4)) := by
  rw [kelvinColorFormatMap_i8] at h
  simp only [upload2dLevels, Bool.false_eq_true, if_false, Option.bind_eq_bind,
    Option.bind_eq_some_iff] at h
  obtain ⟨unswizzled, hu, converted, hc, rest, -, h⟩ := h
  have hpitch : max width 1 * 1 % 2 ^ 32 = max width 1 := by omega
  rw [hpitch] at hu hc
  simp only [convertTextureData, hs, if_true, Option.some.injEq] at hc
  have hfirst : unswizzled 0 = texture 0 :=
    unswizzleBox_origin (by omega) (by omega) Nat.one_pos (fun _ => by omega)
      (fun h => absurd h (by omega)) (by omega) hh Nat.one_pos hu
  refine ⟨_, rest, (Option.some.inj h).symm, ?_⟩
  rw [← hc, Option.getD_some, glUnpack_head (by omega) (by omega) Nat.one_pos,
    convertI8_origin (by omega) (by omega) (by omega), hfirst, Nat.add_zero]

theorem generateTexture_of_i8 {s : TextureShape} {texture palette : Mem}
    (hs : s.colorFormat = colorSzI8A8r8g8b8) (hcube : s.cubemap = false)
    (hdim : s.dimensionality = 2) :
    generateTexture s texture palette =
      upload2dLevels s (kelvinColorFormatMap colorSzI8A8r8g8b8) palette s.levels s.width s.height
        texture := by
  have ht : textureTarget s = some .texture2d := by
    simp [textureTarget, hcube, hs, kelvinColorFormatMap_i8, hdim]
  simp [generateTexture, ht, uploadGlTexture, hs]

/-- A swizzled texture is a power of two on each side, with at least one level. -/
theorem textureDims_of_swizzled {f : ColorFormatInfo} {r : TextureRegs}
    {width height depth levels : Nat} (hf : f.linear = false)
    (h : textureDims f r = some (width, height, depth, levels)) :
    width = 2 ^ nvPgraphTexfmt0BaseSizeU.get r.fmt ∧ height = 2 ^ nvPgraphTexfmt0BaseSizeV.get r.fmt ∧
      depth = 2 ^ nvPgraphTexfmt0BaseSizeP.get r.fmt ∧ 0 < levels := by
  simp only [textureDims, hf, Bool.false_eq_true, if_false] at h
  split at h
  · next hlevels =>
      simp only [Option.some.injEq, Prod.mk.injEq, Nat.one_shiftLeft] at h
      obtain ⟨rfl, rfl, rfl, rfl⟩ := h
      exact ⟨rfl, rfl, rfl, hlevels⟩
  · cases h

/-- Binding hashes `palette_length` bytes of palette, but the conversion reads
the four bytes at `index * 4`.  So for every paletted 2D texture whose first
texel picks an entry at or past `palette_length`, a byte of that entry can
change while the bound key and every hashed byte stay, and the texture built
from the new memory differs. -/
theorem palette_entry_outside_hash {d : Memories} {dmaA dmaB : Nat} {r : TextureRegs}
    {b : TextureBind} {imgs : List (List UInt8)} {c : UInt8}
    (hb : bindTexture d dmaA dmaB r = some b) (hs : b.shape.colorFormat = colorSzI8A8r8g8b8)
    (hcube : b.shape.cubemap = false) (hdim : b.shape.dimensionality = 2)
    (hlt : b.textureData < b.paletteData) (hbelow : b.textureData + b.length ≤ b.paletteData)
    (hbeyond : b.paletteLength ≤ (d.vram b.textureData).toNat * 4)
    (hc : c ≠ d.vram (b.paletteData + (d.vram b.textureData).toNat * 4))
    (hgen : generateTexture b.shape (shift d.vram b.textureData) (shift d.vram b.paletteData) =
      some imgs) :
    let vram' := Function.update d.vram (b.paletteData + (d.vram b.textureData).toNat * 4) c
    bindTexture { d with vram := vram' } dmaA dmaB r = some b ∧
      (∀ xxh64, textureHash xxh64 vram' b = textureHash xxh64 d.vram b) ∧
      ∃ imgs', generateTexture b.shape (shift vram' b.textureData) (shift vram' b.paletteData) =
        some imgs' ∧ imgs' ≠ imgs := by
  intro vram'
  have hagree : ∀ x, x ≠ b.paletteData + (d.vram b.textureData).toNat * 4 → vram' x = d.vram x :=
    fun x hx => Function.update_of_ne hx _ _
  refine ⟨(bindTexture_vram d vram' dmaA dmaB r).trans hb,
    fun xxh64 => textureHash_congr xxh64 (fun x _ hx => hagree x (by omega))
      (fun x _ hx => hagree x (by omega)), ?_⟩
  -- the texture is swizzled, so its width is a small power of two and it has a level
  obtain ⟨f, hf, hdims, -⟩ := bindTexture_spec hb
  rw [hs] at hf
  have hfi : f = kelvinColorFormatMap colorSzI8A8r8g8b8 := by
    unfold textureFormat at hf
    rw [if_pos (by decide)] at hf
    exact (Option.some.inj hf).symm
  obtain ⟨hwidth, hheight, -, hlevels⟩ := textureDims_of_swizzled (by rw [hfi]; rfl) hdims
  have hw : b.shape.width < 2 ^ 32 := by
    have hu := Field.get_lt nvPgraphTexfmt0BaseSizeU r.fmt
    rw [hwidth]
    exact Nat.pow_lt_pow_right (by omega) (lt_of_lt_of_le hu (by decide))
  -- both sides are powers of two below `2 ^ 16`, so no row offset of the level wraps
  have hside : ∀ g : Field, g.width = 4 → ∀ v, 2 ^ g.get v ≤ 2 ^ 15 := fun g hg v => by
    have hlt := Field.get_lt g v
    rw [hg] at hlt
    exact Nat.pow_le_pow_right (by omega) (by simp at hlt; omega)
  have hh : max b.shape.height 1 * max b.shape.width 1 ≤ 2 ^ 32 := by
    rw [hheight, hwidth, max_eq_left Nat.one_le_two_pow, max_eq_left Nat.one_le_two_pow]
    calc 2 ^ nvPgraphTexfmt0BaseSizeV.get r.fmt * 2 ^ nvPgraphTexfmt0BaseSizeU.get r.fmt
        ≤ 2 ^ 15 * 2 ^ 15 := Nat.mul_le_mul (hside _ rfl _) (hside _ rfl _)
      _ ≤ 2 ^ 32 := by decide
  obtain ⟨levels, hlev⟩ : ∃ l, b.shape.levels = l + 1 := ⟨_, (Nat.succ_pred_eq_of_pos hlevels).symm⟩
  -- the new memory builds a texture too, since building reads no bytes to decide
  obtain ⟨imgs', himgs'⟩ : ∃ imgs', generateTexture b.shape (shift vram' b.textureData)
      (shift vram' b.paletteData) = some imgs' :=
    Option.isSome_iff_exists.mp ((generateTexture_isSome b.shape _ (shift d.vram b.textureData) _
      (shift d.vram b.paletteData)).trans (by rw [hgen]; rfl))
  refine ⟨imgs', himgs', fun heq => hc ?_⟩
  rw [generateTexture_of_i8 hs hcube hdim, hlev] at hgen himgs'
  obtain ⟨img, rest, rfl, himg⟩ := upload2dLevels_i8_head hs hw hh hgen
  obtain ⟨img', rest', rfl, himg'⟩ := upload2dLevels_i8_head hs hw hh himgs'
  -- the first texel is untouched, and so picks the changed entry
  have htexel : vram' (b.textureData + 0) = d.vram b.textureData := hagree _ (by omega)
  simp only [shift, htexel] at himg'
  simp only [shift, Nat.add_zero] at himg
  obtain ⟨rfl, -⟩ := List.cons.inj heq
  have hsame : vram' (b.paletteData + (d.vram b.textureData).toNat * 4) =
      d.vram (b.paletteData + (d.vram b.textureData).toNat * 4) :=
    Option.some.inj (himg'.symm.trans himg)
  have hnew : vram' (b.paletteData + (d.vram b.textureData).toNat * 4) = c :=
    Function.update_self _ _ _
  rwa [hnew] at hsame

end Xqemu.Nv2a
