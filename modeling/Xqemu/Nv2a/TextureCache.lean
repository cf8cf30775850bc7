import Xqemu.Nv2a.Lru
import Xqemu.Nv2a.Texture
import Xqemu.Nv2a.TextureReads

/-!
# The texture cache

`pg->texture_cache` is an LRU of `TextureKey`s (`lru.c`).  `pgraph_bind_textures`
looks a texture up under the hash of the bytes it hashes;
`texture_cache_entry_compare` compares the shape alone, and on a miss
`texture_cache_entry_init` copies the key into the node and generates the
node's texture from memory as it is at that moment.  A hit hands back the
node's texture as it was generated, so what the cache returns is only as fresh
as the hash is complete.  In front of the cache stand the unit's ENABLE bit and
its `texture_dirty` flag (`bindTextureUnit`): only an enabled unit that a
texture method has dirtied reaches the lookup.
-/

namespace Xqemu.Nv2a

open Xqemu.Bits Xqemu.Memory

variable {ν : Type} [DecidableEq ν]

/-- `TextureKey` without its `lru_node` and its `binding`. -/
structure TextureKey where
  state : TextureShape
  textureData : Nat
  paletteData : Nat
  deriving DecidableEq, Repr

/-- `pg->texture_cache`: the LRU and, for each node, its key and the texture
its `binding` holds. -/
structure TextureCache (ν : Type) where
  lru : Lru ν
  key : ν → TextureKey
  binding : ν → List (List UInt8)

/-- `texture_cache_entry_compare(node, key) == 0`: a `memcmp` of the states. -/
def textureCacheEntryCompare (c : TextureCache ν) (key : TextureKey) (node : ν) : Bool :=
  decide ((c.key node).state = key.state)

/-- The callbacks `lru_lookup` made, in order: `texture_cache_entry_init`
copies the key and generates the texture, `texture_cache_entry_deinit` only
drops a reference to the binding. -/
def runTextureCallbacks (vram : Mem) :
    List (LruCall ν TextureKey) → TextureCache ν → Option (TextureCache ν)
  | [], c => some c
  | .init node key :: calls, c =>
      (generateTexture key.state (shift vram key.textureData) (shift vram key.paletteData)).bind
        fun texture => runTextureCallbacks vram calls
          { c with key := Function.update c.key node key,
                   binding := Function.update c.binding node texture }
  | .deinit _ :: calls, c => runTextureCallbacks vram calls c

/-- The cache lookup of `pgraph_bind_textures`, and the texture the node found
holds. -/
def textureCacheLookup (fuel : Nat) (vram : Mem) (c : TextureCache ν) (hash : UInt64)
    (key : TextureKey) : Option (TextureCache ν × List (List UInt8)) := do
  let (lru, node, calls) ← lruLookup fuel c.lru hash.toNat (textureCacheEntryCompare c key) key
  let c ← runTextureCallbacks vram calls { c with lru := lru }
  pure (c, c.binding node)

/-- `pgraph_bind_textures` for one texture, through the cache.  Each call is a bind of an
enabled unit whose `texture_dirty` flag a texture method (`NV097_SET_TEXTURE_OFFSET`, `_FORMAT`,
`_IMAGE_RECT` or `_PALETTE`) has set since the last bind, the path that reaches the lookup. -/
def bindTextureCached (xxh64 : List UInt8 → UInt64) (fuel : Nat) (d : Memories) (dmaA dmaB : Nat)
    (r : TextureRegs) (c : TextureCache ν) : Option (TextureCache ν × List (List UInt8)) := do
  let b ← bindTexture d dmaA dmaB r
  textureCacheLookup fuel d.vram c (textureHash xxh64 d.vram b) ⟨b.shape, b.textureData, b.paletteData⟩

/-- A texture unit's `texture_dirty[i]` and the images its `texture_binding[i]` holds. -/
structure TextureUnit where
  dirty : Bool
  binding : Option (List (List UInt8))

/-- `pgraph_bind_textures` for unit `i`, its gate included: a disabled unit binds no texture
and keeps its state; a clean unit with a binding binds it again; any other goes through the
cache and is clean after, bound to what the cache returned. -/
def bindTextureUnit (xxh64 : List UInt8 → UInt64) (fuel : Nat) (d : Memories) (dmaA dmaB : Nat)
    (r : TextureRegs) (u : TextureUnit) (c : TextureCache ν) :
    Option (TextureUnit × TextureCache ν × Option (List (List UInt8))) :=
  if nvPgraphTexctl00Enable.get r.ctl0 = 0 then some (u, c, none)
  else if !u.dirty && u.binding.isSome then some (u, c, u.binding)
  else do
    let (c', imgs) ← bindTextureCached xxh64 fuel d dmaA dmaB r c
    pure (⟨false, some imgs⟩, c', some imgs)

/-! ## Lookups on the list model -/

/-- A lookup leaves the node it returns at the front under the hash looked up:
a hit of a node whose key compares equal, or a miss that initialises it. -/
theorem LruList.lookup_front {κ : Type} {a a' : LruList ν} {hash : Nat} {keyCompare : ν → Bool}
    {key : κ} {node : ν} {calls : List (LruCall ν κ)}
    (h : a.lookup hash keyCompare key = some (a', node, calls)) :
    a'.active.head? = some node ∧ a'.hash node = hash ∧
      (calls = [] ∧ a.active.find? (fun n => a.hash n = hash && keyCompare n) = some node ∨
        a.active.find? (fun n => a.hash n = hash && keyCompare n) = none ∧
          (calls = [.init node key] ∨ calls = [.deinit node, .init node key])) := by
  unfold LruList.lookup at h
  cases hfind : a.active.find? (fun n => a.hash n = hash && keyCompare n) with
  | some hit =>
      simp only [hfind, Option.some.injEq, Prod.mk.injEq] at h
      obtain ⟨rfl, rfl, rfl⟩ := h
      have hp := List.find?_some hfind
      simp only [Bool.and_eq_true, decide_eq_true_eq] at hp
      exact ⟨rfl, hp.1, .inl ⟨rfl, rfl⟩⟩
  | none =>
      simp only [hfind] at h
      cases hfree : a.free with
      | cons first free =>
          simp only [hfree, Option.some.injEq, Prod.mk.injEq] at h
          obtain ⟨rfl, rfl, rfl⟩ := h
          exact ⟨rfl, Function.update_self .., .inr ⟨rfl, .inl rfl⟩⟩
      | nil =>
          simp only [hfree] at h
          cases hlast : a.active.getLast? with
          | none => simp [hlast] at h
          | some last =>
              simp only [hlast, Option.some.injEq, Prod.mk.injEq] at h
              obtain ⟨rfl, rfl, rfl⟩ := h
              exact ⟨rfl, Function.update_self .., .inr ⟨rfl, .inr rfl⟩⟩

/-! ## Lookups on the cache -/

theorem runTextureCallbacks_lru {vram : Mem} :
    ∀ {calls : List (LruCall ν TextureKey)} {c c' : TextureCache ν},
      runTextureCallbacks vram calls c = some c' → c'.lru = c.lru
  | [], _, _, h => by
      simp only [runTextureCallbacks, Option.some.injEq] at h
      rw [h]
  | .init node key :: calls, c, c', h => by
      simp only [runTextureCallbacks, Option.bind_eq_some_iff] at h
      obtain ⟨_, -, h⟩ := h
      have hlru := runTextureCallbacks_lru h
      exact hlru
  | .deinit _ :: calls, c, c', h => by
      simp only [runTextureCallbacks] at h
      exact runTextureCallbacks_lru h

/-- The initialisation a miss makes: the node gets the key and a texture
generated from memory at the lookup. -/
theorem runTextureCallbacks_init {vram : Mem} {c c' : TextureCache ν} {node : ν}
    {key : TextureKey} {calls : List (LruCall ν TextureKey)}
    (hcalls : calls = [.init node key] ∨ calls = [.deinit node, .init node key])
    (h : runTextureCallbacks vram calls c = some c') :
    c'.key node = key ∧
      generateTexture key.state (shift vram key.textureData) (shift vram key.paletteData) =
        some (c'.binding node) := by
  have hinit : runTextureCallbacks vram [.init node key] c = some c' := by
    rcases hcalls with rfl | rfl
    · exact h
    · exact h
  simp only [runTextureCallbacks, Option.bind_eq_some_iff, Option.some.injEq] at hinit
  obtain ⟨texture, hgen, rfl⟩ := hinit
  simp [hgen]

/-- After a lookup, the node it used stands at the front of the active list
under the hash looked up, with the key's shape and the texture the lookup
returned. -/
theorem textureCacheLookup_front {c c₁ : TextureCache ν} {a : LruList ν} {fuel : Nat}
    {vram : Mem} {hash : UInt64} {key : TextureKey} {texture : List (List UInt8)}
    (hr : Represents c.lru a) (hne : a.active ++ a.free ≠ [])
    (hfuel : (a.active ++ a.free).length ≤ fuel)
    (h : textureCacheLookup fuel vram c hash key = some (c₁, texture)) :
    ∃ a₁ node, Represents c₁.lru a₁ ∧ (a₁.active ++ a₁.free).Perm (a.active ++ a.free) ∧
      a₁.active.head? = some node ∧ a₁.hash node = hash.toNat ∧
      (c₁.key node).state = key.state ∧ c₁.binding node = texture := by
  obtain ⟨a₁, lru₁, node, calls, habs, hlookup, hr₁⟩ :=
    lruLookup_represents hr hne (le_trans (by simp) hfuel) hash.toNat
      (textureCacheEntryCompare c key) key
  unfold textureCacheLookup at h
  simp only [hlookup, Option.bind_eq_bind, Option.bind_some, Option.bind_eq_some_iff, pure,
    Option.some.injEq, Prod.mk.injEq] at h
  obtain ⟨c', hrun, rfl, rfl⟩ := h
  have hlru : c'.lru = lru₁ := runTextureCallbacks_lru hrun
  obtain ⟨hhead, hhash, hcalls⟩ := LruList.lookup_front habs
  refine ⟨a₁, node, hlru ▸ hr₁, LruList.lookup_perm habs, hhead, hhash, ?_, rfl⟩
  rcases hcalls with ⟨rfl, hfind⟩ | ⟨-, hcalls⟩
  · -- a hit: nothing was called, and the node's shape compared equal
    simp only [runTextureCallbacks, Option.some.injEq] at hrun
    subst hrun
    have hp := List.find?_some hfind
    simp only [Bool.and_eq_true, textureCacheEntryCompare, decide_eq_true_eq] at hp
    exact hp.2
  · rw [(runTextureCallbacks_init hcalls hrun).1]

/-- A lookup whose hash and shape are those of the front node hits it, calls
nothing, and returns the texture the node holds. -/
theorem textureCacheLookup_of_front {c : TextureCache ν} {a : LruList ν} {fuel : Nat}
    {vram : Mem} {hash : UInt64} {key : TextureKey} {node : ν}
    (hr : Represents c.lru a) (hfuel : (a.active ++ a.free).length ≤ fuel)
    (hfront : a.active.head? = some node) (hhash : a.hash node = hash.toNat)
    (hstate : (c.key node).state = key.state) :
    ∃ c₁, textureCacheLookup fuel vram c hash key = some (c₁, c.binding node) := by
  obtain ⟨rest, hact⟩ : ∃ rest, a.active = node :: rest := by
    cases h : a.active with
    | nil => simp [h] at hfront
    | cons n rest =>
        rw [h, List.head?_cons, Option.some.injEq] at hfront
        exact ⟨rest, by rw [hfront]⟩
  have hne : a.active ++ a.free ≠ [] := by simp [hact]
  obtain ⟨a₁, lru₁, node₁, calls, habs, hlookup, -⟩ :=
    lruLookup_represents hr hne (le_trans (by simp) hfuel) hash.toNat
      (textureCacheEntryCompare c key) key
  -- the list model finds the front node first
  have hfind : a.active.find? (fun n => a.hash n = hash.toNat && textureCacheEntryCompare c key n) =
      some node := by
    simp [hact, hhash, textureCacheEntryCompare, hstate]
  unfold LruList.lookup at habs
  simp only [hfind, Option.some.injEq, Prod.mk.injEq] at habs
  obtain ⟨-, rfl, rfl⟩ := habs
  refine ⟨{ c with lru := lru₁ }, ?_⟩
  simp [textureCacheLookup, hlookup, runTextureCallbacks]

/-- Looked up again under the same hash with a key of the same shape, the
cache hands back the texture it handed back before, whatever memory now holds. -/
theorem textureCacheLookup_again {c c₁ : TextureCache ν} {a : LruList ν} {fuel : Nat}
    {vram vram' : Mem} {hash : UInt64} {key key' : TextureKey} {texture : List (List UInt8)}
    (hr : Represents c.lru a) (hne : a.active ++ a.free ≠ [])
    (hfuel : (a.active ++ a.free).length ≤ fuel) (hstate : key'.state = key.state)
    (h : textureCacheLookup fuel vram c hash key = some (c₁, texture)) :
    ∃ c₂, textureCacheLookup fuel vram' c₁ hash key' = some (c₂, texture) := by
  obtain ⟨a₁, node, hr₁, hperm, hfront, hhash, hkey, hbinding⟩ :=
    textureCacheLookup_front hr hne hfuel h
  rw [← hbinding]
  exact textureCacheLookup_of_front hr₁ (by rw [hperm.length_eq]; exact hfuel) hfront hhash
    (hkey.trans hstate.symm)

/-- A key that no active node matches is a miss: its texture is generated
from memory at the lookup. -/
theorem textureCacheLookup_of_miss {c : TextureCache ν} {a : LruList ν} {fuel : Nat}
    {vram : Mem} {hash : UInt64} {key : TextureKey} {texture : List (List UInt8)}
    (hr : Represents c.lru a) (hne : a.active ++ a.free ≠ [])
    (hfuel : (a.active ++ a.free).length ≤ fuel)
    (hmiss : a.active.find? (fun n => a.hash n = hash.toNat && textureCacheEntryCompare c key n) =
      none)
    (hgen : generateTexture key.state (shift vram key.textureData) (shift vram key.paletteData) =
      some texture) :
    ∃ c₁, textureCacheLookup fuel vram c hash key = some (c₁, texture) := by
  obtain ⟨a₁, lru₁, node, calls, habs, hlookup, -⟩ :=
    lruLookup_represents hr hne (le_trans (by simp) hfuel) hash.toNat
      (textureCacheEntryCompare c key) key
  obtain ⟨-, -, hcalls⟩ := LruList.lookup_front habs
  have hinit : calls = [.init node key] ∨ calls = [.deinit node, .init node key] := by
    rcases hcalls with ⟨-, hfind⟩ | ⟨-, hcalls⟩
    · rw [hmiss] at hfind
      cases hfind
    · exact hcalls
  have hrun : ∃ c', runTextureCallbacks vram calls { c with lru := lru₁ } = some c' := by
    rcases hinit with rfl | rfl <;> simp [runTextureCallbacks, hgen]
  obtain ⟨c', hc'⟩ := hrun
  refine ⟨c', ?_⟩
  have hbinding := (runTextureCallbacks_init hinit hc').2
  rw [hgen, Option.some.injEq] at hbinding
  simp [textureCacheLookup, hlookup, hc', hbinding]

/-! ## A stale texture -/

/-- Through the cache, a paletted 2D texture whose first texel picks a palette
entry past the hashed palette bytes comes back stale.  Bound once from `d`, a
miss, and again after a byte of that entry changed and a texture method re-dirtied the unit,
the second binding hits and returns what `d` built, which is not what the changed memory
builds. -/
theorem bindTextureCached_stale_palette {xxh64 : List UInt8 → UInt64} {fuel : Nat}
    {d : Memories} {dmaA dmaB : Nat} {r : TextureRegs} {b : TextureBind}
    {imgs : List (List UInt8)} {c₀ : TextureCache ν} {a : LruList ν} {v : UInt8}
    (hr : Represents c₀.lru a) (hne : a.active ++ a.free ≠ [])
    (hfuel : (a.active ++ a.free).length ≤ fuel)
    (hmiss : a.active.find? (fun n => a.hash n = (textureHash xxh64 d.vram b).toNat &&
      textureCacheEntryCompare c₀ ⟨b.shape, b.textureData, b.paletteData⟩ n) = none)
    (hb : bindTexture d dmaA dmaB r = some b) (hs : b.shape.colorFormat = colorSzI8A8r8g8b8)
    (hcube : b.shape.cubemap = false) (hdim : b.shape.dimensionality = 2)
    (hlt : b.textureData < b.paletteData) (hbelow : b.textureData + b.length ≤ b.paletteData)
    (hbeyond : b.paletteLength ≤ (d.vram b.textureData).toNat * 4)
    (hv : v ≠ d.vram (b.paletteData + (d.vram b.textureData).toNat * 4))
    (hgen : generateTexture b.shape (shift d.vram b.textureData) (shift d.vram b.paletteData) =
      some imgs) :
    let d' : Memories := { d with
      vram := Function.update d.vram (b.paletteData + (d.vram b.textureData).toNat * 4) v }
    ∃ c₁ c₂, bindTextureCached xxh64 fuel d dmaA dmaB r c₀ = some (c₁, imgs) ∧
      bindTextureCached xxh64 fuel d' dmaA dmaB r c₁ = some (c₂, imgs) ∧
      generateTexture b.shape (shift d'.vram b.textureData) (shift d'.vram b.paletteData) ≠
        some imgs := by
  intro d'
  obtain ⟨hb', hhash, imgs', hgen', hdiff⟩ :=
    palette_entry_outside_hash hb hs hcube hdim hlt hbelow hbeyond hv hgen
  -- the first binding misses and builds from `d`
  obtain ⟨c₁, h₁⟩ := textureCacheLookup_of_miss hr hne hfuel hmiss hgen
  -- the second has the same hash and shape, and hits
  obtain ⟨c₂, h₂⟩ : ∃ c₂, textureCacheLookup fuel d'.vram c₁ (textureHash xxh64 d.vram b)
      ⟨b.shape, b.textureData, b.paletteData⟩ = some (c₂, imgs) :=
    textureCacheLookup_again hr hne hfuel rfl h₁
  refine ⟨c₁, c₂, ?_, ?_, ?_⟩
  · simp only [bindTextureCached, hb, Option.bind_eq_bind, Option.bind_some]
    exact h₁
  · simp only [bindTextureCached, Option.bind_eq_bind]
    rw [hb', Option.bind_some, hhash xxh64]
    exact h₂
  · rw [hgen']
    exact fun h => hdiff (Option.some.inj h)

/-! ## The gate of `pgraph_bind_textures`

`texture_dirty[i]` is set by the texture methods that change what a unit reads
(`NV097_SET_TEXTURE_OFFSET`, `_FORMAT`, `_IMAGE_RECT`, `_PALETTE`) and cleared by a bind; a
clean unit skips the cache. -/

section Gate

variable {xxh64 : List UInt8 → UInt64} {fuel : Nat} {d : Memories} {dmaA dmaB : Nat}
  {r : TextureRegs} {c : TextureCache ν}

/-- On an enabled unit that a texture method has dirtied, the gate lets the bind through to
the cache. -/
theorem bindTextureUnit_of_dirty (hen : nvPgraphTexctl00Enable.get r.ctl0 ≠ 0)
    (binding : Option (List (List UInt8))) :
    bindTextureUnit xxh64 fuel d dmaA dmaB r ⟨true, binding⟩ c =
      (bindTextureCached xxh64 fuel d dmaA dmaB r c).map
        fun p => (⟨false, some p.2⟩, p.1, some p.2) := by
  simp only [bindTextureUnit, if_neg hen, Bool.not_true, Bool.false_and, Bool.false_eq_true, if_false]
  cases bindTextureCached xxh64 fuel d dmaA dmaB r c <;> rfl

/-- A bind of a clean unit reads no memory: whatever VRAM now holds, it binds the images of
the last bind again. -/
theorem bindTextureUnit_of_clean (hen : nvPgraphTexctl00Enable.get r.ctl0 ≠ 0)
    (imgs : List (List UInt8)) (d' : Memories) :
    bindTextureUnit xxh64 fuel d' dmaA dmaB r ⟨false, some imgs⟩ c = some (⟨false, some imgs⟩, c, some imgs) := by
  simp [bindTextureUnit, hen]

/-- The stale palette of `bindTextureCached_stale_palette` through the gate: an enabled unit
bound from `d`, then re-dirtied by a texture method (`NV097_SET_TEXTURE_PALETTE` sent again)
after a byte of the palette entry changed, binds the images `d` built. -/
theorem bindTextureUnit_stale_palette {c₀ : TextureCache ν} {a : LruList ν} {v : UInt8}
    {b : TextureBind} {imgs : List (List UInt8)} (binding : Option (List (List UInt8)))
    (hen : nvPgraphTexctl00Enable.get r.ctl0 ≠ 0)
    (hr : Represents c₀.lru a) (hne : a.active ++ a.free ≠ [])
    (hfuel : (a.active ++ a.free).length ≤ fuel)
    (hmiss : a.active.find? (fun n => a.hash n = (textureHash xxh64 d.vram b).toNat &&
      textureCacheEntryCompare c₀ ⟨b.shape, b.textureData, b.paletteData⟩ n) = none)
    (hb : bindTexture d dmaA dmaB r = some b) (hs : b.shape.colorFormat = colorSzI8A8r8g8b8)
    (hcube : b.shape.cubemap = false) (hdim : b.shape.dimensionality = 2)
    (hlt : b.textureData < b.paletteData) (hbelow : b.textureData + b.length ≤ b.paletteData)
    (hbeyond : b.paletteLength ≤ (d.vram b.textureData).toNat * 4)
    (hv : v ≠ d.vram (b.paletteData + (d.vram b.textureData).toNat * 4))
    (hgen : generateTexture b.shape (shift d.vram b.textureData) (shift d.vram b.paletteData) =
      some imgs) :
    let d' : Memories := { d with
      vram := Function.update d.vram (b.paletteData + (d.vram b.textureData).toNat * 4) v }
    ∃ c₁ c₂, bindTextureUnit xxh64 fuel d dmaA dmaB r ⟨true, binding⟩ c₀ =
        some (⟨false, some imgs⟩, c₁, some imgs) ∧
      bindTextureUnit xxh64 fuel d' dmaA dmaB r ⟨true, some imgs⟩ c₁ =
        some (⟨false, some imgs⟩, c₂, some imgs) ∧
      generateTexture b.shape (shift d'.vram b.textureData) (shift d'.vram b.paletteData) ≠
        some imgs := by
  intro d'
  obtain ⟨c₁, c₂, h₁, h₂, hdiff⟩ :=
    bindTextureCached_stale_palette hr hne hfuel hmiss hb hs hcube hdim hlt hbelow hbeyond hv hgen
  refine ⟨c₁, c₂, ?_, ?_, hdiff⟩
  · rw [bindTextureUnit_of_dirty hen, h₁]
    rfl
  · rw [bindTextureUnit_of_dirty hen, h₂]
    rfl

end Gate

/-- RAMIN with one DMA object at 0: flags `0x3d`, limit `0xFFFF`, frame 0. -/
def textureDmaRamin : Mem := fun a =>
  if a = 0 then 0x3d else if a = 4 ∨ a = 5 then 0xFF else 0

/-- A 1×1 paletted 2D texture with one level at VRAM 0, through DMA object 0,
and a 256-entry palette at `0x400`, on an enabled unit (TEXCTL0 bit 30). -/
def i8TextureRegs : TextureRegs where
  ctl0 := 0x40000000
  ctl1 := 0
  fmt := 0x00010B80
  imageRect := 0
  offset := 0
  palette := 0x400

/-- A 64 MiB machine whose one texel is `0xFF`, with everything else zero. -/
def paletteMemories : Memories where
  ramin := textureDmaRamin
  vram a := if a = 0 then 0xFF else 0
  vramSize := 0x4000000

/-- The same memory with the first byte of palette entry 255 set. -/
def paletteMemories' : Memories :=
  { paletteMemories with vram := Function.update paletteMemories.vram 0x7FC 0xFF }

/-- One free node, 0. -/
def oneNodeTextureCache : TextureCache Nat where
  lru := lruAddFree ⟨none, none, fun _ => none, fun _ => 0, 0⟩ 0
  key _ := ⟨⟨false, 0, 0, 0, 0, 0, 0, 0, 0, 0⟩, 0, 0⟩
  binding _ := []

theorem texture_cache_returns_stale_palette (xxh64 : List UInt8 → UInt64) :
    ∃ c₁ c₂, bindTextureCached xxh64 1 paletteMemories 0 0 i8TextureRegs oneNodeTextureCache =
        some (c₁, [[0, 0, 0, 0]]) ∧
      bindTextureCached xxh64 1 paletteMemories' 0 0 i8TextureRegs c₁ = some (c₂, [[0, 0, 0, 0]]) ∧
      generateTexture (⟨false, 2, 0x0B, 1, 1, 1, 1, 0, 0, 0⟩ : TextureShape)
        (shift paletteMemories'.vram 0) (shift paletteMemories'.vram 0x400) = some [[0xFF, 0, 0, 0]] := by
  have hinit : Represents (⟨none, none, fun _ => none, fun _ => 0, 0⟩ : Lru Nat)
      ⟨[], [], fun _ => 0⟩ := ⟨rfl, rfl, List.nodup_nil, rfl, rfl⟩
  have hr : Represents oneNodeTextureCache.lru ⟨[], [0], fun _ => 0⟩ :=
    lruAddFree_represents hinit (by simp)
  have hb : bindTexture paletteMemories 0 0 i8TextureRegs =
      some ⟨⟨false, 2, 0x0B, 1, 1, 1, 1, 0, 0, 0⟩, 0, 0x400, 1, 256⟩ := by
    decide
  obtain ⟨c₁, c₂, h₁, h₂, -⟩ := bindTextureCached_stale_palette (v := 0xFF) hr (by simp)
    (le_refl 1) rfl hb rfl rfl rfl (by decide) (by decide) (by decide) (by decide)
    (show generateTexture _ _ _ = some [[0, 0, 0, 0]] by decide)
  exact ⟨c₁, c₂, h₁, h₂, by decide⟩

/-- A 4×4 A8R8G8B8 texture with three levels at VRAM 0: binding hashes its 84 bytes, and the
byte after them does not change what is built. -/
theorem bindTexture_generateTexture_congr_of_2d_mipmapped :
    bindTexture paletteMemories 0 0 { i8TextureRegs with ctl0 := 0x40000080, fmt := 0x02230680, palette := 0 } =
        some ⟨⟨false, 2, 6, 3, 4, 4, 1, 0, 2, 0⟩, 0, 0, 84, 256⟩ ∧
      AgreeOn paletteMemories.vram (Function.update paletteMemories.vram 84 0x12) 0 84 ∧
      generateTexture ⟨false, 2, 6, 3, 4, 4, 1, 0, 2, 0⟩ (shift paletteMemories.vram 0)
          (shift paletteMemories.vram 0) =
        generateTexture ⟨false, 2, 6, 3, 4, 4, 1, 0, 2, 0⟩
          (shift (Function.update paletteMemories.vram 84 0x12) 0) (shift paletteMemories.vram 0) := by
  have hb : bindTexture paletteMemories 0 0
      { i8TextureRegs with ctl0 := 0x40000080, fmt := 0x02230680, palette := 0 } =
        some ⟨⟨false, 2, 6, 3, 4, 4, 1, 0, 2, 0⟩, 0, 0, 84, 256⟩ := by
    decide
  have hagree : AgreeOn paletteMemories.vram (Function.update paletteMemories.vram 84 0x12) 0 84 :=
    agreeOn_update_of_le 0x12 (Nat.le_refl _)
  exact ⟨hb, hagree, bindTexture_generateTexture_congr_of_2d hb rfl (by decide) (by decide)
    (fun h => absurd h (by decide)) hagree _⟩

/-- A 2×2×2 A8R8G8B8 volume with two levels at VRAM 0: binding hashes its 40 bytes, and the
byte after them does not change what is built. -/
theorem bindTexture_generateTexture_congr_of_3d_volume :
    bindTexture paletteMemories 0 0 { i8TextureRegs with ctl0 := 0x40000040, fmt := 0x111206C0, palette := 0 } =
        some ⟨⟨false, 3, 6, 2, 2, 2, 2, 0, 1, 0⟩, 0, 0, 40, 256⟩ ∧
      AgreeOn paletteMemories.vram (Function.update paletteMemories.vram 40 0x12) 0 40 ∧
      generateTexture ⟨false, 3, 6, 2, 2, 2, 2, 0, 1, 0⟩ (shift paletteMemories.vram 0)
          (shift paletteMemories.vram 0) =
        generateTexture ⟨false, 3, 6, 2, 2, 2, 2, 0, 1, 0⟩
          (shift (Function.update paletteMemories.vram 40 0x12) 0) (shift paletteMemories.vram 0) := by
  have hb : bindTexture paletteMemories 0 0
      { i8TextureRegs with ctl0 := 0x40000040, fmt := 0x111206C0, palette := 0 } =
        some ⟨⟨false, 3, 6, 2, 2, 2, 2, 0, 1, 0⟩, 0, 0, 40, 256⟩ := by
    decide
  have hagree : AgreeOn paletteMemories.vram (Function.update paletteMemories.vram 40 0x12) 0 40 :=
    agreeOn_update_of_le 0x12 (Nat.le_refl _)
  exact ⟨hb, hagree, bindTexture_generateTexture_congr_of_3d hb rfl (by decide) hagree _⟩

/-- A 3×2 linear A8R8G8B8 image with a pitch of 16 at VRAM 0: binding hashes both rows with
their padding, 32 bytes, and the byte after them does not change what is built. -/
theorem bindTexture_generateTexture_congr_of_linear_rows :
    bindTexture paletteMemories 0 0
        { i8TextureRegs with fmt := 0x00011280, ctl1 := 0x00100000, imageRect := 0x00030002, palette := 0 } =
          some ⟨⟨false, 2, 0x12, 1, 3, 2, 1, 0, 0, 16⟩, 0, 0, 32, 256⟩ ∧
      AgreeOn paletteMemories.vram (Function.update paletteMemories.vram 32 0x12) 0 32 ∧
      generateTexture ⟨false, 2, 0x12, 1, 3, 2, 1, 0, 0, 16⟩ (shift paletteMemories.vram 0)
          (shift paletteMemories.vram 0) =
        generateTexture ⟨false, 2, 0x12, 1, 3, 2, 1, 0, 0, 16⟩
          (shift (Function.update paletteMemories.vram 32 0x12) 0) (shift paletteMemories.vram 0) := by
  have hb : bindTexture paletteMemories 0 0
      { i8TextureRegs with fmt := 0x00011280, ctl1 := 0x00100000, imageRect := 0x00030002, palette := 0 } =
        some ⟨⟨false, 2, 0x12, 1, 3, 2, 1, 0, 0, 16⟩, 0, 0, 32, 256⟩ := by
    decide
  have hagree : AgreeOn paletteMemories.vram (Function.update paletteMemories.vram 32 0x12) 0 32 :=
    agreeOn_update_of_le 0x12 (Nat.le_refl _)
  exact ⟨hb, hagree, bindTexture_generateTexture_congr_of_linear hb (by decide) (by decide) (by decide)
    (by decide) (by decide) hagree _⟩

end Xqemu.Nv2a
