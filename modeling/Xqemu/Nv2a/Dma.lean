import Xqemu.Lib.BitField
import Xqemu.Lib.ByteMemory

/-!
# NV2A DMA objects and the accesses made through them

`nv_dma_load` decodes a DMA object (flags, limit and frame words) from RAMIN,
and `nv_dma_map` turns it into a host pointer into VRAM plus the guest-chosen
limit as the length.  The model gives the pointer as its offset from
`vram_ptr`; an assertion that fails is `none`.  The two PGRAPH methods that
store through such a pointer, the semaphore release and the zpass pixel-count
report, are modelled with the exact byte footprint of their stores.
-/

namespace Xqemu.Nv2a

open Xqemu.Bits Xqemu.Memory

/-- The RAM blocks of `NV2AState` that the DMA paths read and write. -/
structure Memories where
  /-- `d->ramin_ptr`. -/
  ramin : Mem
  /-- `d->vram_ptr`: the Xbox is UMA, so this is guest RAM. -/
  vram : Mem
  /-- `memory_region_size(d->vram)`, the machine's RAM size. -/
  vramSize : Nat

/-- `memory_region_init_ram(&d->ramin, ..., 0x100000, ...)` in `nv2a_init_memory`. -/
def raminSize : Nat := 0x100000

/-- `NV_DMA_CLASS`, mask `0x00000FFF`. -/
def nvDmaClass : Field := ⟨0, 12⟩
/-- `NV_DMA_TARGET`, mask `0x00030000`. -/
def nvDmaTarget : Field := ⟨16, 2⟩
/-- `NV_DMA_ADJUST`, mask `0xFFF00000`. -/
def nvDmaAdjust : Field := ⟨20, 12⟩
/-- `NV_DMA_ADDRESS`. -/
def nvDmaAddress : Nat := 0xFFFFF000

example : nvDmaClass.mask = 0x00000FFF ∧ nvDmaTarget.mask = 0x00030000 ∧
    nvDmaAdjust.mask = 0xFFF00000 := by decide

/-- `DMAObject`. -/
structure DMAObject where
  dmaClass : Nat
  dmaTarget : Nat
  address : Nat
  limit : Nat
  deriving DecidableEq, Repr

/-- `nv_dma_load`: decode the three words of the DMA object at `dmaObjAddress`. -/
def nvDmaLoad (ramin : Mem) (dmaObjAddress : Nat) : Option DMAObject :=
  if dmaObjAddress < raminSize then
    let flags := ldlLe ramin dmaObjAddress
    let limit := ldlLe ramin (dmaObjAddress + 4)
    let frame := ldlLe ramin (dmaObjAddress + 8)
    some { dmaClass := nvDmaClass.get flags
           dmaTarget := nvDmaTarget.get flags
           address := (frame &&& nvDmaAddress) ||| nvDmaAdjust.get flags
           limit := limit }
  else
    none

/-- `nv_dma_map`: the returned pointer as an offset from `vram_ptr`, and `*len`.
The check of `address + limit` against the VRAM size is commented out in the
source, so only the base is checked. -/
def nvDmaMap (d : Memories) (dmaObjAddress : Nat) : Option (Nat × Nat) := do
  let dma ← nvDmaLoad d.ramin dmaObjAddress
  let address := dma.address &&& 0x07FFFFFF
  if address < d.vramSize then some (address, dma.limit) else none

theorem nvDmaMap_spec {d : Memories} {dmaObjAddress base len : Nat}
    (h : nvDmaMap d dmaObjAddress = some (base, len)) :
    ∃ dma, nvDmaLoad d.ramin dmaObjAddress = some dma ∧
      base = dma.address &&& 0x07FFFFFF ∧ base < d.vramSize ∧ len = dma.limit := by
  unfold nvDmaMap at h
  cases hload : nvDmaLoad d.ramin dmaObjAddress with
  | none => simp [hload] at h
  | some dma =>
      simp only [hload, Option.bind_eq_bind, Option.bind_some] at h
      split at h
      · next hlt =>
          obtain ⟨rfl, rfl⟩ := Prod.mk.injEq _ _ _ _ ▸ Option.some.inj h
          exact ⟨dma, rfl, rfl, hlt, rfl⟩
      · cases h

/-- `NV097_BACK_END_WRITE_SEMAPHORE_RELEASE`: map `pg->dma_semaphore`, assert
`semaphore_offset < semaphore_dma_len`, then `stl_le_p` the parameter. -/
def backEndWriteSemaphoreRelease (d : Memories) (dmaSemaphore semaphoreOffset parameter : Nat) :
    Option Mem := do
  let (base, len) ← nvDmaMap d dmaSemaphore
  if semaphoreOffset < len then some (stlLe d.vram (base + semaphoreOffset) parameter)
  else none

/-- `NV097_GET_REPORT`: map `pg->dma_report`, assert `offset < report_dma_len`,
then store the 16-byte record (timestamp, pixel count, done). -/
def getReport (d : Memories) (dmaReport offset timestamp zpassPixelCountResult done : Nat) :
    Option Mem := do
  let (base, len) ← nvDmaMap d dmaReport
  if offset < len then
    let reportData := base + offset
    some (stlLe (stlLe (stqLe d.vram reportData timestamp) (reportData + 8) zpassPixelCountResult)
      (reportData + 12) done)
  else none

/-- The semaphore release stores exactly the four bytes at the mapped base plus
the offset, where the assertions only bound the base by the VRAM size and the
offset by the guest's limit. -/
theorem backEndWriteSemaphoreRelease_footprint {d : Memories}
    {dmaSemaphore semaphoreOffset parameter : Nat} {vram' : Mem}
    (h : backEndWriteSemaphoreRelease d dmaSemaphore semaphoreOffset parameter = some vram') :
    ∃ base len, nvDmaMap d dmaSemaphore = some (base, len) ∧ base < d.vramSize ∧
      semaphoreOffset < len ∧ vram' = storeLe d.vram (base + semaphoreOffset) 4 parameter := by
  unfold backEndWriteSemaphoreRelease at h
  cases hmap : nvDmaMap d dmaSemaphore with
  | none => simp [hmap] at h
  | some p =>
      obtain ⟨base, len⟩ := p
      obtain ⟨_, _, _, hbase, _⟩ := nvDmaMap_spec hmap
      simp only [hmap, Option.bind_eq_bind, Option.bind_some] at h
      split at h
      · next hoff => exact ⟨base, len, rfl, hbase, hoff, (Option.some.inj h).symm⟩
      · cases h

/-! ## A DMA object whose limit runs past VRAM -/

/-- RAMIN holding one DMA object at address 0: class `NV_DMA_IN_MEMORY_CLASS`,
limit `0xFFFFFFFF`, frame 0. -/
def oversizedDmaRamin : Mem := fun a =>
  if a = 0 then 0x3d else if 4 ≤ a ∧ a < 8 then 0xFF else 0

/-- A 64 MiB machine with an all-zero VRAM and the object above in RAMIN. -/
def oversizedDmaMemories : Memories :=
  { ramin := oversizedDmaRamin, vram := fun _ => 0, vramSize := 0x4000000 }

/-- With that object as the semaphore context and `semaphore_offset` equal to
the VRAM size, both assertions pass and the release stores the parameter's low
byte one byte past the end of VRAM. -/
theorem semaphoreRelease_writes_past_vram :
    (backEndWriteSemaphoreRelease oversizedDmaMemories 0 0x4000000 0x12345678).map
        (fun vram' => vram' oversizedDmaMemories.vramSize) = some 0x78 ∧
      oversizedDmaMemories.vram oversizedDmaMemories.vramSize = 0 := by
  constructor
  · simp [backEndWriteSemaphoreRelease, nvDmaMap, nvDmaLoad, oversizedDmaMemories,
      oversizedDmaRamin, raminSize, ldlLe, loadLe, stlLe, storeLe, nvDmaClass, nvDmaTarget,
      nvDmaAdjust, nvDmaAddress, Field.get, Field.mask]
  · rfl

theorem backEndWriteSemaphoreRelease_oversized_footprint :
    ∃ vram', backEndWriteSemaphoreRelease oversizedDmaMemories 0 0x4000000 0x12345678 = some vram' ∧
      ∃ base len, nvDmaMap oversizedDmaMemories 0 = some (base, len) ∧ base < oversizedDmaMemories.vramSize ∧
        0x4000000 < len ∧ vram' = storeLe oversizedDmaMemories.vram (base + 0x4000000) 4 0x12345678 := by
  obtain ⟨vram', h⟩ : ∃ vram', backEndWriteSemaphoreRelease oversizedDmaMemories 0 0x4000000 0x12345678 =
      some vram' := Option.isSome_iff_exists.mp (by
    simp [backEndWriteSemaphoreRelease, nvDmaMap, nvDmaLoad, oversizedDmaMemories, oversizedDmaRamin, raminSize,
      ldlLe, loadLe, nvDmaClass, nvDmaTarget, nvDmaAdjust, nvDmaAddress, Field.get, Field.mask])
  exact ⟨vram', h, backEndWriteSemaphoreRelease_footprint h⟩

end Xqemu.Nv2a
