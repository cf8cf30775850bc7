import Xqemu.Nv2a.Dma

/-!
# PFIFO register state

The registers of `d->pfifo.regs` that `pfifo_run_pusher` and `pfifo_run_puller`
read or write, one field per register, and the CACHE1 method/data slots.  The
source addresses the slots as `regs[NV_PFIFO_CACHE1_METHOD + put*2]` and
`regs[NV_PFIFO_CACHE1_DATA + put*2]`; for `put < 0x200` these addresses are
distinct from each other and from every named register, so the model indexes
the two slot arrays directly by the byte offset `put`.

A field is named after its register (`dmaState` is `NV_PFIFO_CACHE1_DMA_STATE`),
and each `nvPfifo…` constant is the `nv2a_regs.h` macro of the same words; the
`example` after the constants checks their masks against the header.

`ramht_hash` and `ramht_lookup` are here as well: the puller resolves object
handles through them.
-/

namespace Xqemu.Nv2a.Pfifo

open Xqemu.Bits Xqemu.Memory

/-- The PFIFO registers used by the pusher and the puller. -/
structure Regs where
  ramht : Nat := 0
  mode : Nat := 0
  push0 : Nat := 0
  push1 : Nat := 0
  put : Nat := 0
  status : Nat := 0
  dmaPush : Nat := 0
  dmaState : Nat := 0
  dmaInstance : Nat := 0
  dmaPut : Nat := 0
  dmaGet : Nat := 0
  dmaSubroutine : Nat := 0
  pull0 : Nat := 0
  pull1 : Nat := 0
  get : Nat := 0
  engine : Nat := 0
  dmaDcount : Nat := 0
  dmaGetJmpShadow : Nat := 0
  dmaRsvdShadow : Nat := 0
  dmaDataShadow : Nat := 0
  /-- `regs[NV_PFIFO_CACHE1_METHOD + put*2]`, indexed by `put`. -/
  cache1Method : Nat → Nat := fun _ => 0
  /-- `regs[NV_PFIFO_CACHE1_DATA + put*2]`, indexed by `put`. -/
  cache1Data : Nat → Nat := fun _ => 0

/-! ## Register fields -/

def nvPfifoRamhtBaseAddress : Field := ⟨4, 5⟩
def nvPfifoRamhtSize : Field := ⟨16, 2⟩
def nvPfifoCache1Push0Access : Field := ⟨0, 1⟩
def nvPfifoCache1Push1Chid : Field := ⟨0, 5⟩
def nvPfifoCache1Push1Mode : Field := ⟨8, 1⟩
def nvPfifoCache1Push1ModeDma : Nat := 1
def nvPfifoCache1StatusLowMark : Nat := 1 <<< 4
def nvPfifoCache1StatusHighMark : Nat := 1 <<< 8
def nvPfifoCache1DmaPushAccess : Field := ⟨0, 1⟩
def nvPfifoCache1DmaPushStatus : Field := ⟨12, 1⟩
def nvPfifoCache1DmaStateMethodType : Field := ⟨0, 1⟩
def nvPfifoCache1DmaStateMethodTypeInc : Nat := 0
def nvPfifoCache1DmaStateMethodTypeNonInc : Nat := 1
def nvPfifoCache1DmaStateMethod : Field := ⟨2, 11⟩
def nvPfifoCache1DmaStateSubchannel : Field := ⟨13, 3⟩
def nvPfifoCache1DmaStateMethodCount : Field := ⟨18, 11⟩
def nvPfifoCache1DmaStateError : Field := ⟨29, 3⟩
def nvPfifoCache1DmaStateErrorNone : Nat := 0
def nvPfifoCache1DmaInstanceAddress : Field := ⟨0, 16⟩
def nvPfifoCache1DmaSubroutineState : Field := ⟨0, 1⟩
def nvPfifoCache1Pull0Access : Field := ⟨0, 1⟩
def nvPfifoCache1Pull1Engine : Field := ⟨0, 2⟩
def nvPfifoCache1MethodType : Field := ⟨0, 1⟩
def nvPfifoCache1MethodAddress : Field := ⟨2, 11⟩
def nvPfifoCache1MethodSubchannel : Field := ⟨13, 3⟩
/-- `3 << (4*subchannel)`: the engine bound to a subchannel in `NV_PFIFO_CACHE1_ENGINE`. -/
def cache1EngineField (subchannel : Nat) : Field := ⟨4 * subchannel, 2⟩

example : nvPfifoRamhtBaseAddress.mask = 0x1F0 ∧ nvPfifoRamhtSize.mask = 0x30000 ∧
    nvPfifoCache1Push1Chid.mask = 0x1F ∧ nvPfifoCache1Push1Mode.mask = 0x100 ∧
    nvPfifoCache1DmaStateMethod.mask = 0x1FFC ∧ nvPfifoCache1DmaStateSubchannel.mask = 0xE000 ∧
    nvPfifoCache1DmaStateMethodCount.mask = 0x1FFC0000 ∧
    nvPfifoCache1DmaStateError.mask = 0xE0000000 ∧ nvPfifoCache1DmaPushStatus.mask = 0x1000 ∧
    nvPfifoCache1MethodAddress.mask = 0x1FFC ∧ nvPfifoCache1MethodSubchannel.mask = 0xE000 := by
  decide

/-- `enum FIFOEngine`: `ENGINE_GRAPHICS`. -/
def engineGraphics : Nat := 1

/-! ## RAMHT -/

def nvRamhtInstance : Nat := 0x0000FFFF
def nvRamhtEngine : Nat := 0x00030000
def nvRamhtChid : Nat := 0x1F000000
def nvRamhtStatus : Nat := 0x80000000

/-- `RAMHTEntry`. -/
structure RAMHTEntry where
  handle : Nat
  /-- `.instance` -/
  objInstance : Nat
  engine : Nat
  channelId : Nat
  valid : Bool
  deriving DecidableEq, Repr

/-- `1 << (GET_MASK(regs[NV_PFIFO_RAMHT], NV_PFIFO_RAMHT_SIZE) + 12)`. -/
def ramhtSizeOf (p : Regs) : Nat :=
  1 <<< (nvPfifoRamhtSize.get p.ramht + 12)

/-- The `while (handle)` loop of `ramht_hash`: xor the handle's `bits`-bit chunks.
The source's `bits` is `ctz32(ramht_size) - 1 ≥ 11`; at `bits = 0` the C loop
would not terminate, and the model stops. -/
def ramhtHashFold (bits handle : Nat) : Nat :=
  if h : handle = 0 ∨ bits = 0 then 0
  else (handle &&& ((1 <<< bits) - 1)) ^^^ ramhtHashFold bits (handle >>> bits)
termination_by handle
decreasing_by
  rw [Nat.shiftRight_eq_div_pow]
  exact Nat.div_lt_self (by omega) (Nat.one_lt_two_pow (by omega))

/-- `ramht_hash`: `bits = ctz32(ramht_size) - 1`, fold the handle, then mix in
the channel id of `CACHE1_PUSH1`. -/
def ramhtHash (p : Regs) (handle : Nat) : Nat :=
  let bits := (nvPfifoRamhtSize.get p.ramht + 12) - 1
  let channelId := nvPfifoCache1Push1Chid.get p.push1
  ramhtHashFold bits handle ^^^ (channelId <<< (bits - 4))

/-- `ramht_lookup`; `none` when one of its two assertions fails. -/
def ramhtLookup (ramin : Mem) (p : Regs) (handle : Nat) : Option RAMHTEntry :=
  let hash := ramhtHash p handle
  let ramhtAddress := nvPfifoRamhtBaseAddress.get p.ramht <<< 12
  if hash * 8 < ramhtSizeOf p ∧ ramhtAddress + hash * 8 < raminSize then
    let entryHandle := ldlLe ramin (ramhtAddress + hash * 8)
    let entryContext := ldlLe ramin (ramhtAddress + hash * 8 + 4)
    some { handle := entryHandle
           objInstance := (entryContext &&& nvRamhtInstance) <<< 4
           engine := (entryContext &&& nvRamhtEngine) >>> 16
           channelId := (entryContext &&& nvRamhtChid) >>> 24
           valid := entryContext &&& nvRamhtStatus != 0 }
  else
    none

theorem ramhtHashFold_of_lt {bits handle : Nat} (hb : 0 < bits) (h : handle < 2 ^ bits) :
    ramhtHashFold bits handle = handle := by
  rw [ramhtHashFold]
  split_ifs with h0
  · omega
  · have hshift : handle >>> bits = 0 := by
      rw [Nat.shiftRight_eq_div_pow]
      exact Nat.div_eq_of_lt h
    rw [hshift, ramhtHashFold, dif_pos (Or.inl rfl), Nat.xor_zero, Nat.one_shiftLeft,
      Nat.and_two_pow_sub_one_eq_mod, Nat.mod_eq_of_lt h]

theorem ramhtLookup_of_not_lt {ramin : Mem} {p : Regs} {handle : Nat}
    (h : ¬ramhtHash p handle * 8 < ramhtSizeOf p) : ramhtLookup ramin p handle = none := by
  unfold ramhtLookup
  dsimp only
  rw [if_neg (fun h' => h h'.1)]

/-- The hash ranges over `2 ^ bits = ramht_size / 2` entries while the table
holds `ramht_size / 8`: whatever the size setting and the channel, some
handle makes `ramht_lookup`'s bounds assertion fail.  The handle sets bit
`bits - 1` of the hash, the channel's bit there being cleared or kept. -/
theorem ramhtLookup_assert_fails (ramin : Mem) (p : Regs) :
    ∃ handle, handle < 2 ^ 32 ∧ ¬ramhtHash p handle * 8 < ramhtSizeOf p ∧
      ramhtLookup ramin p handle = none := by
  obtain ⟨s, hsdef⟩ : ∃ s, nvPfifoRamhtSize.get p.ramht = s := ⟨_, rfl⟩
  have hs : s < 4 := hsdef ▸ Field.get_lt nvPfifoRamhtSize p.ramht
  have hsize : ramhtSizeOf p = 2 ^ (s + 12) := by
    rw [ramhtSizeOf, hsdef, Nat.one_shiftLeft]
  let Y := nvPfifoCache1Push1Chid.get p.push1 <<< (s + 7)
  have hhash : ∀ handle, ramhtHash p handle = ramhtHashFold (s + 11) handle ^^^ Y := by
    intro handle
    dsimp only [ramhtHash]
    rw [hsdef, show s + 12 - 1 = s + 11 by omega, show s + 11 - 4 = s + 7 by omega]
  -- a handle below the first chunk boundary whose bit s + 10 differs from the channel's
  let handle := if Y.testBit (s + 10) then 0 else 2 ^ (s + 10)
  have hpow : 2 ^ (s + 10) < 2 ^ (s + 11) := Nat.pow_lt_pow_right (by decide) (by omega)
  have hsmall : handle < 2 ^ (s + 11) := by
    have := Nat.two_pow_pos (s + 10)
    simp only [handle]
    split_ifs <;> omega
  have hbit : (ramhtHash p handle).testBit (s + 10) = true := by
    rw [hhash, ramhtHashFold_of_lt (by omega) hsmall, Nat.testBit_xor]
    simp only [handle]
    split_ifs with h
    · simp [h]
    · simp [h]
  have hfail : ¬ramhtHash p handle * 8 < ramhtSizeOf p := by
    have h1 := Nat.ge_two_pow_of_testBit hbit
    have h2 : 2 ^ (s + 12) = 2 ^ (s + 10) * 4 := by rw [Nat.pow_add 2 (s + 10) 2]
    omega
  have hbound : 2 ^ (s + 11) ≤ 2 ^ 32 := Nat.pow_le_pow_right (by decide) (by omega)
  exact ⟨handle, by omega, hfail, ramhtLookup_of_not_lt hfail⟩

end Xqemu.Nv2a.Pfifo
