import Xqemu.Dsp.Core
import Xqemu.Lib.ByteMemory
import Xqemu.Lib.ErrorsIn

/-!
# The DSP DMA engine (dsp_dma.c)

`dsp_dma_run` walks a chain of seven-word descriptors in X memory.  For each
one it checks the descriptor address against `sizeof(xram)`, the control word,
the sample format and the DSP address window of `dsp_offset`, and then moves
`count` words between DSP memory and a FIFO or the scratch memory.  Every
access to DSP memory goes through `dsp56k_read_memory` or
`dsp56k_write_memory`, which accept X addresses in XRAM, in the mix buffer or
in the peripheral window, Y addresses in YRAM and P addresses in PRAM.

The checks of the DMA engine are in other units and windows: `sizeof(xram)` is
16384 bytes for 4096 words, and the X window of `dsp_offset` runs to `0x1800`
over XRAM, the unbacked words `0x1000`-`0x13FF` and the mix buffer.  A
descriptor that passes every check can therefore still trip an assert of the
memory accessors; those X addresses are the only ones it can trip.

The asserts abort the emulator, so a step that would fail one stops with a
`DmaFault`.  The while loop over the chain is bounded by a fuel argument.
-/

namespace Xqemu.Dsp

open Xqemu.Memory Xqemu.Faults

def dspXramSize : Nat := 4096
def dspYramSize : Nat := 2048
def dspMixbufferBase : Nat := 0x001400
def dspMixbufferSize : Nat := 1024
def dspPeriphBase : Nat := 0xFFFF80

/-- `DSP_SPACE_X`, `DSP_SPACE_Y` and `DSP_SPACE_P`. -/
inductive DspSpace
  | x | y | p
  deriving DecidableEq, Repr

/-- The memories of `dsp_core_t`.  Every word stored in them went through
`dsp56k_write_memory`, whose value assert keeps it to 24 bits; `periph` stands
for the `read_peripheral` and `write_peripheral` callbacks. -/
structure DspMemory where
  xram : Nat → Nat
  yram : Nat → Nat
  pram : Nat → Nat
  mixbuffer : Nat → Nat
  periph : Nat → Nat
  xram_lt : ∀ a, xram a < 2 ^ 24
  yram_lt : ∀ a, yram a < 2 ^ 24
  pram_lt : ∀ a, pram a < 2 ^ 24
  mixbuffer_lt : ∀ a, mixbuffer a < 2 ^ 24

/-- `read_memory_p` on the word array `pram`. -/
def readPram (pram : Nat → Nat) (address : Nat) : Option Nat :=
  if address &&& 0xFF000000 = 0 ∧ address < dspPramSize then
    let r := pram address
    if r &&& 0xFF000000 = 0 then some r else none
  else none

/-- The loop unit's `read_memory_p` is the same function. -/
theorem readMemoryP_eq_readPram {ρ : Type} (s : Core ρ) (address : Nat) :
    readMemoryP s address = readPram s.pram address := rfl

/-- `dsp56k_read_memory`. -/
def dsp56kReadMemory (m : DspMemory) (space : DspSpace) (address : Nat) : Option Nat :=
  if address &&& 0xFF000000 ≠ 0 then none
  else
    match space with
    | .x =>
        if dspPeriphBase ≤ address then some (m.periph address)
        else if dspMixbufferBase ≤ address ∧ address < dspMixbufferBase + dspMixbufferSize then
          some (m.mixbuffer (address - dspMixbufferBase))
        else if address < dspXramSize then some (m.xram address)
        else none
    | .y => if address < dspYramSize then some (m.yram address) else none
    | .p => readPram m.pram address

theorem update_lt {f : Nat → Nat} {b : Nat} (hf : ∀ a, f a < b) (x : Nat) {v : Nat} (hv : v < b) :
    ∀ a, Function.update f x v a < b := by
  intro a
  by_cases ha : a = x
  · subst ha
    rw [Function.update_self]
    exact hv
  · rw [Function.update_of_ne ha]
    exact hf a

theorem lt_of_and_ff000000 {v : Nat} (hv : v < 2 ^ 32) (h : v &&& 0xFF000000 = 0) : v < 2 ^ 24 := by
  apply Nat.lt_pow_two_of_testBit
  intro i hi
  by_cases hi32 : i < 32
  · have hbit : (v &&& 0xFF000000).testBit i = false := by rw [h, Nat.zero_testBit]
    have hmask : ∀ j, j < 32 → 24 ≤ j → (0xFF000000 : Nat).testBit j = true := by decide
    simpa [Nat.testBit_and, hmask i hi32 hi] using hbit
  · exact Nat.testBit_lt_two_pow (Nat.lt_of_lt_of_le hv (Nat.pow_le_pow_right (by decide) (by omega)))

/-- `dsp56k_write_memory` and `write_memory_raw` with their asserts, for a
`uint32_t` value. -/
def dsp56kWriteMemory (m : DspMemory) (space : DspSpace) (address value : Nat) : Option DspMemory :=
  let v := value % 2 ^ 32
  if h : v &&& 0xFF000000 = 0 ∧ address &&& 0xFF000000 = 0 then
    have hv : v < 2 ^ 24 := lt_of_and_ff000000 (Nat.mod_lt _ (by decide)) h.1
    match space with
    | .x =>
        if dspPeriphBase ≤ address then some { m with periph := Function.update m.periph address v }
        else if dspMixbufferBase ≤ address ∧ address < dspMixbufferBase + dspMixbufferSize then
          some { m with
            mixbuffer := Function.update m.mixbuffer (address - dspMixbufferBase) v
            mixbuffer_lt := update_lt m.mixbuffer_lt _ hv }
        else if address < dspXramSize then
          some { m with xram := Function.update m.xram address v, xram_lt := update_lt m.xram_lt _ hv }
        else none
    | .y =>
        if address < dspYramSize then
          some { m with yram := Function.update m.yram address v, yram_lt := update_lt m.yram_lt _ hv }
        else none
    | .p =>
        if address < dspPramSize then
          some { m with pram := Function.update m.pram address v, pram_lt := update_lt m.pram_lt _ hv }
        else none
  else none

/-! ## Descriptors -/

def dmaControlFrozen : Nat := 1 <<< 3
def dmaControlRunning : Nat := 1 <<< 4
def nodePointerVal : Nat := 0x3fff
def nodePointerEol : Nat := 1 <<< 14
def nodeControlDirection : Nat := 1 <<< 1

/-- Where `dsp_dma_run` stops: one of its own asserts, an assert of the
memory accessors, or the fuel of the model running out. -/
inductive DmaFault
  | descriptorAddress (addr : Nat)
  | unhandledControl (control : Nat)
  | unknownFormat (format : Nat)
  | dspAddress (dspOffset count : Nat)
  | unknownBuffer (bufId : Nat)
  | memoryAccess (space : DspSpace) (address : Nat)
  | outOfFuel
  deriving DecidableEq, Repr

def dspRead (m : DspMemory) (space : DspSpace) (address : Nat) : Except DmaFault Nat :=
  match dsp56kReadMemory m space address with
  | some v => .ok v
  | none => .error (.memoryAccess space address)

def dspWrite (m : DspMemory) (space : DspSpace) (address value : Nat) : Except DmaFault DspMemory :=
  match dsp56kWriteMemory m space address value with
  | some m' => .ok m'
  | none => .error (.memoryAccess space address)

/-- The seven words of a descriptor; `scratchSize` is the stored word plus one. -/
structure DmaDescriptor where
  nextBlock : Nat
  control : Nat
  count : Nat
  dspOffset : Nat
  scratchOffset : Nat
  scratchBase : Nat
  scratchSize : Nat
  deriving DecidableEq, Repr

def readDescriptor (m : DspMemory) (addr : Nat) : Except DmaFault DmaDescriptor := do
  let nextBlock ← dspRead m .x addr
  let control ← dspRead m .x (addr + 1)
  let count ← dspRead m .x (addr + 2)
  let dspOffset ← dspRead m .x (addr + 3)
  let scratchOffset ← dspRead m .x (addr + 4)
  let scratchBase ← dspRead m .x (addr + 5)
  let scratchSize ← dspRead m .x (addr + 6)
  pure ⟨nextBlock, control, count, dspOffset, scratchOffset, scratchBase, (scratchSize + 1) % 2 ^ 32⟩

/-- The `item_size` and `item_mask` of a sample format. -/
def dmaItemFormat (format : Nat) : Except DmaFault (Nat × Nat) :=
  if format = 1 then pure (2, 0xffffffff)
  else if format = 2 ∨ format = 6 then pure (4, 0x00FFFFFF)
  else throw (.unknownFormat format)

/-- The space and address of `dsp_offset`, with the range asserts of each window. -/
def dmaMemSpace (dspOffset count : Nat) : Except DmaFault (DspSpace × Nat) :=
  if dspOffset < 0x1800 then
    if (dspOffset + count) % 2 ^ 32 < 0x1800 then pure (.x, dspOffset)
    else throw (.dspAddress dspOffset count)
  else if 0x1800 ≤ dspOffset ∧ dspOffset < 0x2000 then
    if (dspOffset + count) % 2 ^ 32 < 0x2000 then pure (.y, dspOffset - 0x1800)
    else throw (.dspAddress dspOffset count)
  else if 0x2800 ≤ dspOffset ∧ dspOffset < 0x3800 then
    if (dspOffset + count) % 2 ^ 32 < 0x3800 then pure (.p, dspOffset - 0x2800)
    else throw (.dspAddress dspOffset count)
  else throw (.dspAddress dspOffset count)

/-! ## Transfers -/

/-- The scratch memory and the FIFOs behind `scratch_rw` and `fifo_rw`, over the
state `σ` that `rw_opaque` points to. -/
structure DmaCallbacks (σ : Type) where
  /-- `scratch_rw(rw_opaque, buf, addr, len, 0)`: the `len` bytes at `addr`. -/
  scratchRead : σ → Nat → Nat → List UInt8
  /-- `scratch_rw(rw_opaque, buf, addr, len, 1)`. -/
  scratchWrite : σ → Nat → List UInt8 → σ
  /-- `fifo_rw(rw_opaque, buf, fifo_index, len, 1)`. -/
  fifoWrite : σ → Nat → List UInt8 → σ

/-- The fields of `DSPDMAState` that `dsp_dma_run` reads and writes. -/
structure DspDmaState (σ : Type) where
  control : Nat
  nextBlock : Nat
  eol : Bool
  core : DspMemory
  rwOpaque : σ

variable {σ : Type}

/-- The DSP to buffer loop: word `i` is read at `mem_address + i` and stored in
`item_size` bytes at `i * item_size` of `scratch_buf`. -/
def dmaReadItems (m : DspMemory) (space : DspSpace) (memAddress itemSize count : Nat) :
    Except DmaFault Mem :=
  (List.range count).foldlM (fun buf i => do
    let v ← dspRead m space ((memAddress + i) % 2 ^ 32)
    pure (storeLe buf (i * itemSize) itemSize v)) (fun _ => 0)

/-- The value of item `i` of `scratch_buf`. -/
def dmaItemValue (buf : Mem) (itemSize itemMask i : Nat) : Nat :=
  if itemSize = 2 then loadLe buf (i * 2) 2 else loadLe buf (i * 4) 4 &&& itemMask

/-- The buffer to DSP loop. -/
def dmaWriteItems (buf : Mem) (space : DspSpace) (memAddress itemSize itemMask count : Nat)
    (m : DspMemory) : Except DmaFault DspMemory :=
  (List.range count).foldlM (fun m i =>
    dspWrite m space ((memAddress + i) % 2 ^ 32) (dmaItemValue buf itemSize itemMask i)) m

/-- The transfer of a decoded descriptor, from the window check on. -/
def dmaTransfer (cb : DmaCallbacks σ) (s : DspDmaState σ) (d : DmaDescriptor) (direction : Bool)
    (bufId itemSize itemMask scratchAddr : Nat) : Except DmaFault (DspDmaState σ) := do
  let target ← dmaMemSpace d.dspOffset d.count
  let transferSize := d.count * itemSize % 2 ^ 32
  if direction then do
    let buf ← dmaReadItems s.core target.1 target.2 itemSize d.count
    if bufId < 4 then pure { s with rwOpaque := cb.fifoWrite s.rwOpaque bufId (bytes buf 0 transferSize) }
    else if bufId = 0xE ∨ bufId = 0xF then
      pure { s with rwOpaque := cb.scratchWrite s.rwOpaque scratchAddr (bytes buf 0 transferSize) }
    else throw (.unknownBuffer bufId)
  else if bufId = 0xE ∨ bufId = 0xF then do
    let buf := storeBytes (fun _ => 0) 0 (cb.scratchRead s.rwOpaque scratchAddr transferSize)
    let core ← dmaWriteItems buf target.1 target.2 itemSize itemMask d.count s.core
    pure { s with core := core }
  else throw (.unknownBuffer bufId)

/-- One pass of the while loop of `dsp_dma_run`; a circular buffer that the
transfer would overrun is skipped (`continue`). -/
def dmaBlock (cb : DmaCallbacks σ) (s : DspDmaState σ) : Except DmaFault (DspDmaState σ) :=
  let addr := s.nextBlock &&& nodePointerVal
  -- `sizeof(s->core->xram)` counts bytes
  if addr + 6 < 4 * dspXramSize then do
    let d ← readDescriptor s.core addr
    let s := { s with
      nextBlock := d.nextBlock
      eol := if d.nextBlock &&& nodePointerEol ≠ 0 then true else s.eol }
    let direction := d.control &&& nodeControlDirection ≠ 0
    let unk2 := (d.control >>> 2) &&& 0x3
    let bufId := (d.control >>> 5) &&& 0xf
    let format := (d.control >>> 10) &&& 0x7
    let unk13 := (d.control >>> 13) &&& 1
    if unk2 = 0 ∧ unk13 = 0 then do
      let item ← dmaItemFormat format
      if bufId = 0xe then
        if (d.scratchOffset + d.count * item.1) % 2 ^ 32 ≥ d.scratchSize then pure s
        else dmaTransfer cb s d direction bufId item.1 item.2 ((d.scratchBase + d.scratchOffset) % 2 ^ 32)
      else dmaTransfer cb s d direction bufId item.1 item.2 d.scratchOffset
    else throw (.unhandledControl d.control)
  else throw (.descriptorAddress addr)

/-- The while loop of `dsp_dma_run`, for at most `fuel` descriptors. -/
def dmaRunLoop (cb : DmaCallbacks σ) : Nat → DspDmaState σ → Except DmaFault (DspDmaState σ)
  | 0, s => if s.nextBlock &&& nodePointerEol ≠ 0 then pure s else throw .outOfFuel
  | fuel + 1, s =>
      if s.nextBlock &&& nodePointerEol ≠ 0 then pure s
      else do
        let s' ← dmaBlock cb s
        dmaRunLoop cb fuel s'

/-- `dsp_dma_run`. -/
def dspDmaRun (cb : DmaCallbacks σ) (fuel : Nat) (s : DspDmaState σ) : Except DmaFault (DspDmaState σ) :=
  if s.control &&& dmaControlRunning = 0 ∨ s.control &&& dmaControlFrozen ≠ 0 then pure s
  else dmaRunLoop cb fuel s

/-! ## The addresses the accessors accept -/

/-- The addresses `dsp56k_read_memory` and `write_memory_raw` accept. -/
def AddressOk : DspSpace → Nat → Prop
  | .x, a => a &&& 0xFF000000 = 0 ∧ (dspPeriphBase ≤ a ∨
      (dspMixbufferBase ≤ a ∧ a < dspMixbufferBase + dspMixbufferSize) ∨ a < dspXramSize)
  | .y, a => a &&& 0xFF000000 = 0 ∧ a < dspYramSize
  | .p, a => a &&& 0xFF000000 = 0 ∧ a < dspPramSize

instance : ∀ space a, Decidable (AddressOk space a)
  | .x, _ => inferInstanceAs (Decidable (_ ∧ _))
  | .y, _ => inferInstanceAs (Decidable (_ ∧ _))
  | .p, _ => inferInstanceAs (Decidable (_ ∧ _))

/-- The X words below `0x4000` that no memory backs: between XRAM and the mix
buffer, and above the mix buffer. -/
def Unbacked (a : Nat) : Prop :=
  (dspXramSize ≤ a ∧ a < dspMixbufferBase) ∨ (dspMixbufferBase + dspMixbufferSize ≤ a ∧ a < 0x4000)

theorem AddressOk.high {space : DspSpace} {a : Nat} (h : AddressOk space a) : a &&& 0xFF000000 = 0 := by
  cases space <;> exact h.1

theorem addressOk_x_iff {a : Nat} (ha : a < 0x4000) : AddressOk .x a ↔ ¬Unbacked a := by
  have hhigh : a &&& 0xFF000000 = 0 := and_ff000000_of_lt (by omega)
  simp only [AddressOk, Unbacked, hhigh, dspPeriphBase, dspMixbufferBase, dspMixbufferSize,
    dspXramSize, true_and]
  omega

theorem addressOk_y {a : Nat} (ha : a < dspYramSize) : AddressOk .y a :=
  ⟨and_ff000000_of_lt (by unfold dspYramSize at ha; omega), ha⟩

theorem addressOk_p {a : Nat} (ha : a < dspPramSize) : AddressOk .p a :=
  ⟨and_ff000000_of_lt (by unfold dspPramSize at ha; omega), ha⟩

theorem dspRead_of_addressOk (m : DspMemory) {space : DspSpace} {a : Nat} (h : AddressOk space a) :
    ∃ v, dspRead m space a = .ok v := by
  cases space with
  | x =>
      obtain ⟨hhigh, hwin⟩ := h
      simp only [dspRead, dsp56kReadMemory, hhigh, ne_eq, not_true_eq_false, if_false]
      split_ifs <;> first | exact ⟨_, rfl⟩ | omega
  | y =>
      obtain ⟨hhigh, hlt⟩ := h
      simp only [dspRead, dsp56kReadMemory, hhigh, hlt, ne_eq, not_true_eq_false, if_false, if_true]
      exact ⟨_, rfl⟩
  | p =>
      obtain ⟨hhigh, hlt⟩ := h
      have hword : m.pram a &&& 0xFF000000 = 0 := and_ff000000_of_lt (m.pram_lt a)
      simp only [dspRead, dsp56kReadMemory, readPram, hhigh, hlt, hword, ne_eq, not_true_eq_false,
        if_false, and_self, if_true]
      exact ⟨_, rfl⟩

theorem dspRead_of_not_addressOk (m : DspMemory) {space : DspSpace} {a : Nat} (h : ¬AddressOk space a) :
    dspRead m space a = .error (.memoryAccess space a) := by
  cases space <;> simp only [AddressOk, not_and_or] at h <;>
    simp only [dspRead, dsp56kReadMemory, readPram] <;> split_ifs <;> first | rfl | omega

/-- Below the peripheral window every word read is a stored 24-bit word. -/
theorem dspRead_lt {m : DspMemory} {space : DspSpace} {a v : Nat} (h : dspRead m space a = .ok v)
    (ha : a < dspPeriphBase) : v < 2 ^ 24 := by
  cases space <;> simp only [dspRead, dsp56kReadMemory, readPram] at h <;> split_ifs at h <;>
    first | omega | (cases h; first | exact m.xram_lt _ | exact m.yram_lt _ | exact m.pram_lt _ |
      exact m.mixbuffer_lt _)

theorem dspWrite_of_addressOk (m : DspMemory) {space : DspSpace} {a value : Nat} (hv : value < 2 ^ 24)
    (h : AddressOk space a) : ∃ m', dspWrite m space a value = .ok m' := by
  have hmod : value % 2 ^ 32 = value := Nat.mod_eq_of_lt (by omega)
  have hword : value &&& 0xFF000000 = 0 := and_ff000000_of_lt hv
  have hchecks : value % 2 ^ 32 &&& 0xFF000000 = 0 ∧ a &&& 0xFF000000 = 0 := ⟨by rw [hmod, hword], h.high⟩
  unfold dspWrite dsp56kWriteMemory
  rw [dif_pos hchecks]
  cases space <;> simp only [AddressOk] at h <;> dsimp only <;> split_ifs <;> first | exact ⟨_, rfl⟩ | omega

theorem dspWrite_of_not_addressOk (m : DspMemory) {space : DspSpace} {a : Nat} (value : Nat)
    (h : ¬AddressOk space a) : dspWrite m space a value = .error (.memoryAccess space a) := by
  unfold dspWrite dsp56kWriteMemory
  by_cases hchecks : value % 2 ^ 32 &&& 0xFF000000 = 0 ∧ a &&& 0xFF000000 = 0
  · rw [dif_pos hchecks]
    cases space <;> simp only [AddressOk, hchecks.2, true_and] at h <;> dsimp only <;> split_ifs <;>
      first | rfl | omega
  · rw [dif_neg hchecks]

/-! ## The faults of a run -/

/-- A fault of the memory accessors is an X access to an unbacked word; every
other fault is one of the DMA engine's own. -/
def UnbackedFault : DmaFault → Prop
  | .memoryAccess space a => space = .x ∧ Unbacked a
  | _ => True

/-- An access is accepted, or an X access to an unbacked word. -/
def AccessOk (space : DspSpace) (a : Nat) : Prop := AddressOk space a ∨ (space = .x ∧ Unbacked a)

theorem dspRead_errors (m : DspMemory) {space : DspSpace} {a : Nat} (h : AccessOk space a) :
    ErrorsIn UnbackedFault (dspRead m space a) := by
  rcases h with hok | hx
  · obtain ⟨v, hv⟩ := dspRead_of_addressOk m hok
    rw [hv]
    exact errorsIn_ok v
  · intro e he
    by_cases hok : AddressOk space a
    · obtain ⟨v, hv⟩ := dspRead_of_addressOk m hok
      rw [hv] at he
      cases he
    · rw [dspRead_of_not_addressOk m hok] at he
      cases he
      exact hx

theorem dspWrite_errors (m : DspMemory) {space : DspSpace} {a value : Nat} (hv : value < 2 ^ 24)
    (h : AccessOk space a) : ErrorsIn UnbackedFault (dspWrite m space a value) := by
  rcases h with hok | hx
  · obtain ⟨m', hm'⟩ := dspWrite_of_addressOk m hv hok
    rw [hm']
    exact errorsIn_ok m'
  · intro e he
    by_cases hok : AddressOk space a
    · obtain ⟨m', hm'⟩ := dspWrite_of_addressOk m hv hok
      rw [hm'] at he
      cases he
    · rw [dspWrite_of_not_addressOk m value hok] at he
      cases he
      exact hx

/-- Below `0x4000` every X access is accepted or unbacked. -/
theorem accessOk_x {a : Nat} (ha : a < 0x4000) : AccessOk .x a := by
  by_cases hu : Unbacked a
  · exact Or.inr ⟨rfl, hu⟩
  · exact Or.inl ((addressOk_x_iff ha).mpr hu)

theorem readDescriptor_errors (m : DspMemory) {addr : Nat} (h : addr + 6 < 0x4000) :
    ErrorsIn UnbackedFault (readDescriptor m addr) := by
  have hx : ∀ k, k ≤ 6 → ErrorsIn UnbackedFault (dspRead m .x (addr + k)) :=
    fun k hk => dspRead_errors m (accessOk_x (by omega))
  unfold readDescriptor
  refine ErrorsIn.bind (hx 0 (by omega)) fun _ _ => ?_
  refine ErrorsIn.bind (hx 1 (by omega)) fun _ _ => ?_
  refine ErrorsIn.bind (hx 2 (by omega)) fun _ _ => ?_
  refine ErrorsIn.bind (hx 3 (by omega)) fun _ _ => ?_
  refine ErrorsIn.bind (hx 4 (by omega)) fun _ _ => ?_
  refine ErrorsIn.bind (hx 5 (by omega)) fun _ _ => ?_
  exact ErrorsIn.bind (hx 6 (by omega)) fun _ _ => errorsIn_pure _

/-- The words of a descriptor below the peripheral window are 24-bit, so the
sums of the window check do not wrap. -/
theorem readDescriptor_lt {m : DspMemory} {addr : Nat} {d : DmaDescriptor}
    (h : readDescriptor m addr = .ok d) (ha : addr + 6 < 0x4000) :
    d.count < 2 ^ 24 ∧ d.dspOffset < 2 ^ 24 := by
  have hp : ∀ k, k ≤ 6 → addr + k < dspPeriphBase := fun k hk => by unfold dspPeriphBase; omega
  simp only [readDescriptor, bind_eq_ok] at h
  obtain ⟨_, _, _, _, count, hcount, dspOffset, hoffset, _, _, _, _, _, _, hd⟩ := h
  cases hd
  exact ⟨dspRead_lt hcount (hp 2 (by omega)), dspRead_lt hoffset (hp 3 (by omega))⟩

theorem dmaMemSpace_errors (dspOffset count : Nat) : ErrorsIn UnbackedFault (dmaMemSpace dspOffset count) := by
  intro e he
  unfold dmaMemSpace at he
  split_ifs at he <;> cases he <;> trivial

/-- Each window lies in its space: Y and P words are all accepted, and the X
window ends at `0x1800`. -/
theorem dmaMemSpace_access {dspOffset count memAddress : Nat} {space : DspSpace}
    (h : dmaMemSpace dspOffset count = .ok (space, memAddress)) (hlt : dspOffset + count < 2 ^ 32)
    {i : Nat} (hi : i < count) : (memAddress + i) % 2 ^ 32 = memAddress + i ∧ AccessOk space (memAddress + i) := by
  unfold dmaMemSpace at h
  rw [Nat.mod_eq_of_lt hlt] at h
  split_ifs at h with hx hxr hy hyr hp hpr <;>
    simp only [pure, Except.pure, Except.ok.injEq, Prod.mk.injEq] at h
  · obtain ⟨rfl, rfl⟩ := h
    exact ⟨Nat.mod_eq_of_lt (by omega), accessOk_x (by omega)⟩
  · obtain ⟨rfl, rfl⟩ := h
    exact ⟨Nat.mod_eq_of_lt (by omega), Or.inl (addressOk_y (by unfold dspYramSize; omega))⟩
  · obtain ⟨rfl, rfl⟩ := h
    exact ⟨Nat.mod_eq_of_lt (by omega), Or.inl (addressOk_p (by unfold dspPramSize; omega))⟩

theorem dmaItemFormat_errors (format : Nat) : ErrorsIn UnbackedFault (dmaItemFormat format) := by
  intro e he
  unfold dmaItemFormat at he
  split_ifs at he <;> cases he
  trivial

/-- Both formats give 24-bit values: a `uint16_t`, or a `uint32_t` under `0x00FFFFFF`. -/
theorem dmaItemValue_lt {format itemSize itemMask : Nat} (h : dmaItemFormat format = .ok (itemSize, itemMask))
    (buf : Mem) (i : Nat) : dmaItemValue buf itemSize itemMask i < 2 ^ 24 := by
  unfold dmaItemFormat at h
  split_ifs at h <;> simp only [pure, Except.pure, Except.ok.injEq, Prod.mk.injEq] at h
  · obtain ⟨rfl, rfl⟩ := h
    have := loadLe_lt buf (i * 2) 2
    simp only [dmaItemValue, if_true]
    omega
  · obtain ⟨rfl, rfl⟩ := h
    simp only [dmaItemValue, show (4 : Nat) ≠ 2 by decide, if_false]
    exact Nat.and_lt_two_pow _ (by decide)

theorem dmaReadItems_errors (m : DspMemory) {space : DspSpace} {memAddress count : Nat} (itemSize : Nat)
    (h : ∀ i < count, AccessOk space ((memAddress + i) % 2 ^ 32)) :
    ErrorsIn UnbackedFault (dmaReadItems m space memAddress itemSize count) :=
  errorsIn_foldlM _ _ fun _ i hi =>
    ErrorsIn.bind (dspRead_errors m (h i (List.mem_range.mp hi))) fun _ _ => errorsIn_pure _

theorem dmaWriteItems_errors (buf : Mem) {space : DspSpace} {memAddress itemSize itemMask count : Nat}
    (hv : ∀ i, dmaItemValue buf itemSize itemMask i < 2 ^ 24)
    (h : ∀ i < count, AccessOk space ((memAddress + i) % 2 ^ 32)) (m : DspMemory) :
    ErrorsIn UnbackedFault (dmaWriteItems buf space memAddress itemSize itemMask count m) :=
  errorsIn_foldlM _ _ fun m' i hi => dspWrite_errors m' (hv i) (h i (List.mem_range.mp hi))

theorem dmaTransfer_errors (cb : DmaCallbacks σ) (s : DspDmaState σ) {d : DmaDescriptor} (direction : Bool)
    (bufId : Nat) {format itemSize itemMask : Nat} (hfmt : dmaItemFormat format = .ok (itemSize, itemMask))
    (scratchAddr : Nat) (hlt : d.dspOffset + d.count < 2 ^ 32) :
    ErrorsIn UnbackedFault (dmaTransfer cb s d direction bufId itemSize itemMask scratchAddr) := by
  unfold dmaTransfer
  refine ErrorsIn.bind (dmaMemSpace_errors _ _) fun target htarget => ?_
  have hacc : ∀ i < d.count, AccessOk target.1 ((target.2 + i) % 2 ^ 32) := by
    intro i hi
    obtain ⟨hmod, hok⟩ := dmaMemSpace_access htarget hlt hi
    rw [hmod]
    exact hok
  -- the buffer checks come after the reads of a DSP to buffer transfer, and before the writes of the other
  refine errorsIn_ite (fun _ => ?_) fun _ => errorsIn_ite (fun _ => ?_) fun _ => errorsIn_throw trivial
  · refine ErrorsIn.bind (dmaReadItems_errors s.core itemSize hacc) fun _ _ => ?_
    exact errorsIn_ite (fun _ => errorsIn_pure _) fun _ =>
      errorsIn_ite (fun _ => errorsIn_pure _) fun _ => errorsIn_throw trivial
  · exact ErrorsIn.bind (dmaWriteItems_errors _ (dmaItemValue_lt hfmt _) hacc s.core) fun _ _ =>
      errorsIn_pure _

/-- One descriptor: every memory fault is an X access to an unbacked word. -/
theorem dmaBlock_errors (cb : DmaCallbacks σ) (s : DspDmaState σ) : ErrorsIn UnbackedFault (dmaBlock cb s) := by
  unfold dmaBlock
  refine errorsIn_ite (fun haddr => ?_) fun _ => errorsIn_throw trivial
  have haddr' : (s.nextBlock &&& nodePointerVal) + 6 < 0x4000 := by
    unfold dspXramSize at haddr
    omega
  refine ErrorsIn.bind (readDescriptor_errors s.core haddr') fun d hd => ?_
  obtain ⟨hcount, hoffset⟩ := readDescriptor_lt hd haddr'
  have hlt : d.dspOffset + d.count < 2 ^ 32 := by omega
  refine errorsIn_ite (fun _ => ?_) fun _ => errorsIn_throw trivial
  refine ErrorsIn.bind (dmaItemFormat_errors _) fun item hitem => ?_
  have hitem' : dmaItemFormat ((d.control >>> 10) &&& 0x7) = .ok (item.1, item.2) := hitem
  have hT := fun scratchAddr s' =>
    dmaTransfer_errors cb s' (d := d) (d.control &&& nodeControlDirection ≠ 0) ((d.control >>> 5) &&& 0xf)
      hitem' scratchAddr hlt
  exact errorsIn_ite (fun _ => errorsIn_ite (fun _ => errorsIn_pure _) fun _ => hT _ _) fun _ => hT _ _

/-- A whole run: descriptor after descriptor, every memory fault is an X access
to an unbacked word. -/
theorem dmaRunLoop_errors (cb : DmaCallbacks σ) (fuel : Nat) :
    ∀ s : DspDmaState σ, ErrorsIn UnbackedFault (dmaRunLoop cb fuel s) := by
  induction fuel with
  | zero => exact fun _ => errorsIn_ite (fun _ => errorsIn_pure _) fun _ => errorsIn_throw trivial
  | succ fuel ih =>
      intro s
      exact errorsIn_ite (fun _ => errorsIn_pure _) fun _ =>
        ErrorsIn.bind (dmaBlock_errors cb s) fun s' _ => ih s'

theorem dspDmaRun_errors (cb : DmaCallbacks σ) (fuel : Nat) (s : DspDmaState σ) :
    ErrorsIn UnbackedFault (dspDmaRun cb fuel s) :=
  errorsIn_ite (fun _ => errorsIn_pure _) fun _ => dmaRunLoop_errors cb fuel s

/-! ## Descriptors the checks accept and the accessors refuse -/

/-- A descriptor at X:0 that ends the chain and moves one 24-bit word from
X:0x1000 to the scratch buffer `0xF`. -/
def gapDescriptorXram (a : Nat) : Nat :=
  if a = 0 then nodePointerEol
  else if a = 1 then 2 <<< 10 ||| 0xF <<< 5 ||| nodeControlDirection
  else if a = 2 then 1
  else if a = 3 then dspXramSize
  else 0

def gapMemory : DspMemory where
  xram := gapDescriptorXram
  yram := fun _ => 0
  pram := fun _ => 0
  mixbuffer := fun _ => 0
  periph := fun _ => 0
  xram_lt a := by unfold gapDescriptorXram; split_ifs <;> decide
  yram_lt _ := by decide
  pram_lt _ := by decide
  mixbuffer_lt _ := by decide

/-- A running engine whose chain starts at `nextBlock`. -/
def runningDma (nextBlock : Nat) (core : DspMemory) (rwOpaque : σ) : DspDmaState σ :=
  ⟨dmaControlRunning, nextBlock, false, core, rwOpaque⟩

/-- The checks of the DMA engine pass where the accessors assert: a chain
starting at X:0x1000 passes `(addr+6) < sizeof(xram)` and stops at the read of
its first word, and the descriptor of `gapMemory` passes every check, its X
window included, and stops at the read of X:0x1000. -/
theorem dspDmaRun_accepts_unbacked (cb : DmaCallbacks σ) (m : DspMemory) (env : σ) (fuel : Nat) :
    dspXramSize + 6 < 4 * dspXramSize ∧ ¬AddressOk .x dspXramSize ∧
      dspDmaRun cb (fuel + 1) (runningDma dspXramSize m env) = .error (.memoryAccess .x dspXramSize) ∧
      dmaMemSpace dspXramSize 1 = .ok (.x, dspXramSize) ∧
      dspDmaRun cb (fuel + 1) (runningDma 0 gapMemory env) = .error (.memoryAccess .x dspXramSize) := by
  refine ⟨by decide, by decide, ?_, rfl, ?_⟩
  · -- the descriptor address check passes and the first word is refused
    simp +decide only [dspDmaRun, dmaRunLoop, dmaBlock, runningDma]
    rfl
  · -- past the checks of the engine, the transfer's first read is refused
    simp +decide only [dspDmaRun, dmaRunLoop, dmaBlock, runningDma]
    rfl

end Xqemu.Dsp
