import Xqemu.Apu.ScatterGather
import Xqemu.Lib.BitField

/-! # The FIFO accessors of the APU DSPs (gp_fifo_rw, ep_fifo_rw)

Each DSP reaches its FIFOs through `fifo_rw`: the FIFO's `base`, `end` and
`cur` registers give a circular buffer in a scatter-gather table, and the call
moves `len` bytes between the DSP buffer and that buffer from `cur` on, then
stores the new `cur`.  The two functions differ in their registers alone, so
both are `fifoRw` at their own `FifoRegs`.

The accessor asserts `cur < end` and raises `cur` to `base`.  With
`base < end` a call stops at an assert of `scatter_gather_rw` or ends, having
moved byte `k` through offset `base + (c - base + k) % (end - base)`,
`c = max cur base`, and left CUR at that offset for `k = len`.  A FIFO with
`base = end` passes both checks and then hangs the emulator.
-/

namespace Xqemu.Apu

open Xqemu.Bits Xqemu.Memory Xqemu.Faults

def nvPapuGpfaddr : Nat := 0x2044
def nvPapuGpfmaxsge : Nat := 0x20D8
def nvPapuEpfaddr : Nat := 0x204C
def nvPapuEpfmaxsge : Nat := 0x20E0
def nvPapuGpofbase0 : Nat := 0x3024
def nvPapuGpofend0 : Nat := 0x3028
def nvPapuGpofcur0 : Nat := 0x302C
def nvPapuGpifbase0 : Nat := 0x3064
def nvPapuGpifend0 : Nat := 0x3068
def nvPapuGpifcur0 : Nat := 0x306C
def nvPapuEpofbase0 : Nat := 0x4024
def nvPapuEpofend0 : Nat := 0x4028
def nvPapuEpofcur0 : Nat := 0x402C
def nvPapuEpifbase0 : Nat := 0x4064
def nvPapuEpifend0 : Nat := 0x4068
def nvPapuEpifcur0 : Nat := 0x406C

/-- `NV_PAPU_GPOFBASE0_VALUE`, the mask `0x00FFFF00`. -/
def nvPapuGpofbase0Value : Field := ⟨8, 16⟩
/-- `NV_PAPU_GPOFEND0_VALUE`, the mask `0x00FFFF00`. -/
def nvPapuGpofend0Value : Field := ⟨8, 16⟩
/-- `NV_PAPU_GPOFCUR0_VALUE`, the mask `0x00FFFFFC`. -/
def nvPapuGpofcur0Value : Field := ⟨2, 22⟩

def gpOutputFifoCount : Nat := 4
def gpInputFifoCount : Nat := 2
def epOutputFifoCount : Nat := 4
def epInputFifoCount : Nat := 2

/-- The registers one of `gp_fifo_rw` and `ep_fifo_rw` uses; the two functions
differ in these alone. -/
structure FifoRegs where
  outputFifoCount : Nat
  inputFifoCount : Nat
  ofbase0 : Nat
  ofend0 : Nat
  ofcur0 : Nat
  ifbase0 : Nat
  ifend0 : Nat
  ifcur0 : Nat
  faddr : Nat
  fmaxsge : Nat

namespace FifoRegs

def fifoCount (r : FifoRegs) (dir : Bool) : Nat :=
  if dir then r.outputFifoCount else r.inputFifoCount

def baseReg (r : FifoRegs) (dir : Bool) (index : Nat) : Nat :=
  (if dir then r.ofbase0 else r.ifbase0) + 0x10 * index

def endReg (r : FifoRegs) (dir : Bool) (index : Nat) : Nat :=
  (if dir then r.ofend0 else r.ifend0) + 0x10 * index

def curReg (r : FifoRegs) (dir : Bool) (index : Nat) : Nat :=
  (if dir then r.ofcur0 else r.ifcur0) + 0x10 * index

end FifoRegs

def gpFifoRegs : FifoRegs :=
  ⟨gpOutputFifoCount, gpInputFifoCount, nvPapuGpofbase0, nvPapuGpofend0, nvPapuGpofcur0,
    nvPapuGpifbase0, nvPapuGpifend0, nvPapuGpifcur0, nvPapuGpfaddr, nvPapuGpfmaxsge⟩

def epFifoRegs : FifoRegs :=
  ⟨epOutputFifoCount, epInputFifoCount, nvPapuEpofbase0, nvPapuEpofend0, nvPapuEpofcur0,
    nvPapuEpifbase0, nvPapuEpifend0, nvPapuEpifcur0, nvPapuEpfaddr, nvPapuEpfmaxsge⟩

/-- `base`, `end` and `cur` as the FIFO accessors read them; every FIFO is
read through the masks of GP output FIFO 0. -/
def fifoBase (r : FifoRegs) (s : ApuState) (dir : Bool) (index : Nat) : Nat :=
  nvPapuGpofbase0Value.get (s.regs (r.baseReg dir index))

def fifoEnd (r : FifoRegs) (s : ApuState) (dir : Bool) (index : Nat) : Nat :=
  nvPapuGpofend0Value.get (s.regs (r.endReg dir index))

def fifoCur (r : FifoRegs) (s : ApuState) (dir : Bool) (index : Nat) : Nat :=
  nvPapuGpofcur0Value.get (s.regs (r.curReg dir index))

/-- The body of `gp_fifo_rw(opaque, ptr, index, len, dir)` and of `ep_fifo_rw`. -/
def fifoRw (r : FifoRegs) (fuel : Nat) (s : ApuState) (ptr index len : Nat) (dir : Bool) :
    Except FifoFault ApuState :=
  if index < r.fifoCount dir then
    let base := fifoBase r s dir index
    let end_ := fifoEnd r s dir index
    let cur := fifoCur r s dir index
    -- DSP hangs if current >= end; but forces current >= base
    if cur < end_ then
      let cur := if cur < base then base else cur
      circularScatterGatherRw fuel s (s.regs r.faddr) (s.regs r.fmaxsge) ptr base end_ cur len dir
        >>= fun (s, cur) =>
          let curReg := r.curReg dir index
          .ok { s with
            regs := (Function.update s.regs curReg (nvPapuGpofcur0Value.set (s.regs curReg) cur)) }
    else .error .curPastEnd
  else .error .fifoIndex

def gpFifoRw (fuel : Nat) (s : ApuState) (ptr index len : Nat) (dir : Bool) :
    Except FifoFault ApuState :=
  fifoRw gpFifoRegs fuel s ptr index len dir

def epFifoRw (fuel : Nat) (s : ApuState) (ptr index len : Nat) (dir : Bool) :
    Except FifoFault ApuState :=
  fifoRw epFifoRegs fuel s ptr index len dir

section Registers

variable (r : FifoRegs) (s : ApuState) (dir : Bool) (index : Nat)

theorem fifoBase_lt : fifoBase r s dir index < 2 ^ 16 :=
  Field.get_lt nvPapuGpofbase0Value _

theorem fifoEnd_lt : fifoEnd r s dir index < 2 ^ 16 :=
  Field.get_lt nvPapuGpofend0Value _

theorem clampUp_eq_max (c b : Nat) : (if c < b then b else c) = max c b := by
  split <;> omega

/-- An accepted call runs the circular transfer from `max cur base` and
stores where it ends in the CUR register. -/
theorem fifoRw_eq {fuel ptr len : Nat} (hidx : index < r.fifoCount dir)
    (hcur : fifoCur r s dir index < fifoEnd r s dir index) :
    fifoRw r fuel s ptr index len dir =
      circularScatterGatherRw fuel s (s.regs r.faddr) (s.regs r.fmaxsge) ptr (fifoBase r s dir index)
          (fifoEnd r s dir index) (max (fifoCur r s dir index) (fifoBase r s dir index)) len dir
        >>= fun (s, cur) =>
          .ok { s with
            regs := (Function.update s.regs (r.curReg dir index)
              (nvPapuGpofcur0Value.set (s.regs (r.curReg dir index)) cur)) } := by
  rw [fifoRw, if_pos hidx]
  dsimp only
  rw [if_pos hcur, clampUp_eq_max]

/-- What the accessors accept: an index of a FIFO, and a `cur` below `end`. -/
theorem fifoRw_eq_ok {fuel ptr len : Nat} {s' : ApuState}
    (h : fifoRw r fuel s ptr index len dir = .ok s') :
    index < r.fifoCount dir ∧ fifoCur r s dir index < fifoEnd r s dir index := by
  unfold fifoRw at h
  dsimp only at h
  -- the third split is the clamp of `cur`, which both branches pass
  split_ifs at h with hidx hcur <;> exact ⟨hidx, hcur⟩

/-! ## A buffer with `base < end` -/

/-- Offset `k` of a FIFO's buffer, counted from where a call starts: `max cur base`. -/
def fifoOffset (k : Nat) : Nat :=
  circularOffset (fifoBase r s dir index) (fifoEnd r s dir index)
    (max (fifoCur r s dir index) (fifoBase r s dir index)) k

variable {r s dir index} {fuel ptr len : Nat} {s' : ApuState}

/-- A call that ends changes no register but CUR, and leaves there the offset
`len` past where it started. -/
theorem fifoRw_regs (hlt : fifoBase r s dir index < fifoEnd r s dir index)
    (h : fifoRw r fuel s ptr index len dir = .ok s') :
    s'.regs = Function.update s.regs (r.curReg dir index)
      (nvPapuGpofcur0Value.set (s.regs (r.curReg dir index)) (fifoOffset r s dir index len)) := by
  obtain ⟨hidx, hcur⟩ := fifoRw_eq_ok r s dir index h
  rw [fifoRw_eq r s dir index hidx hcur, bind_eq_ok] at h
  obtain ⟨⟨t, cur'⟩, hcirc, hset⟩ := h
  cases hset
  have hend := fifoEnd_lt r s dir index
  obtain ⟨hregs, hcur'⟩ := circularScatterGatherLoop_cur (le_max_right _ _) (by omega) (by omega) hcirc
  rw [hregs, hcur', fifoOffset]

end Registers

/-- GP output FIFO 0 with a 16-byte buffer (`base = 0`, `end = 0x1000`) and CUR at byte 14, over
4 KiB of zeroed RAM with the scatter-gather table at `0x800`, whose one page is at 0; DSP buffer
byte `i` holds `i + 1`. -/
def wrapFifoState : ApuState where
  regs := fun a =>
    if a = nvPapuGpofend0 then 0x1000 else if a = nvPapuGpfaddr then 0x800
    else if a = nvPapuGpofcur0 then 14 <<< 2 else 0
  ram := fun _ => 0
  ramSize := 0x1000
  buf := fun i => UInt8.ofNat (i + 1)

/-- A FIFO whose `base` equals its `end`, read with `cur` below `end`, passes
every assert of `gp_fifo_rw` and `ep_fifo_rw` and hangs the emulator: the
transfer never ends, however much fuel it gets. -/
theorem fifoRw_empty_buffer_spins (r : FifoRegs) (s : ApuState) (ptr index len : Nat) (dir : Bool)
    (hidx : index < r.fifoCount dir) (hempty : fifoBase r s dir index = fifoEnd r s dir index)
    (hcur : fifoCur r s dir index < fifoEnd r s dir index) (hlen : 0 < len) :
    ∀ fuel, fifoRw r fuel s ptr index len dir = .error .outOfFuel := by
  intro fuel
  have hend : fifoEnd r s dir index < 2 ^ 32 :=
    Nat.lt_trans (fifoEnd_lt r s dir index) (by decide)
  have hstart : max (fifoCur r s dir index) (fifoBase r s dir index) = fifoEnd r s dir index := by
    omega
  rw [fifoRw_eq r s dir index hidx hcur, hstart, hempty, circularScatterGatherRw,
    circularScatterGatherLoop_spins hlen hend, error_bind]

/-- GP output FIFO 0 with `base = end = 1` and `cur = 0`. -/
def emptyFifoState : ApuState where
  regs := fun a => if a = nvPapuGpofbase0 ∨ a = nvPapuGpofend0 then 0x100 else 0
  ram := fun _ => 0
  ramSize := 0
  buf := fun _ => 0

/-- A one-byte write to that FIFO never ends. -/
theorem gpFifoRw_empty_buffer_spins :
    (0 < gpFifoRegs.fifoCount true ∧
      fifoBase gpFifoRegs emptyFifoState true 0 = fifoEnd gpFifoRegs emptyFifoState true 0 ∧
      fifoCur gpFifoRegs emptyFifoState true 0 < fifoEnd gpFifoRegs emptyFifoState true 0 ∧ 0 < 1) ∧
    ∀ fuel, gpFifoRw fuel emptyFifoState 0 0 1 true = .error .outOfFuel :=
  ⟨⟨by decide, by decide, by decide, by decide⟩,
    fifoRw_empty_buffer_spins gpFifoRegs emptyFifoState 0 0 1 true (by decide) (by decide)
      (by decide) (by decide)⟩

end Xqemu.Apu
