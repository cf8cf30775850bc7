import Mathlib.Data.List.Range
import Mathlib.Algebra.Group.Nat.Defs
import Mathlib.Algebra.Group.Int.Defs

/-! # The system management controller on the SMBus (smbus_xbox_smc.c)

The SMC answers SMBus byte reads from the register its command byte selects,
and the command byte moves on by one after each read.  Reading `SMC_REG_VER`
returns the next byte of `smc_version_string` and moves `version_string_index`
on; writing it sets the index.  The index is reduced modulo
`sizeof(smc_version_string) - 1`, but `smc_version_string` is a
`const char *`, so on the 64-bit hosts this is `8 - 1 = 7`: the reads cycle
through seven bytes, `"P01"`, its NUL and three bytes past the literal.
-/

namespace Xqemu.Smbus

def smcRegVer : Nat := 0x01
def smcRegPower : Nat := 0x02
def smcRegPowerReset : Nat := 0x01
def smcRegPowerCycle : Nat := 0x40
def smcRegPowerShutdown : Nat := 0x80
def smcRegAvpack : Nat := 0x04
def smcRegScratch : Nat := 0x1b

/-- `sizeof(smc_version_string)`: the size of a `const char *` on a 64-bit host. -/
def sizeofSmcVersionString : Nat := 8

/-- The bytes at `smc_version_string`: the literal `"P01"` with its NUL, then
`after`, whatever the host binary places behind the literal. -/
def smcVersionString (after : Nat → UInt8) (i : Nat) : UInt8 :=
  match i with
  | 0 => 0x50
  | 1 => 0x30
  | 2 => 0x31
  | 3 => 0
  | i + 4 => after i

/-- `SMBusSMCDevice` without its SMBus parent. -/
structure SMBusSMCDevice where
  versionStringIndex : Int
  cmd : UInt8
  avpackReg : UInt8
  scratchReg : UInt8
  deriving DecidableEq, Repr

/-- What `smc_write_data` asks of the machine. -/
inductive SystemRequest where
  | reset
  | shutdown
  deriving DecidableEq, Repr

/-- `int` arithmetic, which QEMU builds with `-fwrapv`. -/
def wrapInt32 (x : Int) : Int := (x + 2 ^ 31) % 2 ^ 32 - 2 ^ 31

/-- An `int` converted to `size_t`. -/
def toSizeT (x : Int) : Nat := (x % 2 ^ 64).toNat

/-- `smc_write_data` on the command byte `cmd` and the bytes `data` after it. -/
def smcWriteData (smc : SMBusSMCDevice) (cmd : UInt8) (data : List UInt8) :
    SMBusSMCDevice × Option SystemRequest :=
  let smc := { smc with cmd }
  match data with
  | [] => (smc, none)
  | b :: _ =>
      if cmd.toNat = smcRegVer then ({ smc with versionStringIndex := b.toNat }, none)
      else if cmd.toNat = smcRegPower then
        (smc, if b.toNat &&& (smcRegPowerReset ||| smcRegPowerCycle) ≠ 0 then some .reset
          else if b.toNat &&& smcRegPowerShutdown ≠ 0 then some .shutdown else none)
      else if cmd.toNat = smcRegScratch then ({ smc with scratchReg := b }, none)
      else (smc, none)

/-- `smc_receive_byte`. -/
def smcReceiveByte (after : Nat → UInt8) (smc : SMBusSMCDevice) : UInt8 × SMBusSMCDevice :=
  let cmd := smc.cmd
  let smc := { smc with cmd := cmd + 1 }
  if cmd.toNat = smcRegVer then
    (smcVersionString after (toSizeT smc.versionStringIndex % (sizeofSmcVersionString - 1)),
      { smc with versionStringIndex := wrapInt32 (smc.versionStringIndex + 1) })
  else if cmd.toNat = smcRegAvpack then (smc.avpackReg, smc)
  else if cmd.toNat = smcRegScratch then (smc.scratchReg, smc)
  else if cmd.toNat = 0x1c then (0x52, smc)
  else if cmd.toNat = 0x1d then (0x72, smc)
  else if cmd.toNat = 0x1e then (0xea, smc)
  else if cmd.toNat = 0x1f then (0x46, smc)
  else (0, smc)

/-- One SMBus read of the version: the command byte `SMC_REG_VER` written, then
a byte received. -/
def readVersion (after : Nat → UInt8) (smc : SMBusSMCDevice) : UInt8 × SMBusSMCDevice :=
  smcReceiveByte after (smcWriteData smc (UInt8.ofNat smcRegVer) []).1

/-- The bytes of `n` version reads in a row. -/
def versionReads (after : Nat → UInt8) : Nat → SMBusSMCDevice → List UInt8
  | 0, _ => []
  | n + 1, smc => (readVersion after smc).1 :: versionReads after n (readVersion after smc).2

theorem wrapInt32_of_lt {x : Int} (h0 : -2 ^ 31 ≤ x) (h1 : x < 2 ^ 31) : wrapInt32 x = x := by
  unfold wrapInt32
  omega

theorem toSizeT_of_nonneg {x : Int} (h0 : 0 ≤ x) (h1 : x < 2 ^ 64) : toSizeT x = x.toNat := by
  unfold toSizeT
  rw [Int.emod_eq_of_lt h0 h1]

/-- A version read returns the byte at the index modulo seven and moves the
index on, below the wrap of `int`. -/
theorem readVersion_of_index {after : Nat → UInt8} {smc : SMBusSMCDevice} {j : Nat}
    (hj : smc.versionStringIndex = j) (hlt : j + 1 < 2 ^ 31) :
    readVersion after smc = (smcVersionString after (j % 7),
      { smc with cmd := UInt8.ofNat smcRegVer + 1, versionStringIndex := (j + 1 : Nat) }) := by
  have hsize : toSizeT j = j := by
    rw [toSizeT_of_nonneg (by omega) (by omega)]
    rfl
  have hwrap : wrapInt32 ((j : Int) + 1) = ((j + 1 : Nat) : Int) := by
    rw [wrapInt32_of_lt (by omega) (by omega)]
    omega
  simp [readVersion, smcWriteData, smcReceiveByte, hj, hsize, hwrap, sizeofSmcVersionString,
    smcRegVer]

theorem versionReads_of_index (after : Nat → UInt8) :
    ∀ n (smc : SMBusSMCDevice) (j : Nat), smc.versionStringIndex = j → j + n < 2 ^ 31 →
      versionReads after n smc = (List.range n).map fun k => smcVersionString after ((j + k) % 7)
  | 0, _, _, _, _ => rfl
  | n + 1, smc, j, hj, hlt => by
      rw [versionReads, readVersion_of_index hj (by omega), List.range_succ_eq_map,
        List.map_cons, List.map_map]
      congr 1
      rw [versionReads_of_index after n _ (j + 1) rfl (by omega)]
      refine List.map_congr_left fun k _ => ?_
      simp only [Function.comp, Nat.add_assoc, Nat.add_comm 1 k]

/-- After an index is written, the version reads run through seven bytes, not
three: the index is taken modulo `sizeof(const char *) - 1`.  So the fourth
read after writing 0 is the NUL of the literal, and the fifth to seventh read
the bytes behind it. -/
theorem smc_version_reads_cycle_seven (after : Nat → UInt8) (smc : SMBusSMCDevice) (i : UInt8) :
    (∀ n ≤ 2 ^ 31 - 256, versionReads after n (smcWriteData smc (UInt8.ofNat smcRegVer) [i]).1 =
        (List.range n).map fun k => smcVersionString after ((i.toNat + k) % 7)) ∧
      versionReads after 7 (smcWriteData smc (UInt8.ofNat smcRegVer) [0]).1 =
        [0x50, 0x30, 0x31, 0, after 0, after 1, after 2] := by
  have hwrite : ∀ b : UInt8,
      (smcWriteData smc (UInt8.ofNat smcRegVer) [b]).1.versionStringIndex = b.toNat := fun b => by
    simp [smcWriteData, smcRegVer]
  refine ⟨fun n hn => versionReads_of_index after n _ _ (hwrite i) ?_, ?_⟩
  · have := i.toNat_lt
    omega
  · rw [versionReads_of_index after 7 _ 0 (hwrite 0) (by decide)]
    rfl

end Xqemu.Smbus
