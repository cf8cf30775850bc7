import Xqemu.Lib.ArrayStack
import Xqemu.Lib.BitField

/-!
# The DSP56300 loop unit

`dsp56k_execute_instruction` of `dsp_cpu.c` fetches a word of program memory,
runs its emulation function and then post-executes: `dsp_postexecute_update_pc`
advances the PC and runs the REP and DO loop logic, and
`dsp_postexecute_interrupts` processes interrupts unless a REP is running.  This
module models the part of the core that owns loops: the registers PC, LA, LC,
LCSAVE, SR, SP, SSH and SSL, the sixteen-entry system stack `stack[2][16]`, the
flags `loop_rep` and `pc_on_rep`, program memory, the emulation functions of DO,
DOR, ENDDO and REP (`dsp_emu.inl`) with their opcode templates, and the
post-execute step.  Everything else of the machine (data registers, X and Y
memory, the other instructions, the interrupt controller) is a `Datapath` over
an arbitrary state `ρ`.

The asserts of the source abort the emulator, so a step that would fail one
returns `none`: `read_memory_p` out of program memory, and a stack overflow or
underflow, whose `assert(false)` fires since `exception_debugging` is set at
reset and never cleared.
-/

namespace Xqemu.Dsp

/-- `BITMASK(n)`. -/
def bitmask (n : Nat) : Nat := 2 ^ n - 1

/-- `DSP_SR_LF`, the loop flag of SR. -/
def dspSrLf : Nat := 15

/-- `DSP_SP_SE`, the stack error flag of SP. -/
def dspSpSe : Nat := 4

/-- `DSP_SP_UF`, the underflow flag of SP. -/
def dspSpUf : Nat := 5

/-- `DSP_PRAM_SIZE`, in words. -/
def dspPramSize : Nat := 4096

/-- The loop unit of `dsp_core_t`; `rest` is the rest of the machine. -/
structure Core (ρ : Type) where
  pc : Nat
  la : Nat
  lc : Nat
  lcsave : Nat
  sr : Nat
  sp : Nat
  ssh : Nat
  ssl : Nat
  /-- `stack[0]`, the SSH half of the system stack. -/
  sshStack : Nat → Nat
  /-- `stack[1]`, the SSL half. -/
  sslStack : Nat → Nat
  pram : Nat → Nat
  loopRep : Bool
  pcOnRep : Bool
  curInst : Nat
  curInstLen : Nat
  rest : ρ

variable {ρ : Type}

/-- What the loop unit asks of the rest of the machine. -/
structure Datapath (ρ : Type) where
  /-- `dsp56k_read_memory(dsp, space, address)`. -/
  readMemory : Core ρ → Nat → Nat → Option Nat
  /-- `emu_calc_ea(dsp, ea_mode, &addr)`: the address, and the updated address registers. -/
  calcEa : Core ρ → Nat → ρ × Nat
  /-- `dsp->registers[numreg]`, or `emu_pm_read_accu24` for A and B. -/
  readRegister : Core ρ → Nat → Nat
  /-- The emulation function of every other instruction word, parallel moves included. -/
  emu : Nat → Core ρ → Option (Core ρ)
  /-- `dsp_postexecute_interrupts` after its REP test. -/
  interrupts : Core ρ → Option (Core ρ)

/-- `read_memory_p`, with its asserts. -/
def readMemoryP (s : Core ρ) (address : Nat) : Option Nat :=
  if address &&& 0xFF000000 = 0 ∧ address < dspPramSize then
    let r := s.pram address
    if r &&& 0xFF000000 = 0 then some r else none
  else none

/-- The system stack as one array of (SSH, SSL) pairs. -/
def stackCells (s : Core ρ) : Nat → Nat × Nat := fun i => (s.sshStack i, s.sslStack i)

/-- `dsp_stack_push`. -/
def stackPush (s : Core ρ) (curpc cursr : Nat) (sshOnly : Bool) : Option (Core ρ) :=
  let stackError := s.sp &&& 1 <<< dspSpSe
  let underflow := s.sp &&& 1 <<< dspSpUf
  let stack := (s.sp &&& bitmask 4) + 1
  -- stack full: DSP_INTER_STACK_ERROR is raised and assert(false) aborts
  if stackError = 0 ∧ stack &&& 1 <<< dspSpSe ≠ 0 then none
  else
    let sp := (underflow ||| stackError ||| stack) &&& bitmask 6
    let stack := stack &&& bitmask 4
    let (hi, lo) :=
      if stack ≠ 0 then
        (Function.update s.sshStack stack (curpc &&& bitmask 16),
          if sshOnly then s.sslStack else Function.update s.sslStack stack (cursr &&& bitmask 16))
      else (Function.update s.sshStack 0 0, Function.update s.sslStack 0 0)
    some { s with sp, sshStack := hi, sslStack := lo, ssh := hi stack, ssl := lo stack }

/-- `dsp_stack_pop`: the state and the popped SSH and SSL. -/
def stackPop (s : Core ρ) : Option (Core ρ × Nat × Nat) :=
  let stackError := s.sp &&& 1 <<< dspSpSe
  let underflow := s.sp &&& 1 <<< dspSpUf
  -- uint32_t arithmetic: popping an empty stack wraps to 0xFFFFFFFF
  let stack := ((s.sp &&& bitmask 4) + 2 ^ 32 - 1) % 2 ^ 32
  -- stack empty: DSP_INTER_STACK_ERROR is raised and assert(false) aborts
  if stackError = 0 ∧ stack &&& 1 <<< dspSpSe ≠ 0 then none
  else
    let sp := (underflow ||| stackError ||| stack) &&& bitmask 6
    let stack := stack &&& bitmask 4
    some ({ s with sp, ssh := s.sshStack stack, ssl := s.sslStack stack }, s.ssh, s.ssl)

/-! ## Loop instructions -/

/-- The 12-bit immediate count of `do #xxx`, `dor #xxx` and `rep #xxx`. -/
def immCount (inst : Nat) : Nat :=
  ((inst >>> 8) &&& bitmask 8) + ((inst &&& bitmask 4) <<< 8)

/-- The loop exit, shared by `emu_enddo` and the end of loop in
`dsp_postexecute_update_pc`: pop the return address and SR, keep the low seven
bits of SR and take LF from the saved SR, then pop LA and LC. -/
def endLoop (s : Core ρ) : Option (Core ρ) := do
  let (s, _, savedSr) ← stackPop s
  let s := { s with sr := s.sr &&& 0x7f ||| savedSr &&& 1 <<< dspSrLf }
  let (s, la, lc) ← stackPop s
  pure { s with la, lc }

/-- `emu_enddo`. -/
def emuEnddo (s : Core ρ) : Option (Core ρ) := endLoop s

/-- The loop entry of `emu_do_aa`, `emu_do_imm` and `emu_do_ea`: save LA and LC,
take LA from the second instruction word, save the address of the loop body and
SR, set LF, and then let `count` load LC. -/
def doLoop (count : Core ρ → Option (Core ρ)) (s : Core ρ) : Option (Core ρ) := do
  let s ← stackPush s s.la s.lc false
  let la ← readMemoryP s ((s.pc + 1) % 2 ^ 32)
  let s := { s with la := la &&& bitmask 16, curInstLen := s.curInstLen + 1 }
  let s ← stackPush s (s.pc + s.curInstLen) s.sr false
  count { s with sr := s.sr ||| 1 <<< dspSrLf }

/-- `emu_do_imm`. -/
def emuDoImm (s : Core ρ) : Option (Core ρ) :=
  doLoop (fun s => some { s with lc := immCount s.curInst }) s

/-- `emu_do_aa`. -/
def emuDoAa (dp : Datapath ρ) (s : Core ρ) : Option (Core ρ) :=
  doLoop (fun s => do
    let v ← dp.readMemory s ((s.curInst >>> 6) &&& 1) ((s.curInst >>> 8) &&& bitmask 6)
    pure { s with lc := v &&& bitmask 16 }) s

/-- `emu_do_ea`. -/
def emuDoEa (dp : Datapath ρ) (s : Core ρ) : Option (Core ρ) :=
  doLoop (fun s => do
    let memspace := (s.curInst >>> 6) &&& 1
    let (r, addr) := dp.calcEa s ((s.curInst >>> 8) &&& bitmask 6)
    let v ← dp.readMemory { s with rest := r } memspace addr
    pure { s with rest := r, lc := v &&& bitmask 16 }) s

/-- `emu_do_reg`: unlike the other DO forms it loads LC between the two pushes. -/
def emuDoReg (dp : Datapath ρ) (s : Core ρ) : Option (Core ρ) := do
  let s ← stackPush s s.la s.lc false
  let la ← readMemoryP s ((s.pc + 1) % 2 ^ 32)
  let s := { s with la := la &&& bitmask 16, curInstLen := s.curInstLen + 1 }
  let numreg := (s.curInst >>> 8) &&& bitmask 6
  let s := { s with lc := dp.readRegister s numreg &&& bitmask 16 }
  let s ← stackPush s (s.pc + s.curInstLen) s.sr false
  pure { s with sr := s.sr ||| 1 <<< dspSrLf }

/-- The loop entry of `emu_dor_imm` and `emu_dor_reg`: LA is the PC plus the
displacement in the second instruction word. -/
def dorLoop (count : Core ρ → Option (Core ρ)) (s : Core ρ) : Option (Core ρ) := do
  let xxxx ← readMemoryP s ((s.pc + 1) % 2 ^ 32)
  let s := { s with curInstLen := s.curInstLen + 1 }
  let s ← stackPush s s.la s.lc false
  let s := { s with la := (s.pc + xxxx) &&& bitmask 16 }
  let s ← stackPush s (s.pc + s.curInstLen) s.sr false
  count { s with sr := s.sr ||| 1 <<< dspSrLf }

/-- `emu_dor_imm`. -/
def emuDorImm (s : Core ρ) : Option (Core ρ) :=
  dorLoop (fun s => some { s with lc := immCount s.curInst }) s

/-- `emu_dor_reg`. -/
def emuDorReg (dp : Datapath ρ) (s : Core ρ) : Option (Core ρ) :=
  dorLoop (fun s => some { s with lc := dp.readRegister s ((s.curInst >>> 8) &&& bitmask 6) &&& bitmask 16 }) s

/-- The start of every REP: save LC, mark the REP as running with the PC still
on it, then let `count` load LC. -/
def repLoop (count : Core ρ → Option (Core ρ)) (s : Core ρ) : Option (Core ρ) :=
  count { s with lcsave := s.lc, pcOnRep := true, loopRep := true }

/-- `emu_rep_aa`: the memory word is loaded into LC unmasked. -/
def emuRepAa (dp : Datapath ρ) (s : Core ρ) : Option (Core ρ) :=
  repLoop (fun s => do
    let v ← dp.readMemory s ((s.curInst >>> 6) &&& 1) ((s.curInst >>> 8) &&& bitmask 6)
    pure { s with lc := v }) s

/-- `emu_rep_imm`. -/
def emuRepImm (s : Core ρ) : Option (Core ρ) :=
  repLoop (fun s => some { s with lc := immCount s.curInst }) s

/-- `emu_rep_ea`: the memory word is loaded into LC unmasked. -/
def emuRepEa (dp : Datapath ρ) (s : Core ρ) : Option (Core ρ) :=
  repLoop (fun s => do
    let (r, value) := dp.calcEa s ((s.curInst >>> 8) &&& bitmask 6)
    let v ← dp.readMemory { s with rest := r } ((s.curInst >>> 6) &&& 1) value
    pure { s with rest := r, lc := v }) s

/-- `emu_rep_reg`. -/
def emuRepReg (dp : Datapath ρ) (s : Core ρ) : Option (Core ρ) :=
  repLoop (fun s => some { s with lc := dp.readRegister s ((s.curInst >>> 8) &&& bitmask 6) &&& bitmask 16 }) s

/-! ## Decoding -/

/-- The loop instructions of `nonparallel_opcodes`. -/
inductive LoopOp
  | doEa | doAa | doImm | doReg | dorImm | dorReg | enddo | repEa | repAa | repImm | repReg
  deriving DecidableEq, Repr

/-- `match_MMMRRR`: of the mode-6 effective addresses only the absolute and
immediate forms exist. -/
def matchMMMRRR (op : Nat) : Bool :=
  let rrr := (op >>> 8) &&& bitmask 3
  let mmm := (op >>> 11) &&& bitmask 3
  if mmm = 0x6 then rrr = 0x0 || rrr = 0x4 else true

/-- An entry of the opcode table: the mask and match words `dsp56k_reset_cpu`
computes from the template, and whether `match_MMMRRR` filters it. -/
structure OpcodeEntry where
  mask : Nat
  value : Nat
  op : LoopOp
  checkMMMRRR : Bool

/-- The loop entries of `nonparallel_opcodes`, in table order, with their templates. -/
def loopOpcodes : List OpcodeEntry :=
  [ ⟨0xFFC0BF, 0x064000, .doEa, true⟩,     -- 0000011001MMMRRR0S000000
    ⟨0xFFC0BF, 0x060000, .doAa, false⟩,    -- 0000011000aaaaaa0S000000
    ⟨0xFF00F0, 0x060080, .doImm, false⟩,   -- 00000110iiiiiiii1000hhhh
    ⟨0xFFC0FF, 0x06C000, .doReg, false⟩,   -- 0000011011DDDDDD00000000
    ⟨0xFF00F0, 0x060090, .dorImm, false⟩,  -- 00000110iiiiiiii1001hhhh
    ⟨0xFFC0FF, 0x06C010, .dorReg, false⟩,  -- 0000011011DDDDDD00010000
    ⟨0xFFFFFF, 0x00008C, .enddo, false⟩,   -- 000000000000000010001100
    ⟨0xFFC0BF, 0x064020, .repEa, true⟩,    -- 0000011001MMMRRR0S100000
    ⟨0xFFC0BF, 0x060020, .repAa, false⟩,   -- 0000011000aaaaaa0S100000
    ⟨0xFF00F0, 0x0600A0, .repImm, false⟩,  -- 00000110iiiiiiii1010hhhh
    ⟨0xFFC0FF, 0x06C020, .repReg, false⟩ ] -- 0000011011dddddd00100000

/-- `lookup_opcode` restricted to the loop instructions; the table asserts that
at most one entry matches a word. -/
def lookupLoopOp (op : Nat) : Option LoopOp :=
  (loopOpcodes.find? fun e => op &&& e.mask == e.value && (!e.checkMMMRRR || matchMMMRRR op)).map
    OpcodeEntry.op

/-- The emulation function of a loop instruction. -/
def emuLoopOp (dp : Datapath ρ) : LoopOp → Core ρ → Option (Core ρ)
  | .doEa => emuDoEa dp
  | .doAa => emuDoAa dp
  | .doImm => emuDoImm
  | .doReg => emuDoReg dp
  | .dorImm => emuDorImm
  | .dorReg => emuDorReg dp
  | .enddo => emuEnddo
  | .repEa => emuRepEa dp
  | .repAa => emuRepAa dp
  | .repImm => emuRepImm
  | .repReg => emuRepReg dp

/-! ## Execution -/

/-- Fetch the word at PC and run its emulation function. -/
def dispatch (dp : Datapath ρ) (s : Core ρ) : Option (Core ρ) := do
  let inst ← readMemoryP s s.pc
  let s := { s with curInst := inst, curInstLen := 1 }
  if s.curInst < 0x100000 then
    match lookupLoopOp s.curInst with
    | some op => emuLoopOp dp op s
    | none => dp.emu s.curInst s
  else dp.emu s.curInst s

/-- `--LC; LC &= BITMASK(16)` on the 32-bit register. -/
def decrementLc (lc : Nat) : Nat := ((lc + 2 ^ 32 - 1) % 2 ^ 32) &&& bitmask 16

/-- The REP part of `dsp_postexecute_update_pc`: on the instruction after REP
(`pc_on_rep` clear) count LC down and stay while it is positive, restoring LC
from LCSAVE at the end; on the REP itself only turn a zero count into 0x10000. -/
def repUpdate (s : Core ρ) : Core ρ :=
  if s.loopRep then
    if !s.pcOnRep then
      let lc := decrementLc s.lc
      if lc > 0 then { s with lc, curInstLen := 0 }
      else { s with lc := s.lcsave, loopRep := false }
    else
      let s := if s.lc = 0 then { s with lc := 0x010000 } else s
      { s with pcOnRep := false }
  else s

/-- The DO part of `dsp_postexecute_update_pc`, on the advanced PC: after the
last instruction of a loop count LC down, and either end the loop or go back to
its first instruction, saved in SSH. -/
def doUpdate (s : Core ρ) : Option (Core ρ) :=
  if s.sr &&& 1 <<< dspSrLf ≠ 0 then
    if s.pc = (s.la + 1) % 2 ^ 32 then
      let lc := decrementLc s.lc
      if lc = 0 then endLoop { s with lc }
      else some { s with lc, pc := s.ssh }
    else some s
  else some s

/-- `dsp_postexecute_update_pc`. -/
def postexecuteUpdatePc (s : Core ρ) : Option (Core ρ) :=
  let s := repUpdate s
  doUpdate { s with pc := (s.pc + s.curInstLen) % 2 ^ 32 }

/-- `dsp_postexecute_interrupts`: REP is not interruptible. -/
def postexecuteInterrupts (dp : Datapath ρ) (s : Core ρ) : Option (Core ρ) :=
  if s.loopRep then some s else dp.interrupts s

/-- `dsp56k_execute_instruction`. -/
def executeInstruction (dp : Datapath ρ) (s : Core ρ) : Option (Core ρ) := do
  let s ← dispatch dp s
  let s ← postexecuteUpdatePc s
  postexecuteInterrupts dp s

/-- `n` successive calls of `dsp56k_execute_instruction`. -/
def run (dp : Datapath ρ) : Nat → Core ρ → Option (Core ρ)
  | 0, s => some s
  | n + 1, s => (executeInstruction dp s).bind (run dp n)

/-! ## Spec lemmas -/

section Spec

variable {dp : Datapath ρ} {s t : Core ρ}

theorem and_ff000000_of_lt {x : Nat} (h : x < 2 ^ 24) : x &&& 0xFF000000 = 0 := by
  have hx : x = x &&& (2 ^ 24 - 1) := by rw [Nat.and_two_pow_sub_one_eq_mod, Nat.mod_eq_of_lt h]
  rw [hx, Nat.and_assoc]
  simp

/-- Inside program memory a 24-bit word is read as it is. -/
theorem readMemoryP_of_lt {address : Nat} (ha : address < dspPramSize)
    (hw : s.pram address &&& 0xFF000000 = 0) : readMemoryP s address = some (s.pram address) := by
  have hhigh : address &&& 0xFF000000 = 0 := and_ff000000_of_lt (by unfold dspPramSize at ha; omega)
  simp [readMemoryP, hhigh, ha, hw]

theorem and_bitmask (x n : Nat) : x &&& bitmask n = x % 2 ^ n :=
  Nat.and_two_pow_sub_one_eq_mod x n

/-- On a positive count the 32-bit decrement and mask is the decrement modulo 2^16. -/
theorem decrementLc_of_pos {lc : Nat} (h : 1 ≤ lc) : decrementLc lc = (lc - 1) % 0x10000 := by
  unfold decrementLc
  rw [and_bitmask]
  omega

theorem lf_ne_zero_iff (sr : Nat) : sr &&& 1 <<< dspSrLf ≠ 0 ↔ sr.testBit dspSrLf = true :=
  Bits.and_one_shiftLeft_ne_zero_iff sr dspSrLf

theorem repUpdate_of_not_loopRep (h : s.loopRep = false) : repUpdate s = s := by
  simp [repUpdate, h]

/-- On the REP itself: a zero count becomes 0x10000. -/
theorem repUpdate_of_pcOnRep (h : s.loopRep = true) (hon : s.pcOnRep = true) :
    repUpdate s = { s with lc := if s.lc = 0 then 0x010000 else s.lc, pcOnRep := false } := by
  by_cases hz : s.lc = 0 <;> simp [repUpdate, h, hon, hz]

/-- On the repeated instruction with repetitions to go: stay on it. -/
theorem repUpdate_of_pos (h : s.loopRep = true) (hon : s.pcOnRep = false)
    (hlc : 0 < decrementLc s.lc) :
    repUpdate s = { s with lc := decrementLc s.lc, curInstLen := 0 } := by
  simp [repUpdate, h, hon, hlc]

/-- After the last repetition: LC back from LCSAVE, REP over. -/
theorem repUpdate_of_zero (h : s.loopRep = true) (hon : s.pcOnRep = false)
    (hlc : decrementLc s.lc = 0) :
    repUpdate s = { s with lc := s.lcsave, loopRep := false } := by
  simp [repUpdate, h, hon, hlc]

/-- Off the last address of a loop the DO logic does nothing. -/
theorem doUpdate_of_ne (hpc : s.pc ≠ (s.la + 1) % 2 ^ 32) : doUpdate s = some s := by
  unfold doUpdate
  simp only [if_neg hpc, ite_self]

/-- Outside a loop, or off its last address, the DO logic does nothing. -/
theorem doUpdate_of_not_end (h : ¬(s.sr.testBit dspSrLf = true ∧ s.pc = (s.la + 1) % 2 ^ 32)) :
    doUpdate s = some s := by
  by_cases hlf : s.sr.testBit dspSrLf = true
  · exact doUpdate_of_ne fun hpc => h ⟨hlf, hpc⟩
  · have hz : ¬(s.sr &&& 1 <<< dspSrLf ≠ 0) := fun hne => hlf ((lf_ne_zero_iff s.sr).mp hne)
    unfold doUpdate
    rw [if_neg hz]

/-- After the last instruction of a loop with more iterations to go, back to its start. -/
theorem doUpdate_of_again (hlf : s.sr.testBit dspSrLf = true) (hpc : s.pc = (s.la + 1) % 2 ^ 32)
    (hlc : decrementLc s.lc ≠ 0) :
    doUpdate s = some { s with lc := decrementLc s.lc, pc := s.ssh } := by
  simp [doUpdate, (lf_ne_zero_iff s.sr).mpr hlf, hpc, hlc]

/-- After the last instruction of the last iteration, the loop exit. -/
theorem doUpdate_of_end (hlf : s.sr.testBit dspSrLf = true) (hpc : s.pc = (s.la + 1) % 2 ^ 32)
    (hlc : decrementLc s.lc = 0) : doUpdate s = endLoop { s with lc := 0 } := by
  simp [doUpdate, (lf_ne_zero_iff s.sr).mpr hlf, hpc, hlc]

theorem dispatch_of_loopOp {op : LoopOp} (hpc : readMemoryP s s.pc = some w) (hw : w < 0x100000)
    (hop : lookupLoopOp w = some op) :
    dispatch dp s = emuLoopOp dp op { s with curInst := w, curInstLen := 1 } := by
  simp [dispatch, hpc, hw, hop]

theorem dispatch_of_other (hpc : readMemoryP s s.pc = some w)
    (hw : w < 0x100000 → lookupLoopOp w = none) :
    dispatch dp s = dp.emu w { s with curInst := w, curInstLen := 1 } := by
  by_cases hlt : w < 0x100000
  · simp [dispatch, hpc, hlt, hw hlt]
  · simp [dispatch, hpc, hlt]

theorem postexecuteInterrupts_of_loopRep (h : s.loopRep = true) :
    postexecuteInterrupts dp s = some s := by
  simp [postexecuteInterrupts, h]

theorem executeInstruction_eq :
    executeInstruction dp s =
      (dispatch dp s).bind fun t => (postexecuteUpdatePc t).bind (postexecuteInterrupts dp) := rfl

@[simp] theorem run_zero : run dp 0 s = some s := rfl

theorem run_succ (n : Nat) : run dp (n + 1) s = (executeInstruction dp s).bind (run dp n) := rfl

theorem run_of_executeInstruction {n : Nat} (h : executeInstruction dp s = some t) :
    run dp (n + 1) s = run dp n t := by
  simp [run_succ, h]

/-- Runs compose: `m + n` instructions are `m` and then `n` more. -/
theorem run_add (m n : Nat) (s : Core ρ) : run dp (m + n) s = (run dp m s).bind (run dp n) := by
  induction m generalizing s with
  | zero => simp
  | succ m ih =>
      rw [Nat.add_right_comm, run_succ, run_succ]
      cases executeInstruction dp s with
      | none => rfl
      | some t => exact ih t

end Spec

/-! ## The system stack as a list of entries -/

/-- SP holds the depth of a stack of at most fifteen entries with no error flag
set, cells `1 … depth` of `stack[2][16]` hold `frames` from the bottom up, and
SSH and SSL show the top cell. -/
structure StackHolds (s : Core ρ) (frames : List (Nat × Nat)) : Prop where
  sp_eq : s.sp = frames.length
  length_le : frames.length ≤ 15
  cells : ArrayStack.Holds (stackCells s) frames
  top : (s.ssh, s.ssl) = stackCells s frames.length

namespace StackHolds

variable {s t : Core ρ} {frames : List (Nat × Nat)}

/-- Only SP, SSH, SSL and the stack arrays matter. -/
theorem of_eq (h : StackHolds s frames) (hsp : t.sp = s.sp) (hssh : t.ssh = s.ssh)
    (hssl : t.ssl = s.ssl) (hhi : t.sshStack = s.sshStack) (hlo : t.sslStack = s.sslStack) :
    StackHolds t frames := by
  have hcells : stackCells t = stackCells s := by
    unfold stackCells
    rw [hhi, hlo]
  exact ⟨hsp.trans h.sp_eq, h.length_le, hcells ▸ h.cells, by rw [hssh, hssl, hcells]; exact h.top⟩

/-- Writing the cell `c` above the top of a stack with room, and showing it in
SSH and SSL. -/
theorem pushCell (h : StackHolds s frames) (hlen : frames.length < 15) (c : Nat × Nat) :
    StackHolds { s with
        sp := frames.length + 1,
        sshStack := Function.update s.sshStack (frames.length + 1) c.1,
        sslStack := Function.update s.sslStack (frames.length + 1) c.2,
        ssh := c.1, ssl := c.2 }
      (frames ++ [c]) := by
  have hcells := congrArg (fun f => ArrayStack.Holds f (frames ++ [c]))
    (ArrayStack.update_pair s.sshStack s.sslStack (frames.length + 1) c.1 c.2)
  refine ⟨by simp, by simp; omega, ?_, ?_⟩
  · exact (Eq.mpr hcells (h.cells.push _))
  · simp [stackCells]

/-- The state `dsp_stack_push` leaves on a stack of depth `d` with room. -/
theorem push (h : StackHolds s frames) (hlen : frames.length < 15) (curpc cursr : Nat) :
    StackHolds { s with
        sp := frames.length + 1,
        sshStack := Function.update s.sshStack (frames.length + 1) (curpc &&& bitmask 16),
        sslStack := Function.update s.sslStack (frames.length + 1) (cursr &&& bitmask 16),
        ssh := curpc &&& bitmask 16, ssl := cursr &&& bitmask 16 }
      (frames ++ [(curpc &&& bitmask 16, cursr &&& bitmask 16)]) :=
  h.pushCell hlen (curpc &&& bitmask 16, cursr &&& bitmask 16)

/-- The state `dsp_stack_pop` leaves, with the top entry gone. -/
theorem pop {f : Nat × Nat} (h : StackHolds s (frames ++ [f])) :
    StackHolds { s with
        sp := frames.length, ssh := s.sshStack frames.length, ssl := s.sslStack frames.length }
      frames := by
  have hlen := h.length_le
  simp only [List.length_append, List.length_singleton] at hlen
  exact ⟨rfl, by omega, h.cells.pop, rfl⟩

/-- SSH and SSL show the top entry. -/
theorem top_eq {f : Nat × Nat} (h : StackHolds s (frames ++ [f])) : (s.ssh, s.ssl) = f := by
  rw [h.top]
  simpa using h.cells.top

end StackHolds

section StackOps

variable {s : Core ρ} {frames : List (Nat × Nat)}

/-- The depth arithmetic of `dsp_stack_push` below a full stack. -/
theorem push_depth : ∀ d < 15, d &&& 1 <<< dspSpSe = 0 ∧ d &&& 1 <<< dspSpUf = 0 ∧
    (d &&& bitmask 4) + 1 = d + 1 ∧ (d + 1) &&& 1 <<< dspSpSe = 0 ∧
    (d + 1) &&& bitmask 6 = d + 1 ∧ (d + 1) &&& bitmask 4 = d + 1 := by
  decide

/-- The depth arithmetic of `dsp_stack_pop` on a non-empty stack. -/
theorem pop_depth : ∀ d < 15, (d + 1) &&& 1 <<< dspSpSe = 0 ∧ (d + 1) &&& 1 <<< dspSpUf = 0 ∧
    (d + 1) &&& bitmask 4 = d + 1 ∧ d &&& 1 <<< dspSpSe = 0 ∧
    d &&& bitmask 6 = d ∧ d &&& bitmask 4 = d := by
  decide

/-- `dsp_stack_push` on a stack with room writes the cell above the top. -/
theorem stackPush_of_holds (h : StackHolds s frames) (hlen : frames.length < 15)
    (curpc cursr : Nat) :
    stackPush s curpc cursr false = some { s with
      sp := frames.length + 1,
      sshStack := Function.update s.sshStack (frames.length + 1) (curpc &&& bitmask 16),
      sslStack := Function.update s.sslStack (frames.length + 1) (cursr &&& bitmask 16),
      ssh := curpc &&& bitmask 16, ssl := cursr &&& bitmask 16 } := by
  obtain ⟨h1, h2, h3, h4, h5, h6⟩ := push_depth _ hlen
  simp [stackPush, h.sp_eq, h1, h2, h3, h4, h5, h6]

/-- `dsp_stack_push` for `MOVEC xx,SSH` on a stack with room: the SSH half of
the cell above the top is written, and its SSL half shows through. -/
theorem stackPush_sshOnly_of_holds (h : StackHolds s frames) (hlen : frames.length < 15)
    (curpc cursr : Nat) :
    stackPush s curpc cursr true = some { s with
      sp := frames.length + 1,
      sshStack := Function.update s.sshStack (frames.length + 1) (curpc &&& bitmask 16),
      sslStack := Function.update s.sslStack (frames.length + 1) (s.sslStack (frames.length + 1)),
      ssh := curpc &&& bitmask 16, ssl := s.sslStack (frames.length + 1) } := by
  obtain ⟨h1, h2, h3, h4, h5, h6⟩ := push_depth _ hlen
  simp [stackPush, h.sp_eq, h1, h2, h3, h4, h5, h6]

/-- A push on a full stack fails its assertion. -/
theorem stackPush_of_full (h : StackHolds s frames) (hfull : frames.length = 15)
    (curpc cursr : Nat) (sshOnly : Bool) : stackPush s curpc cursr sshOnly = none := by
  have hsp : s.sp = 15 := h.sp_eq.trans hfull
  simp only [stackPush, hsp]
  rfl

/-- A pop of an empty stack fails its assertion. -/
theorem stackPop_of_empty (h : StackHolds s []) : stackPop s = none := by
  have hsp : s.sp = 0 := h.sp_eq
  simp only [stackPop, hsp]
  rfl

/-- `dsp_stack_pop` on a non-empty stack returns its top entry. -/
theorem stackPop_of_holds {f : Nat × Nat} (h : StackHolds s (frames ++ [f])) :
    stackPop s = some ({ s with
        sp := frames.length, ssh := s.sshStack frames.length, ssl := s.sslStack frames.length },
      f.1, f.2) := by
  obtain ⟨f₁, f₂⟩ := f
  have hlen := h.length_le
  simp only [List.length_append, List.length_singleton] at hlen
  obtain ⟨h1, h2, h0, h4, h5, h6⟩ := pop_depth _ (by omega : frames.length < 15)
  have h3 : ((frames.length + 1 &&& bitmask 4) + 2 ^ 32 - 1) % 2 ^ 32 = frames.length := by
    rw [h0]
    omega
  have htop := h.top_eq
  simp only [Prod.mk.injEq] at htop
  have hsp : s.sp = frames.length + 1 := by simpa using h.sp_eq
  simp only [stackPop, hsp, h3]
  simp [h1, h2, h4, h5, h6, htop.1, htop.2]

/-- The loop exit on a stack whose top two entries are a loop's: LA and LC come
from the lower one, LF from the SR saved in the upper one, and SR keeps only its
low seven bits. -/
theorem endLoop_of_holds {outer inner : Nat × Nat} (h : StackHolds s (frames ++ [outer, inner])) :
    endLoop s = some { s with
      sr := s.sr &&& 0x7f ||| inner.2 &&& 1 <<< dspSrLf, la := outer.1, lc := outer.2,
      sp := frames.length, ssh := s.sshStack frames.length, ssl := s.sslStack frames.length } := by
  have h₁ : StackHolds s ((frames ++ [outer]) ++ [inner]) := by simpa using h
  have h₂ := h₁.pop
  -- the SR write between the two pops keeps the stack
  have h₃ : StackHolds { s with
        sp := (frames ++ [outer]).length, ssh := s.sshStack (frames ++ [outer]).length,
        ssl := s.sslStack (frames ++ [outer]).length,
        sr := s.sr &&& 0x7f ||| inner.2 &&& 1 <<< dspSrLf } (frames ++ [outer]) :=
    h₂.of_eq rfl rfl rfl rfl rfl
  unfold endLoop
  rw [stackPop_of_holds h₁]
  simp only [Option.bind_eq_bind, Option.bind_some]
  rw [stackPop_of_holds h₃]
  rfl

end StackOps

end Xqemu.Dsp
