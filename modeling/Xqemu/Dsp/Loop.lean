import Xqemu.Dsp.Core

/-!
# DO loops

A DO pushes two entries on the system stack, the outer LA and LC and then the
address of the loop body with SR, sets LF and loads LA and LC.  From then on the
post-execute step counts LC down each time the advanced PC reaches LA + 1, going
back to the body start held in SSH until LC reaches zero, where `endLoop` pops
both entries.

For a body of straight-line one-word instructions the loop runs the body LC
times and then continues at LA + 1 with LA, LC, SP, SSH and SSL as they were
before the DO and LF restored; of the SR the body left it keeps only the seven
low bits, so the interrupt mask, the scaling mode and the trace bit always read
zero after a loop.
-/

namespace Xqemu.Dsp

variable {ρ : Type} {dp : Datapath ρ}

/-- A straight-line instruction word: one of the datapath's, one word long, whose
emulation changes only the bits of SR other than LF and the rest of the machine. -/
structure Straight (dp : Datapath ρ) (w : Nat) : Prop where
  word : w &&& 0xFF000000 = 0
  not_loop : w < 0x100000 → lookupLoopOp w = none
  emu : ∀ s : Core ρ, ∃ sr r, dp.emu w s = some { s with sr, rest := r } ∧
    sr.testBit dspSrLf = s.sr.testBit dspSrLf

theorem Straight.dispatch_eq {s : Core ρ} (hw : Straight dp (s.pram s.pc))
    (hpc : s.pc < dspPramSize) :
    ∃ sr r, dispatch dp s = some { s with curInst := s.pram s.pc, curInstLen := 1, sr, rest := r } ∧
      sr.testBit dspSrLf = s.sr.testBit dspSrLf := by
  obtain ⟨sr, r, he, hlf⟩ := hw.emu { s with curInst := s.pram s.pc, curInstLen := 1 }
  refine ⟨sr, r, ?_, hlf⟩
  rw [dispatch_of_other (readMemoryP_of_lt hpc hw.word) hw.not_loop, he]

/-- With no interrupt pending, the interrupt step leaves every state alone. -/
theorem postexecuteInterrupts_of_quiet (hquiet : ∀ t, dp.interrupts t = some t) (s : Core ρ) :
    postexecuteInterrupts dp s = some s := by
  unfold postexecuteInterrupts
  split
  · rfl
  · exact hquiet s

/-- What a running DO loop fixes: program memory, the stack arrays, the entries
below the loop, the loop's two entries (the saved LA and LC, and the body start
with the saved SR) and the last address of the body. -/
structure LoopFrame where
  pram : Nat → Nat
  cells : Nat → Nat × Nat
  frames : List (Nat × Nat)
  outer : Nat × Nat
  start : Nat
  last : Nat
  savedSr : Nat

/-- The loop exit after the last body instruction left `u`. -/
def LoopFrame.exit (f : LoopFrame) (u : Core ρ) : Core ρ :=
  { u with pc := f.last + 1, la := f.outer.1, lc := f.outer.2, sp := f.frames.length,
           ssh := u.sshStack f.frames.length, ssl := u.sslStack f.frames.length,
           sr := u.sr &&& 0x7f ||| f.savedSr &&& 1 <<< dspSrLf }

/-- A state inside the loop of `f`. -/
structure InLoop (f : LoopFrame) (t : Core ρ) : Prop where
  la_eq : t.la = f.last
  pram_eq : t.pram = f.pram
  cells_eq : stackCells t = f.cells
  stack : StackHolds t (f.frames ++ [f.outer, (f.start, f.savedSr)])
  lf : t.sr.testBit dspSrLf = true
  loopRep : t.loopRep = false

/-- Moving the PC and counting LC keeps a state in the loop. -/
theorem InLoop.setPcLc {f : LoopFrame} {u : Core ρ} (hu : InLoop f u) (p c : Nat) :
    InLoop f { u with pc := p, lc := c } :=
  ⟨hu.la_eq, hu.pram_eq, hu.cells_eq, hu.stack.of_eq rfl rfl rfl rfl rfl, hu.lf, hu.loopRep⟩

section Body

variable {f : LoopFrame} {t : Core ρ}
variable (hbody : ∀ b, f.start ≤ b → b ≤ f.last → Straight dp (f.pram b))
  (hlast : f.last < dspPramSize) (hquiet : ∀ t : Core ρ, dp.interrupts t = some t)
include hbody hlast hquiet

/-- One body instruction: its emulation keeps the loop, and the post-execute
step sees the PC advanced by one. -/
theorem InLoop.execute_body (hin : InLoop f t) (hb : f.start ≤ t.pc) (hbL : t.pc ≤ f.last) :
    ∃ u, dispatch dp t = some u ∧ InLoop f u ∧ u.pc = t.pc ∧ u.lc = t.lc ∧
      executeInstruction dp t = doUpdate { u with pc := t.pc + 1 } := by
  have hw : Straight dp (t.pram t.pc) := hin.pram_eq ▸ hbody t.pc hb hbL
  obtain ⟨sr, r, hd, hlf⟩ := hw.dispatch_eq (by omega)
  have hin' : InLoop f { t with curInst := t.pram t.pc, curInstLen := 1, sr, rest := r } :=
    ⟨hin.la_eq, hin.pram_eq, hin.cells_eq, hin.stack.of_eq rfl rfl rfl rfl rfl,
      hlf.trans hin.lf, hin.loopRep⟩
  refine ⟨_, hd, hin', rfl, rfl, ?_⟩
  have hwrap : (t.pc + 1) % 2 ^ 32 = t.pc + 1 := Nat.mod_eq_of_lt (by unfold dspPramSize at hlast; omega)
  simp only [executeInstruction_eq, hd, Option.bind_some, postexecuteUpdatePc,
    repUpdate_of_not_loopRep hin'.loopRep, hwrap, funext (postexecuteInterrupts_of_quiet hquiet),
    Option.bind_fun_some]

/-- An instruction before the last one of the body moves on to the next. -/
theorem InLoop.step_inner (hin : InLoop f t) (hb : f.start ≤ t.pc) (hbL : t.pc < f.last) :
    ∃ t', executeInstruction dp t = some t' ∧ InLoop f t' ∧ t'.pc = t.pc + 1 ∧ t'.lc = t.lc := by
  obtain ⟨u, -, hu, -, hlc, hexec⟩ := hin.execute_body hbody hlast hquiet hb hbL.le
  have hne : t.pc + 1 ≠ (u.la + 1) % 2 ^ 32 := by
    rw [hu.la_eq, Nat.mod_eq_of_lt (by unfold dspPramSize at hlast; omega)]
    omega
  refine ⟨{ u with pc := t.pc + 1 }, ?_, hu.setPcLc (t.pc + 1) u.lc, rfl, hlc⟩
  rw [hexec, doUpdate_of_ne hne]

/-- The last instruction of the body, with iterations to go, returns to the
body start saved in SSH. -/
theorem InLoop.step_again (hin : InLoop f t) (hb : f.start ≤ f.last) (hpc : t.pc = f.last)
    (hlc : 2 ≤ t.lc) (hlc' : t.lc ≤ 0xFFFF) :
    ∃ t', executeInstruction dp t = some t' ∧ InLoop f t' ∧ t'.pc = f.start ∧ t'.lc = t.lc - 1 := by
  obtain ⟨u, -, hu, -, hulc, hexec⟩ := hin.execute_body hbody hlast hquiet (hpc ▸ hb) hpc.le
  have hend : t.pc + 1 = (u.la + 1) % 2 ^ 32 := by
    rw [hu.la_eq, Nat.mod_eq_of_lt (by unfold dspPramSize at hlast; omega), hpc]
  have hdec : decrementLc u.lc = t.lc - 1 := by
    rw [decrementLc_of_pos (by omega), hulc, Nat.mod_eq_of_lt (by omega)]
  have hssh : u.ssh = f.start := by
    have hst : StackHolds u ((f.frames ++ [f.outer]) ++ [(f.start, f.savedSr)]) := by
      simpa using hu.stack
    exact (Prod.mk.injEq _ _ _ _ ▸ hst.top_eq).1
  refine ⟨{ u with lc := t.lc - 1, pc := f.start }, ?_, hu.setPcLc f.start (t.lc - 1), rfl, rfl⟩
  rw [hexec, doUpdate_of_again (s := { u with pc := t.pc + 1 }) hu.lf hend (by rw [hdec]; omega),
    hdec, hssh]

/-- The last instruction of the last iteration leaves the loop. -/
theorem InLoop.step_exit (hin : InLoop f t) (hb : f.start ≤ f.last) (hpc : t.pc = f.last)
    (hlc : t.lc = 1) :
    ∃ u, dispatch dp t = some u ∧ InLoop f u ∧ executeInstruction dp t = some (f.exit u) := by
  obtain ⟨u, hd, hu, -, hulc, hexec⟩ := hin.execute_body hbody hlast hquiet (hpc ▸ hb) hpc.le
  have hend : t.pc + 1 = (u.la + 1) % 2 ^ 32 := by
    rw [hu.la_eq, Nat.mod_eq_of_lt (by unfold dspPramSize at hlast; omega), hpc]
  have hdec : decrementLc u.lc = 0 := by
    rw [decrementLc_of_pos (by omega), hulc, hlc]
  have hstack : StackHolds { { u with pc := t.pc + 1 } with lc := 0 }
      (f.frames ++ [f.outer, (f.start, f.savedSr)]) := hu.stack.of_eq rfl rfl rfl rfl rfl
  refine ⟨u, hd, hu, ?_⟩
  rw [hexec, doUpdate_of_end (s := { u with pc := t.pc + 1 }) hu.lf hend hdec,
    endLoop_of_holds hstack, hpc]
  rfl

/-- From any body instruction the loop walks to the last one. -/
theorem InLoop.run_walk (hin : InLoop f t) (hb : f.start ≤ t.pc) (hbL : t.pc ≤ f.last) :
    ∃ t', run dp (f.last - t.pc) t = some t' ∧ InLoop f t' ∧ t'.pc = f.last ∧ t'.lc = t.lc := by
  -- induction on the distance to the last instruction
  obtain ⟨k, hk⟩ : ∃ k, f.last - t.pc = k := ⟨_, rfl⟩
  induction k generalizing t with
  | zero => exact ⟨t, by rw [hk]; rfl, hin, by omega, rfl⟩
  | succ k ih =>
      obtain ⟨t₁, hstep, hin₁, hpc₁, hlc₁⟩ := hin.step_inner hbody hlast hquiet hb (by omega)
      obtain ⟨t', hrun, hin', hpc', hlc'⟩ := ih hin₁ (by omega) (by omega) (by omega)
      have hk₁ : f.last - t₁.pc = k := by omega
      refine ⟨t', ?_, hin', hpc', hlc'.trans hlc₁⟩
      rw [hk, run_of_executeInstruction hstep, ← hk₁, hrun]

/-- One pass over the body with iterations to go ends back at its start. -/
theorem InLoop.run_pass (hin : InLoop f t) (hb : f.start ≤ f.last) (hpc : t.pc = f.start)
    (hlc : 2 ≤ t.lc) (hlc' : t.lc ≤ 0xFFFF) :
    ∃ t', run dp (f.last + 1 - f.start) t = some t' ∧ InLoop f t' ∧ t'.pc = f.start ∧
      t'.lc = t.lc - 1 := by
  obtain ⟨t₁, hwalk, hin₁, hpc₁, hlc₁⟩ := hin.run_walk hbody hlast hquiet (by omega) (by omega)
  obtain ⟨t', hstep, hin', hpc', hlc''⟩ :=
    hin₁.step_again hbody hlast hquiet hb hpc₁ (by omega) (by omega)
  refine ⟨t', ?_, hin', hpc', by omega⟩
  have hsteps : f.last + 1 - f.start = (f.last - t.pc) + 1 := by omega
  rw [hsteps, run_add, hwalk, Option.bind_some, run_of_executeInstruction hstep, run_zero]

/-- The pass of the last iteration ends with the loop exit. -/
theorem InLoop.run_last (hin : InLoop f t) (hb : f.start ≤ f.last) (hpc : t.pc = f.start)
    (hlc : t.lc = 1) :
    ∃ v u, InLoop f v ∧ v.pc = f.last ∧ dispatch dp v = some u ∧ InLoop f u ∧
      run dp (f.last + 1 - f.start) t = some (f.exit u) := by
  obtain ⟨v, hwalk, hinv, hpcv, hlcv⟩ := hin.run_walk hbody hlast hquiet (by omega) (by omega)
  obtain ⟨u, hd, hu, hstep⟩ := hinv.step_exit hbody hlast hquiet hb hpcv (by omega)
  refine ⟨v, u, hinv, hpcv, hd, hu, ?_⟩
  have hsteps : f.last + 1 - f.start = (f.last - t.pc) + 1 := by omega
  rw [hsteps, run_add, hwalk, Option.bind_some, run_of_executeInstruction hstep, run_zero]

/-- From the body start with `lc` iterations to go, `lc` passes over the body
and then the loop exit. -/
theorem InLoop.run_loop (hin : InLoop f t) (hb : f.start ≤ f.last) (hpc : t.pc = f.start)
    (hlc : 1 ≤ t.lc) (hlc' : t.lc ≤ 0xFFFF) :
    ∃ v u, InLoop f v ∧ v.pc = f.last ∧ dispatch dp v = some u ∧ InLoop f u ∧
      run dp (t.lc * (f.last + 1 - f.start)) t = some (f.exit u) := by
  -- induction on the iterations left
  obtain ⟨c, hc⟩ : ∃ c, t.lc = c + 1 := ⟨t.lc - 1, by omega⟩
  induction c generalizing t with
  | zero =>
      rw [hc, Nat.one_mul]
      exact hin.run_last hbody hlast hquiet hb hpc hc
  | succ c ih =>
      obtain ⟨t₁, hpass, hin₁, hpc₁, hlc₁⟩ := hin.run_pass hbody hlast hquiet hb hpc (by omega) hlc'
      obtain ⟨v, u, hinv, hpcv, hd, hu, hrun⟩ := ih hin₁ hpc₁ (by omega) (by omega) (by omega)
      refine ⟨v, u, hinv, hpcv, hd, hu, ?_⟩
      have hsteps : t.lc * (f.last + 1 - f.start) =
          (f.last + 1 - f.start) + t₁.lc * (f.last + 1 - f.start) := by
        rw [hlc₁, hc, Nat.add_sub_cancel, Nat.add_mul, Nat.one_mul, Nat.add_comm]
      rw [hsteps, run_add, hpass, Option.bind_some, hrun]

end Body

/-! ## Entering a loop -/

/-- The loop a DO at the PC of `s` enters, above the stack `frames`. -/
def doFrame (s : Core ρ) (frames : List (Nat × Nat)) : LoopFrame where
  pram := s.pram
  cells := Function.update (Function.update (stackCells s) (frames.length + 1)
    (s.la &&& bitmask 16, s.lc &&& bitmask 16)) (frames.length + 2) (s.pc + 2, s.sr &&& bitmask 16)
  frames := frames
  outer := (s.la &&& bitmask 16, s.lc &&& bitmask 16)
  start := s.pc + 2
  last := s.pram (s.pc + 1) &&& bitmask 16
  savedSr := s.sr &&& bitmask 16

/-- The state the two pushes of a DO and the setting of LF leave, before LC is loaded. -/
@[simps]
def doEntered (s : Core ρ) (frames : List (Nat × Nat)) : Core ρ :=
  { s with
    sp := frames.length + 2,
    sshStack := Function.update (Function.update s.sshStack (frames.length + 1)
      (s.la &&& bitmask 16)) (frames.length + 2) ((s.pc + (s.curInstLen + 1)) &&& bitmask 16),
    sslStack := Function.update (Function.update s.sslStack (frames.length + 1)
      (s.lc &&& bitmask 16)) (frames.length + 2) (s.sr &&& bitmask 16),
    ssh := (s.pc + (s.curInstLen + 1)) &&& bitmask 16, ssl := s.sr &&& bitmask 16,
    la := s.pram (s.pc + 1) &&& bitmask 16, curInstLen := s.curInstLen + 1,
    sr := s.sr ||| 1 <<< dspSrLf }

section Entry

variable {s : Core ρ} {frames : List (Nat × Nat)}

/-- The entry shared by `emu_do_aa`, `emu_do_imm` and `emu_do_ea` on a stack with
room for two entries, with the second instruction word in program memory. -/
theorem doLoop_entry (count : Core ρ → Option (Core ρ)) (hs : StackHolds s frames)
    (hlen : frames.length ≤ 13) (hpc : s.pc + 1 < dspPramSize)
    (hlaw : s.pram (s.pc + 1) &&& 0xFF000000 = 0) :
    doLoop count s = count (doEntered s frames) := by
  have hwrap : (s.pc + 1) % 2 ^ 32 = s.pc + 1 :=
    Nat.mod_eq_of_lt (by unfold dspPramSize at hpc; omega)
  -- after the first push, which saves LA and LC, LA and the length are set
  have hs₁ : StackHolds { s with
        sp := frames.length + 1,
        sshStack := Function.update s.sshStack (frames.length + 1) (s.la &&& bitmask 16),
        sslStack := Function.update s.sslStack (frames.length + 1) (s.lc &&& bitmask 16),
        ssh := s.la &&& bitmask 16, ssl := s.lc &&& bitmask 16,
        la := s.pram (s.pc + 1) &&& bitmask 16, curInstLen := s.curInstLen + 1 }
      (frames ++ [(s.la &&& bitmask 16, s.lc &&& bitmask 16)]) :=
    (hs.push (by omega) s.la s.lc).of_eq rfl rfl rfl rfl rfl
  have hread : readMemoryP { s with
      sp := frames.length + 1,
      sshStack := Function.update s.sshStack (frames.length + 1) (s.la &&& bitmask 16),
      sslStack := Function.update s.sslStack (frames.length + 1) (s.lc &&& bitmask 16),
      ssh := s.la &&& bitmask 16, ssl := s.lc &&& bitmask 16 } (s.pc + 1) =
        some (s.pram (s.pc + 1)) :=
    readMemoryP_of_lt hpc hlaw
  simp only [doLoop, stackPush_of_holds hs (by omega), Option.bind_eq_bind, Option.bind_some, hwrap,
    hread]
  rw [stackPush_of_holds hs₁ (by simp; omega), Option.bind_some]
  simp only [List.length_append, List.length_singleton]
  rfl

/-- After the pushes the state is in the loop the DO enters. -/
theorem doEntered_inLoop (hs : StackHolds s frames) (hlen : frames.length ≤ 13)
    (hloop : s.loopRep = false) (hinst : s.curInstLen = 1)
    (hlast : s.pram (s.pc + 1) &&& bitmask 16 < dspPramSize)
    (hstart : s.pc + 2 ≤ s.pram (s.pc + 1) &&& bitmask 16) :
    InLoop (doFrame s frames) (doEntered s frames) := by
  have hret : (s.pc + (s.curInstLen + 1)) &&& bitmask 16 = s.pc + 2 := by
    unfold dspPramSize at hlast
    rw [hinst, and_bitmask, Nat.mod_eq_of_lt (by omega)]
  have hs₂ := ((hs.push (by omega) s.la s.lc).of_eq (t := { s with
        sp := frames.length + 1,
        sshStack := Function.update s.sshStack (frames.length + 1) (s.la &&& bitmask 16),
        sslStack := Function.update s.sslStack (frames.length + 1) (s.lc &&& bitmask 16),
        ssh := s.la &&& bitmask 16, ssl := s.lc &&& bitmask 16,
        la := s.pram (s.pc + 1) &&& bitmask 16, curInstLen := s.curInstLen + 1 })
      rfl rfl rfl rfl rfl).push (by simp; omega) (s.pc + (s.curInstLen + 1)) s.sr
  refine ⟨rfl, rfl, ?_, ?_, ?_, hloop⟩
  · funext i
    simp only [stackCells, doFrame, doEntered, hret, Function.update_apply]
    split_ifs <;> rfl
  · have hs₃ : StackHolds (doEntered s frames) ((frames ++ [(s.la &&& bitmask 16,
        s.lc &&& bitmask 16)]) ++ [((s.pc + (s.curInstLen + 1)) &&& bitmask 16, s.sr &&& bitmask 16)]) :=
      hs₂.of_eq (by simp [doEntered]) rfl rfl (by simp [doEntered]) (by simp [doEntered])
    rw [hret] at hs₃
    simpa [doFrame] using hs₃
  · simp [doEntered, Nat.testBit_or]

/-- A `do #xxx` instruction enters its loop at the word after its LA word, with
the immediate count in LC. -/
theorem doImm_execute (hs : StackHolds s frames) (hlen : frames.length ≤ 13)
    (hloop : s.loopRep = false) (hw : s.pram s.pc < 0x100000)
    (hop : lookupLoopOp (s.pram s.pc) = some .doImm) (hlaw : s.pram (s.pc + 1) &&& 0xFF000000 = 0)
    (hlast : s.pram (s.pc + 1) &&& bitmask 16 < dspPramSize)
    (hstart : s.pc + 2 ≤ s.pram (s.pc + 1) &&& bitmask 16) (hquiet : ∀ t, dp.interrupts t = some t) :
    ∃ e, executeInstruction dp s = some e ∧ InLoop (doFrame s frames) e ∧ e.pc = s.pc + 2 ∧
      e.lc = immCount (s.pram s.pc) := by
  have hlast' := hlast
  unfold dspPramSize at hlast'
  have hs₁ : StackHolds { s with curInst := s.pram s.pc, curInstLen := 1 } frames :=
    hs.of_eq rfl rfl rfl rfl rfl
  have hpc₁ : s.pc + 1 < dspPramSize := by
    unfold dspPramSize
    omega
  have hfetch : readMemoryP s s.pc = some (s.pram s.pc) :=
    readMemoryP_of_lt (by omega) (and_ff000000_of_lt (by omega))
  have hin := (doEntered_inLoop hs₁ hlen hloop rfl hlast hstart).setPcLc (s.pc + 1 + 1)
    (immCount (s.pram s.pc))
  refine ⟨_, ?_, hin, rfl, rfl⟩
  have hwrap : (s.pc + (1 + 1)) % 2 ^ 32 = s.pc + 1 + 1 := Nat.mod_eq_of_lt (by omega)
  have hne : (s.pc + (1 + 1)) % 2 ^ 32 ≠ ((s.pram (s.pc + 1) &&& bitmask 16) + 1) % 2 ^ 32 := by
    have hlt : (s.pram (s.pc + 1) &&& bitmask 16) + 1 < 2 ^ 32 := by omega
    rw [hwrap, Nat.mod_eq_of_lt hlt]
    omega
  rw [executeInstruction_eq, dispatch_of_loopOp hfetch hw hop, emuLoopOp, emuDoImm,
    doLoop_entry _ hs₁ hlen hpc₁ hlaw]
  simp only [Option.bind_some, postexecuteUpdatePc]
  rw [repUpdate_of_not_loopRep (by simpa using hloop), doUpdate_of_ne (by simpa using hne),
    Option.bind_some, postexecuteInterrupts_of_quiet hquiet]
  simp only [doEntered_pc, doEntered_curInstLen, hwrap]
  rfl

end Entry

/-- The loop of a `do #xxx` with a straight-line body of one-word instructions
runs the body `immCount` times: after the DO and that many passes over the body
the machine stands at LA + 1 with LA, LC, SP, SSH and SSL as they were before the
DO.  SR is the low seven bits of what the last body instruction left, with LF
from before the DO: bits 7 to 14, among them the interrupt mask I1:I0, the
scaling mode S1:S0 and the trace bit T, are cleared. -/
theorem doImm_runs_body {s : Core ρ} {frames : List (Nat × Nat)} {L : Nat}
    (hs : StackHolds s frames) (hlen : frames.length ≤ 13) (hloop : s.loopRep = false)
    (hw : s.pram s.pc < 0x100000) (hop : lookupLoopOp (s.pram s.pc) = some .doImm)
    (hlaw : s.pram (s.pc + 1) &&& 0xFF000000 = 0) (hL : s.pram (s.pc + 1) &&& bitmask 16 = L)
    (hstart : s.pc + 2 ≤ L) (hlast : L < dspPramSize) (hn : 1 ≤ immCount (s.pram s.pc))
    (hla : s.la < 2 ^ 16) (hlc : s.lc < 2 ^ 16)
    (hbody : ∀ b, s.pc + 2 ≤ b → b ≤ L → Straight dp (s.pram b))
    (hquiet : ∀ t, dp.interrupts t = some t) :
    ∃ v u, v.pc = L ∧ dispatch dp v = some u ∧
      run dp (1 + immCount (s.pram s.pc) * (L - (s.pc + 1))) s = some { u with
        pc := L + 1, la := s.la, lc := s.lc, sp := s.sp, ssh := s.ssh, ssl := s.ssl,
        sr := u.sr &&& 0x7f ||| s.sr &&& 1 <<< dspSrLf } := by
  subst hL
  obtain ⟨e, hexec, hin, hpc, hlce⟩ :=
    doImm_execute hs hlen hloop hw hop hlaw hlast hstart hquiet
  have hcount : immCount (s.pram s.pc) ≤ 0xFFFF := by
    unfold immCount
    rw [and_bitmask, and_bitmask, Nat.shiftLeft_eq]
    omega
  obtain ⟨v, u, hinv, hpcv, hd, hu, hrun⟩ :=
    hin.run_loop hbody hlast hquiet hstart hpc (hlce ▸ hn) (hlce ▸ hcount)
  refine ⟨v, u, hpcv, hd, ?_⟩
  -- what the loop exit restores: the cells below the loop are those of `s`
  have hcell : stackCells u frames.length = (s.ssh, s.ssl) := by
    rw [hu.cells_eq, hs.top]
    simp [doFrame, Function.update_of_ne]
  have hmask : ∀ x, x < 2 ^ 16 → x &&& bitmask 16 = x := fun x hx => by
    rw [and_bitmask, Nat.mod_eq_of_lt hx]
  have hlf : s.sr &&& bitmask 16 &&& 1 <<< dspSrLf = s.sr &&& 1 <<< dspSrLf := by
    rw [Nat.and_assoc]
    rfl
  have hsteps : 1 + immCount (s.pram s.pc) * ((s.pram (s.pc + 1) &&& bitmask 16) - (s.pc + 1)) =
      e.lc * ((doFrame s frames).last + 1 - (doFrame s frames).start) + 1 := by
    have hlen' : (s.pram (s.pc + 1) &&& bitmask 16) - (s.pc + 1) =
        (s.pram (s.pc + 1) &&& bitmask 16) + 1 - (s.pc + 2) := by omega
    simp only [doFrame, hlce, hlen', Nat.add_comm 1]
  rw [hsteps, run_of_executeInstruction hexec, hrun]
  simp only [stackCells, Prod.mk.injEq] at hcell
  simp only [LoopFrame.exit, doFrame, hmask s.la hla, hmask s.lc hlc, hs.sp_eq, hcell.1, hcell.2,
    hlf]

/-- A machine with nothing outside the loop unit: every other instruction is a
NOP and no interrupt is pending. -/
def nopDatapath : Datapath Unit where
  readMemory _ _ _ := some 0
  calcEa s _ := (s.rest, 0)
  readRegister _ _ := 0
  emu _ s := some s
  interrupts s := some s

/-- `do #1, $0002` at address 0 over a body of one NOP at address 2. -/
def doOnceProgram : Nat → Nat
  | 0 => 0x060180
  | 1 => 0x000002
  | _ => 0x000000

/-- The reset state with the interrupt mask I0 set. -/
def interruptMaskedCore : Core Unit where
  pc := 0
  la := 0
  lc := 0
  lcsave := 0
  sr := 0x0100
  sp := 0
  ssh := 0
  ssl := 0
  sshStack _ := 0
  sslStack _ := 0
  pram := doOnceProgram
  loopRep := false
  pcOnRep := false
  curInst := 0
  curInstLen := 0
  rest := ()

/-- After the DO the NOP runs with SR = 0x8100 (I0 and LF) and leaves it so;
after the loop SR is 0, where the body's I0 with LF restored is 0x0100. -/
theorem doOnce_clears_interrupt_mask :
    (run nopDatapath 1 interruptMaskedCore).map Core.sr = some 0x8100 ∧
      (run nopDatapath 2 interruptMaskedCore).map (fun t => (t.pc, t.sr)) = some (3, 0) := by
  decide

/-- The loop of `doOnceProgram` from `interruptMaskedCore`, by the general theorem: one pass
over the NOP, then address 3 with LA, LC, SP, SSH and SSL as before the DO. -/
theorem doImm_runs_body_doOnce :
    ∃ v u, v.pc = 2 ∧ dispatch nopDatapath v = some u ∧
      run nopDatapath (1 + immCount (interruptMaskedCore.pram interruptMaskedCore.pc) *
          (2 - (interruptMaskedCore.pc + 1))) interruptMaskedCore = some { u with
        pc := 2 + 1, la := interruptMaskedCore.la, lc := interruptMaskedCore.lc, sp := interruptMaskedCore.sp,
        ssh := interruptMaskedCore.ssh, ssl := interruptMaskedCore.ssl,
        sr := u.sr &&& 0x7f ||| interruptMaskedCore.sr &&& 1 <<< dspSrLf } := by
  have hnop : Straight nopDatapath 0 := ⟨rfl, fun _ => by decide, fun s => ⟨s.sr, s.rest, rfl, rfl⟩⟩
  have hs : StackHolds interruptMaskedCore [] := ⟨rfl, by decide, ArrayStack.holds_nil _, rfl⟩
  exact doImm_runs_body (L := 2) hs (by decide) rfl (by decide) (by decide) (by decide) (by decide)
    (by decide) (by decide) (by decide) (by decide) (by decide)
    (fun b h₁ h₂ => by
      obtain rfl : b = 2 := by omega
      exact hnop)
    (fun _ => rfl)

end Xqemu.Dsp
