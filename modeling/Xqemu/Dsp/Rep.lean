import Xqemu.Dsp.Loop

/-!
# REP

A REP saves LC in LCSAVE, loads LC with its count and sets `loop_rep` and
`pc_on_rep`.  Its own post-execute step only turns a zero count into 0x10000 and
clears `pc_on_rep`.  Each execution of the next instruction then counts LC down
modulo 2^16 and keeps the PC on it while LC stays positive; when LC reaches zero
LC gets LCSAVE back, `loop_rep` is cleared and the PC moves on.  Interrupts are
not processed while `loop_rep` is set.

The repeated instruction runs `c` times, `c` the low sixteen bits of the loaded
count with 0 meaning 65536.  This holds also for `rep x:aa` and `rep x:ea`,
which load LC unmasked.  Its last execution is post-executed as a plain
instruction with the LC of before the REP, so an enclosing DO loop that ends at
it counts it once.  This needs the REP itself not to be the last instruction of
an active DO loop: there the DO logic counts the REP's LC down and jumps back to
the loop start.
-/

namespace Xqemu.Dsp

variable {ρ : Type} {dp : Datapath ρ}

/-- The REP forms. -/
def LoopOp.isRep : LoopOp → Bool
  | .repEa | .repAa | .repImm | .repReg => true
  | _ => false

/-- The repetitions a loaded count gives: its low sixteen bits, 0 meaning 65536. -/
def repCount (lc : Nat) : Nat :=
  if lc % 0x10000 = 0 then 0x10000 else lc % 0x10000

/-- An instruction word REP can repeat: one of the datapath's, one word long,
keeping PC, LA, LC, LCSAVE, LF, the REP flags and program memory. -/
structure Repeatable (dp : Datapath ρ) (w : Nat) : Prop where
  word : w &&& 0xFF000000 = 0
  not_loop : w < 0x100000 → lookupLoopOp w = none
  emu : ∀ s : Core ρ, ∃ t, dp.emu w s = some t ∧ t.pc = s.pc ∧ t.la = s.la ∧ t.lc = s.lc ∧
    t.lcsave = s.lcsave ∧ t.sr.testBit dspSrLf = s.sr.testBit dspSrLf ∧ t.loopRep = s.loopRep ∧
    t.pcOnRep = s.pcOnRep ∧ t.curInstLen = s.curInstLen ∧ t.pram = s.pram

/-! ## Arming -/

/-- A count function that writes only LC and the rest of the machine gives a
REP that only arms itself besides. -/
theorem repLoop_of_count {count : Core ρ → Option (Core ρ)}
    (hcount : ∀ t t', count t = some t' → t' = { t with lc := t'.lc, rest := t'.rest })
    {s r : Core ρ} (h : repLoop count s = some r) :
    r = { s with lcsave := s.lc, pcOnRep := true, loopRep := true, lc := r.lc, rest := r.rest } :=
  hcount _ _ h

/-- Every REP form saves LC, sets both REP flags and loads LC, touching only
the address registers besides. -/
theorem emuLoopOp_rep {op : LoopOp} (hop : op.isRep = true) {s r : Core ρ}
    (h : emuLoopOp dp op s = some r) :
    r = { s with lcsave := s.lc, pcOnRep := true, loopRep := true, lc := r.lc, rest := r.rest } := by
  cases op
  case repEa =>
    simp only [emuLoopOp, emuRepEa] at h
    refine repLoop_of_count (fun t t' ht => ?_) h
    rcases hea : dp.calcEa t ((t.curInst >>> 8) &&& bitmask 6) with ⟨r', value⟩
    simp only [hea, Option.bind_eq_bind, Option.bind_eq_some_iff, Option.pure_def,
      Option.some.injEq] at ht
    obtain ⟨v, -, rfl⟩ := ht
    rfl
  case repAa =>
    simp only [emuLoopOp, emuRepAa] at h
    refine repLoop_of_count (fun t t' ht => ?_) h
    simp only [Option.bind_eq_bind, Option.bind_eq_some_iff, Option.pure_def,
      Option.some.injEq] at ht
    obtain ⟨v, -, rfl⟩ := ht
    rfl
  case repImm =>
    simp only [emuLoopOp, emuRepImm] at h
    exact repLoop_of_count (fun t t' ht => by rw [← Option.some.inj ht]) h
  case repReg =>
    simp only [emuLoopOp, emuRepReg] at h
    exact repLoop_of_count (fun t t' ht => by rw [← Option.some.inj ht]) h
  all_goals simp [LoopOp.isRep] at hop

/-! ## Repeating -/

/-- A state of the REP begun at `s` with `m` executions of the instruction
after it to go. -/
structure Repeating (s : Core ρ) (m : Nat) (t : Core ρ) : Prop where
  pc_eq : t.pc = s.pc + 1
  la_eq : t.la = s.la
  lf_eq : t.sr.testBit dspSrLf = s.sr.testBit dspSrLf
  lcsave_eq : t.lcsave = s.lc
  pram_eq : t.pram = s.pram
  loopRep : t.loopRep = true
  pcOnRep : t.pcOnRep = false
  lc_pos : 1 ≤ t.lc
  lc_mod : t.lc % 0x10000 = m % 0x10000
  count_pos : 1 ≤ m
  count_le : m ≤ 0x10000

section Repeat

variable {s t : Core ρ} {m : Nat}
variable (hI : Repeatable dp (s.pram (s.pc + 1))) (hpc : s.pc + 2 < dspPramSize)
  (hnotLA : ¬(s.sr.testBit dspSrLf = true ∧ s.pc + 1 = (s.la + 1) % 2 ^ 32))
include hI hpc hnotLA

omit hnotLA in
/-- The repeated instruction keeps the REP's state. -/
theorem Repeating.dispatch_eq (h : Repeating s m t) :
    ∃ u, dispatch dp t = some u ∧ Repeating s m u ∧ u.curInstLen = 1 := by
  have hw : Repeatable dp (t.pram t.pc) := by rw [h.pram_eq, h.pc_eq]; exact hI
  obtain ⟨u, he, hpc', hla, hlc, hsave, hlf, hrep, hon, hlen, hpram⟩ :=
    hw.emu { t with curInst := t.pram t.pc, curInstLen := 1 }
  have hfetch : readMemoryP t t.pc = some (t.pram t.pc) :=
    readMemoryP_of_lt (by rw [h.pc_eq]; omega) hw.word
  refine ⟨u, by rw [dispatch_of_other hfetch hw.not_loop, he], ?_, hlen⟩
  exact ⟨hpc'.trans h.pc_eq, hla.trans h.la_eq, hlf.trans h.lf_eq, hsave.trans h.lcsave_eq,
    hpram.trans h.pram_eq, hrep.trans h.loopRep, hon.trans h.pcOnRep, hlc ▸ h.lc_pos,
    hlc ▸ h.lc_mod, h.count_pos, h.count_le⟩

/-- With repetitions to go the PC stays on the instruction and no interrupt is
processed. -/
theorem Repeating.step (h : Repeating s (m + 1) t) (hm : 1 ≤ m) :
    ∃ t', executeInstruction dp t = some t' ∧ Repeating s m t' := by
  obtain ⟨u, hd, hu, -⟩ := h.dispatch_eq hI hpc
  have hdec : decrementLc u.lc = m := by
    rw [decrementLc_of_pos hu.lc_pos]
    have hmod := hu.lc_mod
    have hle := hu.count_le
    have hpos := hu.lc_pos
    omega
  have hpc' : s.pc + 2 < 4096 := hpc
  have hstay : (u.pc + 0) % 2 ^ 32 = s.pc + 1 := by
    rw [hu.pc_eq, Nat.add_zero, Nat.mod_eq_of_lt (by omega)]
  have hnot : ¬((u.sr.testBit dspSrLf = true ∧ s.pc + 1 = (u.la + 1) % 2 ^ 32)) := by
    rw [hu.lf_eq, hu.la_eq]
    exact hnotLA
  refine ⟨{ u with lc := m, curInstLen := 0, pc := s.pc + 1 }, ?_, ?_⟩
  · rw [executeInstruction_eq, hd, Option.bind_some, postexecuteUpdatePc,
      repUpdate_of_pos hu.loopRep hu.pcOnRep (by omega)]
    simp only [hdec, hstay]
    rw [doUpdate_of_not_end hnot, Option.bind_some]
    simp [postexecuteInterrupts, hu.loopRep]
  · exact ⟨rfl, hu.la_eq, hu.lf_eq, hu.lcsave_eq, hu.pram_eq, hu.loopRep, hu.pcOnRep, hm,
      rfl, by omega, by have hle := hu.count_le; omega⟩

omit hnotLA in
/-- The last repetition ends the REP: LC gets its value of before the REP back
and the DO logic and the interrupts see a plain instruction at PC + 1. -/
theorem Repeating.step_last (h : Repeating s 1 t) :
    ∃ u, dispatch dp t = some u ∧ Repeating s 1 u ∧
      executeInstruction dp t =
        (doUpdate { u with lc := s.lc, loopRep := false, pc := s.pc + 2 }).bind
          (postexecuteInterrupts dp) := by
  obtain ⟨u, hd, hu, hlen⟩ := h.dispatch_eq hI hpc
  have hdec : decrementLc u.lc = 0 := by
    rw [decrementLc_of_pos hu.lc_pos]
    have hmod := hu.lc_mod
    omega
  have hpc' : s.pc + 2 < 4096 := hpc
  have hnext : (u.pc + u.curInstLen) % 2 ^ 32 = s.pc + 2 := by
    rw [hu.pc_eq, hlen, Nat.mod_eq_of_lt (by omega)]
  refine ⟨u, hd, hu, ?_⟩
  rw [executeInstruction_eq, hd, Option.bind_some, postexecuteUpdatePc,
    repUpdate_of_zero hu.loopRep hu.pcOnRep hdec]
  simp only [hnext, hu.lcsave_eq]

/-- From `m` executions to go, the instruction runs `m` more times, staying put
with the REP running in between, and the last one is post-executed as a plain
instruction with the LC of before the REP. -/
theorem Repeating.run_rest (h : Repeating s m t) :
    (∀ j, j + 1 < m → ∃ t', run dp (j + 1) t = some t' ∧ Repeating s (m - (j + 1)) t') ∧
      ∃ v u, Repeating s 1 v ∧ dispatch dp v = some u ∧
        run dp m t = (doUpdate { u with lc := s.lc, loopRep := false, pc := s.pc + 2 }).bind
          (postexecuteInterrupts dp) := by
  -- induction on the executions to go
  obtain ⟨k, hk⟩ : ∃ k, m = k + 1 := ⟨m - 1, by have := h.count_pos; omega⟩
  induction k generalizing t m with
  | zero =>
      subst hk
      obtain ⟨u, hd, -, hexec⟩ := h.step_last hI hpc
      refine ⟨fun j hj => absurd hj (by omega), t, u, h, hd, ?_⟩
      cases hres : (doUpdate { u with lc := s.lc, loopRep := false, pc := s.pc + 2 }).bind
          (postexecuteInterrupts dp) with
      | none => rw [run_succ, hexec, hres]; rfl
      | some x => rw [run_succ, hexec, hres]; rfl
  | succ k ih =>
      subst hk
      obtain ⟨t₁, hstep, h₁⟩ := h.step hI hpc hnotLA (by omega)
      obtain ⟨hmid, v, u, hv, hd, hrun⟩ := ih h₁ rfl
      refine ⟨fun j hj => ?_, v, u, hv, hd, by rw [run_of_executeInstruction hstep, hrun]⟩
      cases j with
      | zero => exact ⟨t₁, by rw [run_of_executeInstruction hstep]; rfl, by simpa using h₁⟩
      | succ j =>
          obtain ⟨t', hrun', h'⟩ := hmid j (by omega)
          refine ⟨t', by rw [run_of_executeInstruction hstep, hrun'], ?_⟩
          have hcount : k + 1 - (j + 1) = k + 1 + 1 - (j + 1 + 1) := by omega
          rw [← hcount]
          exact h'

end Repeat

/-! ## The REP instruction -/

/-- The count a REP leaves in LC after its own post-execute step is one for
`repCount` executions. -/
theorem repCount_spec (lc : Nat) :
    1 ≤ repCount lc ∧ repCount lc ≤ 0x10000 ∧
      (if lc = 0 then 0x010000 else lc) % 0x10000 = repCount lc % 0x10000 := by
  unfold repCount
  by_cases hz : lc = 0
  · simp [hz]
  · by_cases hm : lc % 0x10000 = 0
    · simp [hz, hm]
    · simp [hz, hm]
      omega

/-- The REP itself: armed, with the PC on the next instruction and the count
loaded, and no interrupt processed. -/
theorem rep_execute {s r : Core ρ} {op : LoopOp} (hpc : s.pc + 2 < dspPramSize)
    (hw : s.pram s.pc < 0x100000) (hop : lookupLoopOp (s.pram s.pc) = some op)
    (hrep : op.isRep = true)
    (hemu : emuLoopOp dp op { s with curInst := s.pram s.pc, curInstLen := 1 } = some r)
    (hnotLA : ¬(s.sr.testBit dspSrLf = true ∧ s.pc + 1 = (s.la + 1) % 2 ^ 32)) :
    ∃ r₁, executeInstruction dp s = some r₁ ∧ Repeating s (repCount r.lc) r₁ := by
  have hpc' : s.pc + 2 < 4096 := hpc
  have hfetch : readMemoryP s s.pc = some (s.pram s.pc) :=
    readMemoryP_of_lt (by unfold dspPramSize; omega) (and_ff000000_of_lt (by omega))
  -- the REP's emulation arms it and loads LC, and keeps everything the post-execute step reads
  have hr := emuLoopOp_rep hrep hemu
  obtain ⟨hpcr, hla, hsr, hsave, hpram, hloop, hon, hlen⟩ : r.pc = s.pc ∧ r.la = s.la ∧
      r.sr = s.sr ∧ r.lcsave = s.lc ∧ r.pram = s.pram ∧ r.loopRep = true ∧ r.pcOnRep = true ∧
      r.curInstLen = 1 := by
    rw [hr]
    exact ⟨rfl, rfl, rfl, rfl, rfl, rfl, rfl, rfl⟩
  have hwrap : (s.pc + 1) % 2 ^ 32 = s.pc + 1 := Nat.mod_eq_of_lt (by omega)
  have hnot : ¬(r.sr.testBit dspSrLf = true ∧ s.pc + 1 = (r.la + 1) % 2 ^ 32) := by
    rw [hsr, hla]
    exact hnotLA
  obtain ⟨hpos, hle, hmod⟩ := repCount_spec r.lc
  refine ⟨{ r with lc := if r.lc = 0 then 0x010000 else r.lc, pcOnRep := false, pc := s.pc + 1 },
    ?_, ?_⟩
  · rw [executeInstruction_eq, dispatch_of_loopOp hfetch hw hop, hemu, Option.bind_some,
      postexecuteUpdatePc, repUpdate_of_pcOnRep hloop hon]
    simp only [hpcr, hlen, hwrap]
    rw [doUpdate_of_not_end hnot, Option.bind_some]
    simp [postexecuteInterrupts, hloop]
  · have hlc₀ : 1 ≤ if r.lc = 0 then 0x010000 else r.lc := by
      split <;> omega
    exact ⟨rfl, hla, by rw [hsr], hsave, hpram, hloop, rfl, hlc₀, hmod, hpos, hle⟩

/-- A REP runs the instruction after it `c` times, `c` the low sixteen bits of
the count it loads with 0 meaning 65536: after the REP and each of the first
`c - 1` executions the PC is on the instruction with the REP running, whatever
the interrupt controller would do; the `c`-th execution is post-executed as a
plain instruction at PC + 1 with LC as it was before the REP and `loop_rep`
cleared, so the PC moves past it, or an enclosing DO loop ending there counts
one iteration on that LC.  The REP must not be the last instruction of an
active DO loop, and the instruction keeps LA and LF besides PC, LC and LCSAVE. -/
theorem rep_repeats_instruction {s r : Core ρ} {op : LoopOp} (hpc : s.pc + 2 < dspPramSize)
    (hw : s.pram s.pc < 0x100000) (hop : lookupLoopOp (s.pram s.pc) = some op)
    (hrep : op.isRep = true)
    (hemu : emuLoopOp dp op { s with curInst := s.pram s.pc, curInstLen := 1 } = some r)
    (hI : Repeatable dp (s.pram (s.pc + 1)))
    (hnotLA : ¬(s.sr.testBit dspSrLf = true ∧ s.pc + 1 = (s.la + 1) % 2 ^ 32)) :
    (∀ j, j < repCount r.lc → ∃ t, run dp (j + 1) s = some t ∧ t.pc = s.pc + 1 ∧ t.loopRep = true) ∧
      ∃ v u, v.pc = s.pc + 1 ∧ dispatch dp v = some u ∧
        run dp (repCount r.lc + 1) s =
          (doUpdate { u with lc := s.lc, loopRep := false, pc := s.pc + 2 }).bind
            (postexecuteInterrupts dp) := by
  obtain ⟨r₁, hexec, h₁⟩ := rep_execute hpc hw hop hrep hemu hnotLA
  obtain ⟨hmid, v, u, hv, hd, hrun⟩ := h₁.run_rest hI hpc hnotLA
  refine ⟨fun j hj => ?_, v, u, hv.pc_eq, hd, by rw [run_of_executeInstruction hexec, hrun]⟩
  cases j with
  | zero => exact ⟨r₁, by rw [run_of_executeInstruction hexec]; rfl, h₁.pc_eq, h₁.loopRep⟩
  | succ j =>
      obtain ⟨t, hrun', ht⟩ := hmid j (by omega)
      exact ⟨t, by rw [run_of_executeInstruction hexec, hrun'], ht.pc_eq, ht.loopRep⟩

/-- `rep #3` at address 0 before a NOP. -/
def repNopProgram : Nat → Nat
  | 0 => 0x0603A0
  | _ => 0x000000

/-- The reset state with `repNopProgram` loaded. -/
def repNopCore : Core Unit where
  pc := 0
  la := 0
  lc := 0
  lcsave := 0
  sr := 0
  sp := 0
  ssh := 0
  ssl := 0
  sshStack _ := 0
  sslStack _ := 0
  pram := repNopProgram
  loopRep := false
  pcOnRep := false
  curInst := 0
  curInstLen := 0
  rest := ()

/-- The NOP is a repeatable instruction. -/
theorem nop_repeatable : Repeatable nopDatapath 0 :=
  ⟨by decide, fun _ => by decide, fun s => ⟨s, rfl, rfl, rfl, rfl, rfl, rfl, rfl, rfl, rfl, rfl⟩⟩

theorem rep_three_nops :
    (∀ j, j < repCount 3 → ∃ t, run nopDatapath (j + 1) repNopCore = some t ∧ t.pc = 1 ∧
        t.loopRep = true) ∧
      ∃ v u, v.pc = 1 ∧ dispatch nopDatapath v = some u ∧
        run nopDatapath (repCount 3 + 1) repNopCore =
          (doUpdate { u with lc := 0, loopRep := false, pc := 2 }).bind
            (postexecuteInterrupts nopDatapath) :=
  rep_repeats_instruction (s := repNopCore)
    (r := { repNopCore with
      curInst := 0x0603A0, curInstLen := 1, lcsave := 0, pcOnRep := true, loopRep := true, lc := 3 })
    (by decide) (by decide) (show lookupLoopOp 0x0603A0 = some LoopOp.repImm by decide) rfl rfl
    nop_repeatable (by decide)

/-- `do #1, $0002` at address 0 whose body is `rep #3` alone, before a NOP. -/
def repAtLoopEndProgram : Nat → Nat
  | 0 => 0x060180
  | 1 => 0x000002
  | 2 => 0x0603A0
  | _ => 0x000000

/-- The reset state with `repAtLoopEndProgram` loaded. -/
def repAtLoopEndCore : Core Unit := { repNopCore with pram := repAtLoopEndProgram }

/-- After the DO the REP at 2 is the last instruction of an active loop.  Run
once, it does not go on to the NOP at 3: the DO logic counts its LC from 3 down
to 2 and jumps back to the loop start, the REP itself. -/
theorem rep_at_loop_end_repeats_itself :
    (run nopDatapath 1 repAtLoopEndCore).map (fun t => (t.pc, t.la, t.sr.testBit dspSrLf)) =
        some (2, 2, true) ∧
      (run nopDatapath 2 repAtLoopEndCore).map (fun t => (t.pc, t.lc, t.loopRep)) =
        some (2, 2, true) := by
  decide

end Xqemu.Dsp
