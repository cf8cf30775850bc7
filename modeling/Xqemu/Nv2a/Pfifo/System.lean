import Xqemu.Nv2a.Pfifo.Cache1

/-!
# Interleaved pusher and puller iterations

The pusher and puller threads take `pfifo.lock` around every loop iteration
(the puller drops it only for the PGRAPH call, after its register writes), so a
run of the PFIFO is a schedule of atomic iterations.  `systemRun` executes one:
the pusher's entry checks and one loop iteration, or one puller iteration.  An
iteration that leaves its loop changes nothing; a fault ends the run.  The
system carries two logs that no register holds: the pairs the pusher wrote into
CACHE1 and the pairs the puller read back and handed on.

The second half links the registers to `Regs.ring`: the data-word path acts on
the ring as `Ring.push`, the puller's CACHE1 update as `Ring.pop`, and every
other register write leaves the ring view alone.
-/

namespace Xqemu.Nv2a.Pfifo

open Xqemu.Bits Xqemu.Memory

/-- The two threads that run `pfifo_run_pusher` and `pfifo_run_puller`. -/
inductive Actor
  | pusher
  | puller
  deriving DecidableEq, Repr

/-- The PFIFO registers with the write log of the pusher and the read log of
the puller. -/
structure System where
  regs : Regs
  pushed : List (Nat × Nat)
  pulled : List (Nat × Nat)

/-- One atomic iteration of one thread. -/
def systemStep (d : Memories) (s : System) : Actor → Option System
  | .pusher =>
      match pusherSetup d s.regs with
      | .idle => some s
      | .fault => none
      | .run dmaBase dmaLen =>
          match pusherIter d.vram dmaBase dmaLen s.regs with
          | .done => some s
          | .full => some s
          | .next r pushed => some { s with regs := r, pushed := s.pushed ++ pushed.toList }
          | .fault => none
  | .puller =>
      match pullerIter d.ramin s.regs with
      | .stop => some s
      | .pulled r entry _ => some { s with regs := r, pulled := s.pulled ++ [entry] }
      | .fault => none

/-- Run a schedule; `none` when an iteration faults. -/
def systemRun (d : Memories) (s : System) : List Actor → Option System
  | [] => some s
  | a :: schedule => (systemStep d s a).bind fun s' => systemRun d s' schedule

theorem systemRun_cons {d : Memories} {s s' : System} {a : Actor} {schedule : List Actor}
    (h : systemRun d s (a :: schedule) = some s') :
    ∃ s₁, systemStep d s a = some s₁ ∧ systemRun d s₁ schedule = some s' := by
  simp only [systemRun, Option.bind_eq_some_iff] at h
  exact h

/-- A property that one step preserves holds after every schedule. -/
theorem systemRun_induction (P : System → Prop) {d : Memories}
    (hstep : ∀ s s' a, P s → systemStep d s a = some s' → P s')
    {s s' : System} {schedule : List Actor} (hs : P s) (h : systemRun d s schedule = some s') :
    P s' := by
  induction schedule generalizing s with
  | nil =>
      simp only [systemRun, Option.some.injEq] at h
      exact h ▸ hs
  | cons a schedule ih =>
      obtain ⟨s₁, hstep₁, hrest⟩ := systemRun_cons h
      exact ih (hstep s s₁ a hs hstep₁) hrest

/-! ## Status bits and slot offsets -/

@[simp] theorem and_lowMark_eq_zero_iff (status : Nat) :
    status &&& nvPfifoCache1StatusLowMark = 0 ↔ status.testBit 4 = false := by
  have := and_one_shiftLeft_ne_zero_iff status 4
  rw [nvPfifoCache1StatusLowMark]
  cases h : status.testBit 4 <;> simp_all

@[simp] theorem and_highMark_eq_zero_iff (status : Nat) :
    status &&& nvPfifoCache1StatusHighMark = 0 ↔ status.testBit 8 = false := by
  have := and_one_shiftLeft_ne_zero_iff status 8
  rw [nvPfifoCache1StatusHighMark]
  cases h : status.testBit 8 <;> simp_all

@[simp] theorem testBit_lowMark (i : Nat) :
    nvPfifoCache1StatusLowMark.testBit i = decide (i = 4) := by
  rw [nvPfifoCache1StatusLowMark, testBit_one_shiftLeft]
  simp [eq_comm]

@[simp] theorem testBit_highMark (i : Nat) :
    nvPfifoCache1StatusHighMark.testBit i = decide (i = 8) := by
  rw [nvPfifoCache1StatusHighMark, testBit_one_shiftLeft]
  simp [eq_comm]

/-- `& 0x1fc` of an aligned offset is reduction modulo the ring size. -/
theorem nextSlot_eq {x : Nat} (hx : x % 4 = 0) : nextSlot x = (x + 4) % 0x200 := by
  have hmask : (0x1fc : Nat) = (⟨2, 7⟩ : Field).mask := by decide
  have hlow : ∀ i, i < 2 → (x + 4).testBit i = false := by
    intro i hi
    have hmod : (x + 4) % 2 ^ 2 = 0 := by omega
    have := Nat.testBit_mod_two_pow (x + 4) 2 i
    simp only [hmod, Nat.zero_testBit, hi, decide_true, Bool.true_and] at this
    exact this.symm
  apply Nat.eq_of_testBit_eq
  intro i
  rw [nextSlot, Nat.testBit_and, hmask, Field.testBit_mask,
    show (0x200 : Nat) = 2 ^ 9 from rfl, Nat.testBit_mod_two_pow]
  by_cases hi : i < 2
  · simp [hlow i hi]
  · have h2 : 2 ≤ i := by omega
    simp [h2, Bool.and_comm]

/-! ## The registers as a ring -/

/-- The data-word push is `Ring.push` on the ring view. -/
theorem cache1Push_ring {r r' : Regs} {methodEntry word : Nat}
    (h : cache1Push r methodEntry word = some r') :
    r.put < 0x200 ∧ r.put % 4 = 0 ∧ r'.ring = r.ring.push methodEntry word := by
  unfold cache1Push at h
  split at h
  · next hput =>
      obtain ⟨hlt, hmod⟩ := hput
      refine ⟨by omega, hmod, ?_⟩
      simp only [Option.some.injEq] at h
      subst h
      rw [nextSlot_eq hmod]
      by_cases hmeet : (r.put + 4) % 0x200 = r.get <;>
        by_cases hlow : r.status.testBit 4 = true <;>
        simp [Regs.ring, Ring.push, hmeet, hlow]
  · cases h

/-- The puller's CACHE1 update is `Ring.pop` on the ring view. -/
theorem cache1Pull_ring {r : Regs} (hmod : r.get % 4 = 0) : (cache1Pull r).ring = r.ring.pop := by
  unfold cache1Pull
  rw [nextSlot_eq hmod]
  by_cases hmeet : (r.get + 4) % 0x200 = r.put <;>
    by_cases hhigh : r.status.testBit 8 = true <;>
    simp [Regs.ring, Ring.pop, hmeet, hhigh]

/-- A command header writes no CACHE1 register. -/
theorem pusherHeader_ring {r r' : Regs} {word dmaGetV target : Nat}
    (h : pusherHeader r word dmaGetV = some (r', target)) : r'.ring = r.ring := by
  unfold pusherHeader at h
  dsimp only at h
  split at h
  · cases h
    rfl
  · cases h
    rfl
  · split at h
    · cases h
    · cases h
      rfl
  · split at h
    · cases h
    · cases h
      rfl
  · cases h
    rfl
  · cases h
    rfl
  · cases h

theorem pusherData_ring {r r' : Regs} {word : Nat} (h : pusherData r word = some r') :
    r.put < 0x200 ∧ r.put % 4 = 0 ∧ r'.ring = r.ring.push (methodEntryOf r.dmaState) word := by
  unfold pusherData at h
  cases hpush : cache1Push { r with dmaDataShadow := word } (methodEntryOf r.dmaState) word with
  | none => simp [hpush] at h
  | some r₁ =>
      simp only [hpush, Option.bind_eq_bind, Option.bind_some, Option.some.injEq] at h
      subst h
      obtain ⟨hlt, hmod, hring⟩ := cache1Push_ring hpush
      exact ⟨hlt, hmod, hring⟩

/-- What a completed pusher iteration does to the ring: nothing after a
header, one `Ring.push` of the pair it reports after a data word, which it
only takes when HIGH_MARK is clear. -/
theorem pusherIter_ring {vram : Mem} {dmaBase dmaLen : Nat} {r r' : Regs}
    {pushed : Option (Nat × Nat)} (h : pusherIter vram dmaBase dmaLen r = .next r' pushed) :
    (pushed = none ∧ r'.ring = r.ring) ∨
      ∃ methodEntry word, pushed = some (methodEntry, word) ∧ r.ring.highMark = false ∧
        r'.ring = r.ring.push methodEntry word := by
  unfold pusherIter at h
  dsimp only at h
  split at h
  · cases h
  split at h
  · cases h
  split at h
  · split at h
    · cases h
    · next hhigh =>
        split at h
        · cases h
        · next r₁ hdata =>
            split at h
            · cases h
            · cases h
              obtain ⟨-, -, hring⟩ := pusherData_ring hdata
              refine Or.inr ⟨_, _, rfl, ?_, hring⟩
              simpa [Regs.ring] using hhigh
  · split at h
    · cases h
    · next r₁ target hheader =>
        split at h
        · cases h
        · cases h
          have hring := pusherHeader_ring hheader
          exact Or.inl ⟨rfl, hring⟩

/-- Binding an object or forwarding a method writes no CACHE1 register. -/
theorem pullerDispatch_ring {ramin : Mem} {r r' : Regs} {methodEntry parameter : Nat}
    {call : PgraphCall} (h : pullerDispatch ramin r methodEntry parameter = some (r', call)) :
    r'.ring = r.ring := by
  unfold pullerDispatch at h
  dsimp only at h
  split at h
  · split at h
    · split at h
      · cases h
        rfl
      · cases h
    · cases h
  · split at h
    · split at h
      · split at h
        · cases h
          rfl
        · cases h
      · cases h
    · cases h

/-- A completed puller iteration found CACHE1 non-empty, took the pair at
`GET`, and acted on the ring as `Ring.pop`. -/
theorem pullerIter_ring {ramin : Mem} {r r' : Regs} {entry : Nat × Nat} {call : PgraphCall}
    (h : pullerIter ramin r = .pulled r' entry call) :
    r.ring.lowMark = false ∧ entry = r.ring.entryAt r.ring.get ∧ r'.ring = r.ring.pop := by
  unfold pullerIter at h
  dsimp only at h
  split at h
  · cases h
  split at h
  · cases h
  · next hlow =>
      split at h
      · next hget =>
          split at h
          · cases h
          · next r₁ call₁ hdispatch =>
              cases h
              refine ⟨by simpa [Regs.ring] using hlow, rfl, ?_⟩
              rw [pullerDispatch_ring hdispatch, cache1Pull_ring hget.2]
      · cases h

end Xqemu.Nv2a.Pfifo
