import Xqemu.Nv2a.Pfifo.System

/-!
# The CACHE1 hand-off between pusher and puller

`HandoffInv` is the invariant of the PFIFO system: the ring view is consistent
and the pusher's write log is the puller's read log followed by the queue
CACHE1 holds.  One iteration of either thread preserves it (`handoffInv_step`),
so it holds after every schedule; the statement about the registers and marks
follows from `Ring.Consistent`.
-/

namespace Xqemu.Nv2a.Pfifo

open Xqemu.Bits Xqemu.Memory

/-- Consistent marks and offsets, and no pair lost, reordered or repeated. -/
structure HandoffInv (s : System) : Prop where
  consistent : s.regs.ring.Consistent
  log : s.pushed = s.pulled ++ s.regs.ring.contents

theorem handoffInv_pusher {d : Memories} {s s' : System} (hs : HandoffInv s)
    (h : systemStep d s .pusher = some s') : HandoffInv s' := by
  simp only [systemStep] at h
  split at h
  · cases h
    exact hs
  · cases h
  · split at h
    · cases h
      exact hs
    · cases h
      exact hs
    · next r pushed hiter =>
        cases h
        rcases pusherIter_ring hiter with ⟨rfl, hring⟩ | ⟨methodEntry, word, rfl, hhigh, hring⟩
        · refine ⟨hring ▸ hs.consistent, ?_⟩
          simp [hring, hs.log]
        · refine ⟨hring ▸ hs.consistent.push hhigh methodEntry word, ?_⟩
          simp [hring, Ring.contents_push hs.consistent hhigh, hs.log]
    · cases h

theorem handoffInv_puller {d : Memories} {s s' : System} (hs : HandoffInv s)
    (h : systemStep d s .puller = some s') : HandoffInv s' := by
  simp only [systemStep] at h
  split at h
  · cases h
    exact hs
  · next r entry call hiter =>
      cases h
      obtain ⟨hlow, rfl, hring⟩ := pullerIter_ring hiter
      refine ⟨hring ▸ hs.consistent.pop hlow, ?_⟩
      have hfront := Ring.contents_pop hs.consistent hlow
      simp only [hring]
      rw [hs.log, hfront, List.append_assoc, List.singleton_append]
  · cases h

theorem handoffInv_step {d : Memories} {s s' : System} {a : Actor} (hs : HandoffInv s)
    (h : systemStep d s a = some s') : HandoffInv s' := by
  cases a with
  | pusher => exact handoffInv_pusher hs h
  | puller => exact handoffInv_puller hs h

/-- The reset state of CACHE1 with empty logs satisfies the invariant. -/
theorem handoffInv_init {s : System} (hput : s.regs.put = s.regs.get)
    (hlt : s.regs.put < 0x200) (hmod : s.regs.put % 4 = 0)
    (hstatus : s.regs.status = nvPfifoCache1StatusLowMark) (hpushed : s.pushed = [])
    (hpulled : s.pulled = []) : HandoffInv s := by
  have hlow : s.regs.status.testBit 4 = true := by simp [hstatus]
  have hhigh : s.regs.status.testBit 8 = false := by simp [hstatus]
  have hcons : s.regs.ring.Consistent := by
    constructor <;> simp [Regs.ring, hlow, hhigh] <;> omega
  refine ⟨hcons, ?_⟩
  have hempty : s.regs.ring.occupancy = 0 := hcons.lowMark_iff.mp (by simpa [Regs.ring] using hlow)
  simp [hpushed, hpulled, Ring.contents, hempty]

/-- Over every interleaving of pusher and puller iterations from an empty
CACHE1 (aligned `PUT = GET`, STATUS holding only LOW_MARK): `PUT` and `GET`
stay aligned below `0x200`, LOW_MARK holds exactly when no slot is occupied and
HIGH_MARK exactly when all 128 are, never both, and the pairs the puller handed
on are the pairs the pusher wrote, in order, minus those still queued. -/
theorem cache1_handoff_of_run {d : Memories} {s₀ s : System} {schedule : List Actor}
    (hput : s₀.regs.put = s₀.regs.get) (hlt : s₀.regs.put < 0x200) (hmod : s₀.regs.put % 4 = 0)
    (hstatus : s₀.regs.status = nvPfifoCache1StatusLowMark) (hpushed : s₀.pushed = [])
    (hpulled : s₀.pulled = []) (hrun : systemRun d s₀ schedule = some s) :
    s.regs.put < 0x200 ∧ s.regs.put % 4 = 0 ∧ s.regs.get < 0x200 ∧ s.regs.get % 4 = 0 ∧
      (s.regs.status.testBit 4 = true ↔ s.regs.ring.occupancy = 0) ∧
      (s.regs.status.testBit 8 = true ↔ s.regs.ring.occupancy = 128) ∧
      ¬ (s.regs.status.testBit 4 = true ∧ s.regs.status.testBit 8 = true) ∧
      s.pulled <+: s.pushed ∧ s.pushed = s.pulled ++ s.regs.ring.contents := by
  have hinv : HandoffInv s :=
    systemRun_induction HandoffInv (fun _ _ _ hs hstep => handoffInv_step hs hstep)
      (handoffInv_init hput hlt hmod hstatus hpushed hpulled) hrun
  have hq := hinv.consistent
  exact ⟨hq.put_lt, hq.put_mod, hq.get_lt, hq.get_mod, hq.lowMark_iff, hq.highMark_iff,
    hq.not_both, ⟨_, hinv.log.symm⟩, hinv.log⟩

/-- RAMIN with the channel's DMA object at 0 (limit `0x1000`, frame 0), and at
VRAM 0 a pushbuffer: an increasing-methods header for method `0x104` on
subchannel 0 with one data word, then the data word `0xCAFE`. -/
def handoffMemories : Memories where
  ramin := fun a => if a = 0 then 0x3d else if a = 5 then 0x10 else 0
  vram := fun a =>
    if a = 0 then 0x04 else if a = 1 then 0x01 else if a = 2 then 0x04
    else if a = 4 then 0xFE else if a = 5 then 0xCA else 0
  vramSize := 0x4000000

/-- Channel 0 in DMA mode with both threads enabled, subchannel 0 bound to
PGRAPH, `DMA_PUT` after the two words, and an empty CACHE1. -/
def handoffRegs : Regs :=
  { push0 := 1, dmaPush := 1, push1 := 0x100, mode := 1, dmaPut := 8, pull0 := 1, engine := 1,
    status := nvPfifoCache1StatusLowMark }

theorem cache1_handoff_push_pull :
    ∃ s, systemRun handoffMemories ⟨handoffRegs, [], []⟩ [.pusher, .pusher, .puller] = some s ∧
      s.pulled = [(0x104, 0xCAFE)] ∧ s.pulled <+: s.pushed ∧
      s.pushed = s.pulled ++ s.regs.ring.contents := by
  refine ⟨_, rfl, rfl, ?_⟩
  have h := @cache1_handoff_of_run handoffMemories ⟨handoffRegs, [], []⟩ _
    [.pusher, .pusher, .puller] rfl (by decide) (by decide) rfl rfl rfl rfl
  exact ⟨h.2.2.2.2.2.2.2.1, h.2.2.2.2.2.2.2.2⟩

end Xqemu.Nv2a.Pfifo
