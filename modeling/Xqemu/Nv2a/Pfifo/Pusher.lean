import Xqemu.Nv2a.Pfifo.State

/-!
# The DMA pusher

`pfifo_run_pusher` fetches pushbuffer words at `DMA_GET` and either decodes a
command header into `DMA_STATE` or, while a method run is pending
(`METHOD_COUNT != 0`), pushes one `(method_entry, word)` pair into CACHE1.  One
loop iteration is `pusherIter`: the data-word path is `pusherData` (with the
ring update `cache1Push`), the header path is `pusherHeader` over the command
classification `pushCommand`.

Every error the loop can raise is followed by `assert(false)`, either at once or
after the loop, and QEMU refuses to build with `NDEBUG`; so an error, like a
failed assertion, ends the model's run as `fault`.
-/

namespace Xqemu.Nv2a.Pfifo

open Xqemu.Bits Xqemu.Memory

/-- `(put+4) & 0x1fc` and `(get+4) & 0x1fc`: the next CACHE1 slot offset. -/
def nextSlot (offset : Nat) : Nat :=
  (offset + 4) &&& 0x1fc

/-- The CACHE1 half of the data-word path: store the pair at `put`, advance
`put`, set HIGH_MARK when it meets `get`, and clear LOW_MARK. -/
def cache1Push (r : Regs) (methodEntry word : Nat) : Option Regs :=
  if r.put < 128 * 4 ∧ r.put % 4 = 0 then
    let r := { r with cache1Method := Function.update r.cache1Method r.put methodEntry
                      cache1Data := Function.update r.cache1Data r.put word }
    let newPut := nextSlot r.put
    let r := { r with put := newPut }
    let r := if newPut = r.get then { r with status := r.status ||| nvPfifoCache1StatusHighMark }
      else r
    let r := if r.status &&& nvPfifoCache1StatusLowMark ≠ 0 then
        { r with status := clearMask r.status nvPfifoCache1StatusLowMark }
      else r
    some r
  else
    none

/-- `cache1Push` writes only the CACHE1 slots, `put` and `status`. -/
theorem cache1Push_frame {r r' : Regs} {methodEntry word : Nat}
    (h : cache1Push r methodEntry word = some r') :
    r' = { r with cache1Method := r'.cache1Method, cache1Data := r'.cache1Data, put := r'.put,
                  status := r'.status } := by
  unfold cache1Push at h
  split at h
  · cases h
    split_ifs <;> rfl
  · cases h

/-- The `method_entry` built from `DMA_STATE`: address, type and subchannel. -/
def methodEntryOf (dmaState : Nat) : Nat :=
  let method := nvPfifoCache1DmaStateMethod.get dmaState <<< 2
  let methodEntry := nvPfifoCache1MethodAddress.set 0 (method >>> 2)
  let methodEntry :=
    nvPfifoCache1MethodType.set methodEntry (nvPfifoCache1DmaStateMethodType.get dmaState)
  nvPfifoCache1MethodSubchannel.set methodEntry (nvPfifoCache1DmaStateSubchannel.get dmaState)

/-- The `DMA_STATE` update after a data word: the next method for an
increasing run, and one word less to go. -/
def advanceMethod (dmaState : Nat) : Nat :=
  let method := nvPfifoCache1DmaStateMethod.get dmaState <<< 2
  let count := nvPfifoCache1DmaStateMethodCount.get dmaState
  let dmaState :=
    if nvPfifoCache1DmaStateMethodType.get dmaState = nvPfifoCache1DmaStateMethodTypeInc then
      nvPfifoCache1DmaStateMethod.set dmaState ((method + 4) >>> 2)
    else dmaState
  nvPfifoCache1DmaStateMethodCount.set dmaState (count - 1)

/-- The data-word path of `pfifo_run_pusher` once CACHE1 is known not to be full. -/
def pusherData (r : Regs) (word : Nat) : Option Regs := do
  -- `assert((method & 3) == 0)` always holds: `method` is a field shifted left by 2
  let r := { r with dmaDataShadow := word }
  let r ← cache1Push r (methodEntryOf r.dmaState) word
  let r := { r with dmaState := advanceMethod r.dmaState }
  some { r with dmaDcount := (r.dmaDcount + 1) % 2 ^ 32 }

theorem pusherData_frame {r r' : Regs} {word : Nat} (h : pusherData r word = some r') :
    r' = { r with dmaDataShadow := word, cache1Method := r'.cache1Method,
                  cache1Data := r'.cache1Data, put := r'.put, status := r'.status,
                  dmaState := advanceMethod r.dmaState, dmaDcount := r'.dmaDcount } := by
  unfold pusherData at h
  cases hpush : cache1Push { r with dmaDataShadow := word } (methodEntryOf r.dmaState) word with
  | none => simp [hpush] at h
  | some r₁ =>
      simp only [hpush, Option.bind_eq_bind, Option.bind_some, Option.some.injEq] at h
      subst h
      rw [cache1Push_frame hpush]

/-- The first word of a command, classified in the order of the source's
`if` chain; method fields are the raw `DMA_STATE` field values. -/
inductive PushCommand
  | oldJump (target : Nat)
  | jump (target : Nat)
  | call (target : Nat)
  | ret
  | increasing (method subchannel count : Nat)
  | nonIncreasing (method subchannel count : Nat)
  | reserved
  deriving DecidableEq, Repr

def pushCommand (word : Nat) : PushCommand :=
  if word &&& 0xe0000003 = 0x20000000 then .oldJump (word &&& 0x1fffffff)
  else if word &&& 3 = 1 then .jump (word &&& 0xfffffffc)
  else if word &&& 3 = 2 then .call (word &&& 0xfffffffc)
  else if word = 0x00020000 then .ret
  else if word &&& 0xe0030003 = 0 then
    .increasing ((word &&& 0x1fff) >>> 2) ((word >>> 13) &&& 7) ((word >>> 18) &&& 0x7ff)
  else if word &&& 0xe0030003 = 0x40000000 then
    .nonIncreasing ((word &&& 0x1fff) >>> 2) ((word >>> 13) &&& 7) ((word >>> 18) &&& 0x7ff)
  else .reserved

/-- The four `SET_MASK`s of a methods header. -/
def startMethods (dmaState method subchannel count methodType : Nat) : Nat :=
  let dmaState := nvPfifoCache1DmaStateMethod.set dmaState method
  let dmaState := nvPfifoCache1DmaStateSubchannel.set dmaState subchannel
  let dmaState := nvPfifoCache1DmaStateMethodCount.set dmaState count
  nvPfifoCache1DmaStateMethodType.set dmaState methodType

/-- The header path of `pfifo_run_pusher`: the registers and the new
`dma_get_v`, or `none` for the call, return and reserved-command errors. -/
def pusherHeader (r : Regs) (word dmaGetV : Nat) : Option (Regs × Nat) :=
  let subroutineState := nvPfifoCache1DmaSubroutineState.get r.dmaSubroutine
  let r := { r with dmaRsvdShadow := word }
  match pushCommand word with
  | .oldJump target => some ({ r with dmaGetJmpShadow := dmaGetV }, target)
  | .jump target => some ({ r with dmaGetJmpShadow := dmaGetV }, target)
  | .call target =>
      if subroutineState ≠ 0 then none
      else some ({ r with dmaSubroutine := nvPfifoCache1DmaSubroutineState.set dmaGetV 1 }, target)
  | .ret =>
      if subroutineState = 0 then none
      else
        some ({ r with dmaSubroutine := nvPfifoCache1DmaSubroutineState.set r.dmaSubroutine 0 },
          r.dmaSubroutine &&& 0xfffffffc)
  | .increasing method subchannel count =>
      some ({ r with dmaState := startMethods r.dmaState method subchannel count
                      nvPfifoCache1DmaStateMethodTypeInc
                     dmaDcount := 0 }, dmaGetV)
  | .nonIncreasing method subchannel count =>
      some ({ r with dmaState := startMethods r.dmaState method subchannel count
                      nvPfifoCache1DmaStateMethodTypeNonInc
                     dmaDcount := 0 }, dmaGetV)
  | .reserved => none

/-- A command header writes `DMA_RSVD_SHADOW` and at most the jump shadow,
`DMA_SUBROUTINE`, `DMA_STATE` and `DMA_DCOUNT`. -/
theorem pusherHeader_frame {r r' : Regs} {word dmaGetV target : Nat}
    (h : pusherHeader r word dmaGetV = some (r', target)) :
    r' = { r with dmaRsvdShadow := word, dmaGetJmpShadow := r'.dmaGetJmpShadow,
                  dmaSubroutine := r'.dmaSubroutine, dmaState := r'.dmaState,
                  dmaDcount := r'.dmaDcount } := by
  unfold pusherHeader at h
  dsimp only at h
  split at h
  · cases h
    rfl
  · cases h
    rfl
  · split at h
    · cases h
    · cases h
      rfl
  · split at h
    · cases h
    · cases h
      rfl
  · cases h
    rfl
  · cases h
    rfl
  · cases h

/-- How one iteration of the pusher's `while (true)` loop ends. -/
inductive PushIter
  /-- `dma_get_v == dma_put_v`: the loop breaks. -/
  | done
  /-- A data word is pending and HIGH_MARK is set: the function returns. -/
  | full
  /-- `DMA_GET` was committed without error; a data word pushed its pair. -/
  | next (r : Regs) (pushed : Option (Nat × Nat))
  | fault

/-- One iteration of the loop of `pfifo_run_pusher`, reading the pushbuffer
word `ldl_le_p(dma + dma_get_v)` through the mapping `dmaBase`, `dmaLen`. -/
def pusherIter (vram : Mem) (dmaBase dmaLen : Nat) (r : Regs) : PushIter :=
  if r.dmaGet = r.dmaPut then .done
  else if dmaLen ≤ r.dmaGet then .fault
  else
    let word := ldlLe vram (dmaBase + r.dmaGet)
    let dmaGetV := (r.dmaGet + 4) % 2 ^ 32
    let commit (r : Regs) (dmaGetV : Nat) (pushed : Option (Nat × Nat)) : PushIter :=
      let r := { r with dmaGet := dmaGetV }
      if nvPfifoCache1DmaStateError.get r.dmaState ≠ 0 then .fault else .next r pushed
    if nvPfifoCache1DmaStateMethodCount.get r.dmaState ≠ 0 then
      if r.status &&& nvPfifoCache1StatusHighMark ≠ 0 then .full
      else
        match pusherData r word with
        | none => .fault
        | some r' => commit r' dmaGetV (some (methodEntryOf r.dmaState, word))
    else
      match pusherHeader r word dmaGetV with
      | none => .fault
      | some (r', target) => commit r' target none

/-- What a completed pusher iteration did: with `DMA_GET ≠ DMA_PUT` and
`DMA_GET < dmaLen` it read the word at `DMA_GET`, then either pushed it as a
data word of the pending run into a CACHE1 that was not full, or decoded it as
a command header; the error field checked after the commit is clear. -/
theorem pusherIter_next {vram : Mem} {dmaBase dmaLen : Nat} {r r' : Regs}
    {pushed : Option (Nat × Nat)} (h : pusherIter vram dmaBase dmaLen r = .next r' pushed) :
    r.dmaGet ≠ r.dmaPut ∧ r.dmaGet < dmaLen ∧ nvPfifoCache1DmaStateError.get r'.dmaState = 0 ∧
      ((nvPfifoCache1DmaStateMethodCount.get r.dmaState ≠ 0 ∧
          r.status &&& nvPfifoCache1StatusHighMark = 0 ∧
          ∃ r₁, pusherData r (ldlLe vram (dmaBase + r.dmaGet)) = some r₁ ∧
            r' = { r₁ with dmaGet := (r.dmaGet + 4) % 2 ^ 32 } ∧
            pushed = some (methodEntryOf r.dmaState, ldlLe vram (dmaBase + r.dmaGet))) ∨
        (nvPfifoCache1DmaStateMethodCount.get r.dmaState = 0 ∧
          ∃ r₁ target, pusherHeader r (ldlLe vram (dmaBase + r.dmaGet))
              ((r.dmaGet + 4) % 2 ^ 32) = some (r₁, target) ∧
            r' = { r₁ with dmaGet := target } ∧ pushed = none)) := by
  unfold pusherIter at h
  dsimp only at h
  split at h
  · cases h
  split at h
  · cases h
  next hne hlt =>
  split at h
  · next hcount =>
      split at h
      · cases h
      · next hhigh =>
          split at h
          · cases h
          · next r₁ hdata =>
              split at h
              · cases h
              · next herr =>
                  cases h
                  exact ⟨hne, by omega, by simpa using herr,
                    Or.inl ⟨hcount, by simpa using hhigh, r₁, hdata, rfl, rfl⟩⟩
  · next hcount =>
      split at h
      · cases h
      · next r₁ target hheader =>
          split at h
          · cases h
          · next herr =>
              cases h
              exact ⟨hne, by omega, by simpa using herr,
                Or.inr ⟨by simpa using hcount, r₁, target, hheader, rfl, rfl⟩⟩

/-- What `pfifo_run_pusher` checks before its loop. -/
inductive PushSetup
  | idle
  | fault
  | run (dmaBase dmaLen : Nat)

/-- The entry of `pfifo_run_pusher`: the access and suspend checks that
return, the channel-mode and error assertions, and `nv_dma_map` of the
channel's DMA instance. -/
def pusherSetup (d : Memories) (r : Regs) : PushSetup :=
  if nvPfifoCache1Push0Access.get r.push0 = 0 then .idle
  else if nvPfifoCache1DmaPushAccess.get r.dmaPush = 0 then .idle
  else if nvPfifoCache1DmaPushStatus.get r.dmaPush ≠ 0 then .idle
  else
    let channelId := nvPfifoCache1Push1Chid.get r.push1
    if r.mode &&& 1 <<< channelId ≠ 0 ∧
        nvPfifoCache1Push1Mode.get r.push1 = nvPfifoCache1Push1ModeDma ∧
        nvPfifoCache1DmaStateError.get r.dmaState = nvPfifoCache1DmaStateErrorNone then
      match nvDmaMap d (nvPfifoCache1DmaInstanceAddress.get r.dmaInstance <<< 4) with
      | none => .fault
      | some (dmaBase, dmaLen) => .run dmaBase dmaLen
    else .fault

/-- The pusher runs only through the mapping of its channel's DMA instance. -/
theorem pusherSetup_run {d : Memories} {r : Regs} {dmaBase dmaLen : Nat}
    (h : pusherSetup d r = .run dmaBase dmaLen) :
    nvDmaMap d (nvPfifoCache1DmaInstanceAddress.get r.dmaInstance <<< 4) = some (dmaBase, dmaLen) := by
  unfold pusherSetup at h
  dsimp only at h
  split at h
  · cases h
  split at h
  · cases h
  split at h
  · cases h
  split at h
  · split at h
    · cases h
    · next b l hmap =>
        cases h
        exact hmap
  · cases h

end Xqemu.Nv2a.Pfifo
