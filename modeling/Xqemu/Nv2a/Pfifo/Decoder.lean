import Xqemu.Lib.Simulation
import Xqemu.Nv2a.Pfifo.Handoff

/-!
# The pusher refines a reference pushbuffer decoder

`Decoder` is the pushbuffer interpreter that the DMA pusher implements, with
its state in plain fields: the read address, the pending methods run (method
byte address, subchannel, kind and words left) and the return address saved by
a call.  `Decoder.step` consumes the word at `get` unless `get` has reached
`put`: a data word of the pending run becomes one CACHE1 `Entry`, a methods
header starts a run, and jumps, calls and returns move `get`.

The pusher keeps the same state in bit fields of `DMA_STATE` and
`DMA_SUBROUTINE`; `Regs.decoder` reads it back.  Every completed pusher
iteration is one decoder step on that view, while a full CACHE1, an idle
pusher and every puller iteration leave it alone, so over every schedule the
CACHE1 write log is the decoder's output (`pusher_refines_decoder`).  The view
needs `DMA_GET` to be a multiple of 4: a call saves `DMA_GET + 4` with the
subroutine flag in bit 0, and a return resumes at the saved word with its two
low bits cleared.
-/

namespace Xqemu.Nv2a.Pfifo

open Xqemu.Bits Xqemu.Memory

/-- A CACHE1 entry as the puller decodes it: method byte address, subchannel,
method kind and data word. -/
structure Entry where
  method : Nat
  subchannel : Nat
  nonIncreasing : Bool
  word : Nat
  deriving DecidableEq, Repr

/-- The entry of a `(method_entry, word)` pair: `method_entry & 0x1FFC`, the
subchannel field and the type bit. -/
def Entry.ofSlot (p : Nat × Nat) : Entry where
  method := p.1 &&& 0x1FFC
  subchannel := nvPfifoCache1MethodSubchannel.get p.1
  nonIncreasing := nvPfifoCache1MethodType.get p.1 = nvPfifoCache1DmaStateMethodTypeNonInc
  word := p.2

/-- `ldl_le_p(dma + address)`: the pushbuffer word at `address` of the mapping
at `dmaBase`. -/
def pushbufferWord (vram : Mem) (dmaBase address : Nat) : Nat :=
  ldlLe vram (dmaBase + address)

/-- The state of the reference decoder. -/
structure Decoder where
  get : Nat
  method : Nat
  subchannel : Nat
  nonIncreasing : Bool
  count : Nat
  ret : Option Nat
  deriving DecidableEq, Repr

namespace Decoder

/-- The address after the word at `get`, in the 32-bit `DMA_GET`. -/
def advance (get : Nat) : Nat :=
  (get + 4) % 2 ^ 32

/-- One word of the pushbuffer.  At `put` the decoder waits; a call inside a
subroutine, a return outside one and a reserved command are errors. -/
def step (fetch : Nat → Nat) (put : Nat) (st : Decoder) : Option (Decoder × List Entry) :=
  if st.get = put then some (st, [])
  else
    let word := fetch st.get
    if st.count ≠ 0 then
      some ({ st with get := advance st.get, count := st.count - 1,
                      method := if st.nonIncreasing then st.method else (st.method + 4) % 0x2000 },
        [⟨st.method, st.subchannel, st.nonIncreasing, word⟩])
    else
      match pushCommand word with
      | .oldJump target => some ({ st with get := target }, [])
      | .jump target => some ({ st with get := target }, [])
      | .call target =>
          match st.ret with
          | none => some ({ st with get := target, ret := some (advance st.get) }, [])
          | some _ => none
      | .ret =>
          match st.ret with
          | some address => some ({ st with get := address, ret := none }, [])
          | none => none
      | .increasing method subchannel count =>
          some ({ st with get := advance st.get, method := 4 * method, subchannel,
                          nonIncreasing := false, count }, [])
      | .nonIncreasing method subchannel count =>
          some ({ st with get := advance st.get, method := 4 * method, subchannel,
                          nonIncreasing := true, count }, [])
      | .reserved => none

end Decoder

/-! ## The decoder state in the registers -/

/-- The widths and offsets of the fields that hold the decoder state. -/
theorem decoderField_shapes :
    nvPfifoCache1DmaStateMethod.width = 11 ∧ nvPfifoCache1DmaStateSubchannel.width = 3 ∧
      nvPfifoCache1DmaStateMethodCount.width = 11 ∧ nvPfifoCache1DmaStateMethodType.width = 1 ∧
      nvPfifoCache1MethodAddress.width = 11 ∧ nvPfifoCache1MethodAddress.lo = 2 ∧
      nvPfifoCache1MethodSubchannel.width = 3 ∧ nvPfifoCache1MethodType.width = 1 ∧
      nvPfifoCache1DmaSubroutineState.lo = 0 ∧ nvPfifoCache1DmaSubroutineState.width = 1 :=
  ⟨rfl, rfl, rfl, rfl, rfl, rfl, rfl, rfl, rfl, rfl⟩

theorem startMethods_fields (dmaState method subchannel count methodType : Nat) :
    nvPfifoCache1DmaStateMethod.get (startMethods dmaState method subchannel count methodType) =
        method % 2 ^ 11 ∧
      nvPfifoCache1DmaStateSubchannel.get (startMethods dmaState method subchannel count methodType) =
        subchannel % 2 ^ 3 ∧
      nvPfifoCache1DmaStateMethodCount.get (startMethods dmaState method subchannel count methodType) =
        count % 2 ^ 11 ∧
      nvPfifoCache1DmaStateMethodType.get (startMethods dmaState method subchannel count methodType) =
        methodType % 2 := by
  simp (disch := decide) only [startMethods, Field.get_set_self, Field.get_set_of_disjoint]
  exact ⟨rfl, rfl, rfl, rfl⟩

theorem advanceMethod_fields (dmaState : Nat) :
    nvPfifoCache1DmaStateMethod.get (advanceMethod dmaState) =
        (if nvPfifoCache1DmaStateMethodType.get dmaState = nvPfifoCache1DmaStateMethodTypeInc then
          (nvPfifoCache1DmaStateMethod.get dmaState + 1) % 2 ^ 11
        else nvPfifoCache1DmaStateMethod.get dmaState) ∧
      nvPfifoCache1DmaStateSubchannel.get (advanceMethod dmaState) =
        nvPfifoCache1DmaStateSubchannel.get dmaState ∧
      nvPfifoCache1DmaStateMethodType.get (advanceMethod dmaState) =
        nvPfifoCache1DmaStateMethodType.get dmaState ∧
      nvPfifoCache1DmaStateMethodCount.get (advanceMethod dmaState) =
        nvPfifoCache1DmaStateMethodCount.get dmaState - 1 := by
  have hcount : nvPfifoCache1DmaStateMethodCount.get dmaState < 2 ^ 11 :=
    Field.get_lt _ dmaState
  have hshift : (nvPfifoCache1DmaStateMethod.get dmaState <<< 2 + 4) >>> 2 =
      nvPfifoCache1DmaStateMethod.get dmaState + 1 := by
    rw [Nat.shiftLeft_eq, Nat.shiftRight_eq_div_pow]
    omega
  unfold advanceMethod
  dsimp only
  have hcount' : (nvPfifoCache1DmaStateMethodCount.get dmaState - 1) % 2 ^ 11 =
      nvPfifoCache1DmaStateMethodCount.get dmaState - 1 := by
    omega
  split
  · next hinc =>
      simp (disch := decide) only [Field.get_set_self, Field.get_set_of_disjoint, hshift, hinc,
        decoderField_shapes, hcount', and_self]
  · simp (disch := decide) only [Field.get_set_self, Field.get_set_of_disjoint,
      decoderField_shapes, hcount', and_self]

theorem ofSlot_methodEntryOf (dmaState word : Nat) :
    Entry.ofSlot (methodEntryOf dmaState, word) =
      ⟨4 * nvPfifoCache1DmaStateMethod.get dmaState, nvPfifoCache1DmaStateSubchannel.get dmaState,
        nvPfifoCache1DmaStateMethodType.get dmaState = nvPfifoCache1DmaStateMethodTypeNonInc, word⟩ := by
  have hmask : (0x1FFC : Nat) = nvPfifoCache1MethodAddress.mask := by decide
  have hm := Field.get_lt nvPfifoCache1DmaStateMethod dmaState
  have hsc := Field.get_lt nvPfifoCache1DmaStateSubchannel dmaState
  have hty := Field.get_lt nvPfifoCache1DmaStateMethodType dmaState
  simp (disch := decide) only [Entry.ofSlot, methodEntryOf, hmask, Field.and_mask_eq,
    Field.get_set_self, Field.get_set_of_disjoint, Nat.shiftLeft_shiftRight]
  simp only [Entry.mk.injEq, decoderField_shapes] at hm hsc hty ⊢
  refine ⟨?_, Nat.mod_eq_of_lt hsc, by rw [Nat.mod_eq_of_lt hty], trivial⟩
  rw [Nat.mod_eq_of_lt hm, Nat.shiftLeft_eq, Nat.mul_comm]

theorem and_fffffffc_mod_four (x : Nat) : (x &&& 0xfffffffc) % 4 = 0 := by
  rw [show (4 : Nat) = 2 ^ 2 from rfl, Nat.and_mod_two_pow]
  simp

theorem subroutine_of_call {a : Nat} (hlt : a < 2 ^ 32) (hal : a % 4 = 0) :
    nvPfifoCache1DmaSubroutineState.get (nvPfifoCache1DmaSubroutineState.set a 1) ≠ 0 ∧
      nvPfifoCache1DmaSubroutineState.set a 1 &&& 0xfffffffc = a := by
  refine ⟨by simp [nvPfifoCache1DmaSubroutineState], ?_⟩
  have hmask : (0xfffffffc : Nat) = (⟨2, 30⟩ : Field).mask := by decide
  rw [hmask]
  apply Nat.eq_of_testBit_eq
  intro i
  rw [Nat.testBit_and, Field.testBit_mask, Field.testBit_set]
  by_cases hi : i < 2
  · have hlow : a.testBit i = false := by
      have h0 : a % 2 ^ 2 = 0 := by omega
      have := Nat.testBit_mod_two_pow a 2 i
      simp only [h0, Nat.zero_testBit, hi, decide_true, Bool.true_and] at this
      exact this.symm
    have : ¬ (2 ≤ i ∧ i < 2 + 30) := by omega
    simp [this, hlow]
  · by_cases hhigh : i < 32
    · have : ¬ ((nvPfifoCache1DmaSubroutineState).lo ≤ i ∧ i < nvPfifoCache1DmaSubroutineState.lo + nvPfifoCache1DmaSubroutineState.width) := by
        simp [nvPfifoCache1DmaSubroutineState]; omega
      have h2 : 2 ≤ i ∧ i < 2 + 30 := by omega
      simp [this, h2]
    · have hz : a.testBit i = false :=
        Nat.testBit_lt_two_pow (Nat.lt_of_lt_of_le hlt (Nat.pow_le_pow_right (by omega) (by omega)))
      have : ¬ ((nvPfifoCache1DmaSubroutineState).lo ≤ i ∧ i < nvPfifoCache1DmaSubroutineState.lo + nvPfifoCache1DmaSubroutineState.width) := by
        simp [nvPfifoCache1DmaSubroutineState]; omega
      have h2 : ¬ (2 ≤ i ∧ i < 2 + 30) := by omega
      simp [this, h2, hz]

/-! ## Command words -/

/-- Jump and call targets are word aligned. -/
theorem pushCommand_target_mod_four {word target : Nat}
    (h : pushCommand word = .oldJump target ∨ pushCommand word = .jump target ∨
      pushCommand word = .call target) : target % 4 = 0 := by
  unfold pushCommand at h
  split_ifs at h with hold hjump hcall
  · -- an old jump has its two low bits clear, and its target keeps them
    simp only [PushCommand.oldJump.injEq, or_false] at h
    subst h
    have h4 : (word &&& 0xe0000003) % 2 ^ 2 = 0x20000000 % 2 ^ 2 := by rw [hold]
    rw [Nat.and_mod_two_pow] at h4
    rw [show (4 : Nat) = 2 ^ 2 from rfl, Nat.and_mod_two_pow]
    simpa using h4
  · simp only [PushCommand.jump.injEq, false_or, or_false] at h
    subst h
    exact and_fffffffc_mod_four word
  · simp only [PushCommand.call.injEq, false_or] at h
    subst h
    exact and_fffffffc_mod_four word
  all_goals simp at h

/-- The fields of a methods header fit their `DMA_STATE` fields. -/
theorem pushCommand_methods_lt {word m sc c : Nat}
    (h : pushCommand word = .increasing m sc c ∨ pushCommand word = .nonIncreasing m sc c) :
    m < 2 ^ 11 ∧ sc < 2 ^ 3 ∧ c < 2 ^ 11 := by
  have hm : (word &&& 0x1fff) >>> 2 < 2 ^ 11 := by
    have := Nat.and_le_right (n := word) (m := 0x1fff)
    rw [Nat.shiftRight_eq_div_pow]
    omega
  have hsc : (word >>> 13) &&& 7 < 2 ^ 3 := Nat.lt_of_le_of_lt Nat.and_le_right (by decide)
  have hc : (word >>> 18) &&& 0x7ff < 2 ^ 11 := Nat.lt_of_le_of_lt Nat.and_le_right (by decide)
  unfold pushCommand at h
  split_ifs at h
  all_goals simp only [PushCommand.increasing.injEq,
    PushCommand.nonIncreasing.injEq, false_or, or_false] at h
  all_goals obtain ⟨rfl, rfl, rfl⟩ := h
  all_goals exact ⟨hm, hsc, hc⟩

/-! ## One pusher iteration is one decoder step -/

/-- The decoder state the pusher keeps in `DMA_GET`, `DMA_STATE` and `DMA_SUBROUTINE`. -/
def Regs.decoder (r : Regs) : Decoder where
  get := r.dmaGet
  method := 4 * nvPfifoCache1DmaStateMethod.get r.dmaState
  subchannel := nvPfifoCache1DmaStateSubchannel.get r.dmaState
  nonIncreasing :=
    nvPfifoCache1DmaStateMethodType.get r.dmaState = nvPfifoCache1DmaStateMethodTypeNonInc
  count := nvPfifoCache1DmaStateMethodCount.get r.dmaState
  ret := if nvPfifoCache1DmaSubroutineState.get r.dmaSubroutine = 0 then none
    else some (r.dmaSubroutine &&& 0xfffffffc)

/-- A data word: one entry, with the method advanced unless the run is non-increasing. -/
theorem pusherData_decoder (fetch : Nat → Nat) {r r₁ : Regs} (hne : r.dmaGet ≠ r.dmaPut)
    (hcount : nvPfifoCache1DmaStateMethodCount.get r.dmaState ≠ 0)
    (h : pusherData r (fetch r.dmaGet) = some r₁) :
    Decoder.step fetch r.dmaPut r.decoder =
      some ({ r₁ with dmaGet := Decoder.advance r.dmaGet }.decoder,
        [Entry.ofSlot (methodEntryOf r.dmaState, fetch r.dmaGet)]) := by
  rw [pusherData_frame h, ofSlot_methodEntryOf]
  obtain ⟨hm, hsc, hty, hc⟩ := advanceMethod_fields r.dmaState
  have hty_lt := Field.get_lt nvPfifoCache1DmaStateMethodType r.dmaState
  simp only [decoderField_shapes] at hty_lt
  -- the type bit is 0 for an increasing run and 1 for a non-increasing one
  rcases (by omega : nvPfifoCache1DmaStateMethodType.get r.dmaState = 0 ∨
      nvPfifoCache1DmaStateMethodType.get r.dmaState = 1) with h0 | h1
  · simp [Decoder.step, Regs.decoder, hne, hcount, hm, hsc, hty, hc, h0,
      nvPfifoCache1DmaStateMethodTypeInc, nvPfifoCache1DmaStateMethodTypeNonInc]
    omega
  · simp [Decoder.step, Regs.decoder, hne, hcount, hm, hsc, hty, hc, h1,
      nvPfifoCache1DmaStateMethodTypeInc, nvPfifoCache1DmaStateMethodTypeNonInc]

/-- A methods header stores its fields in `DMA_STATE`, read back exactly. -/
theorem startMethods_decoder (dmaState methodType : Nat) {word m sc c : Nat}
    (h : pushCommand word = .increasing m sc c ∨ pushCommand word = .nonIncreasing m sc c) :
    4 * nvPfifoCache1DmaStateMethod.get (startMethods dmaState m sc c methodType) = 4 * m ∧
      nvPfifoCache1DmaStateSubchannel.get (startMethods dmaState m sc c methodType) = sc ∧
      nvPfifoCache1DmaStateMethodCount.get (startMethods dmaState m sc c methodType) = c ∧
      nvPfifoCache1DmaStateMethodType.get (startMethods dmaState m sc c methodType) =
        methodType % 2 := by
  obtain ⟨hm, hsc, hc⟩ := pushCommand_methods_lt h
  obtain ⟨h₁, h₂, h₃, h₄⟩ := startMethods_fields dmaState m sc c methodType
  rw [h₁, h₂, h₃, h₄, Nat.mod_eq_of_lt hm, Nat.mod_eq_of_lt hsc, Nat.mod_eq_of_lt hc]
  exact ⟨rfl, rfl, rfl, rfl⟩

/-- A command header: jumps, calls and returns move `get` to an aligned
address, a methods header starts its run. -/
theorem pusherHeader_decoder (fetch : Nat → Nat) {r r₁ : Regs} {target : Nat}
    (hal : r.dmaGet % 4 = 0) (hne : r.dmaGet ≠ r.dmaPut)
    (hcount : nvPfifoCache1DmaStateMethodCount.get r.dmaState = 0)
    (h : pusherHeader r (fetch r.dmaGet) (Decoder.advance r.dmaGet) = some (r₁, target)) :
    Decoder.step fetch r.dmaPut r.decoder = some ({ r₁ with dmaGet := target }.decoder, []) ∧
      target % 4 = 0 := by
  have hadv : Decoder.advance r.dmaGet % 4 = 0 := by
    unfold Decoder.advance
    omega
  unfold pusherHeader at h
  cases hcmd : pushCommand (fetch r.dmaGet) with
  | oldJump t =>
      simp only [hcmd, Option.some.injEq, Prod.mk.injEq] at h
      obtain ⟨rfl, rfl⟩ := h
      refine ⟨?_, pushCommand_target_mod_four (Or.inl hcmd)⟩
      simp [Decoder.step, Regs.decoder, hne, hcount, hcmd]
  | jump t =>
      simp only [hcmd, Option.some.injEq, Prod.mk.injEq] at h
      obtain ⟨rfl, rfl⟩ := h
      refine ⟨?_, pushCommand_target_mod_four (Or.inr (Or.inl hcmd))⟩
      simp [Decoder.step, Regs.decoder, hne, hcount, hcmd]
  | call t =>
      simp only [hcmd] at h
      split at h
      · cases h
      · next hsub =>
          simp only [Option.some.injEq, Prod.mk.injEq] at h
          obtain ⟨rfl, rfl⟩ := h
          refine ⟨?_, pushCommand_target_mod_four (Or.inr (Or.inr hcmd))⟩
          -- the saved word is `DMA_GET + 4` with the flag in bit 0
          obtain ⟨-, hsaved⟩ := subroutine_of_call (a := Decoder.advance r.dmaGet)
            (Nat.mod_lt _ (by decide)) hadv
          simp only [ne_eq, Decidable.not_not] at hsub
          simp [Decoder.step, Regs.decoder, hne, hcount, hcmd, hsub, hsaved, decoderField_shapes]
  | ret =>
      simp only [hcmd] at h
      split at h
      · cases h
      · next hsub =>
          simp only [Option.some.injEq, Prod.mk.injEq] at h
          obtain ⟨rfl, rfl⟩ := h
          refine ⟨?_, and_fffffffc_mod_four _⟩
          have hclear : nvPfifoCache1DmaSubroutineState.get
              (nvPfifoCache1DmaSubroutineState.set r.dmaSubroutine 0) = 0 := by
            simp [Field.get_set_self]
          simp [Decoder.step, Regs.decoder, hne, hcount, hcmd, hsub, hclear]
  | increasing m sc c =>
      simp only [hcmd, Option.some.injEq, Prod.mk.injEq] at h
      obtain ⟨rfl, rfl⟩ := h
      obtain ⟨h₁, h₂, h₃, h₄⟩ :=
        startMethods_decoder r.dmaState nvPfifoCache1DmaStateMethodTypeInc (Or.inl hcmd)
      refine ⟨?_, hadv⟩
      simp only [Regs.decoder, h₁, h₂, h₃, h₄]
      simp [Decoder.step, hne, hcount, hcmd, nvPfifoCache1DmaStateMethodTypeInc,
        nvPfifoCache1DmaStateMethodTypeNonInc]
  | nonIncreasing m sc c =>
      simp only [hcmd, Option.some.injEq, Prod.mk.injEq] at h
      obtain ⟨rfl, rfl⟩ := h
      obtain ⟨h₁, h₂, h₃, h₄⟩ :=
        startMethods_decoder r.dmaState nvPfifoCache1DmaStateMethodTypeNonInc (Or.inr hcmd)
      refine ⟨?_, hadv⟩
      simp only [Regs.decoder, h₁, h₂, h₃, h₄]
      simp [Decoder.step, hne, hcount, hcmd, nvPfifoCache1DmaStateMethodTypeNonInc]
  | reserved =>
      simp [hcmd] at h

/-- One completed pusher iteration is one decoder step on the register view,
emitting the pair it pushed; it keeps `DMA_GET` aligned and writes neither
`DMA_PUT` nor the DMA instance. -/
theorem pusherIter_decoder {vram : Mem} {dmaBase dmaLen : Nat} {r r' : Regs}
    {pushed : Option (Nat × Nat)} (hal : r.dmaGet % 4 = 0)
    (h : pusherIter vram dmaBase dmaLen r = .next r' pushed) :
    Decoder.step (pushbufferWord vram dmaBase) r.dmaPut r.decoder =
        some (r'.decoder, (pushed.map Entry.ofSlot).toList) ∧
      r'.dmaGet % 4 = 0 ∧ r'.dmaPut = r.dmaPut ∧ r'.dmaInstance = r.dmaInstance := by
  obtain ⟨hne, -, -, hdata | hheader⟩ := pusherIter_next h
  · obtain ⟨hcount, -, r₁, hr₁, rfl, rfl⟩ := hdata
    have hstep := pusherData_decoder (pushbufferWord vram dmaBase) hne hcount hr₁
    have hframe := pusherData_frame hr₁
    refine ⟨hstep, show (r.dmaGet + 4) % 2 ^ 32 % 4 = 0 by omega, ?_, ?_⟩
    · rw [hframe]
    · rw [hframe]
  · obtain ⟨hcount, r₁, target, hr₁, rfl, rfl⟩ := hheader
    obtain ⟨hstep, htarget⟩ :=
      pusherHeader_decoder (pushbufferWord vram dmaBase) hal hne hcount hr₁
    have hframe := pusherHeader_frame hr₁
    refine ⟨hstep, htarget, ?_, ?_⟩
    · rw [hframe]
    · rw [hframe]

/-- A puller iteration leaves the pusher's registers alone. -/
theorem pullerIter_decoder {ramin : Mem} {r r' : Regs} {entry : Nat × Nat} {call : PgraphCall}
    (h : pullerIter ramin r = .pulled r' entry call) :
    r'.decoder = r.decoder ∧ r'.dmaGet = r.dmaGet ∧ r'.dmaPut = r.dmaPut ∧
      r'.dmaInstance = r.dmaInstance := by
  rw [pullerIter_frame h]
  exact ⟨rfl, rfl, rfl, rfl⟩

/-! ## Every schedule -/

/-- What the pusher's decoding keeps along a run from `s₀`, through the
pushbuffer mapping at `dmaBase`. -/
structure DecodeInv (d : Memories) (dmaBase : Nat) (s₀ s : System) : Prop where
  aligned : s.regs.dmaGet % 4 = 0
  put : s.regs.dmaPut = s₀.regs.dmaPut
  dmaInstance : s.regs.dmaInstance = s₀.regs.dmaInstance
  simulated : Sim.Simulated (Decoder.step (pushbufferWord d.vram dmaBase) s₀.regs.dmaPut)
    (fun s : System => s.regs.decoder) (fun s : System => s.pushed.map Entry.ofSlot) s₀ s

theorem decodeInv_step {d : Memories} {dmaBase dmaLen : Nat} {s₀ s s' : System} {a : Actor}
    (hmap : nvDmaMap d (nvPfifoCache1DmaInstanceAddress.get s₀.regs.dmaInstance <<< 4) =
      some (dmaBase, dmaLen))
    (hs : DecodeInv d dmaBase s₀ s) (h : systemStep d s a = some s') :
    DecodeInv d dmaBase s₀ s' := by
  cases a with
  | pusher =>
      simp only [systemStep] at h
      split at h
      · cases h
        exact hs
      · cases h
      · next dmaBase' dmaLen' hsetup =>
          -- the pusher maps the pushbuffer of the start: the DMA instance is never written
          have hmap' := pusherSetup_run hsetup
          rw [hs.dmaInstance, hmap] at hmap'
          obtain ⟨rfl, rfl⟩ : dmaBase = dmaBase' ∧ dmaLen = dmaLen' := by simpa using hmap'
          split at h
          · cases h
            exact hs
          · cases h
            exact hs
          · next r' pushed hiter =>
              cases h
              obtain ⟨hstep, hal, hput, hinst⟩ := pusherIter_decoder hs.aligned hiter
              rw [hs.put] at hstep
              refine ⟨hal, hput.trans hs.put, hinst.trans hs.dmaInstance, ?_⟩
              refine hs.simulated.step hstep ?_
              simp [Option.toList_map]
          · cases h
  | puller =>
      simp only [systemStep] at h
      split at h
      · cases h
        exact hs
      · next r' entry call hiter =>
          cases h
          obtain ⟨hview, hget, hput, hinst⟩ := pullerIter_decoder hiter
          exact ⟨hget ▸ hs.aligned, hput.trans hs.put, hinst.trans hs.dmaInstance,
            hs.simulated.stutter hview rfl⟩
      · cases h

/-- Over every schedule of pusher and puller iterations that raises no error,
from registers whose `DMA_GET` is a multiple of 4: the reference decoder, run
from the decoder state the registers hold over the channel's pushbuffer up to
`DMA_PUT`, reaches the decoder state they hold at the end, and emits exactly
the entries the pusher wrote into CACHE1 meanwhile.  A full CACHE1 only delays
the pusher: the split runs meet the one-shot decoder. -/
theorem pusher_refines_decoder {d : Memories} {s₀ s : System} {schedule : List Actor}
    {dmaBase dmaLen : Nat}
    (hmap : nvDmaMap d (nvPfifoCache1DmaInstanceAddress.get s₀.regs.dmaInstance <<< 4) =
      some (dmaBase, dmaLen))
    (hget : s₀.regs.dmaGet % 4 = 0) (hrun : systemRun d s₀ schedule = some s) :
    ∃ n entries, Sim.iterate (Decoder.step (pushbufferWord d.vram dmaBase) s₀.regs.dmaPut) n
        s₀.regs.decoder = some (s.regs.decoder, entries) ∧
      s.pushed.map Entry.ofSlot = s₀.pushed.map Entry.ofSlot ++ entries := by
  have hinv : DecodeInv d dmaBase s₀ s :=
    systemRun_induction (DecodeInv d dmaBase s₀)
      (fun _ _ _ hs hstep => decodeInv_step hmap hs hstep)
      ⟨hget, rfl, rfl, Sim.Simulated.refl s₀⟩ hrun
  exact hinv.simulated

/-- The channel of `handoffMemories`, with a pushbuffer that calls a
subroutine at `0x40` holding only a return, then sends one increasing-methods
command for method `0x104` with the data word `0xCAFE`. -/
def callReturnMemories : Memories where
  ramin := handoffMemories.ramin
  vram := fun a =>
    if a = 0 then 0x42 else if a = 4 then 0x04 else if a = 5 then 0x01 else if a = 6 then 0x04
    else if a = 8 then 0xFE else if a = 9 then 0xCA else if a = 0x42 then 0x02 else 0
  vramSize := 0x4000000

/-- Channel 0 in DMA mode at `DMA_GET = 0`, `DMA_PUT = 0xC`, with an empty CACHE1. -/
def callReturnRegs : Regs :=
  { push0 := 1, dmaPush := 1, push1 := 0x100, mode := 1, dmaPut := 0xC,
    status := nvPfifoCache1StatusLowMark }

theorem pusher_refines_decoder_call_return :
    ∃ s, systemRun callReturnMemories ⟨callReturnRegs, [], []⟩
        [.pusher, .pusher, .pusher, .pusher] = some s ∧
      s.pushed.map Entry.ofSlot = [⟨0x104, 0, false, 0xCAFE⟩] ∧
      ∃ n entries, Sim.iterate (Decoder.step (pushbufferWord callReturnMemories.vram 0)
          callReturnRegs.dmaPut) n callReturnRegs.decoder = some (s.regs.decoder, entries) ∧
        s.pushed.map Entry.ofSlot = [] ++ entries := by
  refine ⟨_, rfl, rfl, ?_⟩
  exact @pusher_refines_decoder callReturnMemories ⟨callReturnRegs, [], []⟩ _
    [.pusher, .pusher, .pusher, .pusher] 0 0x1000 rfl rfl rfl

/-- The same commands with the call word at the unaligned `DMA_GET = 2` and
`DMA_PUT = 6`: the call saves 6, and the increasing-methods header for method 0
with one data word sits at 4, which a return to 6 skips. -/
def unalignedCallMemories : Memories where
  ramin := handoffMemories.ramin
  vram := fun a =>
    if a = 2 then 0x02 else if a = 3 then 0x01 else if a = 6 then 0x04
    else if a = 8 then 0xFE else if a = 9 then 0xCA else if a = 0x102 then 0x02 else 0
  vramSize := 0x4000000

def unalignedCallRegs : Regs :=
  { callReturnRegs with dmaGet := 2, dmaPut := 6 }

/-- From `DMA_GET = 2` the return resumes at `7 & ~3 = 4`, not at the saved 6:
the pusher then writes an entry for the header at 4, while the reference
decoder returns to 6, meets `DMA_PUT` and emits nothing, however far it runs. -/
theorem pusher_unaligned_return_diverges :
    nvDmaMap unalignedCallMemories
        (nvPfifoCache1DmaInstanceAddress.get unalignedCallRegs.dmaInstance <<< 4) = some (0, 0x1000) ∧
      ∃ s, systemRun unalignedCallMemories ⟨unalignedCallRegs, [], []⟩
          [.pusher, .pusher, .pusher, .pusher] = some s ∧
        s.pushed.map Entry.ofSlot = [⟨0, 0, false, 0xCAFE⟩] ∧
        ∀ n entries st, Sim.iterate (Decoder.step (pushbufferWord unalignedCallMemories.vram 0)
            unalignedCallRegs.dmaPut) n unalignedCallRegs.decoder = some (st, entries) →
          s.pushed.map Entry.ofSlot ≠ entries := by
  refine ⟨rfl, _, rfl, rfl, ?_⟩
  intro n entries st h
  -- two steps (call, return) reach `DMA_PUT = 6`, where the decoder waits
  let halted : Decoder := { unalignedCallRegs.decoder with get := 6 }
  have htwo : Sim.iterate (Decoder.step (pushbufferWord unalignedCallMemories.vram 0)
      unalignedCallRegs.dmaPut) 2 unalignedCallRegs.decoder = some (halted, []) := by
    decide
  have hwait : Decoder.step (pushbufferWord unalignedCallMemories.vram 0) unalignedCallRegs.dmaPut
      halted = some (halted, []) := by
    decide
  have hnil : entries = [] := by
    rcases n with _ | _ | k
    · simp only [Sim.iterate, Option.some.injEq, Prod.mk.injEq] at h
      exact h.2.symm
    · obtain ⟨b, o₁, o₂, h₀, h₁, rfl⟩ := Sim.iterate_succ_inv h
      simp only [Sim.iterate, Option.some.injEq, Prod.mk.injEq] at h₀
      obtain ⟨rfl, rfl⟩ := h₀
      have hcall : Decoder.step (pushbufferWord unalignedCallMemories.vram 0)
          unalignedCallRegs.dmaPut unalignedCallRegs.decoder =
            some ({ unalignedCallRegs.decoder with get := 0x100, ret := some 6 }, []) := by
        decide
      rw [hcall] at h₁
      simp only [Option.some.injEq, Prod.mk.injEq] at h₁
      rw [← h₁.2]
      rfl
    · have hrun := Sim.iterate_add htwo (Sim.iterate_of_fixed hwait k)
      rw [Nat.add_comm 2 k, h] at hrun
      simp only [Option.some.injEq, Prod.mk.injEq] at hrun
      rw [hrun.2]
      rfl
  rw [hnil]
  decide

end Xqemu.Nv2a.Pfifo
