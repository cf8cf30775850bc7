import Xqemu.Lib.BitField
import Xqemu.Lib.ByteMemory
import Xqemu.Lib.ErrorsIn

/-! # The APU front end and the voice lists (fe_method, se_frame)

The voice processor keeps one `NV_PAVS_SIZE`-byte record per voice in guest
memory, at `VPVADDR + handle * NV_PAVS_SIZE`.  The three voice lists (2D, 3D
and MP) are singly linked through the `NEXT_VOICE_HANDLE` field of each
record, from a TOP register, and end at the handle `0xFFFF`.  `fe_method`
runs one front-end method: `VOICE_ON` links a voice in at the top of a list
or after an antecedent voice, and the other methods set registers, fields of
voice records or entries of the SGE tables.  Once a frame, `se_frame` walks
the three lists.

Voice records are read and written whole words at a time through
`voice_get_mask` and `voice_set_mask`.  The asserts abort the emulator, so a
method that would fail one stops with a `FeFault`; the list walk of
`se_frame` is bounded by a fuel argument.
-/

namespace Xqemu.Apu

open Xqemu.Bits Xqemu.Memory Xqemu.Faults

def nvPapuIsts : Nat := 0x1000
def nvPapuIstsGintsts : Nat := 1 <<< 0
def nvPapuIstsFetintsts : Nat := 1 <<< 4
def nvPapuIen : Nat := 0x1004
def nvPapuFectl : Nat := 0x1100
def nvPapuFectlFemethmode : Nat := 0xE0
def nvPapuFectlFemethmodeTrapped : Nat := 0xE0
def nvPapuFectlFetrapreason : Nat := 0xF00
def nvPapuFectlFetrapreasonRequested : Nat := 0xF00
def nvPapuFecv : Nat := 0x1110
def nvPapuFeav : Nat := 0x1118
/-- `NV_PAPU_FEAV_VALUE`, the mask `0x0000FFFF`. -/
def nvPapuFeavValue : Field := ⟨0, 16⟩
/-- `NV_PAPU_FEAV_LST`, the mask `0x00030000`. -/
def nvPapuFeavLst : Field := ⟨16, 2⟩
def nvPapuFedecmeth : Nat := 0x1300
def nvPapuFedecparam : Nat := 0x1304
def nvPapuFetforce1 : Nat := 0x1504
def nvPapuFetforce1Se2feIdleVoice : Nat := 1 <<< 15
def nvPapuVpvaddr : Nat := 0x202C
def nvPapuVpsgeaddr : Nat := 0x2030
def nvPapuTvl2d : Nat := 0x2054
def nvPapuCvl2d : Nat := 0x2058
def nvPapuNvl2d : Nat := 0x205C
def nvPapuTvl3d : Nat := 0x2060
def nvPapuCvl3d : Nat := 0x2064
def nvPapuNvl3d : Nat := 0x2068
def nvPapuTvlmp : Nat := 0x206C
def nvPapuCvlmp : Nat := 0x2070
def nvPapuNvlmp : Nat := 0x2074

/-- The TOP, CURRENT and NEXT registers of a voice list. -/
structure VoiceListRegs where
  top : Nat
  current : Nat
  next : Nat

/-- `voice_list_regs[list]`: 2D, 3D and MP, for `list < 3`. -/
def voiceListRegs : Nat → VoiceListRegs
  | 0 => ⟨nvPapuTvl2d, nvPapuCvl2d, nvPapuNvl2d⟩
  | 1 => ⟨nvPapuTvl3d, nvPapuCvl3d, nvPapuNvl3d⟩
  | _ => ⟨nvPapuTvlmp, nvPapuCvlmp, nvPapuNvlmp⟩

def nv1ba0PioSetAntecedentVoice : Nat := 0x120
def nv1ba0PioSetAntecedentVoiceListInherit : Nat := 0
def nv1ba0PioVoiceOn : Nat := 0x124
def nv1ba0PioVoiceOnHandle : Nat := 0xFFFF
/-- `NV1BA0_PIO_VOICE_ON_ENVF`, the mask `0x0F000000`. -/
def nv1ba0PioVoiceOnEnvf : Field := ⟨24, 4⟩
/-- `NV1BA0_PIO_VOICE_ON_ENVA`, the mask `0xF0000000`. -/
def nv1ba0PioVoiceOnEnva : Field := ⟨28, 4⟩
def nv1ba0PioVoiceOff : Nat := 0x128
def nv1ba0PioVoiceOffHandle : Nat := 0xFFFF
def nv1ba0PioVoicePause : Nat := 0x140
def nv1ba0PioVoicePauseHandle : Nat := 0xFFFF
def nv1ba0PioVoicePauseAction : Nat := 1 <<< 18
def nv1ba0PioSetCurrentVoice : Nat := 0x2F8
def nv1ba0PioSetVoiceCfgVbin : Nat := 0x300
def nv1ba0PioSetVoiceCfgFmt : Nat := 0x304
def nv1ba0PioSetVoiceCfgEnv0 : Nat := 0x308
def nv1ba0PioSetVoiceCfgEnva : Nat := 0x30C
def nv1ba0PioSetVoiceCfgEnv1 : Nat := 0x310
def nv1ba0PioSetVoiceCfgEnvf : Nat := 0x314
def nv1ba0PioSetVoiceCfgMisc : Nat := 0x318
def nv1ba0PioSetVoiceTarVola : Nat := 0x360
def nv1ba0PioSetVoiceTarVolb : Nat := 0x364
def nv1ba0PioSetVoiceTarVolc : Nat := 0x368
def nv1ba0PioSetVoiceLfoEnv : Nat := 0x36C
def nv1ba0PioSetVoiceTarPitch : Nat := 0x37C
def nv1ba0PioSetVoiceTarPitchStep : Nat := 0xFFFF0000
def nv1ba0PioSetVoiceCfgBufBase : Nat := 0x3A0
def nv1ba0PioSetVoiceCfgBufLbo : Nat := 0x3A4
def nv1ba0PioSetVoiceBufCbo : Nat := 0x3D8
def nv1ba0PioSetVoiceCfgBufEbo : Nat := 0x3DC
def nv1ba0PioSetCurrentInbufSge : Nat := 0x804
def nv1ba0PioSetCurrentInbufSgeHandle : Nat := 0xFFFFFFFF
def nv1ba0PioSetCurrentInbufSgeOffset : Nat := 0x808
def nv1ba0PioSetCurrentInbufSgeOffsetParameter : Nat := 0xFFFFF000
def nv1ba0PioSetOutbufBa : Nat := 0x1000
def nv1ba0PioSetOutbufLen : Nat := 0x1004
def nv1ba0PioSetCurrentOutbufSge : Nat := 0x1800
def nv1ba0PioSetCurrentOutbufSgeHandle : Nat := 0xFFFFFFFF
def nv1ba0PioSetCurrentOutbufSgeOffset : Nat := 0x1808
def nv1ba0PioSetCurrentOutbufSgeOffsetParameter : Nat := 0xFFFFF000
def se2feIdleVoice : Nat := 0x8000

def nvPavsSize : Nat := 0x80
def nvPavsVoiceCfgVbin : Nat := 0x00
def nvPavsVoiceCfgFmt : Nat := 0x04
def nvPavsVoiceCfgEnv0 : Nat := 0x08
/-- `NV_PAVS_VOICE_CFG_ENV0_EA_DELAYTIME`, the mask `0xFFF << 12`. -/
def nvPavsVoiceCfgEnv0EaDelaytime : Field := ⟨12, 12⟩
def nvPavsVoiceCfgEnva : Nat := 0x0C
/-- `NV_PAVS_VOICE_CFG_ENVA_EA_HOLDTIME`, the mask `0xFFF << 12`. -/
def nvPavsVoiceCfgEnvaEaHoldtime : Field := ⟨12, 12⟩
def nvPavsVoiceCfgEnv1 : Nat := 0x10
def nvPavsVoiceCfgEnvf : Nat := 0x14
def nvPavsVoiceCfgMisc : Nat := 0x18
def nvPavsVoiceCurPslStart : Nat := 0x20
def nvPavsVoiceCurPslStartBa : Field := ⟨0, 24⟩
def nvPavsVoiceCurPshSample : Nat := 0x24
def nvPavsVoiceCurPshSampleLbo : Field := ⟨0, 24⟩
def nvPavsVoiceCurEcnt : Nat := 0x34
def nvPavsVoiceCurEcntEacount : Field := ⟨0, 16⟩
def nvPavsVoiceCurEcntEfcount : Field := ⟨16, 16⟩
def nvPavsVoiceParState : Nat := 0x54
def nvPavsVoiceParStatePaused : Field := ⟨18, 1⟩
def nvPavsVoiceParStateActiveVoice : Field := ⟨21, 1⟩
def nvPavsVoiceParStateEfcur : Field := ⟨24, 4⟩
def nvPavsVoiceParStateEacur : Field := ⟨28, 4⟩
def nvPavsVoiceParOffset : Nat := 0x58
def nvPavsVoiceParOffsetCbo : Field := ⟨0, 24⟩
def nvPavsVoiceParNext : Nat := 0x5C
def nvPavsVoiceParNextEbo : Field := ⟨0, 24⟩
def nvPavsVoiceTarVola : Nat := 0x60
def nvPavsVoiceTarVolb : Nat := 0x64
def nvPavsVoiceTarVolc : Nat := 0x68
def nvPavsVoiceTarLfoEnv : Nat := 0x6C
def nvPavsVoiceTarPitchLink : Nat := 0x7C
/-- `NV_PAVS_VOICE_TAR_PITCH_LINK_NEXT_VOICE_HANDLE`, the mask `0x0000FFFF`. -/
def nvPavsVoiceTarPitchLinkNextVoiceHandle : Field := ⟨0, 16⟩
/-- `NV_PAVS_VOICE_TAR_PITCH_LINK_PITCH`, the mask `0xFFFF0000`. -/
def nvPavsVoiceTarPitchLinkPitch : Field := ⟨16, 16⟩

/-- A whole-word mask, `0xFFFFFFFF`. -/
def wordMask : Field := ⟨0, 32⟩

/-- The assert a method or a frame fails. -/
inductive FeFault
  /-- `assert(voice_handle < 0xFFFF)` in `voice_get_mask` and `voice_set_mask` -/
  | voiceHandle
  /-- `assert(antecedent_voice != 0xFFFF)` -/
  | antecedentVoice
  /-- `assert(false)` for `SE2FE_IDLE_VOICE` with the trap not forced -/
  | idleVoice
  /-- `assert(false)` for a method `fe_method` does not know -/
  | unknownMethod
  | outOfFuel
  deriving DecidableEq, Repr

/-- What `fe_method` and the voice walk of `se_frame` read and write: the
register file `d->regs`, guest memory as `address_space_memory` sees it, and
the two SGE handles the front end keeps outside its registers.  The interrupt
line that `update_irq` drives is left out. -/
structure FeState where
  regs : Nat → Nat
  mem : Mem
  inbufSgeHandle : Nat
  outbufSgeHandle : Nat

/-- The guest address of the record of a voice. -/
def voiceAddr (s : FeState) (voiceHandle : Nat) : Nat :=
  s.regs nvPapuVpvaddr + voiceHandle * nvPavsSize

/-- `voice_get_mask(d, voice_handle, offset, mask)`. -/
def voiceGetMask (s : FeState) (voiceHandle offset : Nat) (mask : Field) : Except FeFault Nat :=
  if voiceHandle < 0xFFFF then .ok (mask.get (ldlLe s.mem (voiceAddr s voiceHandle + offset)))
  else .error .voiceHandle

/-- `voice_set_mask(d, voice_handle, offset, mask, val)`. -/
def voiceSetMask (s : FeState) (voiceHandle offset : Nat) (mask : Field) (val : Nat) :
    Except FeFault FeState :=
  if voiceHandle < 0xFFFF then
    let a := voiceAddr s voiceHandle + offset
    .ok { s with mem := stlLe s.mem a (mask.set (ldlLe s.mem a) val) }
  else .error .voiceHandle

/-- The methods of `fe_method`'s switch.  The methods that store their argument
into a field of the current voice share one case, with the field's offset and
mask. -/
inductive FeMethod
  | setAntecedentVoice
  | voiceOn
  | voiceOff
  | voicePause
  | setCurrentVoice
  | setVoiceField (offset : Nat) (mask : Field)
  | setVoiceTarPitch
  | setCurrentInbufSge
  | setCurrentInbufSgeOffset
  | setOutbuf
  | setCurrentOutbufSge
  | setCurrentOutbufSgeOffset
  | se2feIdleVoice
  | unknown
  deriving DecidableEq, Repr

/-- The case of the switch that a method number selects. -/
def decodeFeMethod (method : Nat) : FeMethod :=
  if method = nv1ba0PioSetAntecedentVoice then .setAntecedentVoice
  else if method = nv1ba0PioVoiceOn then .voiceOn
  else if method = nv1ba0PioVoiceOff then .voiceOff
  else if method = nv1ba0PioVoicePause then .voicePause
  else if method = nv1ba0PioSetCurrentVoice then .setCurrentVoice
  else if method = nv1ba0PioSetVoiceCfgVbin then .setVoiceField nvPavsVoiceCfgVbin wordMask
  else if method = nv1ba0PioSetVoiceCfgFmt then .setVoiceField nvPavsVoiceCfgFmt wordMask
  else if method = nv1ba0PioSetVoiceCfgEnv0 then .setVoiceField nvPavsVoiceCfgEnv0 wordMask
  else if method = nv1ba0PioSetVoiceCfgEnva then .setVoiceField nvPavsVoiceCfgEnva wordMask
  else if method = nv1ba0PioSetVoiceCfgEnv1 then .setVoiceField nvPavsVoiceCfgEnv1 wordMask
  else if method = nv1ba0PioSetVoiceCfgEnvf then .setVoiceField nvPavsVoiceCfgEnvf wordMask
  else if method = nv1ba0PioSetVoiceCfgMisc then .setVoiceField nvPavsVoiceCfgMisc wordMask
  else if method = nv1ba0PioSetVoiceTarVola then .setVoiceField nvPavsVoiceTarVola wordMask
  else if method = nv1ba0PioSetVoiceTarVolb then .setVoiceField nvPavsVoiceTarVolb wordMask
  else if method = nv1ba0PioSetVoiceTarVolc then .setVoiceField nvPavsVoiceTarVolc wordMask
  else if method = nv1ba0PioSetVoiceLfoEnv then .setVoiceField nvPavsVoiceTarLfoEnv wordMask
  else if method = nv1ba0PioSetVoiceTarPitch then .setVoiceTarPitch
  else if method = nv1ba0PioSetVoiceCfgBufBase then
    .setVoiceField nvPavsVoiceCurPslStart nvPavsVoiceCurPslStartBa
  else if method = nv1ba0PioSetVoiceCfgBufLbo then
    .setVoiceField nvPavsVoiceCurPshSample nvPavsVoiceCurPshSampleLbo
  else if method = nv1ba0PioSetVoiceBufCbo then
    .setVoiceField nvPavsVoiceParOffset nvPavsVoiceParOffsetCbo
  else if method = nv1ba0PioSetVoiceCfgBufEbo then
    .setVoiceField nvPavsVoiceParNext nvPavsVoiceParNextEbo
  else if method = nv1ba0PioSetCurrentInbufSge then .setCurrentInbufSge
  else if method = nv1ba0PioSetCurrentInbufSgeOffset then .setCurrentInbufSgeOffset
  -- CASE_4(NV1BA0_PIO_SET_OUTBUF_BA, 8) and CASE_4(NV1BA0_PIO_SET_OUTBUF_LEN, 8)
  else if method ∈ [0, 1, 2, 3].map (fun i => nv1ba0PioSetOutbufBa + 8 * i) ++
      [0, 1, 2, 3].map (fun i => nv1ba0PioSetOutbufLen + 8 * i) then .setOutbuf
  else if method = nv1ba0PioSetCurrentOutbufSge then .setCurrentOutbufSge
  else if method = nv1ba0PioSetCurrentOutbufSgeOffset then .setCurrentOutbufSgeOffset
  else if method = se2feIdleVoice then .se2feIdleVoice
  else .unknown

/-- One of the two envelope starts of `VOICE_ON`: store the start phase in the
voice's state, and load the envelope counter for a delay, attack or hold. -/
def voiceOnEnvelope (s : FeState) (selectedHandle start : Nat) (curMask : Field)
    (delayOffset holdOffset : Nat) (countMask : Field) : Except FeFault FeState := do
  let s ← voiceSetMask s selectedHandle nvPavsVoiceParState curMask start
  if start = 1 then
    -- Delay
    let delayTime ← voiceGetMask s selectedHandle delayOffset nvPavsVoiceCfgEnv0EaDelaytime
    voiceSetMask s selectedHandle nvPavsVoiceCurEcnt countMask (delayTime % 2 ^ 16 * 16)
  else if start = 2 then
    -- Attack
    voiceSetMask s selectedHandle nvPavsVoiceCurEcnt countMask 0x0000
  else if start = 3 then
    -- Hold
    let holdTime ← voiceGetMask s selectedHandle holdOffset nvPavsVoiceCfgEnvaEaHoldtime
    voiceSetMask s selectedHandle nvPavsVoiceCurEcnt countMask (holdTime % 2 ^ 16 * 16)
  else pure s

/-- The linking part of `VOICE_ON`: at the top of the list that `FEAV`
selects, or after the antecedent voice for the inherit list. -/
def voiceOnLink (s : FeState) (selectedHandle : Nat) : Except FeFault FeState :=
  let list := nvPapuFeavLst.get (s.regs nvPapuFeav)
  if list ≠ nv1ba0PioSetAntecedentVoiceListInherit then
    -- voice is added to the top of the selected list
    let topReg := (voiceListRegs (list - 1)).top
    voiceSetMask s selectedHandle nvPavsVoiceTarPitchLink nvPavsVoiceTarPitchLinkNextVoiceHandle
        (s.regs topReg) >>= fun s =>
      .ok { s with regs := Function.update s.regs topReg selectedHandle }
  else
    let antecedentVoice := nvPapuFeavValue.get (s.regs nvPapuFeav)
    -- voice is added after the antecedent voice
    if antecedentVoice ≠ 0xFFFF then do
      let nextHandle ← voiceGetMask s antecedentVoice nvPavsVoiceTarPitchLink
        nvPavsVoiceTarPitchLinkNextVoiceHandle
      let s ← voiceSetMask s selectedHandle nvPavsVoiceTarPitchLink
        nvPavsVoiceTarPitchLinkNextVoiceHandle nextHandle
      voiceSetMask s antecedentVoice nvPavsVoiceTarPitchLink nvPavsVoiceTarPitchLinkNextVoiceHandle
        selectedHandle
    else .error .antecedentVoice

/-- The `NV1BA0_PIO_VOICE_ON` case of `fe_method`. -/
def voiceOn (s : FeState) (argument : Nat) : Except FeFault FeState := do
  let selectedHandle := argument &&& nv1ba0PioVoiceOnHandle
  let s ← voiceOnLink s selectedHandle
  let s ← voiceOnEnvelope s selectedHandle (nv1ba0PioVoiceOnEnva.get argument)
    nvPavsVoiceParStateEacur nvPavsVoiceCfgEnv0 nvPavsVoiceCfgEnva nvPavsVoiceCurEcntEacount
  let s ← voiceOnEnvelope s selectedHandle (nv1ba0PioVoiceOnEnvf.get argument)
    nvPavsVoiceParStateEfcur nvPavsVoiceCfgEnv1 nvPavsVoiceCfgEnvf nvPavsVoiceCurEcntEfcount
  voiceSetMask s selectedHandle nvPavsVoiceParState nvPavsVoiceParStateActiveVoice 1

/-- `update_irq(d)`, on the registers. -/
def updateIrq (regs : Nat → Nat) : Nat → Nat :=
  if regs nvPapuIen &&& nvPapuIstsGintsts ≠ 0 ∧
      clearMask (regs nvPapuIsts) nvPapuIstsGintsts &&& regs nvPapuIen ≠ 0 then
    Function.update regs nvPapuIsts (regs nvPapuIsts ||| nvPapuIstsGintsts)
  else Function.update regs nvPapuIsts (clearMask (regs nvPapuIsts) nvPapuIstsGintsts)

/-- The trap `SE2FE_IDLE_VOICE` raises when `FETFORCE1` forces it. -/
def idleVoiceTrap (regs : Nat → Nat) : Nat → Nat :=
  let fectl := clearMask (regs nvPapuFectl) nvPapuFectlFemethmode ||| nvPapuFectlFemethmodeTrapped
  let fectl := clearMask fectl nvPapuFectlFetrapreason ||| nvPapuFectlFetrapreasonRequested
  let regs := Function.update regs nvPapuFectl fectl
  updateIrq (Function.update regs nvPapuIsts (regs nvPapuIsts ||| nvPapuIstsFetintsts))

/-- `fe_method(d, method, argument)`. -/
def feMethod (s : FeState) (method argument : Nat) : Except FeFault FeState :=
  let s := { s with
    regs := Function.update (Function.update s.regs nvPapuFedecmeth method) nvPapuFedecparam argument }
  match decodeFeMethod method with
  | .setAntecedentVoice => .ok { s with regs := Function.update s.regs nvPapuFeav argument }
  | .voiceOn => voiceOn s argument
  | .voiceOff =>
      voiceSetMask s (argument &&& nv1ba0PioVoiceOffHandle) nvPavsVoiceParState
        nvPavsVoiceParStateActiveVoice 0
  | .voicePause =>
      voiceSetMask s (argument &&& nv1ba0PioVoicePauseHandle) nvPavsVoiceParState
        nvPavsVoiceParStatePaused (if argument &&& nv1ba0PioVoicePauseAction ≠ 0 then 1 else 0)
  | .setCurrentVoice => .ok { s with regs := Function.update s.regs nvPapuFecv argument }
  | .setVoiceField offset mask => voiceSetMask s (s.regs nvPapuFecv) offset mask argument
  | .setVoiceTarPitch =>
      voiceSetMask s (s.regs nvPapuFecv) nvPavsVoiceTarPitchLink nvPavsVoiceTarPitchLinkPitch
        ((argument &&& nv1ba0PioSetVoiceTarPitchStep) >>> 16)
  | .setCurrentInbufSge =>
      .ok { s with inbufSgeHandle := argument &&& nv1ba0PioSetCurrentInbufSgeHandle }
  | .setCurrentInbufSgeOffset =>
      -- `inbuf_sge_handle * 8` is `uint32_t` arithmetic
      .ok { s with
        mem := stlLe s.mem (s.regs nvPapuVpsgeaddr + s.inbufSgeHandle * 8 % 2 ^ 32)
          (argument &&& nv1ba0PioSetCurrentInbufSgeOffsetParameter) }
  | .setOutbuf => .ok s
  | .setCurrentOutbufSge =>
      .ok { s with outbufSgeHandle := argument &&& nv1ba0PioSetCurrentOutbufSgeHandle }
  | .setCurrentOutbufSgeOffset =>
      .ok { s with
        mem := stlLe s.mem (s.regs nvPapuVpsgeaddr + s.outbufSgeHandle * 8 % 2 ^ 32)
          (argument &&& nv1ba0PioSetCurrentOutbufSgeOffsetParameter) }
  | .se2feIdleVoice =>
      if s.regs nvPapuFetforce1 &&& nvPapuFetforce1Se2feIdleVoice ≠ 0 then
        .ok { s with regs := idleVoiceTrap s.regs }
      else .error .idleVoice
  | .unknown => .error .unknownMethod

/-- A sequence of front-end methods, each a method number and its argument. -/
def feRun (s : FeState) (methods : List (Nat × Nat)) : Except FeFault FeState :=
  methods.foldlM (fun s m => feMethod s m.1 m.2) s

/-- One round of the voice walk of `se_frame` over a list, at the voice in
its CURRENT register: read the next handle, and hand an inactive voice back to
the front end.  `process_voice` is compiled out (`#if 0`). -/
def seFrameVisit (r : VoiceListRegs) (s : FeState) : Except FeFault FeState := do
  let next ← voiceGetMask s (s.regs r.current) nvPavsVoiceTarPitchLink
    nvPavsVoiceTarPitchLinkNextVoiceHandle
  let s := { s with regs := Function.update s.regs r.next next }
  let active ← voiceGetMask s (s.regs r.current) nvPavsVoiceParState nvPavsVoiceParStateActiveVoice
  let s ← (if active = 0 then feMethod s se2feIdleVoice (s.regs r.current) else pure s)
  pure { s with regs := Function.update s.regs r.current (s.regs r.next) }

/-- The `while (d->regs[current] != 0xFFFF)` loop of `se_frame` over one list. -/
def seFrameVoiceLoop (r : VoiceListRegs) : Nat → FeState → Except FeFault FeState
  | fuel, s =>
    if s.regs r.current ≠ 0xFFFF then
      match fuel with
      | 0 => .error .outOfFuel
      | fuel + 1 => seFrameVisit r s >>= seFrameVoiceLoop r fuel
    else .ok s

/-- The walk of one list: CURRENT starts at TOP. -/
def seFrameList (fuel : Nat) (r : VoiceListRegs) (s : FeState) : Except FeFault FeState :=
  seFrameVoiceLoop r fuel { s with regs := Function.update s.regs r.current (s.regs r.top) }

/-- The voice walks of `se_frame`: the 2D, 3D and MP lists in turn. -/
def seFrameVoices (fuel : Nat) (s : FeState) : Except FeFault FeState := do
  let s ← seFrameList fuel (voiceListRegs 0) s
  let s ← seFrameList fuel (voiceListRegs 1) s
  seFrameList fuel (voiceListRegs 2) s

end Xqemu.Apu
