import Xqemu.Apu.VoiceList

/-! # The voice walk of se_frame

`se_frame` walks each voice list from its TOP register through the CURRENT
and NEXT registers of the list, one voice a round.  A round reads the link and
the `ACTIVE_VOICE` bit of the voice and writes registers only, so on a list
that is a chain the walk visits the members in order and stops at `0xFFFF`
(`visits_of_seg`); after a run of methods it visits the lists of
`FeLists.run`.  A voice that links to itself holds the walk for ever, and one
`SET_CURRENT_INBUF_SGE_OFFSET` into an SGE table four bytes off the voice
array links a voice to itself (`sgeOverlapRun`).
-/

namespace Xqemu.Apu

open Xqemu.Bits Xqemu.Memory Xqemu.Faults Xqemu.Heap

/-- The registers of a list's walk lie apart from each other, from those the
walk reads, and from those the idle-voice trap writes. -/
structure WalkRegs (r : VoiceListRegs) : Prop where
  current_ne_next : r.current ≠ r.next
  next_ne : ∀ x ∈ [nvPapuVpvaddr, nvPapuFetforce1, nvPapuFedecmeth, nvPapuFedecparam, nvPapuFectl,
    nvPapuIsts], r.next ≠ x
  current_ne : ∀ x ∈ [nvPapuVpvaddr, nvPapuFetforce1], r.current ≠ x

theorem voiceListRegs_walkRegs (i : Nat) : WalkRegs (voiceListRegs i) := by
  rcases i with _ | _ | i <;> simp only [voiceListRegs] <;> exact ⟨by decide, by decide, by decide⟩

/-- Two states with the same voice records and the same `FETFORCE1`. -/
structure SameVoices (s s' : FeState) : Prop where
  mem : s'.mem = s.mem
  vpvaddr : s'.regs nvPapuVpvaddr = s.regs nvPapuVpvaddr
  fetforce1 : s'.regs nvPapuFetforce1 = s.regs nvPapuFetforce1

section SameVoices

variable {s s₁ s' : FeState}

theorem SameVoices.refl (s : FeState) : SameVoices s s := ⟨rfl, rfl, rfl⟩

theorem SameVoices.trans (h₁ : SameVoices s s₁) (h₂ : SameVoices s₁ s') : SameVoices s s' :=
  ⟨h₂.mem.trans h₁.mem, h₂.vpvaddr.trans h₁.vpvaddr, h₂.fetforce1.trans h₁.fetforce1⟩

theorem SameVoices.voiceAddr_eq (h : SameVoices s s') (v : Nat) : voiceAddr s' v = voiceAddr s v := by
  simp only [voiceAddr, h.vpvaddr]

theorem SameVoices.voiceNextHandle_eq (h : SameVoices s s') :
    voiceNextHandle s' = voiceNextHandle s := by
  funext v
  simp only [voiceNextHandle, h.voiceAddr_eq, h.mem]

theorem SameVoices.voiceActive_eq (h : SameVoices s s') : voiceActive s' = voiceActive s := by
  funext v
  simp only [voiceActive, h.voiceAddr_eq, h.mem]

theorem SameVoices.voiceLinks_eq (h : SameVoices s s') : voiceLinks s' = voiceLinks s := by
  funext v
  simp only [voiceLinks, h.voiceNextHandle_eq]

theorem sameVoices_update {r : Nat} (h₁ : r ≠ nvPapuVpvaddr) (h₂ : r ≠ nvPapuFetforce1) (x : Nat) :
    SameVoices s { s with regs := Function.update s.regs r x } :=
  ⟨rfl, Function.update_of_ne (Ne.symm h₁) _ _, Function.update_of_ne (Ne.symm h₂) _ _⟩

theorem WalkRegs.sameVoices_current {r : VoiceListRegs} (hr : WalkRegs r) (x : Nat) :
    SameVoices s { s with regs := Function.update s.regs r.current x } :=
  sameVoices_update (hr.current_ne _ (by decide)) (hr.current_ne _ (by decide)) x

theorem WalkRegs.sameVoices_next {r : VoiceListRegs} (hr : WalkRegs r) (x : Nat) :
    SameVoices s { s with regs := Function.update s.regs r.next x } :=
  sameVoices_update (hr.next_ne _ (by decide)) (hr.next_ne _ (by decide)) x

end SameVoices

/-! ## The idle-voice trap -/

section IdleVoice

variable {s : FeState} {argument : Nat}

theorem decodeFeMethod_se2feIdleVoice : decodeFeMethod se2feIdleVoice = .se2feIdleVoice := by
  decide

/-- `SE2FE_IDLE_VOICE` traps when `FETFORCE1` forces it, and fails its assert
otherwise. -/
theorem feMethod_se2feIdleVoice_eq : feMethod s se2feIdleVoice argument =
    if s.regs nvPapuFetforce1 &&& nvPapuFetforce1Se2feIdleVoice ≠ 0 then
      .ok { s with regs := (idleVoiceTrap (Function.update (Function.update s.regs nvPapuFedecmeth
        se2feIdleVoice) nvPapuFedecparam argument)) }
    else .error .idleVoice := by
  unfold feMethod
  rw [decodeFeMethod_se2feIdleVoice]
  simp only [Function.update_of_ne (show nvPapuFetforce1 ≠ nvPapuFedecparam by decide),
    Function.update_of_ne (show nvPapuFetforce1 ≠ nvPapuFedecmeth by decide)]

theorem feMethod_se2feIdleVoice (h : s.regs nvPapuFetforce1 &&& nvPapuFetforce1Se2feIdleVoice ≠ 0) :
    feMethod s se2feIdleVoice argument = .ok { s with
      regs := (idleVoiceTrap (Function.update (Function.update s.regs nvPapuFedecmeth se2feIdleVoice)
        nvPapuFedecparam argument)) } := by
  rw [feMethod_se2feIdleVoice_eq, if_pos h]

theorem feMethod_se2feIdleVoice_of_eq_zero
    (h : s.regs nvPapuFetforce1 &&& nvPapuFetforce1Se2feIdleVoice = 0) :
    feMethod s se2feIdleVoice argument = .error .idleVoice := by
  rw [feMethod_se2feIdleVoice_eq, if_neg (not_not.mpr h)]

/-- The trap writes neither the records nor `FETFORCE1`. -/
theorem sameVoices_idleVoiceTrap (method : Nat) :
    SameVoices s { s with regs := (idleVoiceTrap (Function.update (Function.update s.regs
      nvPapuFedecmeth method) nvPapuFedecparam argument)) } := by
  refine ⟨rfl, ?_, ?_⟩ <;> dsimp only <;>
    rw [idleVoiceTrap_of_ne _ (by decide) (by decide), Function.update_of_ne (by decide),
      Function.update_of_ne (by decide)]

end IdleVoice

/-! ## One round of the walk, and the whole walk -/

theorem seFrameVoiceLoop_of_eq {r : VoiceListRegs} {s : FeState} (h : s.regs r.current = 0xFFFF)
    (fuel : Nat) : seFrameVoiceLoop r fuel s = .ok s := by
  unfold seFrameVoiceLoop
  rw [if_neg (not_not.mpr h)]

theorem seFrameVoiceLoop_zero {r : VoiceListRegs} {s : FeState} (h : s.regs r.current ≠ 0xFFFF) :
    seFrameVoiceLoop r 0 s = .error .outOfFuel := by
  unfold seFrameVoiceLoop
  rw [if_pos h]

theorem seFrameVoiceLoop_succ {r : VoiceListRegs} {s : FeState} (h : s.regs r.current ≠ 0xFFFF)
    (fuel : Nat) : seFrameVoiceLoop r (fuel + 1) s = seFrameVisit r s >>= seFrameVoiceLoop r fuel := by
  rw [seFrameVoiceLoop, if_pos h]

section Visit

variable {r : VoiceListRegs} {s s' : FeState} {v : Nat}

/-- A round at voice `v`, once NEXT holds its link and its `ACTIVE_VOICE`
bit is read. -/
theorem seFrameVisit_eq (hr : WalkRegs r) (hcur : s.regs r.current = v) (hv : v < 0xFFFF) :
    seFrameVisit r s =
      (if voiceActive s v = 0 then
        feMethod { s with regs := Function.update s.regs r.next (voiceNextHandle s v) } se2feIdleVoice v
      else pure { s with regs := Function.update s.regs r.next (voiceNextHandle s v) }) >>= fun s =>
        pure { s with regs := Function.update s.regs r.current (s.regs r.next) } := by
  set s₁ : FeState := { s with regs := Function.update s.regs r.next (voiceNextHandle s v) } with hs₁
  have h₁ : SameVoices s s₁ := hr.sameVoices_next _
  have hcur₁ : s₁.regs r.current = v := by
    rw [hs₁]
    dsimp only
    rw [Function.update_of_ne hr.current_ne_next, hcur]
  have hread : voiceGetMask s (s.regs r.current) nvPavsVoiceTarPitchLink
      nvPavsVoiceTarPitchLinkNextVoiceHandle = .ok (voiceNextHandle s v) := by
    rw [hcur]
    exact voiceGetMask_of_lt hv
  have hact : voiceGetMask s₁ (s₁.regs r.current) nvPavsVoiceParState nvPavsVoiceParStateActiveVoice =
      .ok (voiceActive s v) := by
    rw [hcur₁, voiceGetMask_of_lt hv, ← h₁.voiceActive_eq]
    rfl
  unfold seFrameVisit
  rw [hread, ok_bind]
  dsimp -proj only
  rw [← hs₁, hact, ok_bind, hcur₁]

/-- One round at voice `v`: CURRENT moves on to the link of `v`, and the
records and `FETFORCE1` stay. -/
theorem seFrameVisit_eq_ok (hr : WalkRegs r) (hcur : s.regs r.current = v) (hv : v < 0xFFFF)
    (hidle : voiceActive s v = 0 → s.regs nvPapuFetforce1 &&& nvPapuFetforce1Se2feIdleVoice ≠ 0) :
    ∃ s', seFrameVisit r s = .ok s' ∧ SameVoices s s' ∧ s'.regs r.current = voiceNextHandle s v := by
  set s₁ : FeState := { s with regs := Function.update s.regs r.next (voiceNextHandle s v) }
  have h₁ : SameVoices s s₁ := hr.sameVoices_next _
  -- after the idle trap, if the voice is not active
  obtain ⟨s₂, h₂, hs₂, hnext₂⟩ : ∃ s₂, (if voiceActive s v = 0 then
      feMethod s₁ se2feIdleVoice v else pure s₁) = .ok s₂ ∧ SameVoices s₁ s₂ ∧
      s₂.regs r.next = voiceNextHandle s v := by
    split_ifs with hact
    · refine ⟨_, feMethod_se2feIdleVoice (h₁.fetforce1 ▸ hidle hact), sameVoices_idleVoiceTrap _, ?_⟩
      dsimp only
      rw [idleVoiceTrap_of_ne _ (hr.next_ne _ (by decide)) (hr.next_ne _ (by decide)),
        Function.update_of_ne (hr.next_ne _ (by decide)),
        Function.update_of_ne (hr.next_ne _ (by decide))]
      exact Function.update_self _ _ _
    · exact ⟨s₁, rfl, SameVoices.refl _, Function.update_self _ _ _⟩
  refine ⟨{ s₂ with regs := Function.update s₂.regs r.current (s₂.regs r.next) }, ?_,
    h₁.trans (hs₂.trans (hr.sameVoices_current _)), by simp only [Function.update_self, hnext₂]⟩
  rw [seFrameVisit_eq hr hcur hv, h₂, ok_bind]
  rfl

/-- A round at an inactive voice fails the assert of `SE2FE_IDLE_VOICE`
unless `FETFORCE1` forces the trap. -/
theorem seFrameVisit_eq_error (hr : WalkRegs r) (hcur : s.regs r.current = v) (hv : v < 0xFFFF)
    (hact : voiceActive s v = 0)
    (hforce : s.regs nvPapuFetforce1 &&& nvPapuFetforce1Se2feIdleVoice = 0) :
    seFrameVisit r s = .error .idleVoice := by
  rw [seFrameVisit_eq hr hcur hv, if_pos hact, feMethod_se2feIdleVoice_of_eq_zero, error_bind]
  dsimp only
  rw [Function.update_of_ne (hr.next_ne _ (by decide)).symm]
  exact hforce

end Visit

/-- The rounds of a walk: CURRENT holds the voices of `l` in turn, then `0xFFFF`. -/
inductive Visits (r : VoiceListRegs) : FeState → List Nat → FeState → Prop
  | done {s : FeState} : s.regs r.current = 0xFFFF → Visits r s [] s
  | visit {s s₁ s' : FeState} {v : Nat} {l : List Nat} : s.regs r.current = v → v ≠ 0xFFFF →
      seFrameVisit r s = .ok s₁ → Visits r s₁ l s' → Visits r s (v :: l) s'

section Walk

variable {r : VoiceListRegs} {s s' : FeState} {l : List Nat}

/-- A walk of `l` ends within `l.length` rounds. -/
theorem Visits.seFrameVoiceLoop_eq (h : Visits r s l s') {fuel : Nat} (hfuel : l.length ≤ fuel) :
    seFrameVoiceLoop r fuel s = .ok s' := by
  induction h generalizing fuel with
  | done hcur => exact seFrameVoiceLoop_of_eq hcur fuel
  | @visit s s₁ s' v l hcur hv hvisit _ ih =>
      obtain ⟨fuel, rfl⟩ : ∃ f, fuel = f + 1 := ⟨fuel - 1, by simp only [List.length_cons] at hfuel; omega⟩
      rw [seFrameVoiceLoop_succ (hcur ▸ hv), hvisit, ok_bind]
      exact ih (by simp only [List.length_cons] at hfuel; omega)

/-- The voices of a walk are those it has to visit: a walk has one trace. -/
theorem Visits.unique {l' : List Nat} {s'' : FeState} (h : Visits r s l s') (h' : Visits r s l' s'') :
    l = l' ∧ s' = s'' := by
  induction h generalizing l' with
  | done hcur =>
      cases h' with
      | done _ => exact ⟨rfl, rfl⟩
      | visit hcur' hv' _ _ => exact absurd (hcur'.symm.trans hcur) hv'
  | visit hcur hv hvisit _ ih =>
      cases h' with
      | done hcur' => exact absurd (hcur.symm.trans hcur') hv
      | visit hcur' _ hvisit' hrest =>
          rw [hvisit] at hvisit'
          cases hvisit'
          obtain ⟨rfl, rfl⟩ := ih hrest
          exact ⟨by rw [← hcur, ← hcur'], rfl⟩

/-- On a list that is a chain from CURRENT, the walk visits the members in
order, when each inactive member is trapped. -/
theorem visits_of_seg (hr : WalkRegs r)
    (hseg : Seg (voiceLinks s) (handlePtr (s.regs r.current)) l none) (hlt : ∀ v ∈ l, v < 0xFFFF)
    (hidle : ∀ v ∈ l, voiceActive s v = 0 →
      s.regs nvPapuFetforce1 &&& nvPapuFetforce1Se2feIdleVoice ≠ 0) :
    ∃ s', Visits r s l s' ∧ SameVoices s s' := by
  -- induction on the list, one round a member
  induction l generalizing s with
  | nil => exact ⟨s, .done (handlePtr_eq_none.mp hseg), SameVoices.refl s⟩
  | cons v l ih =>
      obtain ⟨hhead, htail⟩ := hseg
      obtain ⟨hcur, hv⟩ := handlePtr_eq_some.mp hhead
      obtain ⟨s₁, hvisit, h₁, hcur₁⟩ :=
        seFrameVisit_eq_ok hr hcur (hlt v List.mem_cons_self) (hidle v List.mem_cons_self)
      have hseg₁ : Seg (voiceLinks s₁) (handlePtr (s₁.regs r.current)) l none := by
        rw [h₁.voiceLinks_eq, hcur₁]
        exact htail
      obtain ⟨s', hvis, h'⟩ := ih hseg₁ (fun w hw => hlt w (List.mem_cons_of_mem v hw))
        (fun w hw => by
          rw [h₁.voiceActive_eq, h₁.fetforce1]
          exact hidle w (List.mem_cons_of_mem v hw))
      exact ⟨s', .visit hcur hv hvisit hvis, h₁.trans h'⟩

/-- A walk at an active voice that links to itself never ends. -/
theorem seFrameVoiceLoop_of_self_link (hr : WalkRegs r) {v : Nat} (hv : v < 0xFFFF)
    (hself : voiceNextHandle s v = v) (hact : voiceActive s v ≠ 0) (hcur : s.regs r.current = v) :
    ∀ fuel, seFrameVoiceLoop r fuel s = .error .outOfFuel := by
  intro fuel
  -- induction on the fuel: each round leaves CURRENT at `v`
  induction fuel generalizing s with
  | zero => exact seFrameVoiceLoop_zero (by omega)
  | succ fuel ih =>
      obtain ⟨s₁, hvisit, h₁, hcur₁⟩ := seFrameVisit_eq_ok hr hcur hv (fun h => absurd h hact)
      rw [seFrameVoiceLoop_succ (by omega), hvisit, ok_bind]
      exact ih (by rw [h₁.voiceNextHandle_eq]; exact hself) (by rw [h₁.voiceActive_eq]; exact hact)
        (hcur₁.trans hself)

/-- A list whose head is an active voice that links to itself is no chain
ending in `0xFFFF`, and its walk never ends. -/
theorem seFrameList_of_self_link {i v : Nat} (hv : v < 0xFFFF) (htop : s.regs (voiceListRegs i).top = v)
    (hself : voiceNextHandle s v = v) (hact : voiceActive s v ≠ 0) :
    (∀ l, ¬Seg (voiceLinks s) (handlePtr (s.regs (voiceListRegs i).top)) l none) ∧
      ∀ fuel, seFrameList fuel (voiceListRegs i) s = .error .outOfFuel := by
  have hr := voiceListRegs_walkRegs i
  have hlink : voiceLinks s v = some v := by
    rw [voiceLinks, hself, handlePtr_of_lt hv]
  refine ⟨fun l => ?_, fun fuel => ?_⟩
  · rw [htop, handlePtr_of_lt hv]
    exact not_seg_of_self_loop hlink l
  · -- CURRENT starts at TOP, which is `v`
    have h₀ : SameVoices s { s with regs :=
        (Function.update s.regs (voiceListRegs i).current (s.regs (voiceListRegs i).top)) } :=
      hr.sameVoices_current _
    unfold seFrameList
    refine seFrameVoiceLoop_of_self_link hr hv (by rw [h₀.voiceNextHandle_eq]; exact hself)
      (by rw [h₀.voiceActive_eq]; exact hact) ?_ fuel
    dsimp only
    rw [Function.update_self]
    exact htop

end Walk

/-! ## The walk after a run of methods -/

/-- Voice 0 onto the 2D list, then entry 15 of the input SGE table set to 0. -/
def sgeOverlapRun : List (Nat × Nat) :=
  [(nv1ba0PioSetAntecedentVoice, 0x10000), (nv1ba0PioVoiceOn, 0),
    (nv1ba0PioSetCurrentInbufSge, 15), (nv1ba0PioSetCurrentInbufSgeOffset, 0)]

theorem sameVoices_prelude {s : FeState} (method argument : Nat) :
    SameVoices s { s with regs :=
      (Function.update (Function.update s.regs nvPapuFedecmeth method) nvPapuFedecparam argument) } :=
  (sameVoices_update (by decide) (by decide) method).trans (sameVoices_update (by decide) (by decide) argument)

/-- `SET_CURRENT_INBUF_SGE_OFFSET` whose SGE entry is the link word of voice
`h` links `h` to the handle bits of the stored word, and leaves every
`ACTIVE_VOICE` bit and every register but `FEDECMETH` and `FEDECPARAM`. -/
theorem feMethod_inbufSgeOffset_of_link {s : FeState} {method h : Nat}
    (hdec : decodeFeMethod method = .setCurrentInbufSgeOffset)
    (haddr : s.regs nvPapuVpsgeaddr + s.inbufSgeHandle * 8 % 2 ^ 32 =
      voiceAddr s h + nvPavsVoiceTarPitchLink) (argument : Nat) :
    ∃ s', feMethod s method argument = .ok s' ∧
      voiceNextHandle s' h = nvPavsVoiceTarPitchLinkNextVoiceHandle.get
        (argument &&& nv1ba0PioSetCurrentInbufSgeOffsetParameter) ∧
      voiceActive s' = voiceActive s ∧
      ∀ r, r ≠ nvPapuFedecmeth → r ≠ nvPapuFedecparam → s'.regs r = s.regs r := by
  set t : FeState := { s with regs :=
    (Function.update (Function.update s.regs nvPapuFedecmeth method) nvPapuFedecparam argument) }
  have ht : SameVoices s t := sameVoices_prelude method argument
  have haddr' : t.regs nvPapuVpsgeaddr + t.inbufSgeHandle * 8 % 2 ^ 32 =
      voiceAddr t h + nvPavsVoiceTarPitchLink := by
    rw [(sameLists_feMethod_prelude method argument).vpsgeaddr, ht.voiceAddr_eq]
    exact haddr
  refine ⟨{ t with mem := (stlLe t.mem (voiceAddr t h + nvPavsVoiceTarPitchLink)
    (argument &&& nv1ba0PioSetCurrentInbufSgeOffsetParameter)) }, ?_, ?_, ?_, fun r h₁ h₂ => ?_⟩
  · rw [← haddr']
    unfold feMethod
    rw [hdec]
  · rw [voiceNextHandle_store_link, if_pos rfl]
  · rw [voiceActive_store_link, ht.voiceActive_eq]
  · exact (Function.update_of_ne h₂ _ _).trans (Function.update_of_ne h₁ _ _)

/-- The first three methods of `sgeOverlapRun`, from empty lists: voice 0 is
alone on the 2D list and active, and entry 15 of the input SGE table is
current. -/
theorem sgeOverlapRun_prefix (s : FeState) (htops : ∀ i < 3, s.regs (voiceListRegs i).top = 0xFFFF) :
    ∃ s₃, feRun s (sgeOverlapRun.take 3) = .ok s₃ ∧ s₃.regs nvPapuTvl2d = 0 ∧
      voiceActive s₃ 0 = 1 ∧ s₃.inbufSgeHandle = 15 ∧
      s₃.regs nvPapuVpvaddr = s.regs nvPapuVpvaddr ∧ s₃.regs nvPapuVpsgeaddr = s.regs nvPapuVpsgeaddr := by
  have hdec₁ : decodeFeMethod nv1ba0PioSetAntecedentVoice = .setAntecedentVoice := by decide
  have hdec₂ : decodeFeMethod nv1ba0PioVoiceOn = .voiceOn := by decide
  have hdec₃ : decodeFeMethod nv1ba0PioSetCurrentInbufSge = .setCurrentInbufSge := by decide
  -- `SET_ANTECEDENT_VOICE` selects the 2D list
  obtain ⟨s₁, hm₁, hrep₁⟩ := (represents_empty htops).feMethod_setAntecedentVoice
    hdec₁ 0x10000
  -- `VOICE_ON` puts voice 0 at its top
  obtain ⟨s₂, hm₂, hrep₂, hact₂⟩ := hrep₁.feMethod_voiceOn_top hdec₂ 0 (by decide)
    (show nvPapuFeavLst.get 0x10000 ≠ 0 by decide) fun _ _ => List.not_mem_nil
  rw [Nat.zero_and] at hact₂
  have hσ₂ : (FeLists.step ⟨fun _ => [], 0x10000⟩ nv1ba0PioVoiceOn 0).lists 0 = [0] := by
    rw [FeLists.step_voiceOn hdec₂]
    decide
  -- `SET_CURRENT_INBUF_SGE 15`
  set s₃ : FeState := { s₂ with
    regs := (Function.update (Function.update s₂.regs nvPapuFedecmeth nv1ba0PioSetCurrentInbufSge)
      nvPapuFedecparam 15)
    inbufSgeHandle := 15 &&& nv1ba0PioSetCurrentInbufSgeHandle }
  have hm₃ : feMethod s₂ nv1ba0PioSetCurrentInbufSge 15 = .ok s₃ := by
    unfold feMethod
    rw [hdec₃]
  have h₃ : SameVoices s₂ s₃ :=
    ⟨rfl, (sameVoices_prelude (s := s₂) _ _).vpvaddr, (sameVoices_prelude (s := s₂) _ _).fetforce1⟩
  have htop : s₃.regs nvPapuTvl2d = 0 := by
    have hseg := hrep₂.seg 0 (by decide)
    rw [hσ₂] at hseg
    exact ((sameLists_feMethod_prelude (s := s₂) _ _).tops 0).trans (handlePtr_eq_some.mp hseg.1).1
  obtain ⟨a₁, b₁⟩ := feMethod_vpRegs hm₁
  obtain ⟨a₂, b₂⟩ := feMethod_vpRegs hm₂
  obtain ⟨a₃, b₃⟩ := feMethod_vpRegs hm₃
  refine ⟨s₃, ?_, htop, by rw [h₃.voiceActive_eq]; exact hact₂, rfl, by rw [a₃, a₂, a₁],
    by rw [b₃, b₂, b₁]⟩
  simp only [feRun, sgeOverlapRun, List.take, List.foldlM_cons, List.foldlM_nil, hm₁, hm₂, hm₃,
    ok_bind]
  rfl

theorem sgeOverlapRun_walk_spins (s : FeState)
    (htops : ∀ i < 3, s.regs (voiceListRegs i).top = 0xFFFF)
    (hsge : s.regs nvPapuVpsgeaddr = s.regs nvPapuVpvaddr + 4) :
    FreshVoiceOns ⟨fun _ => [], s.regs nvPapuFeav⟩ sgeOverlapRun ∧
      ∃ s', feRun s sgeOverlapRun = .ok s' ∧ voiceLinks s' 0 = some 0 ∧
        (∀ l, ¬Seg (voiceLinks s') (handlePtr (s'.regs nvPapuTvl2d)) l none) ∧
        ∀ fuel, seFrameList fuel (voiceListRegs 0) s' = .error .outOfFuel := by
  have hdec₁ : decodeFeMethod nv1ba0PioSetAntecedentVoice = .setAntecedentVoice := by decide
  have hdec₂ : decodeFeMethod nv1ba0PioVoiceOn = .voiceOn := by decide
  have hdec₃ : decodeFeMethod nv1ba0PioSetCurrentInbufSge = .setCurrentInbufSge := by decide
  have hdec₄ : decodeFeMethod nv1ba0PioSetCurrentInbufSgeOffset = .setCurrentInbufSgeOffset := by
    decide
  refine ⟨?_, ?_⟩
  · -- the one `VOICE_ON` comes while the lists are empty
    simp only [sgeOverlapRun, FreshVoiceOns, FeLists.step_setAntecedentVoice hdec₁, hdec₁, hdec₂,
      hdec₃, hdec₄, reduceCtorEq, false_implies, List.not_mem_nil, not_false_eq_true, implies_true,
      and_self]
  obtain ⟨s₃, hrun₃, htop₃, hact₃, h15, hvpv, hsge₃⟩ := sgeOverlapRun_prefix s htops
  -- entry 15 of a table at `VPVADDR + 4` is the link word of voice 0
  have haddr : s₃.regs nvPapuVpsgeaddr + s₃.inbufSgeHandle * 8 % 2 ^ 32 =
      voiceAddr s₃ 0 + nvPavsVoiceTarPitchLink := by
    rw [h15, hsge₃, hsge, ← hvpv]
    unfold voiceAddr nvPavsSize nvPavsVoiceTarPitchLink
    omega
  obtain ⟨s₄, hm₄, hself, hact, hregs⟩ := feMethod_inbufSgeOffset_of_link hdec₄ haddr 0
  have hself₀ : voiceNextHandle s₄ 0 = 0 := hself.trans (by decide)
  obtain ⟨hnoseg, hspin⟩ := seFrameList_of_self_link (i := 0) (show 0 < 0xFFFF by decide)
    ((hregs _ (by decide) (by decide)).trans htop₃) hself₀ (by rw [hact, hact₃]; decide)
  refine ⟨s₄, ?_, by rw [voiceLinks, hself₀]; rfl, hnoseg, hspin⟩
  rw [show sgeOverlapRun = sgeOverlapRun.take 3 ++ [(nv1ba0PioSetCurrentInbufSgeOffset, 0)] from rfl,
    feRun, List.foldlM_append]
  rw [feRun] at hrun₃
  rw [hrun₃, ok_bind, List.foldlM_cons, hm₄, ok_bind]
  rfl

/-- Empty lists, the voice array at `0x1000` and the SGE tables at `0x1004`. -/
def sgeOverlapState : FeState where
  regs r :=
    if r = nvPapuVpvaddr then 0x1000
    else if r = nvPapuVpsgeaddr then 0x1004
    else if r = nvPapuTvl2d ∨ r = nvPapuTvl3d ∨ r = nvPapuTvlmp then 0xFFFF
    else 0
  mem _ := 0
  inbufSgeHandle := 0
  outbufSgeHandle := 0

theorem sgeOverlapState_walk_spins :
    (∀ i < 3, sgeOverlapState.regs (voiceListRegs i).top = 0xFFFF) ∧
      sgeOverlapState.regs nvPapuVpsgeaddr = sgeOverlapState.regs nvPapuVpvaddr + 4 ∧
      FreshVoiceOns ⟨fun _ => [], sgeOverlapState.regs nvPapuFeav⟩ sgeOverlapRun ∧
      ∃ s', feRun sgeOverlapState sgeOverlapRun = .ok s' ∧ voiceLinks s' 0 = some 0 ∧
        (∀ l, ¬Seg (voiceLinks s') (handlePtr (s'.regs nvPapuTvl2d)) l none) ∧
        ∀ fuel, seFrameList fuel (voiceListRegs 0) s' = .error .outOfFuel :=
  ⟨by decide, by decide, sgeOverlapRun_walk_spins sgeOverlapState (by decide) (by decide)⟩

end Xqemu.Apu
