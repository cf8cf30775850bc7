import Xqemu.Apu.Voice
import Xqemu.Lib.ListSeg

/-! # The voice lists stay linked lists (fe_method)

Read through the `NEXT_VOICE_HANDLE` fields of the voice records, guest
memory is a heap of list cells (`voiceLinks`), and each voice list is the
segment from its TOP register to `0xFFFF`.  The abstract front end `FeLists`
keeps the three lists and the `FEAV` register: `VOICE_ON` pushes a voice onto
the list that `FEAV` selects, or splices it in after the antecedent voice.

Every method but `VOICE_ON` stores only words that miss every link word,
provided the SGE tables have the alignment of the voice array modulo 8: the
entries `SET_CURRENT_INBUF_SGE_OFFSET` writes then fall on the even words of
the records, and the links lie on odd ones.  Under that alignment, and with
each `VOICE_ON` for a voice on no list, a run of methods keeps the lists
those of `FeLists` (`feRun_represents`).  The walk of `se_frame` over these
lists, and what a misaligned SGE table does to them, are in `VoiceWalk`.
-/

namespace Xqemu.Apu

open Xqemu.Bits Xqemu.Memory Xqemu.Faults Xqemu.Heap

/-- The handle the record of voice `v` links to. -/
def voiceNextHandle (s : FeState) (v : Nat) : Nat :=
  nvPavsVoiceTarPitchLinkNextVoiceHandle.get (ldlLe s.mem (voiceAddr s v + nvPavsVoiceTarPitchLink))

/-- The `ACTIVE_VOICE` bit of the record of voice `v`. -/
def voiceActive (s : FeState) (v : Nat) : Nat :=
  nvPavsVoiceParStateActiveVoice.get (ldlLe s.mem (voiceAddr s v + nvPavsVoiceParState))

/-- A handle as a list pointer: `0xFFFF` ends a list. -/
def handlePtr (h : Nat) : Option Nat :=
  if h = 0xFFFF then none else some h

/-- The links of all voice records, as the heap of the voice lists. -/
def voiceLinks (s : FeState) (v : Nat) : Option Nat :=
  handlePtr (voiceNextHandle s v)

/-- A word at `a` that overlaps the link word of no voice record. -/
def MissesLinks (s : FeState) (a : Nat) : Prop :=
  ∀ v, a + 4 ≤ voiceAddr s v + nvPavsVoiceTarPitchLink ∨
    voiceAddr s v + nvPavsVoiceTarPitchLink + 4 ≤ a

/-- The SGE tables start at the alignment of the voice array modulo 8. -/
def SgeAligned (s : FeState) : Prop :=
  s.regs nvPapuVpsgeaddr % 8 = s.regs nvPapuVpvaddr % 8

section Memory

variable {s : FeState}

theorem handlePtr_of_lt {h : Nat} (hh : h < 0xFFFF) : handlePtr h = some h := by
  rw [handlePtr, if_neg (by omega)]

theorem handlePtr_eq_none {h : Nat} : handlePtr h = none ↔ h = 0xFFFF := by
  unfold handlePtr
  split_ifs with hh <;> simp [hh]

theorem handlePtr_eq_some {h v : Nat} : handlePtr h = some v ↔ h = v ∧ v ≠ 0xFFFF := by
  unfold handlePtr
  split_ifs with hh
  · simp only [false_iff, not_and, not_not]
    exact fun hv => hv ▸ hh
  · simp only [Option.some.injEq]
    exact ⟨fun hv => ⟨hv, hv ▸ hh⟩, And.left⟩

@[simp] theorem voiceAddr_mem (m : Mem) (v : Nat) : voiceAddr { s with mem := m } v = voiceAddr s v :=
  rfl

theorem voiceAddr_update {r : Nat} (hr : r ≠ nvPapuVpvaddr) (x v : Nat) :
    voiceAddr { s with regs := Function.update s.regs r x } v = voiceAddr s v := by
  simp only [voiceAddr, Function.update_of_ne (Ne.symm hr)]

theorem voiceLinks_update {r : Nat} (hr : r ≠ nvPapuVpvaddr) (x : Nat) :
    voiceLinks { s with regs := Function.update s.regs r x } = voiceLinks s := by
  funext v
  simp only [voiceLinks, voiceNextHandle, voiceAddr_update hr]

/-- A store that misses every link word leaves every link. -/
theorem voiceNextHandle_stlLe {a : Nat} (h : MissesLinks s a) (w : Nat) :
    voiceNextHandle { s with mem := stlLe s.mem a w } = voiceNextHandle s := by
  funext v
  simp only [voiceNextHandle, voiceAddr_mem, ldlLe, stlLe]
  rw [loadLe_storeLe_of_disjoint w (h v)]

/-- A store into the link word of voice `h` sets its link alone. -/
theorem voiceNextHandle_store_link (h w v : Nat) :
    voiceNextHandle { s with mem := stlLe s.mem (voiceAddr s h + nvPavsVoiceTarPitchLink) w } v =
      if v = h then nvPavsVoiceTarPitchLinkNextVoiceHandle.get w else voiceNextHandle s v := by
  simp only [voiceNextHandle, voiceAddr_mem, ldlLe, stlLe]
  split_ifs with hv
  · subst hv
    rw [loadLe_storeLe_self, show (256 : Nat) ^ 4 = 2 ^ 32 from rfl,
      Field.get_mod_two_pow _ (by decide)]
  · -- two records lie `nvPavsSize` bytes apart at least
    have hsep : v < h ∨ h < v := Nat.lt_or_gt_of_ne hv
    rw [loadLe_storeLe_of_disjoint w (by unfold voiceAddr nvPavsSize nvPavsVoiceTarPitchLink; omega)]

/-- A store into a link word leaves every `ACTIVE_VOICE` bit. -/
theorem voiceActive_store_link (h w : Nat) :
    voiceActive { s with mem := stlLe s.mem (voiceAddr s h + nvPavsVoiceTarPitchLink) w } =
      voiceActive s := by
  funext v
  simp only [voiceActive, voiceAddr_mem, ldlLe, stlLe]
  rw [loadLe_storeLe_of_disjoint w
    (by unfold voiceAddr nvPavsSize nvPavsVoiceTarPitchLink nvPavsVoiceParState; omega)]

/-- Words of a record before its link word miss every link word. -/
theorem missesLinks_voice_word {off : Nat} (hoff : off + 4 ≤ nvPavsVoiceTarPitchLink) (h : Nat) :
    MissesLinks s (voiceAddr s h + off) := by
  intro v
  unfold voiceAddr nvPavsSize nvPavsVoiceTarPitchLink at *
  omega

/-- An aligned SGE entry lies on an even word of a record, and a link on an odd one. -/
theorem missesLinks_sge (halign : SgeAligned s) (k : Nat) :
    MissesLinks s (s.regs nvPapuVpsgeaddr + k * 8 % 2 ^ 32) := by
  intro v
  have hk : k * 8 % 2 ^ 32 % 8 = 0 := by omega
  unfold SgeAligned at halign
  unfold voiceAddr nvPavsSize nvPavsVoiceTarPitchLink
  omega

end Memory

/-! ## What a method leaves of the lists -/

/-- The registers the voice lists are read through. -/
def IsListReg (r : Nat) : Prop :=
  r = nvPapuVpvaddr ∨ r = nvPapuVpsgeaddr ∨ r = nvPapuFeav ∨ r = nvPapuTvl2d ∨ r = nvPapuTvl3d ∨
    r = nvPapuTvlmp

instance (r : Nat) : Decidable (IsListReg r) := inferInstanceAs (Decidable (_ ∨ _))

/-- Two states with the same links, TOP registers, record and SGE addresses
and `FEAV`: they hold the same lists. -/
structure SameLists (s s' : FeState) : Prop where
  links : voiceLinks s' = voiceLinks s
  tops : ∀ i, s'.regs (voiceListRegs i).top = s.regs (voiceListRegs i).top
  vpvaddr : s'.regs nvPapuVpvaddr = s.regs nvPapuVpvaddr
  vpsgeaddr : s'.regs nvPapuVpsgeaddr = s.regs nvPapuVpsgeaddr
  feav : s'.regs nvPapuFeav = s.regs nvPapuFeav

theorem voiceListRegs_top (i : Nat) :
    (voiceListRegs i).top = nvPapuTvl2d ∨ (voiceListRegs i).top = nvPapuTvl3d ∨
      (voiceListRegs i).top = nvPapuTvlmp := by
  rcases i with _ | _ | i <;> simp [voiceListRegs]

theorem ne_voiceListRegs_top {r : Nat} (i : Nat) (h₁ : r ≠ nvPapuTvl2d) (h₂ : r ≠ nvPapuTvl3d)
    (h₃ : r ≠ nvPapuTvlmp) : r ≠ (voiceListRegs i).top := by
  rcases voiceListRegs_top i with h | h | h <;> rw [h] <;> assumption

section SameLists

variable {s s₁ s' : FeState}

theorem SameLists.refl (s : FeState) : SameLists s s :=
  ⟨rfl, fun _ => rfl, rfl, rfl, rfl⟩

theorem SameLists.trans (h₁ : SameLists s s₁) (h₂ : SameLists s₁ s') : SameLists s s' :=
  ⟨h₂.links.trans h₁.links, fun i => (h₂.tops i).trans (h₁.tops i), h₂.vpvaddr.trans h₁.vpvaddr,
    h₂.vpsgeaddr.trans h₁.vpsgeaddr, h₂.feav.trans h₁.feav⟩

theorem SameLists.sgeAligned (h : SameLists s s') (ha : SgeAligned s) : SgeAligned s' := by
  unfold SgeAligned
  rw [h.vpsgeaddr, h.vpvaddr]
  exact ha

/-- New registers that agree on the registers the lists are read through. -/
theorem sameLists_regs {regs : Nat → Nat} (h : ∀ r, IsListReg r → regs r = s.regs r) :
    SameLists s { s with regs := regs } := by
  have hvpv := h nvPapuVpvaddr (Or.inl rfl)
  refine ⟨?_, fun i => ?_, hvpv, h _ (Or.inr (Or.inl rfl)), h _ (Or.inr (Or.inr (Or.inl rfl)))⟩
  · funext v
    simp only [voiceLinks, voiceNextHandle, voiceAddr, hvpv]
  · apply h
    unfold IsListReg
    rcases voiceListRegs_top i with h | h | h <;> simp [h]

/-- Writing a register the lists are not read through. -/
theorem sameLists_update {r : Nat} (hr : ¬IsListReg r) (x : Nat) :
    SameLists s { s with regs := Function.update s.regs r x } :=
  sameLists_regs fun r' hr' => Function.update_of_ne (fun (h : r' = r) => hr (h ▸ hr')) _ _

/-- Storing a word that misses every link word. -/
theorem sameLists_stlLe {a : Nat} (h : MissesLinks s a) (w : Nat) :
    SameLists s { s with mem := stlLe s.mem a w } :=
  ⟨by funext v; simp only [voiceLinks, voiceNextHandle_stlLe h], fun _ => rfl, rfl, rfl, rfl⟩

theorem voiceGetMask_eq_ok {h off x : Nat} {mask : Field} (hget : voiceGetMask s h off mask = .ok x) :
    h < 0xFFFF ∧ x = mask.get (ldlLe s.mem (voiceAddr s h + off)) := by
  unfold voiceGetMask at hget
  split_ifs at hget with hh
  cases hget
  exact ⟨hh, rfl⟩

theorem voiceSetMask_eq_ok {h off val : Nat} {mask : Field}
    (hset : voiceSetMask s h off mask val = .ok s') :
    h < 0xFFFF ∧ s' = { s with
      mem := stlLe s.mem (voiceAddr s h + off) (mask.set (ldlLe s.mem (voiceAddr s h + off)) val) } := by
  unfold voiceSetMask at hset
  split_ifs at hset with hh
  cases hset
  exact ⟨hh, rfl⟩

theorem voiceGetMask_of_lt {h off : Nat} {mask : Field} (hh : h < 0xFFFF) :
    voiceGetMask s h off mask = .ok (mask.get (ldlLe s.mem (voiceAddr s h + off))) :=
  if_pos hh

theorem voiceSetMask_of_lt {h off val : Nat} {mask : Field} (hh : h < 0xFFFF) :
    voiceSetMask s h off mask val = .ok { s with
      mem := stlLe s.mem (voiceAddr s h + off) (mask.set (ldlLe s.mem (voiceAddr s h + off)) val) } :=
  if_pos hh

/-- A field of a voice word reads back what was set into it. -/
theorem voiceSetMask_get_self {h off val : Nat} {mask : Field} (hmask : mask.lo + mask.width ≤ 32)
    (hset : voiceSetMask s h off mask val = .ok s') :
    mask.get (ldlLe s'.mem (voiceAddr s' h + off)) = val % 2 ^ mask.width := by
  obtain ⟨-, rfl⟩ := voiceSetMask_eq_ok hset
  simp only [voiceAddr_mem, ldlLe, stlLe]
  rw [loadLe_storeLe_self, show (256 : Nat) ^ 4 = 2 ^ 32 from rfl, Field.get_mod_two_pow _ hmask,
    Field.get_set_self]

theorem voiceGetMask_never_fails {h off : Nat} {mask : Field} (hh : h < 0xFFFF) :
    ErrorsIn (fun _ => False) (voiceGetMask s h off mask) := by
  rw [voiceGetMask_of_lt hh]
  exact errorsIn_ok _

theorem voiceSetMask_never_fails {h off val : Nat} {mask : Field} (hh : h < 0xFFFF) :
    ErrorsIn (fun _ => False) (voiceSetMask s h off mask val) := by
  rw [voiceSetMask_of_lt hh]
  exact errorsIn_ok _

/-- Setting a field of a word before the link word. -/
theorem sameLists_voiceSetMask {h off val : Nat} {mask : Field}
    (hoff : off + 4 ≤ nvPavsVoiceTarPitchLink) (hset : voiceSetMask s h off mask val = .ok s') :
    SameLists s s' := by
  obtain ⟨-, rfl⟩ := voiceSetMask_eq_ok hset
  exact sameLists_stlLe (missesLinks_voice_word hoff h) _

/-- Setting the pitch, the other half of the link word. -/
theorem sameLists_voiceSetMask_pitch {h val : Nat}
    (hset : voiceSetMask s h nvPavsVoiceTarPitchLink nvPavsVoiceTarPitchLinkPitch val = .ok s') :
    SameLists s s' := by
  obtain ⟨-, rfl⟩ := voiceSetMask_eq_ok hset
  refine ⟨?_, fun _ => rfl, rfl, rfl, rfl⟩
  funext v
  simp only [voiceLinks, voiceNextHandle_store_link]
  split_ifs with hv
  · subst hv
    rw [Field.get_set_of_disjoint (by unfold Field.Disjoint; decide)]
    rfl
  · rfl

/-- Setting the link of voice `h` to `val`. -/
theorem voiceLinks_voiceSetMask_next {h val : Nat}
    (hset : voiceSetMask s h nvPavsVoiceTarPitchLink nvPavsVoiceTarPitchLinkNextVoiceHandle val = .ok s') :
    h < 0xFFFF ∧ s'.regs = s.regs ∧
      voiceLinks s' = Function.update (voiceLinks s) h (handlePtr (val % 2 ^ 16)) := by
  obtain ⟨hh, rfl⟩ := voiceSetMask_eq_ok hset
  refine ⟨hh, rfl, ?_⟩
  funext v
  simp only [voiceLinks, voiceNextHandle_store_link, Function.update_apply]
  split_ifs with hv
  · rw [Field.get_set_self]
    rfl
  · rfl

end SameLists

/-! ## The abstract front end -/

/-- The lists after `VOICE_ON` of voice `v` with `FEAV = feav`: `v` in front
of the list `FEAV` selects, or right after the antecedent voice for the
inherit list. -/
def voiceOnLists (L : Nat → List Nat) (feav v : Nat) : Nat → List Nat :=
  let list := nvPapuFeavLst.get feav
  if list ≠ nv1ba0PioSetAntecedentVoiceListInherit then
    Function.update L (list - 1) (v :: L (list - 1))
  else fun i => insertAfter (nvPapuFeavValue.get feav) v (L i)

/-- The three voice lists, in order, and the `FEAV` register. -/
structure FeLists where
  lists : Nat → List Nat
  feav : Nat

namespace FeLists

def step (σ : FeLists) (method argument : Nat) : FeLists :=
  match decodeFeMethod method with
  | .setAntecedentVoice => { σ with feav := argument }
  | .voiceOn => { σ with lists := voiceOnLists σ.lists σ.feav (argument &&& nv1ba0PioVoiceOnHandle) }
  | _ => σ

def run (σ : FeLists) (methods : List (Nat × Nat)) : FeLists :=
  methods.foldl (fun σ m => σ.step m.1 m.2) σ

variable {σ : FeLists} {method argument : Nat}

theorem step_setAntecedentVoice (h : decodeFeMethod method = .setAntecedentVoice) :
    σ.step method argument = { σ with feav := argument } := by
  rw [step, h]

theorem step_voiceOn (h : decodeFeMethod method = .voiceOn) :
    σ.step method argument =
      { σ with lists := voiceOnLists σ.lists σ.feav (argument &&& nv1ba0PioVoiceOnHandle) } := by
  rw [step, h]

theorem step_of_ne (h₁ : decodeFeMethod method ≠ .setAntecedentVoice)
    (h₂ : decodeFeMethod method ≠ .voiceOn) : σ.step method argument = σ := by
  unfold step
  split
  next hd => exact absurd hd h₁
  next hd => exact absurd hd h₂
  next => rfl

end FeLists

/-- Every `VOICE_ON` of a run is for a voice that is on no list when it comes. -/
def FreshVoiceOns : FeLists → List (Nat × Nat) → Prop
  | _, [] => True
  | σ, (m, a) :: ms =>
      (decodeFeMethod m = .voiceOn → ∀ i < 3, a &&& nv1ba0PioVoiceOnHandle ∉ σ.lists i) ∧
        FreshVoiceOns (σ.step m a) ms

/-- The lists of `σ` are those of `s`: each is the segment from its TOP
register to `0xFFFF`, no voice is on two of them, and `FEAV` agrees. -/
structure Represents (s : FeState) (σ : FeLists) : Prop where
  seg : ∀ i < 3, Seg (voiceLinks s) (handlePtr (s.regs (voiceListRegs i).top)) (σ.lists i) none
  disjoint : ∀ i < 3, ∀ j < 3, i ≠ j → (σ.lists i).Disjoint (σ.lists j)
  lt : ∀ i < 3, ∀ v ∈ σ.lists i, v < 0xFFFF
  feav : s.regs nvPapuFeav = σ.feav

/-- The TOP registers of the three lists are distinct. -/
theorem voiceListRegs_top_inj {i j : Nat} (hi : i < 3) (hj : j < 3)
    (h : (voiceListRegs i).top = (voiceListRegs j).top) : i = j := by
  rcases i with _ | _ | _ | i <;> rcases j with _ | _ | _ | j <;>
    simp_all [voiceListRegs, nvPapuTvl2d, nvPapuTvl3d, nvPapuTvlmp] <;> omega

section Represents

variable {s s' : FeState} {σ : FeLists}

theorem Represents.of_sameLists (h : Represents s σ) (hs : SameLists s s') : Represents s' σ :=
  ⟨fun i hi => by rw [hs.links, hs.tops]; exact h.seg i hi, h.disjoint, h.lt, hs.feav.trans h.feav⟩

/-- A TOP register holds `0xFFFF` or the handle at the head of its list. -/
theorem Represents.top_lt (h : Represents s σ) {i : Nat} (hi : i < 3) :
    s.regs (voiceListRegs i).top < 2 ^ 16 := by
  have hseg := h.seg i hi
  cases hl : σ.lists i with
  | nil =>
      rw [hl, seg_nil, handlePtr] at hseg
      split_ifs at hseg with htop
      · omega
  | cons v l =>
      rw [hl, seg_cons, handlePtr] at hseg
      have hv := h.lt i hi v (by rw [hl]; exact List.mem_cons_self)
      split_ifs at hseg with htop
      · cases hseg.1
      · rw [Option.some.inj hseg.1]
        omega

/-- Lists whose TOP registers all hold `0xFFFF` are empty. -/
theorem represents_empty (htops : ∀ i < 3, s.regs (voiceListRegs i).top = 0xFFFF) :
    Represents s ⟨fun _ => [], s.regs nvPapuFeav⟩ := by
  refine ⟨fun i hi => ?_, fun _ _ _ _ _ => List.disjoint_nil_left _, fun _ _ _ hv => (nomatch hv), rfl⟩
  rw [htops i hi]
  rfl

/-- `SET_ANTECEDENT_VOICE` sets `FEAV` and no list. -/
theorem Represents.setFeav (h : Represents s σ) (x : Nat) :
    Represents { s with regs := Function.update s.regs nvPapuFeav x } { σ with feav := x } := by
  refine ⟨fun i hi => ?_, h.disjoint, h.lt, Function.update_self nvPapuFeav x s.regs⟩
  rw [voiceLinks_update (by decide)]
  dsimp only
  rw [Function.update_of_ne (ne_voiceListRegs_top i (by decide) (by decide) (by decide)).symm]
  exact h.seg i hi

/-- The link step of `VOICE_ON` at the top of the list `FEAV` selects: the
voice links to the old head and takes over the TOP register. -/
theorem voiceOnLink_top_eq_ok {hd : Nat} (hlist : nvPapuFeavLst.get (s.regs nvPapuFeav) ≠ 0)
    (hlink : voiceOnLink s hd = .ok s') :
    hd < 0xFFFF ∧
      s'.regs = Function.update s.regs
        (voiceListRegs (nvPapuFeavLst.get (s.regs nvPapuFeav) - 1)).top hd ∧
      voiceLinks s' = Function.update (voiceLinks s) hd
        (handlePtr (s.regs (voiceListRegs (nvPapuFeavLst.get (s.regs nvPapuFeav) - 1)).top % 2 ^ 16)) := by
  unfold voiceOnLink at hlink
  dsimp only at hlink
  rw [if_pos (show _ ≠ nv1ba0PioSetAntecedentVoiceListInherit from hlist), bind_eq_ok] at hlink
  obtain ⟨s₁, h₁, hs'⟩ := hlink
  cases hs'
  obtain ⟨hhd, hregs, hlinks⟩ := voiceLinks_voiceSetMask_next h₁
  refine ⟨hhd, by rw [← hregs], ?_⟩
  rw [voiceLinks_update (ne_voiceListRegs_top _ (by decide) (by decide) (by decide)).symm, hlinks]

/-- The link step of `VOICE_ON` for the inherit list: the voice takes over the
link of the antecedent voice, which links to it. -/
theorem voiceOnLink_inherit_eq_ok {hd : Nat} (hlist : nvPapuFeavLst.get (s.regs nvPapuFeav) = 0)
    (hlink : voiceOnLink s hd = .ok s') :
    hd < 0xFFFF ∧ s'.regs = s.regs ∧
      voiceLinks s' = Function.update (Function.update (voiceLinks s) hd
        (voiceLinks s (nvPapuFeavValue.get (s.regs nvPapuFeav))))
        (nvPapuFeavValue.get (s.regs nvPapuFeav)) (some hd) := by
  unfold voiceOnLink at hlink
  dsimp only at hlink
  rw [if_neg (not_not.mpr (show _ = nv1ba0PioSetAntecedentVoiceListInherit from hlist))] at hlink
  split_ifs at hlink with hant
  obtain ⟨next, hnext, hlink⟩ := bind_eq_ok.mp hlink
  obtain ⟨s₁, h₁, h₂⟩ := bind_eq_ok.mp hlink
  obtain ⟨-, rfl⟩ := voiceGetMask_eq_ok hnext
  obtain ⟨hhd, hregs₁, hlinks₁⟩ := voiceLinks_voiceSetMask_next h₁
  obtain ⟨-, hregs₂, hlinks₂⟩ := voiceLinks_voiceSetMask_next h₂
  refine ⟨hhd, hregs₂.trans hregs₁, ?_⟩
  rw [hlinks₂, hlinks₁, Nat.mod_eq_of_lt (show hd < 2 ^ 16 by omega), handlePtr_of_lt hhd,
    Nat.mod_eq_of_lt (show nvPavsVoiceTarPitchLinkNextVoiceHandle.get _ < 2 ^ 16 from
      Field.get_lt _ _)]
  rfl

/-- `VOICE_ON` at the top of a list: the voice takes over the TOP register and
links to the old head. -/
theorem Represents.voiceOnLink_top {hd : Nat} (h : Represents s σ)
    (hfresh : ∀ i < 3, hd ∉ σ.lists i) (hlist : nvPapuFeavLst.get (s.regs nvPapuFeav) ≠ 0)
    (hlink : voiceOnLink s hd = .ok s') :
    Represents s' { σ with lists := voiceOnLists σ.lists σ.feav hd } := by
  have hlt : nvPapuFeavLst.get (s.regs nvPapuFeav) < 4 := Field.get_lt nvPapuFeavLst _
  obtain ⟨hhd, hregs, hlinks⟩ := voiceOnLink_top_eq_ok hlist hlink
  -- the list `FEAV` selects, and its TOP register
  generalize hk : nvPapuFeavLst.get (s.regs nvPapuFeav) - 1 = k at *
  have hk3 : k < 3 := by omega
  rw [Nat.mod_eq_of_lt (h.top_lt hk3)] at hlinks
  have hvoice : voiceOnLists σ.lists σ.feav hd = Function.update σ.lists k (hd :: σ.lists k) := by
    rw [voiceOnLists, ← h.feav,
      if_pos (show _ ≠ nv1ba0PioSetAntecedentVoiceListInherit from hlist), hk]
  refine ⟨fun i hi => ?_, fun i hi j hj hij => ?_, fun i hi v hv => ?_, ?_⟩
  · rw [hvoice, hlinks, hregs]
    simp only [Function.update_apply]
    by_cases hik : i = k
    · -- the selected list gains `hd` in front
      subst hik
      rw [if_pos rfl, if_pos rfl, handlePtr_of_lt hhd]
      exact (h.seg i hi).push (hfresh i hi)
    · have htop : (voiceListRegs i).top ≠ (voiceListRegs k).top :=
        fun htop => hik (voiceListRegs_top_inj hi hk3 htop)
      rw [if_neg htop, if_neg hik]
      exact (seg_update_of_not_mem (hfresh i hi)).mpr (h.seg i hi)
  · simp only [hvoice, Function.update_apply]
    have hd := h.disjoint i hi j hj hij
    split_ifs with hik hjk hjk
    · exact absurd (hik.trans hjk.symm) hij
    · exact List.disjoint_cons_left.mpr ⟨hfresh j hj, hik ▸ hd⟩
    · exact List.disjoint_cons_right.mpr ⟨hfresh i hi, hjk ▸ hd⟩
    · exact hd
  · simp only [hvoice, Function.update_apply] at hv
    split_ifs at hv with hik
    · rcases List.mem_cons.mp hv with rfl | hv
      · exact hhd
      · exact h.lt k hk3 v hv
    · exact h.lt i hi v hv
  · rw [hregs, Function.update_of_ne (ne_voiceListRegs_top k (by decide) (by decide) (by decide))]
    exact h.feav

/-- `VOICE_ON` after the antecedent voice: the voice takes over its link, and
the antecedent links to it; a list without the antecedent stays as it was. -/
theorem Represents.voiceOnLink_inherit {hd : Nat} (h : Represents s σ)
    (hfresh : ∀ i < 3, hd ∉ σ.lists i) (hlist : nvPapuFeavLst.get (s.regs nvPapuFeav) = 0)
    (hlink : voiceOnLink s hd = .ok s') :
    Represents s' { σ with lists := voiceOnLists σ.lists σ.feav hd } := by
  obtain ⟨hhd, hregs, hlinks⟩ := voiceOnLink_inherit_eq_ok hlist hlink
  set a := nvPapuFeavValue.get (s.regs nvPapuFeav)
  have hvoice : voiceOnLists σ.lists σ.feav hd = fun i => insertAfter a hd (σ.lists i) := by
    rw [voiceOnLists, ← h.feav,
      if_neg (not_not.mpr (show _ = nv1ba0PioSetAntecedentVoiceListInherit from hlist))]
  refine ⟨fun i hi => ?_, fun i hi j hj hij => ?_, fun i hi v hv => ?_, ?_⟩
  · rw [hvoice, hlinks, hregs]
    exact (h.seg i hi).insertAfter (h.seg i hi).nodup (hfresh i hi)
  · rw [hvoice]
    intro v hvi hvj
    rcases mem_insertAfter.mp hvi with hvi | ⟨hai, rfl⟩ <;>
      rcases mem_insertAfter.mp hvj with hvj | ⟨haj, hvj⟩
    · exact h.disjoint i hi j hj hij hvi hvj
    · exact hfresh i hi (hvj ▸ hvi)
    · exact hfresh j hj hvj
    · exact h.disjoint i hi j hj hij hai haj
  · rw [hvoice] at hv
    rcases mem_insertAfter.mp hv with hv | ⟨-, rfl⟩
    · exact h.lt i hi v hv
    · exact hhd
  · rw [hregs]
    exact h.feav

end Represents

/-! ## One method, and a run of them -/

section Methods

variable {s s' : FeState}

/-- The envelope starts of `VOICE_ON` set the state and counter words only. -/
theorem sameLists_voiceOnEnvelope {hd start delayOffset holdOffset : Nat} {curMask countMask : Field}
    (h : voiceOnEnvelope s hd start curMask delayOffset holdOffset countMask = .ok s') :
    SameLists s s' := by
  unfold voiceOnEnvelope at h
  rw [bind_eq_ok] at h
  obtain ⟨s₁, h₁, h₂⟩ := h
  refine (sameLists_voiceSetMask (by decide) h₁).trans ?_
  split_ifs at h₂
  · obtain ⟨_, -, h₃⟩ := bind_eq_ok.mp h₂
    exact sameLists_voiceSetMask (by decide) h₃
  · exact sameLists_voiceSetMask (by decide) h₂
  · obtain ⟨_, -, h₃⟩ := bind_eq_ok.mp h₂
    exact sameLists_voiceSetMask (by decide) h₃
  · cases h₂
    exact SameLists.refl _

/-- Linking a voice writes a TOP register at most. -/
theorem voiceOnLink_vpRegs {hd : Nat} (hlink : voiceOnLink s hd = .ok s') :
    s'.regs nvPapuVpvaddr = s.regs nvPapuVpvaddr ∧ s'.regs nvPapuVpsgeaddr = s.regs nvPapuVpsgeaddr := by
  by_cases hlist : nvPapuFeavLst.get (s.regs nvPapuFeav) = 0
  · obtain ⟨-, hregs, -⟩ := voiceOnLink_inherit_eq_ok hlist hlink
    rw [hregs]
    exact ⟨rfl, rfl⟩
  · obtain ⟨-, hregs, -⟩ := voiceOnLink_top_eq_ok hlist hlink
    rw [hregs, Function.update_of_ne (ne_voiceListRegs_top _ (by decide) (by decide) (by decide)),
      Function.update_of_ne (ne_voiceListRegs_top _ (by decide) (by decide) (by decide))]
    exact ⟨rfl, rfl⟩

theorem voiceOnEnvelope_never_fails {hd start delayOffset holdOffset : Nat}
    {curMask countMask : Field} (hhd : hd < 0xFFFF) :
    ErrorsIn (fun _ => False) (voiceOnEnvelope s hd start curMask delayOffset holdOffset countMask) := by
  unfold voiceOnEnvelope
  refine (voiceSetMask_never_fails hhd).bind fun s₁ _ => ?_
  split_ifs
  · exact (voiceGetMask_never_fails hhd).bind fun _ _ => voiceSetMask_never_fails hhd
  · exact voiceSetMask_never_fails hhd
  · exact (voiceGetMask_never_fails hhd).bind fun _ _ => voiceSetMask_never_fails hhd
  · exact errorsIn_pure _

/-- `VOICE_ON` at the top of a list fails for the handle `0xFFFF` alone. -/
theorem voiceOn_top_never_fails {argument : Nat} (hhd : argument &&& nv1ba0PioVoiceOnHandle < 0xFFFF)
    (hlist : nvPapuFeavLst.get (s.regs nvPapuFeav) ≠ 0) :
    ErrorsIn (fun _ => False) (voiceOn s argument) := by
  have hlink : ErrorsIn (fun _ => False) (voiceOnLink s (argument &&& nv1ba0PioVoiceOnHandle)) := by
    unfold voiceOnLink
    dsimp only
    rw [if_pos (show _ ≠ nv1ba0PioSetAntecedentVoiceListInherit from hlist)]
    exact (voiceSetMask_never_fails hhd).bind fun _ _ => errorsIn_ok _
  unfold voiceOn
  exact hlink.bind fun _ _ => (voiceOnEnvelope_never_fails hhd).bind fun _ _ =>
    (voiceOnEnvelope_never_fails hhd).bind fun _ _ => voiceSetMask_never_fails hhd

/-- `VOICE_ON` is its link step, then stores that miss the links and leave the
voice active. -/
theorem voiceOn_eq_ok {argument : Nat} (hon : voiceOn s argument = .ok s') :
    ∃ s₁, voiceOnLink s (argument &&& nv1ba0PioVoiceOnHandle) = .ok s₁ ∧ SameLists s₁ s' ∧
      voiceActive s' (argument &&& nv1ba0PioVoiceOnHandle) = 1 := by
  unfold voiceOn at hon
  obtain ⟨s₁, h₁, hon⟩ := bind_eq_ok.mp hon
  obtain ⟨s₂, h₂, hon⟩ := bind_eq_ok.mp hon
  obtain ⟨s₃, h₃, h₄⟩ := bind_eq_ok.mp hon
  -- the envelopes and the `ACTIVE_VOICE` bit
  exact ⟨s₁, h₁, (sameLists_voiceOnEnvelope h₂).trans ((sameLists_voiceOnEnvelope h₃).trans
    (sameLists_voiceSetMask (by decide) h₄)), voiceSetMask_get_self (by decide) h₄⟩

/-- `VOICE_ON` of a voice on no list: the lists of `voiceOnLists`. -/
theorem Represents.of_voiceOn {σ : FeLists} {argument : Nat} (h : Represents s σ)
    (hfresh : ∀ i < 3, argument &&& nv1ba0PioVoiceOnHandle ∉ σ.lists i)
    (hon : voiceOn s argument = .ok s') :
    Represents s' { σ with lists := voiceOnLists σ.lists σ.feav (argument &&& nv1ba0PioVoiceOnHandle) } := by
  obtain ⟨s₁, h₁, hsame, -⟩ := voiceOn_eq_ok hon
  have hlink : Represents s₁ { σ with
      lists := (voiceOnLists σ.lists σ.feav (argument &&& nv1ba0PioVoiceOnHandle)) } := by
    by_cases hlist : nvPapuFeavLst.get (s.regs nvPapuFeav) = 0
    · exact h.voiceOnLink_inherit hfresh hlist h₁
    · exact h.voiceOnLink_top hfresh hlist h₁
  exact hlink.of_sameLists hsame

theorem voiceOn_vpRegs {argument : Nat} (hon : voiceOn s argument = .ok s') :
    s'.regs nvPapuVpvaddr = s.regs nvPapuVpvaddr ∧ s'.regs nvPapuVpsgeaddr = s.regs nvPapuVpsgeaddr := by
  obtain ⟨s₁, h₁, hsame, -⟩ := voiceOn_eq_ok hon
  obtain ⟨hvpv, hsge⟩ := voiceOnLink_vpRegs h₁
  exact ⟨hsame.vpvaddr.trans hvpv, hsame.vpsgeaddr.trans hsge⟩

/-- `VOICE_ON` leaves its voice active. -/
theorem voiceActive_of_voiceOn {argument : Nat} (hon : voiceOn s argument = .ok s') :
    voiceActive s' (argument &&& nv1ba0PioVoiceOnHandle) = 1 :=
  (voiceOn_eq_ok hon).choose_spec.2.2

/-- Every field a `SET_VOICE_*` method stores into lies before the link word. -/
theorem decodeFeMethod_setVoiceField {method off : Nat} {mask : Field}
    (h : decodeFeMethod method = .setVoiceField off mask) : off + 4 ≤ nvPavsVoiceTarPitchLink := by
  revert h
  unfold decodeFeMethod
  repeat' refine ite_eq_elim ?_ ?_
  all_goals (intro h; cases h)
  all_goals decide

theorem idleVoiceTrap_of_ne (regs : Nat → Nat) {r : Nat} (h₁ : r ≠ nvPapuFectl)
    (h₂ : r ≠ nvPapuIsts) : idleVoiceTrap regs r = regs r := by
  unfold idleVoiceTrap updateIrq
  split_ifs <;> simp [Function.update_of_ne h₁, Function.update_of_ne h₂]

/-- The writes of `FEDECMETH` and `FEDECPARAM` that open every method. -/
theorem sameLists_feMethod_prelude (method argument : Nat) :
    SameLists s { s with
      regs := (Function.update (Function.update s.regs nvPapuFedecmeth method) nvPapuFedecparam
        argument) } :=
  (sameLists_update (by decide) method).trans (sameLists_update (by decide) argument)

/-- A method other than `SET_ANTECEDENT_VOICE` and `VOICE_ON` keeps the lists,
when it writes an SGE entry only into tables aligned with the voice records. -/
theorem sameLists_feMethod {method argument : Nat}
    (halign : decodeFeMethod method = .setCurrentInbufSgeOffset ∨
      decodeFeMethod method = .setCurrentOutbufSgeOffset → SgeAligned s)
    (hm : decodeFeMethod method ≠ .setAntecedentVoice) (hv : decodeFeMethod method ≠ .voiceOn)
    (h : feMethod s method argument = .ok s') : SameLists s s' := by
  have h₀ := sameLists_feMethod_prelude (s := s) method argument
  unfold feMethod at h
  refine h₀.trans ?_
  cases hdec : decodeFeMethod method <;> rw [hdec] at h
  case setAntecedentVoice => exact absurd hdec hm
  case voiceOn => exact absurd hdec hv
  case voiceOff | voicePause => exact sameLists_voiceSetMask (by decide) h
  case setVoiceField off mask => exact sameLists_voiceSetMask (decodeFeMethod_setVoiceField hdec) h
  case setVoiceTarPitch => exact sameLists_voiceSetMask_pitch h
  case setCurrentVoice =>
    cases h
    exact sameLists_update (by decide) argument
  -- the SGE entries are the one place a method stores outside the records
  case setCurrentInbufSgeOffset =>
    cases h
    exact sameLists_stlLe (missesLinks_sge (h₀.sgeAligned (halign (.inl hdec))) _) _
  case setCurrentOutbufSgeOffset =>
    cases h
    exact sameLists_stlLe (missesLinks_sge (h₀.sgeAligned (halign (.inr hdec))) _) _
  case se2feIdleVoice =>
    dsimp only at h
    split_ifs at h
    cases h
    refine sameLists_regs fun r hr => idleVoiceTrap_of_ne _ ?_ ?_ <;>
      unfold IsListReg at hr <;> rcases hr with h | h | h | h | h | h <;> rw [h] <;> decide
  case unknown => cases h
  -- the SGE handles and the output buffers: nothing the lists are read through
  all_goals
    cases h
    exact ⟨rfl, fun _ => rfl, rfl, rfl, rfl⟩

theorem feMethod_voiceOn_eq {method argument : Nat} (hdec : decodeFeMethod method = .voiceOn) :
    feMethod s method argument = voiceOn { s with regs :=
      (Function.update (Function.update s.regs nvPapuFedecmeth method) nvPapuFedecparam argument) }
      argument := by
  unfold feMethod
  rw [hdec]

/-- No method writes `VPVADDR` or `VPSGEADDR`. -/
theorem feMethod_vpRegs {method argument : Nat} (hm : feMethod s method argument = .ok s') :
    s'.regs nvPapuVpvaddr = s.regs nvPapuVpvaddr ∧ s'.regs nvPapuVpsgeaddr = s.regs nvPapuVpsgeaddr := by
  have h₀ := sameLists_feMethod_prelude (s := s) method argument
  -- what the method writes after `FEDECMETH` and `FEDECPARAM`
  suffices h : ∀ t, t = { s with regs := (Function.update (Function.update s.regs nvPapuFedecmeth
      method) nvPapuFedecparam argument) } →
      s'.regs nvPapuVpvaddr = t.regs nvPapuVpvaddr ∧ s'.regs nvPapuVpsgeaddr = t.regs nvPapuVpsgeaddr by
    obtain ⟨hvpv, hsge⟩ := h _ rfl
    exact ⟨hvpv.trans h₀.vpvaddr, hsge.trans h₀.vpsgeaddr⟩
  rintro t rfl
  unfold feMethod at hm
  cases hdec : decodeFeMethod method <;> rw [hdec] at hm
  case voiceOn => exact voiceOn_vpRegs hm
  case voiceOff | voicePause | setVoiceField | setVoiceTarPitch =>
    obtain ⟨-, rfl⟩ := voiceSetMask_eq_ok hm
    exact ⟨rfl, rfl⟩
  case setAntecedentVoice | setCurrentVoice =>
    cases hm
    dsimp only
    exact ⟨Function.update_of_ne (by decide) _ _, Function.update_of_ne (by decide) _ _⟩
  case se2feIdleVoice =>
    dsimp only at hm
    split_ifs at hm
    cases hm
    exact ⟨idleVoiceTrap_of_ne _ (by decide) (by decide), idleVoiceTrap_of_ne _ (by decide) (by decide)⟩
  case unknown => cases hm
  all_goals
    cases hm
    exact ⟨rfl, rfl⟩

theorem SgeAligned.of_feMethod {method argument : Nat} (ha : SgeAligned s)
    (hm : feMethod s method argument = .ok s') : SgeAligned s' := by
  obtain ⟨hvpv, hsge⟩ := feMethod_vpRegs hm
  unfold SgeAligned
  rw [hvpv, hsge]
  exact ha

/-- One method keeps the lists those of `FeLists.step`, for a `VOICE_ON` of a
voice on no list and an SGE entry written only into aligned tables. -/
theorem Represents.of_feMethod {σ : FeLists} {method argument : Nat} (h : Represents s σ)
    (halign : decodeFeMethod method = .setCurrentInbufSgeOffset ∨
      decodeFeMethod method = .setCurrentOutbufSgeOffset → SgeAligned s)
    (hfresh : decodeFeMethod method = .voiceOn →
      ∀ i < 3, argument &&& nv1ba0PioVoiceOnHandle ∉ σ.lists i)
    (hm : feMethod s method argument = .ok s') :
    Represents s' (σ.step method argument) := by
  have h₀ := sameLists_feMethod_prelude (s := s) method argument
  by_cases hant : decodeFeMethod method = .setAntecedentVoice
  · -- `SET_ANTECEDENT_VOICE` writes `FEAV` alone
    unfold feMethod at hm
    rw [hant] at hm
    cases hm
    rw [FeLists.step_setAntecedentVoice hant]
    exact (h.of_sameLists h₀).setFeav argument
  by_cases hon : decodeFeMethod method = .voiceOn
  · rw [feMethod_voiceOn_eq hon] at hm
    rw [FeLists.step_voiceOn hon]
    exact (h.of_sameLists h₀).of_voiceOn (hfresh hon) hm
  · rw [FeLists.step_of_ne hant hon]
    exact h.of_sameLists (sameLists_feMethod halign hant hon hm)

/-- `SET_ANTECEDENT_VOICE` always succeeds. -/
theorem Represents.feMethod_setAntecedentVoice {σ : FeLists} {method : Nat}
    (h : Represents s σ) (hdec : decodeFeMethod method = .setAntecedentVoice) (argument : Nat) :
    ∃ s', feMethod s method argument = .ok s' ∧ Represents s' { σ with feav := argument } := by
  obtain ⟨s', hm⟩ : ∃ s', feMethod s method argument = .ok s' := ⟨_, by unfold feMethod; rw [hdec]⟩
  refine ⟨s', hm, ?_⟩
  rw [← FeLists.step_setAntecedentVoice hdec]
  exact h.of_feMethod (by simp [hdec]) (by simp [hdec]) hm

/-- `VOICE_ON` of a voice on no list, at the top of the list `FEAV` selects:
it succeeds, and the voice heads that list, active. -/
theorem Represents.feMethod_voiceOn_top {σ : FeLists} {method : Nat} (h : Represents s σ)
    (hdec : decodeFeMethod method = .voiceOn) (argument : Nat)
    (hhd : argument &&& nv1ba0PioVoiceOnHandle < 0xFFFF)
    (hlist : nvPapuFeavLst.get σ.feav ≠ 0)
    (hfresh : ∀ i < 3, argument &&& nv1ba0PioVoiceOnHandle ∉ σ.lists i) :
    ∃ s', feMethod s method argument = .ok s' ∧ Represents s' (σ.step method argument) ∧
      voiceActive s' (argument &&& nv1ba0PioVoiceOnHandle) = 1 := by
  rw [feMethod_voiceOn_eq hdec]
  obtain ⟨s', hon⟩ := (voiceOn_top_never_fails (s := { s with regs :=
    (Function.update (Function.update s.regs nvPapuFedecmeth method) nvPapuFedecparam argument) })
    hhd (by rwa [(sameLists_feMethod_prelude method argument).feav, h.feav])).exists_ok
  refine ⟨s', hon, ?_, voiceActive_of_voiceOn hon⟩
  rw [FeLists.step_voiceOn hdec]
  exact (h.of_sameLists (sameLists_feMethod_prelude method argument)).of_voiceOn hfresh hon

/-- A run of methods keeps the lists those of `FeLists.run`, when the SGE
tables are aligned with the voice records and every `VOICE_ON` is for a voice
on no list. -/
theorem feRun_represents (methods : List (Nat × Nat)) {σ : FeLists} (h : Represents s σ)
    (halign : SgeAligned s) (hfresh : FreshVoiceOns σ methods) (hrun : feRun s methods = .ok s') :
    Represents s' (σ.run methods) ∧ SgeAligned s' := by
  -- induction on the methods, carrying the state and the abstract lists
  induction methods generalizing s σ with
  | nil =>
      cases hrun
      exact ⟨h, halign⟩
  | cons m ms ih =>
      unfold feRun at hrun
      rw [List.foldlM_cons, bind_eq_ok] at hrun
      obtain ⟨s₁, h₁, hrun⟩ := hrun
      exact ih (h.of_feMethod (fun _ => halign) hfresh.1 h₁) (halign.of_feMethod h₁) hfresh.2 hrun

end Methods

end Xqemu.Apu
