import Mathlib.Data.List.Range

/-!
# Register-combiner stages (pgraph_bind_shaders, psh_translate)

`NV097_SET_COMBINER_CONTROL` stores its parameter in `NV_PGRAPH_COMBINECTL`
unchanged.  `pgraph_bind_shaders` takes the low byte as the number of enabled
stages and copies that many stages of the four combiner registers into
`PshState`'s arrays `rgb_inputs`, `rgb_outputs`, `alpha_inputs` and
`alpha_outputs`; `psh_translate` takes the same byte again and fills as many
entries of `PixelShader.stage`.  All five arrays have eight entries, and
nothing between the method and the loops bounds the byte.
-/

namespace Xqemu.Nv2a.Pgraph

def nvPgraphCombinealphai0 : Nat := 0x18C0
def nvPgraphCombinealphao0 : Nat := 0x18E0
def nvPgraphCombinecolori0 : Nat := 0x1900
def nvPgraphCombinecoloro0 : Nat := 0x1920
def nvPgraphCombinectl : Nat := 0x1940
def nv097SetCombinerControl : Nat := 0x1E60

/-- The entries of `PshState.rgb_inputs` and its three siblings, and of
`PixelShader.stage`. -/
def pshStageCount : Nat := 8

/-- `NV097_SET_COMBINER_CONTROL`. -/
def setCombinerControl (regs : Nat → Nat) (parameter : Nat) : Nat → Nat :=
  Function.update regs nvPgraphCombinectl parameter

/-- The combiner fields of `PshState`. -/
structure PshStages where
  combinerControl : Nat
  rgbInputs : Nat → Nat
  rgbOutputs : Nat → Nat
  alphaInputs : Nat → Nat
  alphaOutputs : Nat → Nat

/-- One pass of the copy loop of `pgraph_bind_shaders`, at stage `i`. -/
def copyStage (regs : Nat → Nat) (st : PshStages) (i : Nat) : PshStages :=
  { st with
    rgbInputs := Function.update st.rgbInputs i (regs (nvPgraphCombinecolori0 + i * 4))
    rgbOutputs := Function.update st.rgbOutputs i (regs (nvPgraphCombinecoloro0 + i * 4))
    alphaInputs := Function.update st.alphaInputs i (regs (nvPgraphCombinealphai0 + i * 4))
    alphaOutputs := Function.update st.alphaOutputs i (regs (nvPgraphCombinealphao0 + i * 4)) }

/-- The combiner part of `pgraph_bind_shaders`: the four arrays cleared by
`memset`, then the enabled stages copied; with the stage indices it stores at. -/
def bindShadersStages (regs : Nat → Nat) : PshStages × List Nat :=
  let numStages := regs nvPgraphCombinectl &&& 0xFF
  let cleared : PshStages :=
    ⟨regs nvPgraphCombinectl, fun _ => 0, fun _ => 0, fun _ => 0, fun _ => 0⟩
  ((List.range numStages).foldl (copyStage regs) cleared, List.range numStages)

/-- The stage loop of `psh_translate`: the entries of `ps.stage` it fills,
reading the same entries of the four arrays. -/
def pshTranslateStages (state : PshStages) : List Nat :=
  List.range (state.combinerControl &&& 0xFF)

/-- The copy loop leaves each stage below the count holding its register and
every other entry cleared. -/
theorem rgbInputs_bindShadersStages (regs : Nat → Nat) (j : Nat) :
    (bindShadersStages regs).1.rgbInputs j =
      if j < (regs nvPgraphCombinectl &&& 0xFF) then regs (nvPgraphCombinecolori0 + j * 4) else 0 := by
  have key : ∀ (n : Nat) (st : PshStages), ((List.range n).foldl (copyStage regs) st).rgbInputs j =
      if j < n then regs (nvPgraphCombinecolori0 + j * 4) else st.rgbInputs j := by
    intro n
    induction n with
    | zero => intro st; simp
    | succ n ih =>
        intro st
        rw [List.range_succ, List.foldl_append, List.foldl_cons, List.foldl_nil]
        simp only [copyStage, Function.update_apply, ih]
        by_cases hj : j = n
        · subst hj
          simp
        · simp only [hj, if_false]
          split_ifs <;> first | rfl | omega
  simp only [bindShadersStages, key]

theorem combinerControl_foldl_copyStage (regs : Nat → Nat) :
    ∀ (l : List Nat) (st : PshStages), (l.foldl (copyStage regs) st).combinerControl = st.combinerControl
  | [], _ => rfl
  | i :: l, st => by
      rw [List.foldl_cons, combinerControl_foldl_copyStage regs l]
      rfl

/-- The stage count both loops use is the low byte of what the guest wrote,
up to 255 stages for eight entries: from a byte above eight, both loops
reach entry eight, past the end. -/
theorem combiner_stages_past_end (regs : Nat → Nat) (parameter : Nat)
    (h : pshStageCount < parameter &&& 0xFF) :
    let regs' := setCombinerControl regs parameter
    pshStageCount ∈ (bindShadersStages regs').2 ∧
      pshStageCount ∈ pshTranslateStages (bindShadersStages regs').1 := by
  simp only [setCombinerControl, bindShadersStages, pshTranslateStages, Function.update_self,
    List.mem_range, combinerControl_foldl_copyStage]
  exact ⟨h, h⟩

/-- The combiner control `9`: nine stages for eight entries. -/
theorem combiner_nine_stages :
    pshStageCount < 9 &&& 0xFF ∧
      let regs' := setCombinerControl (fun _ => 0) 9
      pshStageCount ∈ (bindShadersStages regs').2 ∧
        pshStageCount ∈ pshTranslateStages (bindShadersStages regs').1 :=
  ⟨by decide, combiner_stages_past_end (fun _ => 0) 9 (by decide)⟩

/-- The loops stay within the arrays exactly when the byte is at most eight. -/
theorem bindShadersStages_within_iff (regs : Nat → Nat) :
    (∀ i ∈ (bindShadersStages regs).2, i < pshStageCount) ↔ (regs nvPgraphCombinectl &&& 0xFF) ≤ pshStageCount := by
  simp only [bindShadersStages, List.mem_range]
  constructor
  · intro h
    by_contra hgt
    exact absurd (h pshStageCount (by omega)) (Nat.lt_irrefl _)
  · intro h i hi
    omega

end Xqemu.Nv2a.Pgraph
