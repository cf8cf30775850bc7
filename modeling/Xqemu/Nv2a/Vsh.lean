import Mathlib.Data.List.Basic
import Xqemu.Lib.ErrorsIn
import Mathlib.Algebra.Group.Nat.Defs

/-!
# Vertex program decoding (nv2a_vsh.c)

A vertex program token is four 32-bit words.  `vsh_get_field` extracts one of
the fields of `field_mapping`; `decode_token` turns a token into GLSL text,
using the MAC and ILU opcodes as direct indices into the opcode tables and the
mux fields as the parameter type of `decode_opcode_input`.  `vsh_translate`
decodes slot after slot until a token has FLD_FINAL set.

Decoding stops with a `VshFault` where the C reads a table past its end (and
goes on with whatever memory follows) or reaches `assert(false)`.  The tables
are sized by the defined opcodes: `mac_opcode_params` and `mac_opcode` have 14
entries for a 4-bit MAC field, and the parameter type 0 of a 2-bit mux field
is `PARAM_UNKNOWN`.  These are the only faults: every other table read is
within its table for every value of every field.
-/

namespace Xqemu.Nv2a.Vsh

/-- `VshFieldName`. -/
inductive VshFieldName
  | fldIlu | fldMac | fldConst | fldV
  | fldANeg | fldASwzX | fldASwzY | fldASwzZ | fldASwzW | fldAR | fldAMux
  | fldBNeg | fldBSwzX | fldBSwzY | fldBSwzZ | fldBSwzW | fldBR | fldBMux
  | fldCNeg | fldCSwzX | fldCSwzY | fldCSwzZ | fldCSwzW | fldCRHigh | fldCRLow | fldCMux
  | fldOutMacMask | fldOutR | fldOutIluMask | fldOutOMask | fldOutOrb | fldOutAddress | fldOutMux
  | fldA0x | fldFinal
  deriving DecidableEq, Repr

open VshFieldName

/-- `VshFieldMapping`: the word, first bit and width of a field. -/
structure VshFieldMapping where
  subtoken : Nat
  startBit : Nat
  bitLength : Nat
  deriving DecidableEq, Repr

/-- `field_mapping`. -/
def fieldMapping : VshFieldName → VshFieldMapping
  | fldIlu => ⟨1, 25, 3⟩
  | fldMac => ⟨1, 21, 4⟩
  | fldConst => ⟨1, 13, 8⟩
  | fldV => ⟨1, 9, 4⟩
  | fldANeg => ⟨1, 8, 1⟩
  | fldASwzX => ⟨1, 6, 2⟩
  | fldASwzY => ⟨1, 4, 2⟩
  | fldASwzZ => ⟨1, 2, 2⟩
  | fldASwzW => ⟨1, 0, 2⟩
  | fldAR => ⟨2, 28, 4⟩
  | fldAMux => ⟨2, 26, 2⟩
  | fldBNeg => ⟨2, 25, 1⟩
  | fldBSwzX => ⟨2, 23, 2⟩
  | fldBSwzY => ⟨2, 21, 2⟩
  | fldBSwzZ => ⟨2, 19, 2⟩
  | fldBSwzW => ⟨2, 17, 2⟩
  | fldBR => ⟨2, 13, 4⟩
  | fldBMux => ⟨2, 11, 2⟩
  | fldCNeg => ⟨2, 10, 1⟩
  | fldCSwzX => ⟨2, 8, 2⟩
  | fldCSwzY => ⟨2, 6, 2⟩
  | fldCSwzZ => ⟨2, 4, 2⟩
  | fldCSwzW => ⟨2, 2, 2⟩
  | fldCRHigh => ⟨2, 0, 2⟩
  | fldCRLow => ⟨3, 30, 2⟩
  | fldCMux => ⟨3, 28, 2⟩
  | fldOutMacMask => ⟨3, 24, 4⟩
  | fldOutR => ⟨3, 20, 4⟩
  | fldOutIluMask => ⟨3, 16, 4⟩
  | fldOutOMask => ⟨3, 12, 4⟩
  | fldOutOrb => ⟨3, 11, 1⟩
  | fldOutAddress => ⟨3, 3, 8⟩
  | fldOutMux => ⟨3, 2, 1⟩
  | fldA0x => ⟨3, 1, 1⟩
  | fldFinal => ⟨3, 0, 1⟩

/-- The field after a NEG field and its swizzle fields, as `swizzle_field++`
and `neg_field+1` step through the enumeration. -/
def VshFieldName.next : VshFieldName → VshFieldName
  | fldANeg => fldASwzX
  | fldASwzX => fldASwzY
  | fldASwzY => fldASwzZ
  | fldASwzZ => fldASwzW
  | fldBNeg => fldBSwzX
  | fldBSwzX => fldBSwzY
  | fldBSwzY => fldBSwzZ
  | fldBSwzZ => fldBSwzW
  | fldCNeg => fldCSwzX
  | fldCSwzX => fldCSwzY
  | fldCSwzY => fldCSwzZ
  | fldCSwzZ => fldCSwzW
  | f => f

/-- `vsh_get_from_token`: `~(0xFFFFFFFF << bit_length)` in 32 bits. -/
def vshGetFromToken (shaderToken : Nat → Nat) (subtoken startBit bitLength : Nat) : Nat :=
  (shaderToken subtoken >>> startBit) &&& (0xFFFFFFFF - (0xFFFFFFFF <<< bitLength) % 2 ^ 32)

/-- `vsh_get_field`, with its `uint8_t` result. -/
def vshGetField (shaderToken : Nat → Nat) (fieldName : VshFieldName) : Nat :=
  let m := fieldMapping fieldName
  vshGetFromToken shaderToken m.subtoken m.startBit m.bitLength % 2 ^ 8

/-! ## Tables -/

/-- `VshOpcodeParams`. -/
structure VshOpcodeParams where
  a : Bool
  b : Bool
  c : Bool
  deriving DecidableEq, Repr

/-- `mac_opcode_params`. -/
def macOpcodeParams : List VshOpcodeParams :=
  [⟨false, false, false⟩, ⟨true, false, false⟩, ⟨true, true, false⟩, ⟨true, false, true⟩,
    ⟨true, true, true⟩, ⟨true, true, false⟩, ⟨true, true, false⟩, ⟨true, true, false⟩,
    ⟨true, true, false⟩, ⟨true, true, false⟩, ⟨true, true, false⟩, ⟨true, true, false⟩,
    ⟨true, true, false⟩, ⟨true, false, false⟩]

def maskStr : List String :=
  [",", ",w", ",z", ",zw", ",y", ",yw", ",yz", ",yzw", ",x", ",xw", ",xz", ",xzw", ",xy", ",xyw",
    ",xyz", ",xyzw"]

def macOpcode : List String :=
  ["NOP", "MOV", "MUL", "ADD", "MAD", "DP3", "DPH", "DP4", "DST", "MIN", "MAX", "SLT", "SGE",
    "ARL A0.x"]

def iluOpcode : List String := ["NOP", "MOV", "RCP", "RCC", "RSQ", "EXP", "LOG", "LIT"]

def iluForceScalar : List Bool := [false, false, true, true, true, true, true, false]

def outRegName : List String :=
  ["oPos", "???", "???", "oD0", "oD1", "oFog", "oPts", "oB0", "oB1", "oT0", "oT1", "oT2", "oT3",
    "???", "???", "A0.x"]

/-- `"xyzw"` of `decode_swizzle`. -/
def swizzleStr : List Char := ['x', 'y', 'z', 'w']

/-- The tables decoding indexes. -/
inductive VshTable
  | macOpcodeParams | macOpcode | iluOpcode | iluForceScalar | outRegName | maskStr | swizzleStr
  deriving DecidableEq, Repr

/-- Where decoding leaves the model: a table read past its end, or
`assert(false)` for a parameter type `decode_opcode_input` does not handle,
or `assert(has_final)` after the slots of `vsh_translate`. -/
inductive VshFault
  | outOfBounds (table : VshTable) (index : Nat)
  | unknownParam (param : Nat)
  | noFinal
  deriving DecidableEq, Repr

/-- `table[index]`, faulting past the end. -/
def readTable {α : Type} (table : VshTable) (xs : List α) (index : Nat) : Except VshFault α :=
  match xs[index]? with
  | some x => .ok x
  | none => .error (.outOfBounds table index)

/-! ## Decoding -/

def paramR : Nat := 1
def paramV : Nat := 2
def paramC : Nat := 3
def outputC : Nat := 0
def omuxMac : Nat := 0
def omuxIlu : Nat := 1
def iluNop : Nat := 0
def macNop : Nat := 0
def macArl : Nat := 13
def vshD3dscmCorrection : Int := 96

/-- `convert_c_register`. -/
def convertCRegister (cReg : Nat) : Int :=
  ((((cReg >>> 5) &&& 7 : Nat) : Int) - 3) * 32 + ((cReg &&& 31 : Nat) : Int) + vshD3dscmCorrection

/-- `decode_swizzle`, from the X field of a swizzle. -/
def decodeSwizzle (shaderToken : Nat → Nat) (swizzleField : VshFieldName) : Except VshFault String := do
  let force ← readTable .iluForceScalar iluForceScalar (vshGetField shaderToken fldIlu)
  -- some microcode instructions force a scalar value: all four read the X field
  let scalar := swizzleField = fldCSwzX ∧ force = true
  let x := vshGetField shaderToken swizzleField
  let y := if scalar then x else vshGetField shaderToken swizzleField.next
  let z := if scalar then x else vshGetField shaderToken swizzleField.next.next
  let w := if scalar then x else vshGetField shaderToken swizzleField.next.next.next
  let sx ← readTable .swizzleStr swizzleStr x
  let sy ← readTable .swizzleStr swizzleStr y
  let sz ← readTable .swizzleStr swizzleStr z
  let sw ← readTable .swizzleStr swizzleStr w
  if x = 0 ∧ y = 1 ∧ z = 2 ∧ w = 3 then pure ""
  else if x = y ∧ y = z ∧ z = w then pure (String.ofList ['.', sx])
  else if y = z ∧ z = w then pure (String.ofList ['.', sx, sy])
  else if z = w then pure (String.ofList ['.', sx, sy, sz])
  else pure (String.ofList ['.', sx, sy, sz, sw])

/-- `decode_opcode_input`. -/
def decodeOpcodeInput (shaderToken : Nat → Nat) (param : Nat) (negField : VshFieldName)
    (regNum : Nat) : Except VshFault String := do
  let neg := if vshGetField shaderToken negField > 0 then "-" else ""
  let tmp ←
    (if param = paramR then pure s!"R{regNum}"
    else if param = paramV then
      let v := vshGetField shaderToken fldV
      pure s!"v{v}"
    else if param = paramC then
      let c := convertCRegister (vshGetField shaderToken fldConst)
      if vshGetField shaderToken fldA0x > 0 then pure s!"c[A0+{c}]" else pure s!"c[{c}]"
    else throw (.unknownParam param))
  let swizzle ← decodeSwizzle shaderToken negField.next
  pure (neg ++ tmp ++ swizzle)

/-- `decode_opcode`. -/
def decodeOpcode (shaderToken : Nat → Nat) (outMux mask : Nat) (opcode inputs : String) :
    Except VshFault String := do
  let regNum := vshGetField shaderToken fldOutR
  -- paired MAC opcodes writing R1 are dropped; paired ILU opcodes write R1
  let (mask, regNum) :=
    if outMux = omuxMac ∧ vshGetField shaderToken fldIlu ≠ iluNop ∧ regNum = 1 then (0, regNum)
    else if outMux = omuxIlu ∧ vshGetField shaderToken fldMac ≠ macNop then (mask, 1)
    else (mask, regNum)
  let arl ← readTable .macOpcode macOpcode macArl
  let first ←
    (if opcode = arl then pure s!"  ARL(A0{inputs});\n"
    else if mask > 0 then do
      let m ← readTable .maskStr maskStr mask
      pure s!"  {opcode}(R{regNum}{m}{inputs});\n"
    else pure "")
  let second ←
    (if vshGetField shaderToken fldOutMux = outMux ∧ vshGetField shaderToken fldOutOMask ≠ 0 then do
      let dest ←
        (if vshGetField shaderToken fldOutOrb = outputC then
          let c := convertCRegister (vshGetField shaderToken fldOutAddress)
          pure s!"c{c}"
        else readTable .outRegName outRegName (vshGetField shaderToken fldOutAddress &&& 0xF))
      let m ← readTable .maskStr maskStr (vshGetField shaderToken fldOutOMask)
      pure ("  " ++ opcode ++ "(" ++ dest ++ m ++ inputs ++ ");\n")
    else pure "")
  pure (first ++ second)

/-- `decode_token`. -/
def decodeToken (shaderToken : Nat → Nat) : Except VshFault String := do
  let inputC ← decodeOpcodeInput shaderToken (vshGetField shaderToken fldCMux) fldCNeg
    ((vshGetField shaderToken fldCRHigh <<< 2) ||| vshGetField shaderToken fldCRLow)
  let mac := vshGetField shaderToken fldMac
  let ret ←
    (if mac ≠ macNop then do
      let params ← readTable .macOpcodeParams macOpcodeParams mac
      let inputA ←
        (if params.a then do
          let a ← decodeOpcodeInput shaderToken (vshGetField shaderToken fldAMux) fldANeg
            (vshGetField shaderToken fldAR)
          pure (", " ++ a)
        else pure "")
      let inputB ←
        (if params.b then do
          let b ← decodeOpcodeInput shaderToken (vshGetField shaderToken fldBMux) fldBNeg
            (vshGetField shaderToken fldBR)
          pure (", " ++ b)
        else pure "")
      let inputsC := if params.c then ", " ++ inputC else ""
      let opcode ← readTable .macOpcode macOpcode mac
      decodeOpcode shaderToken omuxMac (vshGetField shaderToken fldOutMacMask) opcode
        (inputA ++ inputB ++ inputsC)
    else pure "")
  let ilu := vshGetField shaderToken fldIlu
  let iluOp ←
    (if ilu ≠ iluNop then do
      let opcode ← readTable .iluOpcode iluOpcode ilu
      decodeOpcode shaderToken omuxIlu (vshGetField shaderToken fldOutIluMask) opcode (", " ++ inputC)
    else pure "")
  pure (ret ++ iluOp)

def vshTokenSize : Nat := 4

/-- `%08X`: eight upper-case hex digits. -/
def hex8 (w : Nat) : String :=
  String.ofList ((List.range 8).reverse.map fun i => (Nat.digitChar (w >>> (4 * i) % 16)).toUpper)

/-- The comment `vsh_translate` writes before the code of a slot. -/
def slotComment (slot : Nat) (curToken : Nat → Nat) : String :=
  s!"  /* Slot {slot}: 0x{hex8 (curToken 0)} 0x{hex8 (curToken 1)} 0x{hex8 (curToken 2)} 0x{hex8 (curToken 3)} */"

/-- The slot loop of `vsh_translate` from \`slot\` on, with \`remaining\` slots
left: the text of each slot up to the first token with FLD_FINAL set, and
`assert(has_final)` when the slots run out first. -/
def vshTranslateSlots (tokens : Nat → Nat) : Nat → Nat → Except VshFault String
  | _, 0 => throw .noFinal
  | slot, remaining + 1 => do
      let curToken := fun i => tokens (slot * vshTokenSize + i)
      let tokenStr ← decodeToken curToken
      let text := slotComment slot curToken ++ "\n" ++ tokenStr ++ "\n"
      if vshGetField curToken fldFinal ≠ 0 then pure text
      else do
        let rest ← vshTranslateSlots tokens (slot + 1) remaining
        pure (text ++ rest)

/-- `vsh_translate`, for the part of the body its slots write; the fixed GLSL
text it puts around them does not depend on the tokens. -/
def vshTranslate (tokens : Nat → Nat) (length : Nat) : Except VshFault String :=
  vshTranslateSlots tokens 0 length

/-! ## The faults decoding can reach -/

open Xqemu.Faults

theorem vshGetField_lt (shaderToken : Nat → Nat) (f : VshFieldName) :
    vshGetField shaderToken f < 2 ^ (fieldMapping f).bitLength := by
  have hmask : ∀ n, n ≤ 8 → 0xFFFFFFFF - (0xFFFFFFFF <<< n) % 2 ^ 32 = 2 ^ n - 1 := by decide
  have hlen : (fieldMapping f).bitLength ≤ 8 := by cases f <;> decide
  unfold vshGetField vshGetFromToken
  dsimp only
  rw [hmask _ hlen, Nat.and_two_pow_sub_one_eq_mod]
  exact Nat.lt_of_le_of_lt (Nat.mod_le _ _) (Nat.mod_lt _ (Nat.two_pow_pos _))

theorem readTable_of_lt {α : Type} {t : VshTable} {xs : List α} {i : Nat} (h : i < xs.length) :
    readTable t xs i = .ok xs[i] := by
  simp [readTable, List.getElem?_eq_getElem h]

theorem errorsIn_readTable {α : Type} (t : VshTable) (xs : List α) (i : Nat) :
    ErrorsIn (fun e => e = .outOfBounds t i ∧ xs.length ≤ i) (readTable t xs i) := by
  intro e h
  unfold readTable at h
  split at h
  · cases h
  · next hnone =>
      cases h
      exact ⟨rfl, List.getElem?_eq_none_iff.mp hnone⟩

theorem errorsIn_readTable_of_lt {α : Type} {P : VshFault → Prop} {t : VshTable} {xs : List α}
    {i : Nat} (h : i < xs.length) : ErrorsIn P (readTable t xs i) := by
  rw [readTable_of_lt h]
  exact errorsIn_ok _

/-- The X field of the swizzle of input A, B or C. -/
def IsSwizzleX (f : VshFieldName) : Prop := f = fldASwzX ∨ f = fldBSwzX ∨ f = fldCSwzX

theorem swizzle_fields_lt (shaderToken : Nat → Nat) {f : VshFieldName} (hf : IsSwizzleX f) :
    vshGetField shaderToken f < 4 ∧ vshGetField shaderToken f.next < 4 ∧
      vshGetField shaderToken f.next.next < 4 ∧ vshGetField shaderToken f.next.next.next < 4 := by
  have h := fun g => vshGetField_lt shaderToken g
  rcases hf with rfl | rfl | rfl <;>
    exact ⟨h _, h _, h _, h _⟩

theorem decodeSwizzle_never (shaderToken : Nat → Nat) {f : VshFieldName} (hf : IsSwizzleX f) :
    ErrorsIn (fun _ => False) (decodeSwizzle shaderToken f) := by
  obtain ⟨hx, hy, hz, hw⟩ := swizzle_fields_lt shaderToken hf
  have hilu := vshGetField_lt shaderToken fldIlu
  unfold decodeSwizzle
  refine ErrorsIn.bind (errorsIn_readTable_of_lt hilu) fun force _ => ?_
  dsimp only
  refine ErrorsIn.bind (errorsIn_readTable_of_lt hx) fun _ _ => ?_
  refine ErrorsIn.bind (errorsIn_readTable_of_lt (by split_ifs <;> assumption)) fun _ _ => ?_
  refine ErrorsIn.bind (errorsIn_readTable_of_lt (by split_ifs <;> assumption)) fun _ _ => ?_
  refine ErrorsIn.bind (errorsIn_readTable_of_lt (by split_ifs <;> assumption)) fun _ _ => ?_
  split_ifs <;> exact errorsIn_pure _

/-- The NEG field of input A, B or C; its successor is the X field of the swizzle. -/
def IsNegField (f : VshFieldName) : Prop := f = fldANeg ∨ f = fldBNeg ∨ f = fldCNeg

theorem IsNegField.next_isSwizzleX {f : VshFieldName} (h : IsNegField f) : IsSwizzleX f.next := by
  rcases h with rfl | rfl | rfl <;> simp [IsSwizzleX, VshFieldName.next]

/-- `decode_opcode_input` fails only at its `default:` case. -/
theorem decodeOpcodeInput_errors (shaderToken : Nat → Nat) (param : Nat) {negField : VshFieldName}
    (hneg : IsNegField negField) (regNum : Nat) :
    ErrorsIn (fun e => e = .unknownParam param ∧ param ≠ paramR ∧ param ≠ paramV ∧ param ≠ paramC)
      (decodeOpcodeInput shaderToken param negField regNum) := by
  unfold decodeOpcodeInput
  refine ErrorsIn.bind ?_ fun _ _ =>
    ErrorsIn.bind (decodeSwizzle_never shaderToken hneg.next_isSwizzleX).of_never fun _ _ =>
      errorsIn_pure _
  split_ifs with hR hV hC
  · exact errorsIn_pure _
  · exact errorsIn_pure _
  · exact errorsIn_pure _
  · exact errorsIn_pure _
  · exact errorsIn_throw ⟨rfl, hR, hV, hC⟩

theorem decodeOpcodeInput_of_unknown (shaderToken : Nat → Nat) {param : Nat} (negField : VshFieldName)
    (regNum : Nat) (hR : param ≠ paramR) (hV : param ≠ paramV) (hC : param ≠ paramC) :
    decodeOpcodeInput shaderToken param negField regNum = .error (.unknownParam param) := by
  simp only [decodeOpcodeInput, if_neg hR, if_neg hV, if_neg hC]
  rfl

/-- A 2-bit mux field names a parameter type; only its value 0, `PARAM_UNKNOWN`,
is not handled. -/
theorem decodeOpcodeInput_mux_errors (shaderToken : Nat → Nat) {negField muxField : VshFieldName}
    (hneg : IsNegField negField) (hmux : (fieldMapping muxField).bitLength = 2) (regNum : Nat) :
    ErrorsIn (fun e => e = .unknownParam 0)
      (decodeOpcodeInput shaderToken (vshGetField shaderToken muxField) negField regNum) := by
  refine (decodeOpcodeInput_errors shaderToken _ hneg regNum).mono ?_
  rintro e ⟨rfl, hR, hV, hC⟩
  have hlt := vshGetField_lt shaderToken muxField
  rw [hmux] at hlt
  simp only [paramR, paramV, paramC] at hR hV hC
  have h0 : vshGetField shaderToken muxField = 0 := by omega
  rw [h0]

theorem lt_of_readTable_eq_ok {α : Type} {t : VshTable} {xs : List α} {i : Nat} {x : α}
    (h : readTable t xs i = .ok x) : i < xs.length := by
  by_contra hge
  rw [readTable, List.getElem?_eq_none (Nat.le_of_not_lt hge)] at h
  cases h

/-- `decode_opcode` never faults for a mask within `mask_str`: the ARL entry,
the output masks and the output register `& 0xF` are all within their tables. -/
theorem decodeOpcode_never (shaderToken : Nat → Nat) (outMux mask : Nat) (opcode inputs : String)
    (hmask : mask < 16) : ErrorsIn (fun _ => False) (decodeOpcode shaderToken outMux mask opcode inputs) := by
  have hoMask := vshGetField_lt shaderToken fldOutOMask
  have hAddr : vshGetField shaderToken fldOutAddress &&& 0xF < 16 :=
    Nat.lt_of_le_of_lt Nat.and_le_right (by decide)
  unfold decodeOpcode
  dsimp only
  refine ErrorsIn.bind (errorsIn_readTable_of_lt (by decide)) fun arl _ => ?_
  refine ErrorsIn.bind ?_ fun _ _ => ErrorsIn.bind ?_ fun _ _ => errorsIn_pure _
  · -- the paired-opcode adjustment only ever clears the mask
    refine errorsIn_ite (fun _ => errorsIn_pure _) fun _ => errorsIn_ite (fun _ =>
      ErrorsIn.bind (errorsIn_readTable_of_lt ?_) fun _ _ => errorsIn_pure _) fun _ => errorsIn_pure _
    split_ifs <;> simp only [maskStr, List.length_cons, List.length_nil] <;> omega
  · refine errorsIn_ite (fun _ => ErrorsIn.bind ?_ fun _ _ =>
      ErrorsIn.bind (errorsIn_readTable_of_lt hoMask) fun _ _ => errorsIn_pure _) fun _ => errorsIn_pure _
    exact errorsIn_ite (fun _ => errorsIn_pure _) fun _ => errorsIn_readTable_of_lt hAddr

/-- The faults of `decode_token`: a mux field of 0 for an input it decodes, or a
MAC opcode past the 14 of `mac_opcode_params`.  Every ILU opcode, mask, output
register and swizzle of every token is within its table. -/
theorem decodeToken_errors (shaderToken : Nat → Nat) :
    ErrorsIn (fun e => e = .unknownParam 0 ∨ ∃ mac, 14 ≤ mac ∧ e = .outOfBounds .macOpcodeParams mac)
      (decodeToken shaderToken) := by
  have hmux : ∀ {negField muxField : VshFieldName} (regNum : Nat), IsNegField negField →
      (fieldMapping muxField).bitLength = 2 →
      ErrorsIn (fun e => e = .unknownParam 0 ∨ ∃ mac, 14 ≤ mac ∧ e = .outOfBounds .macOpcodeParams mac)
        (decodeOpcodeInput shaderToken (vshGetField shaderToken muxField) negField regNum) :=
    fun regNum hneg hlen => (decodeOpcodeInput_mux_errors shaderToken hneg hlen regNum).mono
      fun _ h => Or.inl h
  have hA : IsNegField fldANeg := Or.inl rfl
  have hB : IsNegField fldBNeg := Or.inr (Or.inl rfl)
  have hC : IsNegField fldCNeg := Or.inr (Or.inr rfl)
  unfold decodeToken
  refine ErrorsIn.bind (hmux _ hC rfl) fun inputC _ => ?_
  refine ErrorsIn.bind ?_ fun _ _ => ErrorsIn.bind ?_ fun _ _ => errorsIn_pure _
  · -- the MAC half: the opcode indexes both MAC tables
    refine errorsIn_ite (fun _ => ?_) fun _ => errorsIn_pure _
    refine ErrorsIn.bind ((errorsIn_readTable _ _ _).mono fun e ⟨he, hlen⟩ => Or.inr ⟨_, hlen, he⟩)
      fun params hparams => ?_
    have hmac := lt_of_readTable_eq_ok hparams
    refine ErrorsIn.bind (errorsIn_ite (fun _ => ErrorsIn.bind (hmux _ hA rfl) fun _ _ =>
      errorsIn_pure _) fun _ => errorsIn_pure _) fun _ _ => ?_
    refine ErrorsIn.bind (errorsIn_ite (fun _ => ErrorsIn.bind (hmux _ hB rfl) fun _ _ =>
      errorsIn_pure _) fun _ => errorsIn_pure _) fun _ _ => ?_
    refine ErrorsIn.bind (errorsIn_readTable_of_lt hmac) fun _ _ => ?_
    exact (decodeOpcode_never _ _ _ _ _ (vshGetField_lt shaderToken fldOutMacMask)).of_never
  · -- the ILU half: a 3-bit opcode for the 8 entries of `ilu_opcode`
    refine errorsIn_ite (fun _ => ?_) fun _ => errorsIn_pure _
    refine ErrorsIn.bind (errorsIn_readTable_of_lt (vshGetField_lt shaderToken fldIlu)) fun _ _ => ?_
    exact (decodeOpcode_never _ _ _ _ _ (vshGetField_lt shaderToken fldOutIluMask)).of_never

/-- Input C is decoded first, whatever the opcodes: a C mux of 0 always faults. -/
theorem decodeToken_of_cMux_zero (shaderToken : Nat → Nat) (h : vshGetField shaderToken fldCMux = 0) :
    decodeToken shaderToken = .error (.unknownParam 0) := by
  unfold decodeToken
  rw [h, decodeOpcodeInput_of_unknown _ _ _ (by decide) (by decide) (by decide)]
  rfl

theorem readTable_of_le {α : Type} {t : VshTable} {xs : List α} {i : Nat} (h : xs.length ≤ i) :
    readTable t xs i = .error (.outOfBounds t i) := by
  rw [readTable, List.getElem?_eq_none h]

/-- With a decodable input C, a MAC opcode past the table faults at `mac_opcode_params`. -/
theorem decodeToken_of_mac_ge (shaderToken : Nat → Nat) (hC : vshGetField shaderToken fldCMux ≠ 0)
    (hmac : 14 ≤ vshGetField shaderToken fldMac) :
    decodeToken shaderToken = .error (.outOfBounds .macOpcodeParams (vshGetField shaderToken fldMac)) := by
  have hlt := vshGetField_lt shaderToken fldCMux
  have hlen : macOpcodeParams.length ≤ vshGetField shaderToken fldMac := hmac
  -- input C, decoded first, has a handled parameter type
  have hCneg : IsNegField fldCNeg := Or.inr (Or.inr rfl)
  obtain ⟨inputC, hok⟩ := ErrorsIn.exists_ok ((decodeOpcodeInput_errors shaderToken
    (vshGetField shaderToken fldCMux) hCneg _).mono fun e ⟨_, hR, hV, hC'⟩ => by
      simp only [paramR, paramV, paramC] at hR hV hC'
      simp only [fieldMapping] at hlt
      omega)
  have hne : vshGetField shaderToken fldMac ≠ macNop := by unfold macNop; omega
  unfold decodeToken
  rw [hok]
  simp [hne, readTable_of_le hlen]

/-- Every fault of a run of the slot loop is a fault of one token, or the missing
FLD_FINAL. -/
theorem vshTranslateSlots_errors (tokens : Nat → Nat) (remaining : Nat) : ∀ slot : Nat,
    ErrorsIn (fun e => e = .noFinal ∨ e = .unknownParam 0 ∨
      ∃ mac, 14 ≤ mac ∧ e = .outOfBounds .macOpcodeParams mac) (vshTranslateSlots tokens slot remaining) := by
  induction remaining with
  | zero => exact fun _ => errorsIn_throw (Or.inl rfl)
  | succ remaining ih =>
      intro slot
      refine ErrorsIn.bind ((decodeToken_errors _).mono fun _ h => Or.inr h) fun _ _ => ?_
      exact errorsIn_ite (fun _ => errorsIn_pure _) fun _ =>
        ErrorsIn.bind (ih (slot + 1)) fun _ _ => errorsIn_pure _

/-- The program's first token, as the loop reads it at slot 0. -/
theorem slot_zero_token (tokens : Nat → Nat) : (fun i => tokens (0 * vshTokenSize + i)) = tokens := by
  funext i
  rw [Nat.zero_mul, Nat.zero_add]

/-- A program whose first token has a C mux of 0 faults at its first slot. -/
theorem vshTranslate_of_cMux_zero (tokens : Nat → Nat) (length : Nat) (hlen : 0 < length)
    (hC : vshGetField tokens fldCMux = 0) : vshTranslate tokens length = .error (.unknownParam 0) := by
  obtain ⟨remaining, rfl⟩ := Nat.exists_eq_add_of_lt hlen
  simp only [vshTranslate, vshTranslateSlots, slot_zero_token, decodeToken_of_cMux_zero tokens hC,
    error_bind]

/-- One slot: MAC opcode 14, input C read from R0 (mux 1), FLD_FINAL set. -/
def macFourteenProgram (i : Nat) : Nat :=
  if i = 1 then 14 <<< 21 else if i = 3 then 1 <<< 28 ||| 1 else 0

/-- The table bounds and parameter types are not kept for every field value:
the one-slot program of zeros stops at `assert(false)` on the C mux 0
(`PARAM_UNKNOWN`), and MAC opcode 14 reads `mac_opcode_params[14]`, past the
table's 14 entries. -/
theorem vshTranslate_reaches_faults :
    vshTranslate (fun _ => 0) 1 = .error (.unknownParam 0) ∧
      vshTranslate macFourteenProgram 1 = .error (.outOfBounds .macOpcodeParams 14) := by
  refine ⟨vshTranslate_of_cMux_zero _ 1 Nat.one_pos (by decide), ?_⟩
  have hmac : vshGetField macFourteenProgram fldMac = 14 := by decide
  simp only [vshTranslate, vshTranslateSlots, slot_zero_token,
    decodeToken_of_mac_ge macFourteenProgram (by decide) (by decide), hmac, error_bind]

end Xqemu.Nv2a.Vsh
