import Xqemu.Migration.Xbzrle

/-!
# What the XBZRLE decoder accepts

`xbzrle_decode_buffer` reads any byte string, not only the encoder's output.
`EncodesPairs` is the grammar of the format: run pairs, each a zero-run length,
a non-zero-run length of at least one and that many literal bytes, both
lengths in short LEB128.  The decoder returns the page length exactly when
its input is such pairs with later zero runs non-empty and the page within
`dlen`, and `-1` otherwise; it always returns, reads the input only on
`[0, slen)` and writes the page only on `[0, dlen)`.

The loop body is cut out as `readPair`, the checks of one turn; the loop is
then proved turn by turn against the grammar.
-/

namespace Xqemu.Migration

open Xqemu.Memory Xqemu.Util

/-- One pair of the encoding: a zero run, then the bytes of the non-zero run after it. -/
structure RunPair where
  zeros : Nat
  literal : List UInt8

/-- `bs` is exactly the pairs `ps`. -/
inductive EncodesPairs : List UInt8 → List RunPair → Prop
  | nil : EncodesPairs [] []
  | cons {zs ns lit rest : List UInt8} {z : Nat} {ps : List RunPair} :
      ShortLeb128 zs z → ShortLeb128 ns lit.length → lit ≠ [] → EncodesPairs rest ps →
      EncodesPairs (zs ++ ns ++ lit ++ rest) (⟨z, lit⟩ :: ps)

/-- The page length the pairs describe. -/
def pairsLength (ps : List RunPair) : Nat :=
  (ps.map fun p => p.zeros + p.literal.length).sum

/-- The page the pairs write into `dst` from offset `d`. -/
def applyPairs : Mem → Nat → List RunPair → Mem
  | dst, _, [] => dst
  | dst, d, p :: ps => applyPairs (storeBytes dst (d + p.zeros) p.literal) (d + p.zeros + p.literal.length) ps

@[simp] theorem pairsLength_nil : pairsLength [] = 0 := rfl

@[simp] theorem pairsLength_cons (p : RunPair) (ps : List RunPair) :
    pairsLength (p :: ps) = p.zeros + p.literal.length + pairsLength ps := by
  simp [pairsLength]

/-- One turn of the decoder's loop at input offset `i` and page offset `d`, when all its
checks pass: the zero-run length, the literal length and the literal's offset. -/
def readPair (src : Mem) (slen dlen i d : Nat) : Option (Nat × Nat × Nat) :=
  if slen - i < 2 then none
  else match uleb128DecodeSmall src i with
    | none => none
    | some (count, ret) =>
        if i ≠ 0 ∧ count = 0 then none
        else if dlen < d + count then none
        else if slen - (i + ret) < 2 then none
        else match uleb128DecodeSmall src (i + ret) with
          | none => none
          | some (count', ret') =>
              if count' = 0 then none
              else if dlen < d + count + count' ∨ slen < i + ret + ret' + count' then none
              else some (count, count', i + ret + ret')

theorem decodeLoop_succ (src : Mem) (slen dlen fuel i d : Nat) (dst : Mem) :
    decodeLoop src slen dlen (fuel + 1) i d dst =
      if i < slen then
        match readPair src slen dlen i d with
        | none => some ((-1 : Int), dst)
        | some (z, n, o) => decodeLoop src slen dlen fuel (o + n) (d + z + n) (memcpy dst (d + z) src o n)
      else some ((d : Int), dst) := by
  rw [decodeLoop]
  unfold readPair
  by_cases hi : i < slen
  · rw [if_pos hi, if_pos hi]
    by_cases hroom : slen - i < 2
    · rw [if_pos hroom, if_pos hroom]
    rw [if_neg hroom, if_neg hroom]
    cases uleb128DecodeSmall src i with
    | none => rfl
    | some zrun =>
      obtain ⟨count, ret⟩ := zrun
      dsimp only
      split_ifs <;> try rfl
      cases uleb128DecodeSmall src (i + ret) with
      | none => rfl
      | some nzrun =>
        obtain ⟨count', ret'⟩ := nzrun
        dsimp only
        split_ifs <;> rfl
  · rw [if_neg hi, if_neg hi]

/-- What a turn that passes its checks has read and checked. -/
theorem readPair_eq_some {src : Mem} {slen dlen i d z n o : Nat}
    (h : readPair src slen dlen i d = some (z, n, o)) :
    ∃ ret ret', uleb128DecodeSmall src i = some (z, ret) ∧ uleb128DecodeSmall src (i + ret) = some (n, ret') ∧
      o = i + ret + ret' ∧ (i ≠ 0 → z ≠ 0) ∧ 0 < n ∧ d + z + n ≤ dlen ∧ o + n ≤ slen := by
  unfold readPair at h
  split_ifs at h with h₁
  split at h
  · cases h
  · rename_i count ret hdec
    split_ifs at h with h₂ h₃ h₄
    split at h
    · cases h
    · rename_i count' ret' hdec'
      split_ifs at h with h₅ h₆
      obtain ⟨rfl, rfl, rfl⟩ : count = z ∧ count' = n ∧ i + ret + ret' = o := by simpa using h
      exact ⟨ret, ret', hdec, hdec', rfl, fun hi hz => h₂ ⟨hi, hz⟩, Nat.pos_of_ne_zero h₅, by omega, by omega⟩

/-- A turn that passes its checks moves forward within both buffers. -/
theorem readPair_bounds {src : Mem} {slen dlen i d z n o : Nat}
    (h : readPair src slen dlen i d = some (z, n, o)) :
    i < o ∧ 0 < n ∧ o + n ≤ slen ∧ d + z + n ≤ dlen := by
  obtain ⟨ret, ret', hdz, -, rfl, -, hn, hfit, hslen⟩ := readPair_eq_some h
  have hret := (shortLeb128_of_uleb128DecodeSmall hdz).length_pos
  rw [length_bytes] at hret
  omega

section Reads

variable {src src' : Mem} {slen : Nat}

theorem uleb128DecodeSmall_congr {a : Nat} (h₀ : src a = src' a) (h₁ : src (a + 1) = src' (a + 1)) :
    uleb128DecodeSmall src a = uleb128DecodeSmall src' a := by
  simp only [uleb128DecodeSmall, h₀, h₁]

/-- A turn reads the input only on `[0, slen)`: each varint is read after a check that two
bytes are left. -/
theorem readPair_congr (h : AgreeOn src src' 0 slen) (dlen i d : Nat) :
    readPair src slen dlen i d = readPair src' slen dlen i d := by
  unfold readPair
  by_cases hroom : slen - i < 2
  · simp only [if_pos hroom]
  rw [if_neg hroom, if_neg hroom,
    uleb128DecodeSmall_congr (h i (by omega) (by omega)) (h (i + 1) (by omega) (by omega))]
  split
  · rfl
  · rename_i count ret _
    split_ifs with h₁ h₂ hroom'
    · rfl
    · rfl
    · rfl
    rw [uleb128DecodeSmall_congr (h (i + ret) (by omega) (by omega)) (h (i + ret + 1) (by omega) (by omega))]

theorem decodeLoop_congr (h : AgreeOn src src' 0 slen) (dlen : Nat) :
    ∀ fuel i d dst, decodeLoop src slen dlen fuel i d dst = decodeLoop src' slen dlen fuel i d dst
  | 0, _, _, _ => rfl
  | fuel + 1, i, d, dst => by
    rw [decodeLoop_succ, decodeLoop_succ, readPair_congr h]
    split_ifs
    · split
      · rfl
      · rename_i z n o hpair
        have hbounds := readPair_bounds ((readPair_congr h dlen i d).trans hpair)
        rw [memcpy_congr (h.mono (Nat.zero_le o) (by omega)), decodeLoop_congr h dlen fuel]
    · rfl

end Reads

/-- The loop writes the page only on `[d, dlen)`, whatever it returns. -/
theorem decodeLoop_frame {src : Mem} {slen dlen : Nat} :
    ∀ {fuel i d : Nat} {dst dst' : Mem} {r : Int}, decodeLoop src slen dlen fuel i d dst = some (r, dst') →
      ∀ x, x < d ∨ dlen ≤ x → dst' x = dst x
  | 0, _, _, _, _, _, h => by simp [decodeLoop] at h
  | fuel + 1, i, d, dst, dst', r, h => by
    intro x hx
    rw [decodeLoop_succ] at h
    split_ifs at h
    · split at h
      · cases h
        rfl
      · rename_i z n o hpair
        have hbounds := readPair_bounds hpair
        rw [decodeLoop_frame h x (by omega), memcpy_of_not_mem (by omega)]
    · cases h
      rfl

/-- The unread input from `i` is the pairs `ps`, which pass the decoder's checks from page
offset `d`: only a first pair, at `i = 0`, may have an empty zero run. -/
structure DecodesFrom (src : Mem) (slen dlen i d : Nat) (ps : List RunPair) : Prop where
  encodes : EncodesPairs (bytes src i (slen - i)) ps
  zeros : ∀ p ∈ (if i = 0 then ps.tail else ps), 0 < p.zeros
  fits : d + pairsLength ps ≤ dlen

section Turns

variable {src : Mem} {slen dlen i d : Nat}

/-- A pair at the head of the unread input is what the turn reads. -/
theorem readPair_of_decodesFrom {z : Nat} {lit : List UInt8} {ps : List RunPair}
    (h : DecodesFrom src slen dlen i d (⟨z, lit⟩ :: ps)) :
    ∃ o, readPair src slen dlen i d = some (z, lit.length, o) ∧ lit = bytes src o lit.length ∧
      DecodesFrom src slen dlen (o + lit.length) (d + z + lit.length) ps := by
  obtain ⟨hencodes, hzeros, hfits⟩ := h
  generalize hunread : bytes src i (slen - i) = unread at hencodes
  cases hencodes with
  | @cons zs ns _ rest _ _ hz hn hlit hrest =>
    have hlen := congrArg List.length hunread
    simp only [length_bytes, List.length_append] at hlen
    obtain ⟨hpre, hrest'⟩ := bytes_eq_append hunread
    obtain ⟨hpre, hlit'⟩ := bytes_eq_append hpre
    obtain ⟨hzs, hns⟩ := bytes_eq_append hpre
    simp only [List.length_append, ← Nat.add_assoc] at hrest' hlit'
    have hdz := uleb128DecodeSmall_of_shortLeb128 hz hzs
    have hdn := uleb128DecodeSmall_of_shortLeb128 hn hns
    have hzl := hz.length_pos
    have hzl₂ := hz.length_le_two
    have hnl := hn.length_pos
    have hlitl := List.length_pos_iff.mpr hlit
    simp only [pairsLength_cons] at hfits
    have hfirst : i ≠ 0 → z ≠ 0 := fun hi => by
      have := hzeros ⟨z, lit⟩ (by simp [hi])
      dsimp only at this
      omega
    refine ⟨i + zs.length + ns.length, ?_, hlit'.symm, ?_, ?_, by omega⟩
    · unfold readPair
      rw [if_neg (by omega), hdz]
      dsimp only
      rw [if_neg (by tauto), if_neg (by omega), if_neg (by omega), hdn]
      dsimp only
      rw [if_neg (by omega), if_neg (by omega)]
    · have hslen : slen - (i + zs.length + ns.length + lit.length) = rest.length := by omega
      rw [hslen, hrest']
      exact hrest
    · rw [if_neg (by omega)]
      intro p hp
      exact hzeros p (by split_ifs <;> simp [hp])

/-- A turn that passes its checks, before pairs from where it ends, reads one pair more. -/
theorem decodesFrom_cons_of_readPair {z n o : Nat} {ps : List RunPair}
    (hread : readPair src slen dlen i d = some (z, n, o))
    (htail : DecodesFrom src slen dlen (o + n) (d + z + n) ps) :
    DecodesFrom src slen dlen i d (⟨z, bytes src o n⟩ :: ps) := by
  obtain ⟨ret, ret', hdz, hdn, rfl, hfirst, hn, hfit, hslen⟩ := readPair_eq_some hread
  obtain ⟨hencodes, hzeros, hfits⟩ := htail
  have hsplit : bytes src i (slen - i) =
      bytes src i ret ++ bytes src (i + ret) ret' ++ bytes src (i + ret + ret') n ++
        bytes src (i + ret + ret' + n) (slen - (i + ret + ret' + n)) := by
    have hlen : slen - i = ret + ret' + n + (slen - (i + ret + ret' + n)) := by omega
    rw [hlen, bytes_add, bytes_add, bytes_add]
    simp only [Nat.add_assoc]
  have hlit : bytes src (i + ret + ret') n ≠ [] := by
    rw [← List.length_pos_iff, length_bytes]
    exact hn
  have hnz := shortLeb128_of_uleb128DecodeSmall hdn
  rw [← length_bytes src (i + ret + ret') n] at hnz
  refine ⟨hsplit ▸ .cons (shortLeb128_of_uleb128DecodeSmall hdz) hnz hlit hencodes, ?_, ?_⟩
  · rw [if_neg (by omega)] at hzeros
    intro p hp
    split_ifs at hp with hi
    · exact hzeros p hp
    · rcases List.mem_cons.mp hp with rfl | hp
      · exact Nat.pos_of_ne_zero (hfirst hi)
      · exact hzeros p hp
  · simp only [pairsLength_cons, length_bytes]
    omega

theorem decodesFrom_of_le (hi : slen ≤ i) (hd : d ≤ dlen) : DecodesFrom src slen dlen i d [] := by
  refine ⟨?_, by simp, by simpa using hd⟩
  rw [Nat.sub_eq_zero_of_le hi]
  exact .nil

end Turns

section Loop

variable {src : Mem} {slen dlen : Nat}

/-- On pairs that pass its checks the loop writes each literal at its run's place and returns
the page length; it turns once a pair, by induction on the pairs. -/
theorem decodeLoop_of_decodesFrom :
    ∀ {ps : List RunPair} {fuel i d : Nat} {dst : Mem}, DecodesFrom src slen dlen i d ps → slen - i < fuel →
      decodeLoop src slen dlen fuel i d dst = some ((↑(d + pairsLength ps) : Int), applyPairs dst d ps)
  | [], 0, _, _, _, _, hfuel => absurd hfuel (Nat.not_lt_zero _)
  | [], fuel + 1, i, d, dst, h, _ => by
    have hempty : slen - i = 0 := by
      have hencodes := h.encodes
      generalize hunread : bytes src i (slen - i) = unread at hencodes
      cases hencodes
      simpa [length_bytes] using congrArg List.length hunread
    rw [decodeLoop_succ, if_neg (by omega)]
    simp [applyPairs]
  | ⟨z, lit⟩ :: ps, 0, _, _, _, _, hfuel => absurd hfuel (Nat.not_lt_zero _)
  | ⟨z, lit⟩ :: ps, fuel + 1, i, d, dst, h, hfuel => by
    obtain ⟨o, hread, hlit, htail⟩ := readPair_of_decodesFrom h
    have hbounds := readPair_bounds hread
    rw [decodeLoop_succ, if_pos (by omega), hread]
    dsimp only
    rw [decodeLoop_of_decodesFrom htail (by omega), memcpy_eq_storeBytes, ← hlit]
    simp only [applyPairs, pairsLength_cons, Nat.add_assoc]

/-- On any other input the loop returns `-1`: a turn whose checks pass reads a pair, so the
input from where it ends is not pairs either. -/
theorem decodeLoop_of_not_decodesFrom :
    ∀ {fuel i d : Nat} {dst : Mem}, (∀ ps, ¬DecodesFrom src slen dlen i d ps) → i ≤ slen → d ≤ dlen →
      slen - i < fuel → ∃ dst', decodeLoop src slen dlen fuel i d dst = some (-1, dst')
  | 0, _, _, _, _, _, _, hfuel => absurd hfuel (Nat.not_lt_zero _)
  | fuel + 1, i, d, dst, hrej, hi, hd, hfuel => by
    rw [decodeLoop_succ]
    by_cases hlt : i < slen
    · rw [if_pos hlt]
      split
      · exact ⟨dst, rfl⟩
      · rename_i z n o hread
        have hbounds := readPair_bounds hread
        refine decodeLoop_of_not_decodesFrom (fun ps htail => ?_) (by omega) (by omega) (by omega)
        exact hrej _ (decodesFrom_cons_of_readPair hread htail)
    · exact absurd (decodesFrom_of_le (by omega) hd) (hrej [])

end Loop

theorem decodesFrom_zero_iff {src : Mem} {slen dlen : Nat} {ps : List RunPair} :
    DecodesFrom src slen dlen 0 0 ps ↔
      EncodesPairs (bytes src 0 slen) ps ∧ (∀ p ∈ ps.tail, 0 < p.zeros) ∧ pairsLength ps ≤ dlen := by
  constructor
  · rintro ⟨hencodes, hzeros, hfits⟩
    exact ⟨by simpa using hencodes, by simpa using hzeros, by simpa using hfits⟩
  · rintro ⟨hencodes, hzeros, hfits⟩
    exact ⟨by simpa using hencodes, by simpa using hzeros, by simpa using hfits⟩

section Buffer

variable {src : Mem} {slen dlen : Nat}

theorem xbzrleDecodeBuffer_of_decodesFrom {ps : List RunPair} (h : DecodesFrom src slen dlen 0 0 ps) (dst : Mem) :
    xbzrleDecodeBuffer src slen dst dlen = some ((↑(pairsLength ps) : Int), applyPairs dst 0 ps) := by
  rw [xbzrleDecodeBuffer, decodeLoop_of_decodesFrom h (by omega), Nat.zero_add]

theorem xbzrleDecodeBuffer_of_not_decodesFrom (h : ∀ ps, ¬DecodesFrom src slen dlen 0 0 ps) (dst : Mem) :
    ∃ dst', xbzrleDecodeBuffer src slen dst dlen = some (-1, dst') :=
  decodeLoop_of_not_decodesFrom h (Nat.zero_le _) (Nat.zero_le _) (by omega)

/-- `xbzrle_decode_buffer` always returns.  Its result depends on the input only on
`[0, slen)`, it leaves the page past `dlen` alone, and it is `-1` or a length in `[0, dlen]`;
a length exactly when the input is run pairs whose later zero runs are non-empty and whose
page fits in `dlen`, and then it is that page's length and the page is written run by run. -/
theorem xbzrleDecodeBuffer_spec (src : Mem) (slen : Nat) (dst : Mem) (dlen : Nat) :
    ∃ (r : Int) (dst' : Mem), xbzrleDecodeBuffer src slen dst dlen = some (r, dst') ∧
      (∀ src', AgreeOn src src' 0 slen → xbzrleDecodeBuffer src' slen dst dlen = some (r, dst')) ∧
      (∀ x, dlen ≤ x → dst' x = dst x) ∧
      (r = -1 ∨ (0 ≤ r ∧ r ≤ dlen)) ∧
      (0 ≤ r ↔ ∃ ps, EncodesPairs (bytes src 0 slen) ps ∧ (∀ p ∈ ps.tail, 0 < p.zeros) ∧
        pairsLength ps ≤ dlen) ∧
      ∀ ps, EncodesPairs (bytes src 0 slen) ps → (∀ p ∈ ps.tail, 0 < p.zeros) → pairsLength ps ≤ dlen →
        r = pairsLength ps ∧ dst' = applyPairs dst 0 ps := by
  obtain ⟨r, dst', hrun⟩ : ∃ (r : Int) (dst' : Mem), xbzrleDecodeBuffer src slen dst dlen = some (r, dst') := by
    by_cases hacc : ∃ ps, DecodesFrom src slen dlen 0 0 ps
    · obtain ⟨ps, hps⟩ := hacc
      exact ⟨_, _, xbzrleDecodeBuffer_of_decodesFrom hps dst⟩
    · obtain ⟨dst', h⟩ := xbzrleDecodeBuffer_of_not_decodesFrom (not_exists.mp hacc) dst
      exact ⟨_, _, h⟩
  -- the pairs, when there are any, fix the result
  have hpairs : ∀ ps, DecodesFrom src slen dlen 0 0 ps → r = pairsLength ps ∧ dst' = applyPairs dst 0 ps := by
    intro ps hps
    have hsame := (xbzrleDecodeBuffer_of_decodesFrom hps dst).symm.trans hrun
    simp only [Option.some.injEq, Prod.mk.injEq] at hsame
    exact ⟨hsame.1.symm, hsame.2.symm⟩
  have hresult : (r = -1 ∨ (0 ≤ r ∧ r ≤ dlen)) ∧ (0 ≤ r ↔ ∃ ps, DecodesFrom src slen dlen 0 0 ps) := by
    by_cases hacc : ∃ ps, DecodesFrom src slen dlen 0 0 ps
    · obtain ⟨ps, hps⟩ := hacc
      obtain ⟨rfl, -⟩ := hpairs ps hps
      have hfits := hps.fits
      exact ⟨.inr ⟨by omega, by omega⟩, iff_of_true (by omega) ⟨ps, hps⟩⟩
    · obtain ⟨dst'', hrej⟩ := xbzrleDecodeBuffer_of_not_decodesFrom (not_exists.mp hacc) dst
      obtain ⟨rfl, -⟩ : r = -1 ∧ dst' = dst'' := by simpa using hrun.symm.trans hrej
      exact ⟨.inl rfl, iff_of_false (by omega) hacc⟩
  refine ⟨r, dst', hrun, fun src' hagree => ?_, fun x hx => decodeLoop_frame hrun x (.inr hx), hresult.1, ?_,
    fun ps h₁ h₂ h₃ => hpairs ps (decodesFrom_zero_iff.mpr ⟨h₁, h₂, h₃⟩)⟩
  · rw [xbzrleDecodeBuffer, ← decodeLoop_congr hagree]
    exact hrun
  · simp only [hresult.2, decodesFrom_zero_iff]

end Buffer

end Xqemu.Migration
