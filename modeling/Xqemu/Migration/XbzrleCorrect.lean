import Xqemu.Migration.Xbzrle

/-!
# The XBZRLE encoding, and that the encoder and decoder meet it

`xbzrleRef` is the encoding of a page as the format comment of
migration/xbzrle.c gives it: the page split into maximal runs where the old
and the new page agree (zero runs) and where they differ (non-zero runs),
from a zero run that may be empty; each zero run is its length, each
non-zero run its length and the new bytes, and the last zero run is left out.

The encoder's loop writes that encoding when it has room for it and fails
with `-1` only when it has not; it reads the pages only on `[0, slen)` and
writes the buffer only on `[0, dlen)`.  The decoder's loop, given the
encoding and the old page, rebuilds the new one.  Both are proved turn by
turn: a turn of the loop handles one zero run and the non-zero run after it,
and the loop over the turns follows the recursion of `xbzrleRef`.
-/

namespace Xqemu.Migration

open Xqemu.Memory Xqemu.Util Xqemu.Scan

/-- Where the zero run from `i` ends: the first position where the pages differ. -/
def zeroEnd (old new : Mem) (slen i : Nat) : Nat := firstFrom (differs old new) slen i

/-- Where the non-zero run after it ends: the next position where they agree. -/
def nonzeroEnd (old new : Mem) (slen i : Nat) : Nat :=
  firstFrom (agrees old new) slen (zeroEnd old new slen i)

section Runs

variable {old new : Mem} {slen i : Nat}

theorem zeroEnd_isFirst (old new : Mem) (h : i ≤ slen) :
    IsFirst (differs old new) slen i (zeroEnd old new slen i) :=
  firstFrom_isFirst h

theorem lt_of_zeroEnd_lt (h : zeroEnd old new slen i < slen) : i < slen :=
  lt_of_firstFrom_lt h

theorem nonzeroEnd_isFirst (h : zeroEnd old new slen i < slen) :
    IsFirst (agrees old new) slen (zeroEnd old new slen i) (nonzeroEnd old new slen i) :=
  firstFrom_isFirst (Nat.le_of_lt h)

/-- A non-zero run is never empty. -/
theorem zeroEnd_lt_nonzeroEnd (h : zeroEnd old new slen i < slen) :
    zeroEnd old new slen i < nonzeroEnd old new slen i := by
  have hdiff := (zeroEnd_isFirst old new (Nat.le_of_lt (lt_of_zeroEnd_lt h))).holds h
  have hn := nonzeroEnd_isFirst h
  refine Nat.lt_of_le_of_ne hn.le_start fun heq => ?_
  have hagree := hn.holds (heq ▸ h)
  rw [← heq, agrees_eq_not_differs, hdiff] at hagree
  exact Bool.noConfusion hagree

/-- A zero run that starts where the pages agree is not empty. -/
theorem lt_zeroEnd (hagree : old i = new i) (h : zeroEnd old new slen i < slen) :
    i < zeroEnd old new slen i := by
  have hz := zeroEnd_isFirst old new (Nat.le_of_lt (lt_of_zeroEnd_lt h))
  refine Nat.lt_of_le_of_ne hz.le_start fun heq => ?_
  have hdiff := hz.holds h
  rw [← heq, ← Bool.not_eq_false, differs_eq_false_iff] at hdiff
  exact hdiff hagree

/-- The pages agree on a zero run. -/
theorem agree_of_lt_zeroEnd (hi : i ≤ slen) {x : Nat} (hx₁ : i ≤ x) (hx₂ : x < zeroEnd old new slen i) :
    old x = new x :=
  differs_eq_false_iff.mp ((zeroEnd_isFirst old new hi).before x hx₁ hx₂)

end Runs

/-- The encoding of the zero run from `i` and of the non-zero run after it. -/
def runPair (old new : Mem) (slen i : Nat) : List UInt8 :=
  uleb128 (zeroEnd old new slen i - i) ++
    uleb128 (nonzeroEnd old new slen i - zeroEnd old new slen i) ++
    bytes new (zeroEnd old new slen i) (nonzeroEnd old new slen i - zeroEnd old new slen i)

-- the hypothesis `h` is used by the termination proof only
set_option linter.unusedVariables false in
/-- The encoding of the page from position `i`: a pair of runs and the rest,
or nothing once the pages agree to the end. -/
def xbzrleRef (old new : Mem) (slen i : Nat) : List UInt8 :=
  if h : zeroEnd old new slen i < slen then
    runPair old new slen i ++ xbzrleRef old new slen (nonzeroEnd old new slen i)
  else []
termination_by slen - i
decreasing_by
  have := (zeroEnd_isFirst old new (Nat.le_of_lt (lt_of_zeroEnd_lt h))).le_start
  have := zeroEnd_lt_nonzeroEnd h
  have := (nonzeroEnd_isFirst h).le_bound
  omega

section Reference

variable {old new : Mem} {slen i : Nat}

theorem xbzrleRef_of_lt (h : zeroEnd old new slen i < slen) :
    xbzrleRef old new slen i = runPair old new slen i ++ xbzrleRef old new slen (nonzeroEnd old new slen i) := by
  rw [xbzrleRef, dif_pos h]

theorem xbzrleRef_of_not_lt (h : ¬zeroEnd old new slen i < slen) : xbzrleRef old new slen i = [] := by
  rw [xbzrleRef, dif_neg h]

theorem length_runPair (old new : Mem) (slen i : Nat) :
    (runPair old new slen i).length =
      (uleb128 (zeroEnd old new slen i - i)).length +
        (uleb128 (nonzeroEnd old new slen i - zeroEnd old new slen i)).length +
        (nonzeroEnd old new slen i - zeroEnd old new slen i) := by
  simp only [runPair, List.length_append, length_bytes]

/-- A pair of runs takes at least three bytes: two lengths and a changed byte. -/
theorem three_le_length_runPair (h : zeroEnd old new slen i < slen) : 3 ≤ (runPair old new slen i).length := by
  have := length_uleb128_pos (zeroEnd old new slen i - i)
  have := length_uleb128_pos (nonzeroEnd old new slen i - zeroEnd old new slen i)
  have := zeroEnd_lt_nonzeroEnd h
  rw [length_runPair]
  omega

/-- The run lengths fit the small encoding. -/
theorem run_lengths_le (hmax : slen ≤ 0x3FFF) (h : zeroEnd old new slen i < slen) :
    zeroEnd old new slen i - i ≤ 0x3fff ∧ nonzeroEnd old new slen i - zeroEnd old new slen i ≤ 0x3fff := by
  have := (nonzeroEnd_isFirst h).le_bound
  omega

end Reference

/-- What the encoder's loop has done from output position `d` for the encoding
`R` of the rest of the page: it returned `-1` or wrote `R` there and returned
where it ends; it did not fail when `R` left room for two more bytes; and it
wrote nothing before `d` or from `dlen` on. -/
structure EncodeOutcome (R : List UInt8) (d dlen : Nat) (dst dst' : Mem) (ret : Int) : Prop where
  result : ret = -1 ∨ (ret = ↑(d + R.length) ∧ d + R.length ≤ dlen ∧ bytes dst' d R.length = R)
  fits : d + R.length + 2 ≤ dlen → ret ≠ -1
  frame : ∀ x, x < d ∨ dlen ≤ x → dst' x = dst x

section Outcome

variable {R : List UInt8} {d dlen : Nat} {dst dst' : Mem}

theorem encodeOutcome_done (hd : d ≤ dlen) : EncodeOutcome [] d dlen dst dst (d : Int) :=
  ⟨Or.inr ⟨by simp, by simpa using hd, rfl⟩, fun _ => by omega, fun _ _ => rfl⟩

theorem encodeOutcome_fail (hroom : dlen < d + R.length + 2)
    (hframe : ∀ x, x < d ∨ dlen ≤ x → dst' x = dst x) : EncodeOutcome R d dlen dst dst' (-1) :=
  ⟨Or.inl rfl, fun h => absurd h (by omega), hframe⟩

/-- Writing a chunk `C` at `d` and then running on from its end gives the
outcome for `C` followed by the rest. -/
theorem encodeOutcome_append {C : List UInt8} {buf : Mem} {ret : Int}
    (hC : bytes buf d C.length = C) (hbuf : ∀ x, x < d ∨ dlen ≤ x → buf x = dst x)
    (hrest : EncodeOutcome R (d + C.length) dlen buf dst' ret) :
    EncodeOutcome (C ++ R) d dlen dst dst' ret := by
  obtain ⟨hres, hfits, hframe⟩ := hrest
  refine ⟨?_, fun h => hfits (by simp only [List.length_append] at h; omega), fun x hx => ?_⟩
  · rcases hres with hfail | ⟨hret, hlen, hbytes⟩
    · exact Or.inl hfail
    · have hkeep : bytes dst' d C.length = C :=
        (bytes_congr fun x _ hx => hframe x (Or.inl hx)).trans hC
      refine Or.inr ⟨by simp only [hret, List.length_append, Nat.add_assoc], by simp only [List.length_append]; omega, ?_⟩
      rw [List.length_append, bytes_add, hkeep, hbytes]
  · rw [hframe x (by omega), hbuf x hx]

end Outcome

section Encoder

variable {old new : Mem} {slen dlen : Nat}

/-- The two lengths and the bytes of a pair of runs, as the encoder's turn
writes them at `d`. -/
def writeRunPair (old new : Mem) (slen i d : Nat) (dst : Mem) : Mem :=
  let j := zeroEnd old new slen i
  let k := nonzeroEnd old new slen i
  memcpy (storeBytes (storeBytes dst d (uleb128 (j - i))) (d + (uleb128 (j - i)).length) (uleb128 (k - j)))
    (d + (uleb128 (j - i)).length + (uleb128 (k - j)).length) new j (k - j)

theorem bytes_writeRunPair (old new : Mem) (slen i d : Nat) (dst : Mem) :
    bytes (writeRunPair old new slen i d dst) d (runPair old new slen i).length = runPair old new slen i := by
  unfold writeRunPair runPair
  dsimp only
  rw [List.length_append, List.length_append, bytes_add, bytes_add, length_bytes, ← Nat.add_assoc,
    bytes_memcpy]
  congr 2
  · refine (bytes_congr fun x _ hx => ?_).trans (bytes_storeBytes dst d _)
    rw [memcpy_of_not_mem (by omega), storeBytes_of_not_mem (by omega)]
  · refine (bytes_congr fun x _ hx => ?_).trans (bytes_storeBytes (storeBytes dst d (uleb128 (zeroEnd old new slen i - i))) _ _)
    rw [memcpy_of_not_mem (by omega)]

/-- A turn writes only where its pair of runs goes. -/
theorem writeRunPair_of_not_mem {i d x : Nat} {dst : Mem}
    (hx : x < d ∨ d + (runPair old new slen i).length ≤ x) : writeRunPair old new slen i d dst x = dst x := by
  rw [length_runPair] at hx
  unfold writeRunPair
  rw [memcpy_of_not_mem (by omega), storeBytes_of_not_mem (by omega), storeBytes_of_not_mem (by omega)]

/-- A turn of the encoder's loop that finds a pair of runs: it fails when the
second length or the bytes do not fit, and otherwise goes on from the end of
the non-zero run with the pair written. -/
theorem encodeLoop_turn (hmax : slen ≤ 0x3FFF) {fuel i d : Nat} {dst : Mem} (hi : i < slen)
    (hroom : d + 2 ≤ dlen) (hz : zeroEnd old new slen i < slen) :
    encodeLoop old new slen dlen (fuel + 1) i d dst =
      if dlen < d + (uleb128 (zeroEnd old new slen i - i)).length + 2 then
        some (-1, storeBytes dst d (uleb128 (zeroEnd old new slen i - i)))
      else if dlen < d + (runPair old new slen i).length then
        some (-1, storeBytes (storeBytes dst d (uleb128 (zeroEnd old new slen i - i)))
          (d + (uleb128 (zeroEnd old new slen i - i)).length)
          (uleb128 (nonzeroEnd old new slen i - zeroEnd old new slen i)))
      else
        encodeLoop old new slen dlen fuel (nonzeroEnd old new slen i) (d + (runPair old new slen i).length)
          (writeRunPair old new slen i d dst) := by
  obtain ⟨hz₁, hz₂⟩ := run_lengths_le hmax hz
  have hzr : zeroRun old new slen i = some (zeroEnd old new slen i, zeroEnd old new slen i - i) :=
    zeroRun_eq (Nat.le_of_lt hi)
  have hnr : nonzeroRun old new slen (zeroEnd old new slen i) =
      some (nonzeroEnd old new slen i, nonzeroEnd old new slen i - zeroEnd old new slen i) :=
    nonzeroRun_eq (Nat.le_of_lt hz)
  rw [encodeLoop, if_pos hi, if_neg (by omega), hzr]
  dsimp only
  rw [if_neg (by omega), if_neg (Nat.ne_of_lt hz), uleb128EncodeSmall_eq _ _ hz₁]
  dsimp only
  rw [hnr]
  dsimp only
  rw [uleb128EncodeSmall_eq _ _ hz₂, length_runPair, ← Nat.add_assoc, ← Nat.add_assoc]
  rfl

/-- A turn of the encoder's loop that finds the pages agree to the end: the
last zero run is not written. -/
theorem encodeLoop_last {fuel i d : Nat} {dst : Mem} (hi : i < slen) (hroom : d + 2 ≤ dlen)
    (hz : ¬zeroEnd old new slen i < slen) (hd0 : i = 0 → d = 0) :
    encodeLoop old new slen dlen (fuel + 1) i d dst = some ((d : Int), dst) := by
  have hzr : zeroRun old new slen i = some (zeroEnd old new slen i, zeroEnd old new slen i - i) :=
    zeroRun_eq (Nat.le_of_lt hi)
  have hend : zeroEnd old new slen i = slen := by
    have := (zeroEnd_isFirst old new (Nat.le_of_lt hi)).le_bound
    omega
  rw [encodeLoop, if_pos hi, if_neg (by omega), hzr]
  dsimp only
  split_ifs with hall
  · -- the whole page is unchanged
    rw [hd0 (by omega)]
    rfl
  · rfl

/-- The encoder's loop, run from any position `i` of the page with enough
fuel, ends with the outcome of the encoding of the rest of the page. -/
theorem encodeLoop_spec (hmax : slen ≤ 0x3FFF) :
    ∀ fuel i d dst, i ≤ slen → slen - i < fuel → (i = 0 → d = 0) → d ≤ dlen →
      ∃ ret dst', encodeLoop old new slen dlen fuel i d dst = some (ret, dst') ∧
        EncodeOutcome (xbzrleRef old new slen i) d dlen dst dst' ret
  | 0, _, _, _, _, hfuel, _, _ => absurd hfuel (Nat.not_lt_zero _)
  | fuel + 1, i, d, dst, hi, hfuel, hd0, hd => by
      by_cases hlt : i < slen
      · by_cases hroom : dlen < d + 2
        · exact ⟨-1, dst, by rw [encodeLoop, if_pos hlt, if_pos hroom],
            encodeOutcome_fail (by omega) fun _ _ => rfl⟩
        by_cases hz : zeroEnd old new slen i < slen
        · have hR := xbzrleRef_of_lt hz
          have hlen := length_runPair old new slen i
          have h3 := three_le_length_runPair hz
          have ha := length_uleb128_le (run_lengths_le hmax hz).1
          have hb := length_uleb128_le (run_lengths_le hmax hz).2
          have hrestlen : (xbzrleRef old new slen i).length =
              (runPair old new slen i).length + (xbzrleRef old new slen (nonzeroEnd old new slen i)).length := by
            rw [hR, List.length_append]
          rw [encodeLoop_turn hmax hlt (by omega) hz]
          split_ifs with h₁ h₂
          · -- no room for the second length
            refine ⟨-1, _, rfl, encodeOutcome_fail (by omega) fun x hx => storeBytes_of_not_mem (by omega)⟩
          · -- no room for the bytes of the non-zero run
            refine ⟨-1, _, rfl, encodeOutcome_fail (by omega) fun x hx => ?_⟩
            rw [storeBytes_of_not_mem (by omega), storeBytes_of_not_mem (by omega)]
          · -- the pair is written; the loop goes on from the end of the non-zero run
            have hk := zeroEnd_lt_nonzeroEnd hz
            have hkle := (nonzeroEnd_isFirst hz).le_bound
            have hzi := (zeroEnd_isFirst old new hi).le_start
            obtain ⟨ret, dst', hrun, hout⟩ := encodeLoop_spec hmax fuel (nonzeroEnd old new slen i)
              (d + (runPair old new slen i).length) (writeRunPair old new slen i d dst) hkle (by omega)
              (fun h => by omega) (by omega)
            refine ⟨ret, dst', hrun, ?_⟩
            rw [hR]
            exact encodeOutcome_append (bytes_writeRunPair old new slen i d dst)
              (fun x hx => writeRunPair_of_not_mem (by omega)) hout
        · refine ⟨d, dst, encodeLoop_last hlt (by omega) hz hd0, ?_⟩
          rw [xbzrleRef_of_not_lt hz]
          exact encodeOutcome_done hd
      · -- the loop is over
        have hi' : i = slen := by omega
        subst hi'
        have hz : ¬zeroEnd old new i i < i := by
          rw [zeroEnd, firstFrom_self]
          exact Nat.lt_irrefl i
        refine ⟨d, dst, by rw [encodeLoop, if_neg hlt], ?_⟩
        rw [xbzrleRef_of_not_lt hz]
        exact encodeOutcome_done hd

end Encoder

section Decoder

variable {old new : Mem} {slen : Nat}

/-- A turn of the decoder's loop on the encoding of a pair of runs from page
position `k`: it reads both lengths and copies the new bytes into place. -/
theorem decodeLoop_turn (hmax : slen ≤ 0x3FFF) {src buf : Mem} {L fuel i k : Nat}
    (hz : zeroEnd old new slen k < slen) (hk : k ≤ slen)
    (hL : i + (xbzrleRef old new slen k).length = L)
    (hR : bytes src i (xbzrleRef old new slen k).length = xbzrleRef old new slen k)
    (hstart : i ≠ 0 → old k = new k) :
    decodeLoop src L slen (fuel + 1) i k buf =
      decodeLoop src L slen fuel (i + (runPair old new slen k).length) (nonzeroEnd old new slen k)
        (memcpy buf (zeroEnd old new slen k) src
          (i + (uleb128 (zeroEnd old new slen k - k)).length +
            (uleb128 (nonzeroEnd old new slen k - zeroEnd old new slen k)).length)
          (nonzeroEnd old new slen k - zeroEnd old new slen k)) := by
  obtain ⟨hz₁, hz₂⟩ := run_lengths_le hmax hz
  have hkz := (zeroEnd_isFirst old new hk).le_start
  have hnz := zeroEnd_lt_nonzeroEnd hz
  have hnzle := (nonzeroEnd_isFirst hz).le_bound
  have hlen := length_runPair old new slen k
  have hA₁ := length_uleb128_pos (zeroEnd old new slen k - k)
  have hB₁ := length_uleb128_pos (nonzeroEnd old new slen k - zeroEnd old new slen k)
  have hlenR : (xbzrleRef old new slen k).length =
      (runPair old new slen k).length + (xbzrleRef old new slen (nonzeroEnd old new slen k)).length := by
    rw [xbzrleRef_of_lt hz, List.length_append]
  -- the two lengths stand at the front of the encoding
  rw [xbzrleRef_of_lt hz, runPair] at hR
  obtain ⟨hABC, -⟩ := bytes_eq_append hR
  obtain ⟨hAB, -⟩ := bytes_eq_append hABC
  obtain ⟨hA, hB⟩ := bytes_eq_append hAB
  have hnot0 : ¬(i ≠ 0 ∧ zeroEnd old new slen k - k = 0) := fun ⟨hi0, h0⟩ => by
    have := lt_zeroEnd (hstart hi0) hz
    omega
  rw [decodeLoop, if_pos (by omega), if_neg (by omega), uleb128DecodeSmall_of_bytes hz₁ hA]
  dsimp only
  rw [if_neg hnot0, if_neg (by omega), if_neg (by omega), uleb128DecodeSmall_of_bytes hz₂ hB]
  dsimp only
  rw [if_neg (by omega), if_neg (by omega)]
  have e₁ : k + (zeroEnd old new slen k - k) = zeroEnd old new slen k := by omega
  have e₂ : zeroEnd old new slen k + (nonzeroEnd old new slen k - zeroEnd old new slen k) =
      nonzeroEnd old new slen k := by omega
  rw [e₁, e₂, hlen, ← Nat.add_assoc, ← Nat.add_assoc]

/-- The decoder's loop, run on the encoding of the page from position `k` on a
buffer that holds the new page before `k` and the old one after it, returns a
position of the page and leaves the new page in the buffer. -/
theorem decodeLoop_spec (hmax : slen ≤ 0x3FFF) {src : Mem} {L : Nat} :
    ∀ fuel i k buf, k ≤ slen → L - i < fuel →
      i + (xbzrleRef old new slen k).length = L →
      bytes src i (xbzrleRef old new slen k).length = xbzrleRef old new slen k →
      (i ≠ 0 → k ≠ 0) → (k ≠ 0 → k < slen → old k = new k) →
      AgreeOn buf new 0 k → AgreeOn buf old k (slen - k) →
      ∃ (d : Nat) (buf' : Mem), decodeLoop src L slen fuel i k buf = some ((d : Int), buf') ∧ d ≤ slen ∧
        AgreeOn buf' new 0 slen
  | 0, _, _, _, _, hfuel, _, _, _, _, _, _ => absurd hfuel (Nat.not_lt_zero _)
  | fuel + 1, i, k, buf, hk, hfuel, hL, hR, hik, hagree, hnew, hold => by
      have hkz := (zeroEnd_isFirst old new hk).le_start
      have hzle := (zeroEnd_isFirst old new hk).le_bound
      by_cases hz : zeroEnd old new slen k < slen
      · have hnz := zeroEnd_lt_nonzeroEnd hz
        have hnzle := (nonzeroEnd_isFirst hz).le_bound
        have hlen := length_runPair old new slen k
        have h3 := three_le_length_runPair hz
        rw [decodeLoop_turn hmax hz hk hL hR fun hi => hagree (hik hi) (by omega)]
        rw [xbzrleRef_of_lt hz] at hR hL
        rw [List.length_append] at hL
        obtain ⟨hP, hR'⟩ := bytes_eq_append hR
        -- the new bytes of the non-zero run, inside the encoding
        rw [runPair] at hP
        obtain ⟨hAB, hC⟩ := bytes_eq_append hP
        rw [length_bytes, List.length_append, ← Nat.add_assoc] at hC
        refine decodeLoop_spec hmax fuel _ _ _ hnzle (by omega) (by omega) hR' (fun _ => by omega)
          (fun _ hlt => agrees_eq_true_iff.mp ((nonzeroEnd_isFirst hz).holds hlt)) (fun x _ hx => ?_)
          (fun x hx₁ _ => ?_)
        · by_cases hxj : x < zeroEnd old new slen k
          · rw [memcpy_of_not_mem (by omega)]
            by_cases hxk : x < k
            · exact hnew x (Nat.zero_le x) (by omega)
            · rw [hold x (by omega) (by omega)]
              exact agree_of_lt_zeroEnd hk (by omega) hxj
          · rw [memcpy_of_mem (by omega) (by omega)]
            have := apply_eq_of_bytes_eq hC (t := x - zeroEnd old new slen k) (by omega)
            rwa [Nat.add_sub_cancel' (by omega)] at this
        · rw [memcpy_of_not_mem (by omega)]
          exact hold x (by omega) (by omega)
      · -- the encoding is used up: the pages agree from `k` on
        rw [xbzrleRef_of_not_lt hz, List.length_nil, Nat.add_zero] at hL
        refine ⟨k, buf, by rw [decodeLoop, if_neg (by omega)], hk, fun x _ hx => ?_⟩
        by_cases hxk : x < k
        · exact hnew x (Nat.zero_le x) (by omega)
        · rw [hold x (by omega) (by omega)]
          exact agree_of_lt_zeroEnd hk (by omega) (by omega)

/-- The decoder rebuilds the new page from the old one and its encoding. -/
theorem xbzrleDecodeBuffer_xbzrleRef (hmax : slen ≤ 0x3FFF) {src buf : Mem}
    (hsrc : bytes src 0 (xbzrleRef old new slen 0).length = xbzrleRef old new slen 0)
    (hbuf : AgreeOn buf old 0 slen) :
    ∃ (d : Nat) (buf' : Mem), xbzrleDecodeBuffer src (xbzrleRef old new slen 0).length buf slen = some ((d : Int), buf') ∧
      d ≤ slen ∧ AgreeOn buf' new 0 slen :=
  decodeLoop_spec hmax _ 0 0 buf (Nat.zero_le slen) (by omega) (Nat.zero_add _) hsrc (fun h => absurd rfl h)
    (fun h => absurd rfl h) (fun x _ hx => absurd hx (Nat.not_lt_zero x)) (by simpa using hbuf)

end Decoder

section Reads

variable {old new old' new' : Mem} {slen dlen : Nat}

/-- Runs only look at the pages on `[0, slen)`. -/
theorem zeroEnd_congr (hold : AgreeOn old old' 0 slen) (hnew : AgreeOn new new' 0 slen) (i : Nat) :
    zeroEnd old' new' slen i = zeroEnd old new slen i :=
  firstFrom_congr fun k _ hk => by
    rw [differs, differs, hold k (Nat.zero_le k) (by omega), hnew k (Nat.zero_le k) (by omega)]

theorem nonzeroEnd_congr (hold : AgreeOn old old' 0 slen) (hnew : AgreeOn new new' 0 slen) (i : Nat) :
    nonzeroEnd old' new' slen i = nonzeroEnd old new slen i := by
  rw [nonzeroEnd, nonzeroEnd, zeroEnd_congr hold hnew i]
  exact firstFrom_congr fun k _ hk => by
    rw [agrees, agrees, hold k (Nat.zero_le k) (by omega), hnew k (Nat.zero_le k) (by omega)]

/-- The bytes of a non-zero run lie inside the page. -/
theorem nonzero_run_congr (hnew : AgreeOn new new' 0 slen) {i : Nat} (hi : i ≤ slen) :
    AgreeOn new' new (zeroEnd old new slen i) (nonzeroEnd old new slen i - zeroEnd old new slen i) := by
  have hz := (zeroEnd_isFirst old new hi).le_bound
  have hk := (firstFrom_isFirst (p := agrees old new) hz).le_bound
  intro x hx₁ hx₂
  exact (hnew x (Nat.zero_le x) (by unfold nonzeroEnd at hx₂; omega)).symm

theorem runPair_congr (hold : AgreeOn old old' 0 slen) (hnew : AgreeOn new new' 0 slen) {i : Nat}
    (hi : i ≤ slen) : runPair old' new' slen i = runPair old new slen i := by
  rw [runPair, runPair, zeroEnd_congr hold hnew i, nonzeroEnd_congr hold hnew i,
    bytes_congr (nonzero_run_congr hnew hi)]

theorem writeRunPair_congr (hold : AgreeOn old old' 0 slen) (hnew : AgreeOn new new' 0 slen) {i : Nat}
    (hi : i ≤ slen) (d : Nat) (dst : Mem) :
    writeRunPair old' new' slen i d dst = writeRunPair old new slen i d dst := by
  unfold writeRunPair
  rw [zeroEnd_congr hold hnew i, nonzeroEnd_congr hold hnew i, memcpy_congr (nonzero_run_congr hnew hi)]

/-- The encoder's loop reads the pages only on `[0, slen)`. -/
theorem encodeLoop_congr (hmax : slen ≤ 0x3FFF) (hold : AgreeOn old old' 0 slen)
    (hnew : AgreeOn new new' 0 slen) :
    ∀ fuel i d dst, i ≤ slen → (i = 0 → d = 0) →
      encodeLoop old' new' slen dlen fuel i d dst = encodeLoop old new slen dlen fuel i d dst
  | 0, _, _, _, _, _ => rfl
  | fuel + 1, i, d, dst, hi, hd0 => by
      have hz := zeroEnd_congr hold hnew i
      by_cases hlt : i < slen
      · by_cases hroom : dlen < d + 2
        · rw [encodeLoop, encodeLoop, if_pos hlt, if_pos hroom, if_pos hlt, if_pos hroom]
        by_cases hzl : zeroEnd old new slen i < slen
        · have hkle := (nonzeroEnd_isFirst hzl).le_bound
          have hk := zeroEnd_lt_nonzeroEnd hzl
          rw [encodeLoop_turn hmax hlt (by omega) (hz ▸ hzl), encodeLoop_turn hmax hlt (by omega) hzl, hz,
            nonzeroEnd_congr hold hnew i, runPair_congr hold hnew hi, writeRunPair_congr hold hnew hi,
            encodeLoop_congr hmax hold hnew fuel _ _ _ hkle (fun h => by omega)]
        · rw [encodeLoop_last hlt (by omega) (hz ▸ hzl) hd0, encodeLoop_last hlt (by omega) hzl hd0]
      · rw [encodeLoop, encodeLoop, if_neg hlt, if_neg hlt]

end Reads

/-- `xbzrle_encode_buffer` on pages of `slen` bytes, a multiple of 8 and at
most `0x3FFF`: it returns `-1` or the length `L` of the encoding `R` of the
page, which it then has written to `dst[0, L)`; it returns `L` whenever `R`
leaves two bytes of room and `-1` whenever `R` does not fit; it writes nothing
from `dlen` on and reads the pages only on `[0, slen)`; and when it returned
`L`, `xbzrle_decode_buffer` of its output rebuilds the new page on a buffer
that holds the old one, returning a position within the page. -/
theorem xbzrle_encode_decode_roundtrip (old new dst buf : Mem) (slen dlen : Nat) (hslen : slen % 8 = 0)
    (hmax : slen ≤ 0x3FFF) (hbuf : AgreeOn buf old 0 slen) :
    let R := xbzrleRef old new slen 0
    ∃ ret dst', xbzrleEncodeBuffer old new slen dst dlen = some (ret, dst') ∧
      (ret = -1 ∨ (ret = R.length ∧ bytes dst' 0 R.length = R)) ∧
      (R.length + 2 ≤ dlen → ret = R.length) ∧
      (dlen < R.length → ret = -1) ∧
      (∀ x, dlen ≤ x → dst' x = dst x) ∧
      (∀ old' new', AgreeOn old old' 0 slen → AgreeOn new new' 0 slen →
        xbzrleEncodeBuffer old' new' slen dst dlen = some (ret, dst')) ∧
      (ret = R.length → ∃ (d : Nat) (buf' : Mem),
        xbzrleDecodeBuffer dst' R.length buf slen = some ((d : Int), buf') ∧ d ≤ slen ∧
          AgreeOn buf' new 0 slen) := by
  dsimp only
  obtain ⟨ret, dst', hrun, ⟨hres, hfits, hframe⟩⟩ :=
    @encodeLoop_spec old new slen dlen hmax (slen + 1) 0 0 dst (Nat.zero_le slen) (by omega)
      (fun _ => rfl) (Nat.zero_le dlen)
  rw [Nat.zero_add] at hres hfits
  set R := xbzrleRef old new slen 0 with hR
  have henc : xbzrleEncodeBuffer old new slen dst dlen = some (ret, dst') := by
    rw [xbzrleEncodeBuffer, if_pos hslen, hrun]
  -- a return value other than `-1` is the length of the encoding, which is then in place
  have hwritten : ret = R.length → bytes dst' 0 R.length = R := fun hret => by
    rcases hres with hfail | ⟨-, -, hbytes⟩
    · rw [hfail] at hret
      omega
    · exact hbytes
  refine ⟨ret, dst', henc, ?_, fun hroom => ?_, fun hover => ?_, fun x hx => hframe x (Or.inr hx),
    fun old' new' hold hnew => ?_, fun hret => xbzrleDecodeBuffer_xbzrleRef hmax (hwritten hret) hbuf⟩
  · rcases hres with hfail | ⟨hret, -, hbytes⟩
    · exact Or.inl hfail
    · exact Or.inr ⟨hret, hbytes⟩
  · rcases hres with hfail | ⟨hret, -, -⟩
    · exact absurd hfail (hfits hroom)
    · exact hret
  · rcases hres with hfail | ⟨-, hle, -⟩
    · exact hfail
    · omega
  · rw [xbzrleEncodeBuffer, if_pos hslen, encodeLoop_congr hmax hold hnew _ _ _ _ (Nat.zero_le slen)
      (fun _ => rfl), hrun]

/-- The old page of the example: all zero. -/
def blankPage : Mem := fun _ => 0

/-- The new page of the example: byte 3 set to 7. -/
def onePokedPage : Mem := Function.update blankPage 3 7

example : (xbzrleEncodeBuffer blankPage onePokedPage 8 blankPage 16).map Prod.fst = some 3 := by decide

/-- The round trip on the example pages, with room for sixteen bytes. -/
theorem xbzrle_roundtrip_one_poked_byte :
    (8 % 8 = 0 ∧ 8 ≤ 0x3FFF ∧ AgreeOn blankPage blankPage 0 8) ∧
      let R := xbzrleRef blankPage onePokedPage 8 0
      ∃ ret dst', xbzrleEncodeBuffer blankPage onePokedPage 8 blankPage 16 = some (ret, dst') ∧
        (ret = -1 ∨ (ret = R.length ∧ bytes dst' 0 R.length = R)) ∧
        (R.length + 2 ≤ 16 → ret = R.length) ∧
        (16 < R.length → ret = -1) ∧
        (∀ x, 16 ≤ x → dst' x = blankPage x) ∧
        (∀ old' new', AgreeOn blankPage old' 0 8 → AgreeOn onePokedPage new' 0 8 →
          xbzrleEncodeBuffer old' new' 8 blankPage 16 = some (ret, dst')) ∧
        (ret = R.length → ∃ (d : Nat) (buf' : Mem),
          xbzrleDecodeBuffer dst' R.length blankPage 8 = some ((d : Int), buf') ∧ d ≤ 8 ∧
            AgreeOn buf' onePokedPage 0 8) :=
  ⟨⟨rfl, by decide, fun _ _ _ => rfl⟩,
    xbzrle_encode_decode_roundtrip blankPage onePokedPage blankPage blankPage 8 16 rfl (by decide)
      fun _ _ _ => rfl⟩

end Xqemu.Migration
