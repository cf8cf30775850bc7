import Xqemu.Util.HbitmapValid
import Mathlib.Order.Interval.Finset.Nat

/-!
# Setting and resetting keep a bitmap coherent

`hb_set_between` and `hb_reset_between` change a range of nodes on one level and,
when the level reports a change, carry it to the level above.  On the last level
of a coherent bitmap they keep it coherent, and its groups become those it had
with the range added (`hbSetBetween_coherent`) or removed
(`hbResetBetween_coherent`); so do `hbitmap_set` and `hbitmap_reset`, which call
them with the range of groups their range of elements covers.

Setting a range, each word is or-ed with the range's bits, and a level reports a
change when a word that was zero is set; the words a level reports unchanged were
already nonzero, so the level above stays right.  Resetting, a level reports a
change when a nonzero word becomes zero, and it passes up the words it blanked:
the first and last words of the range only when they were emptied.
-/

namespace Xqemu.Util

open Xqemu.Words Xqemu.Faults

theorem testBit_elemMask {start last : Nat} (hle : start % 64 ≤ last % 64) (b : Nat) :
    (elemMask start last).testBit b = decide (start % 64 ≤ b ∧ b ≤ last % 64) := by
  unfold elemMask
  rw [Nat.and_two_pow_sub_one_eq_mod start 6, Nat.and_two_pow_sub_one_eq_mod last 6, Nat.shiftLeft_eq,
    Nat.one_shiftLeft, ← Nat.pow_succ', testBit_range_mask hle (Nat.mod_lt _ (by omega))]

theorem elemMask_lt (start last : Nat) : elemMask start last < 2 ^ 64 := Nat.mod_lt _ (by omega)

/-- What `hb_set_between` does to the words `old` of its level for the groups `s … l`. -/
structure SetsRange (old new : Nat → Nat) (s l : Nat) (changed : Bool) : Prop where
  testBit_eq : ∀ j, ∀ b < 64, (new j).testBit b = ((old j).testBit b || decide (s ≤ 64 * j + b ∧ 64 * j + b ≤ l))
  outside : ∀ j, ¬(s / 64 ≤ j ∧ j ≤ l / 64) → new j = old j
  word_lt : ∀ j, old j < 2 ^ 64 → new j < 2 ^ 64
  unchanged : changed = false → ∀ j, s / 64 ≤ j → j ≤ l / 64 → old j ≠ 0

theorem hbSetElem_eq {e s l : Nat} (h6 : s / 64 = l / 64) (hle : s ≤ l) :
    hbSetElem e s l = .ok (e ||| elemMask s l, e != (e ||| elemMask s l)) := by
  rw [hbSetElem, Nat.shiftRight_eq_div_pow, Nat.shiftRight_eq_div_pow]
  rw [if_neg (by simpa using h6.symm), if_neg (not_not_intro hle)]
  rfl

/-- The bits `hb_set_elem` sets in the word `j = s / 64 = l / 64`. -/
theorem testBit_or_elemMask {e s l j : Nat} (hj : s / 64 = j) (hjl : l / 64 = j) (hle : s ≤ l) (b : Nat) :
    (e ||| elemMask s l).testBit b = (e.testBit b || decide (s ≤ 64 * j + b ∧ 64 * j + b ≤ l)) := by
  rw [Nat.testBit_or, testBit_elemMask (by omega)]
  congr 2
  apply propext
  omega

theorem or_elemMask_ne_zero {e s l : Nat} (hj : s / 64 = l / 64) (hle : s ≤ l)
    (hsame : (e != (e ||| elemMask s l)) = false) : e ≠ 0 := by
  intro he
  have heq : e = e ||| elemMask s l := by simpa using hsame
  have hbit := congrArg (Nat.testBit · (s % 64)) heq
  simp only [he, Nat.zero_or, Nat.zero_testBit, testBit_elemMask (show s % 64 ≤ l % 64 by omega)] at hbit
  simp at hbit
  omega

theorem setsRange_one (w : Nat → Nat) {s l : Nat} (hj : s / 64 = l / 64) (hle : s ≤ l) :
    SetsRange w (Function.update w (s / 64) (w (s / 64) ||| elemMask s l)) s l
      (w (s / 64) != (w (s / 64) ||| elemMask s l)) where
  testBit_eq j b hb := by
    by_cases hjs : j = s / 64
    · subst hjs
      rw [Function.update_self, testBit_or_elemMask rfl hj.symm hle b]
    · rw [Function.update_of_ne hjs]
      rw [decide_eq_false (by omega), Bool.or_false]
  outside j hj' := Function.update_of_ne (by omega) _ _
  word_lt j hw := by
    by_cases hjs : j = s / 64
    · subst hjs
      rw [Function.update_self]
      exact Nat.or_lt_two_pow hw (elemMask_lt s l)
    · rwa [Function.update_of_ne hjs]
  unchanged hc j hj₁ hj₂ := by
    rw [show j = s / 64 by omega]
    exact or_elemMask_ne_zero hj hle hc

/-- The words strictly between `i` and `lastpos` replaced by `v`: what the loops of
`hb_set_between` and `hb_reset_between` leave. -/
def fillBetween (w : Nat → Nat) (i lastpos v : Nat) : Nat → Nat :=
  fun j => if i < j ∧ j < lastpos then v else w j

/-- The loop shape of `hb_set_between` and `hb_reset_between`: the words strictly between `i`
and `lastpos` get `v`, and a change is reported when one of them passes `t`. -/
def fillLoop (v : Nat) (t : Nat → Bool) (lastpos : Nat) :
    (k : Nat) → (Nat → Nat) → (i start next : Nat) → Bool → (Nat → Nat) × Nat × Nat × Bool
  | 0, w, i, start, _, changed => (w, i, start, changed)
  | k + 1, w, i, start, next, changed =>
      if i + 1 = lastpos then (w, i + 1, start, changed)
      else fillLoop v t lastpos k (Function.update w (i + 1) v) (i + 1) next (next + 64) (changed || t (w (i + 1)))

theorem setBetweenLoop_eq_fillLoop (lastpos : Nat) : ∀ k w i start next changed,
    setBetweenLoop lastpos k w i start next changed = fillLoop (2 ^ 64 - 1) (· == 0) lastpos k w i start next changed
  | 0, _, _, _, _, _ => rfl
  | k + 1, w, i, start, next, changed => by
    rw [setBetweenLoop, fillLoop, setBetweenLoop_eq_fillLoop lastpos k]

theorem resetBetweenLoop_eq_fillLoop (lastpos : Nat) : ∀ k w i start next changed,
    resetBetweenLoop lastpos k w i start next changed = fillLoop 0 (· != 0) lastpos k w i start next changed
  | 0, _, _, _, _, _ => rfl
  | k + 1, w, i, start, next, changed => by
    rw [resetBetweenLoop, fillLoop, resetBetweenLoop_eq_fillLoop lastpos k]

/-- Started on the word `i` before `lastpos`, the loop fills the words strictly between them and
reports a change exactly if one of them passes the test. -/
theorem fillLoop_spec {v : Nat} {t : Nat → Bool} {lastpos : Nat} : ∀ (k : Nat) (w : Nat → Nat) (i : Nat) (c : Bool),
    i + k = lastpos → 0 < k →
    ∃ c', fillLoop v t lastpos k w i (64 * (i + 1)) (64 * (i + 1) + 64) c =
        (fillBetween w i lastpos v, lastpos, 64 * lastpos, c') ∧
      (c' = false ↔ c = false ∧ ∀ j, i < j → j < lastpos → t (w j) = false)
  | 0, _, _, _, _, hk => absurd hk (Nat.lt_irrefl 0)
  | k + 1, w, i, c, hi, _ => by
    by_cases hlast : i + 1 = lastpos
    · refine ⟨c, ?_, ⟨fun hc => ⟨hc, fun j hj hj' => by omega⟩, And.left⟩⟩
      rw [fillLoop, if_pos hlast]
      congr 1
      · funext j
        rw [fillBetween, if_neg (by omega)]
      · rw [hlast]
    · obtain ⟨c', hloop, hc'⟩ := @fillLoop_spec v t lastpos k (Function.update w (i + 1) v) (i + 1)
        (c || t (w (i + 1))) (by omega) (by omega)
      refine ⟨c', ?_, ?_⟩
      · rw [fillLoop, if_neg hlast, show 64 * (i + 1) + 64 = 64 * (i + 1 + 1) by omega, hloop]
        congr 1
        funext j
        by_cases hj : j = i + 1
        · subst hj
          simp [fillBetween, show i + 1 < lastpos by omega]
        · simp only [fillBetween, Function.update_of_ne hj]
          by_cases hin : i + 1 < j ∧ j < lastpos
          · rw [if_pos hin, if_pos (by omega)]
          · rw [if_neg hin, if_neg (by omega)]
      · rw [hc', Bool.or_eq_false_iff]
        constructor
        · rintro ⟨⟨hc₀, hw⟩, hmid⟩
          refine ⟨hc₀, fun j hj hj' => ?_⟩
          by_cases hji : j = i + 1
          · exact hji ▸ hw
          · have := hmid j (by omega) hj'
            rwa [Function.update_of_ne hji] at this
        · rintro ⟨hc₀, hmid⟩
          refine ⟨⟨hc₀, hmid (i + 1) (by omega) (by omega)⟩, fun j hj hj' => ?_⟩
          rw [Function.update_of_ne (by omega)]
          exact hmid j (by omega) hj'

/-- The loop of `hb_set_between` sets the words strictly between `i` and `lastpos`; reporting no
change, none of them was zero. -/
theorem setBetweenLoop_eq {lastpos : Nat} (k : Nat) (w : Nat → Nat) (i : Nat) (c : Bool)
    (hi : i + k = lastpos) (hk : 0 < k) :
    ∃ c', setBetweenLoop lastpos k w i (64 * (i + 1)) (64 * (i + 1) + 64) c =
        (fillBetween w i lastpos (2 ^ 64 - 1), lastpos, 64 * lastpos, c') ∧
      (c' = false → c = false ∧ ∀ j, i < j → j < lastpos → w j ≠ 0) := by
  obtain ⟨c', hloop, hc'⟩ := fillLoop_spec (v := 2 ^ 64 - 1) (t := (· == 0)) k w i c hi hk
  refine ⟨c', by rw [setBetweenLoop_eq_fillLoop, hloop], fun hc => ?_⟩
  obtain ⟨hc₀, hmid⟩ := hc'.mp hc
  exact ⟨hc₀, fun j h₁ h₂ => by simpa using hmid j h₁ h₂⟩

theorem setsRange_many (w : Nat → Nat) {s l : Nat} (hlt : s / 64 < l / 64) {c : Bool}
    (hc : c = false → (w (s / 64) != (w (s / 64) ||| elemMask s (64 * (s / 64) + 63))) = false ∧
      ∀ j, s / 64 < j → j < l / 64 → w j ≠ 0) :
    let w₁ := fillBetween (Function.update w (s / 64) (w (s / 64) ||| elemMask s (64 * (s / 64) + 63)))
      (s / 64) (l / 64) (2 ^ 64 - 1)
    SetsRange w (Function.update w₁ (l / 64) (w₁ (l / 64) ||| elemMask (64 * (l / 64)) l)) s l
      (c || (w₁ (l / 64) != (w₁ (l / 64) ||| elemMask (64 * (l / 64)) l))) := by
  intro w₁
  have hlast : w₁ (l / 64) = w (l / 64) := by
    simp only [w₁, fillBetween, if_neg (show ¬(s / 64 < l / 64 ∧ l / 64 < l / 64) by omega),
      Function.update_of_ne (show l / 64 ≠ s / 64 by omega)]
  have hfirst : w₁ (s / 64) = w (s / 64) ||| elemMask s (64 * (s / 64) + 63) := by
    simp only [w₁, fillBetween, if_neg (show ¬(s / 64 < s / 64 ∧ s / 64 < l / 64) by omega), Function.update_self]
  have hmid : ∀ j, s / 64 < j → j < l / 64 → w₁ j = 2 ^ 64 - 1 := fun j h₁ h₂ => by
    simp only [w₁, fillBetween, if_pos (And.intro h₁ h₂)]
  have hout : ∀ j, j ≠ s / 64 → ¬(s / 64 < j ∧ j < l / 64) → w₁ j = w j := fun j h₁ h₂ => by
    simp only [w₁, fillBetween, if_neg h₂, Function.update_of_ne h₁]
  rw [hlast]
  constructor
  · intro j b hb
    by_cases hjl : j = l / 64
    · subst hjl
      rw [Function.update_self, testBit_or_elemMask (by omega) rfl (by omega) b]
      congr 1
      exact decide_eq_decide.mpr (by omega)
    rw [Function.update_of_ne hjl]
    by_cases hjs : j = s / 64
    · subst hjs
      rw [hfirst, testBit_or_elemMask rfl (by omega) (by omega) b]
      congr 1
      exact decide_eq_decide.mpr (by omega)
    by_cases hin : s / 64 < j ∧ j < l / 64
    · rw [hmid j hin.1 hin.2, Nat.testBit_two_pow_sub_one, decide_eq_true hb, decide_eq_true (by omega),
        Bool.or_true]
    · rw [hout j hjs hin, decide_eq_false (by omega), Bool.or_false]
  · intro j hj
    rw [Function.update_of_ne (by omega), hout j (by omega) (by omega)]
  · intro j hw
    by_cases hjl : j = l / 64
    · subst hjl
      rw [Function.update_self]
      exact Nat.or_lt_two_pow hw (elemMask_lt _ _)
    rw [Function.update_of_ne hjl]
    by_cases hjs : j = s / 64
    · subst hjs
      rw [hfirst]
      exact Nat.or_lt_two_pow hw (elemMask_lt _ _)
    by_cases hin : s / 64 < j ∧ j < l / 64
    · rw [hmid j hin.1 hin.2]
      omega
    · rwa [hout j hjs hin]
  · intro hchanged j hj₁ hj₂
    rw [Bool.or_eq_false_iff] at hchanged
    obtain ⟨hc₁, hmid'⟩ := hc hchanged.1
    rcases Nat.lt_or_ge (s / 64) j with hsj | hsj
    · rcases Nat.lt_or_ge j (l / 64) with hjl | hjl
      · exact hmid' j hsj hjl
      · rw [show j = l / 64 by omega]
        exact or_elemMask_ne_zero (by omega) (by omega) hchanged.2
    · rw [show j = s / 64 by omega]
      exact or_elemMask_ne_zero (by omega) (by omega) hc₁

/-- The bitmap with its words replaced. -/
def HBitmap.withLevels (hb : HBitmap) (levels : Nat → Nat → Nat) : HBitmap := { hb with levels }

theorem or_63_eq (x : Nat) : x ||| 63 = 64 * (x / 64) + 63 := by
  apply Nat.eq_of_testBit_eq
  intro b
  rw [Nat.testBit_or, show 64 * (x / 64) + 63 = 2 ^ 6 * (x / 2 ^ 6) + (2 ^ 6 - 1) by rfl,
    Nat.testBit_two_pow_mul_add _ (by decide), show (63 : Nat) = 2 ^ 6 - 1 from rfl, Nat.testBit_two_pow_sub_one]
  split_ifs with hb
  · simp [hb]
  · rw [Nat.testBit_div_two_pow, Nat.sub_add_cancel (by omega)]
    simp [hb]

theorem hbSetLevel_spec (hb : HBitmap) (L : Nat) {s l : Nat} (hle : s ≤ l) :
    ∃ W changed, hbSetLevel hb L s l = .ok (hb.withLevels (Function.update hb.levels L W), changed) ∧
      SetsRange (hb.levels L) W s l changed := by
  unfold hbSetLevel
  simp only [Nat.shiftRight_eq_div_pow, show (2 : Nat) ^ 6 = 64 from rfl]
  by_cases hlt : s / 64 < l / 64
  · rw [if_pos hlt, or_63_eq, show 64 * (s / 64) + 63 + 1 - 1 = 64 * (s / 64) + 63 by omega,
      hbSetElem_eq (by omega) (by omega), ok_bind]
    obtain ⟨c', hloop, hc'⟩ := @setBetweenLoop_eq (l / 64) (l / 64 - s / 64)
      (Function.update (hb.levels L) (s / 64) (hb.levels L (s / 64) ||| elemMask s (64 * (s / 64) + 63))) (s / 64)
      (hb.levels L (s / 64) != (hb.levels L (s / 64) ||| elemMask s (64 * (s / 64) + 63))) (by omega) (by omega)
    rw [show 64 * (s / 64) + 63 + 1 = 64 * (s / 64 + 1) by omega, hloop, pure_bind]
    dsimp only
    rw [Function.update_self, hbSetElem_eq (by omega) (by omega), ok_bind]
    refine ⟨_, _, ?_, setsRange_many (hb.levels L) hlt fun hc => ⟨(hc' hc).1, fun j h₁ h₂ => ?_⟩⟩
    · simp only [HBitmap.setWord, HBitmap.withLevels, Function.update_idem, Function.update_self]
      rfl
    · have := (hc' hc).2 j h₁ h₂
      rwa [Function.update_of_ne (by omega)] at this
  · have hj : s / 64 = l / 64 := by omega
    rw [if_neg hlt, pure_bind]
    dsimp only
    rw [hbSetElem_eq hj hle, ok_bind]
    exact ⟨_, _, rfl, setsRange_one (hb.levels L) hj hle⟩

theorem and_not_decide_congr {x : Bool} {p q : Prop} [Decidable p] [Decidable q] (h : p ↔ q) :
    (x && !decide p) = (x && !decide q) := by
  rw [decide_eq_decide.mpr h]

/-- What `hb_reset_between` does to the words `old` of its level for the groups `s … l`,
with `p … q` the range it passes up when it reports a change. -/
structure ClearsRange (old new : Nat → Nat) (s l : Nat) (changed : Bool) (p q : Nat) : Prop where
  testBit_eq : ∀ j, ∀ b < 64, (new j).testBit b = ((old j).testBit b && !decide (s ≤ 64 * j + b ∧ 64 * j + b ≤ l))
  word_lt : ∀ j, old j < 2 ^ 64 → new j < 2 ^ 64
  blanked : changed = true → p ≤ q ∧ q ≤ l / 64 ∧ ∀ j, p ≤ j → j ≤ q → new j = 0
  kept : ∀ j, ¬(changed = true ∧ p ≤ j ∧ j ≤ q) → (new j ≠ 0 ↔ old j ≠ 0)

/-- The loop of `hb_reset_between` clears the words strictly between `i` and `lastpos`, and
reports a change exactly if one of them was nonzero. -/
theorem resetBetweenLoop_eq {lastpos : Nat} (k : Nat) (w : Nat → Nat) (i : Nat) (c : Bool)
    (hi : i + k = lastpos) (hk : 0 < k) :
    ∃ c', resetBetweenLoop lastpos k w i (64 * (i + 1)) (64 * (i + 1) + 64) c =
        (fillBetween w i lastpos 0, lastpos, 64 * lastpos, c') ∧
      (c' = false ↔ c = false ∧ ∀ j, i < j → j < lastpos → w j = 0) := by
  obtain ⟨c', hloop, hc'⟩ := fillLoop_spec (v := 0) (t := (· != 0)) k w i c hi hk
  refine ⟨c', by rw [resetBetweenLoop_eq_fillLoop, hloop], ?_⟩
  simpa using hc'

theorem hbResetElem_eq {e s l : Nat} (h6 : s / 64 = l / 64) (hle : s ≤ l) :
    hbResetElem e s l = .ok (e &&& (elemMask s l ^^^ (2 ^ 64 - 1)),
      e != 0 && e &&& (elemMask s l ^^^ (2 ^ 64 - 1)) == 0) := by
  rw [hbResetElem, Nat.shiftRight_eq_div_pow, Nat.shiftRight_eq_div_pow]
  rw [if_neg (by simpa using h6.symm), if_neg (not_not_intro hle)]
  rfl

/-- The bits `hb_reset_elem` keeps in the word `j = s / 64 = l / 64`. -/
theorem testBit_and_elemMask {e s l j : Nat} (hj : s / 64 = j) (hjl : l / 64 = j) (hle : s ≤ l) {b : Nat}
    (hb : b < 64) : (e &&& (elemMask s l ^^^ (2 ^ 64 - 1))).testBit b =
      (e.testBit b && !decide (s ≤ 64 * j + b ∧ 64 * j + b ≤ l)) := by
  rw [Nat.testBit_and, testBit_xor_ones (elemMask_lt s l), testBit_elemMask (by omega), decide_eq_true hb,
    Bool.true_and]
  congr 2
  exact decide_eq_decide.mpr (by omega)

theorem and_lt_of_lt {e m : Nat} (he : e < 2 ^ 64) : e &&& m < 2 ^ 64 := lt_of_le_of_lt Nat.and_le_left he

/-- A word `hb_reset_elem` does not report blanked is zero after it exactly when it was before. -/
theorem kept_ne_zero_iff {e m : Nat} (h : (e != 0 && e &&& m == 0) = false) : e &&& m ≠ 0 ↔ e ≠ 0 := by
  constructor
  · intro hk he
    rw [he, Nat.zero_and] at hk
    exact hk rfl
  · intro he hk
    simp [he, hk] at h

theorem kept_eq_zero {e m : Nat} (h : (e != 0 && e &&& m == 0) = true) : e &&& m = 0 := by
  simp only [Bool.and_eq_true, bne_iff_ne, ne_eq, beq_iff_eq] at h
  exact h.2

theorem clearsRange_one (w : Nat → Nat) {s l : Nat} (hj : s / 64 = l / 64) (hle : s ≤ l) :
    let e := w (s / 64) &&& (elemMask s l ^^^ (2 ^ 64 - 1))
    let bl := w (s / 64) != 0 && e == 0
    ClearsRange w (Function.update w (s / 64) e) s l bl (s / 64)
      (if bl then l / 64 else (l / 64 + 2 ^ 64 - 1) % 2 ^ 64) := by
  intro e bl
  constructor
  · intro j b hb
    by_cases hjs : j = s / 64
    · subst hjs
      rw [Function.update_self, testBit_and_elemMask rfl hj.symm hle hb]
    · rw [Function.update_of_ne hjs, decide_eq_false (by omega), Bool.not_false, Bool.and_true]
  · intro j hw
    by_cases hjs : j = s / 64
    · subst hjs
      rw [Function.update_self]
      exact and_lt_of_lt hw
    · rwa [Function.update_of_ne hjs]
  · intro hbl
    refine ⟨by rw [if_pos hbl]; omega, by rw [if_pos hbl], fun j hj₁ hj₂ => ?_⟩
    rw [if_pos hbl] at hj₂
    rw [show j = s / 64 by omega, Function.update_self]
    exact kept_eq_zero hbl
  · intro j hj'
    by_cases hjs : j = s / 64
    · subst hjs
      have hbl : bl = false := by
        by_contra hbl
        rw [Bool.not_eq_false] at hbl
        exact hj' ⟨hbl, le_refl _, by rw [if_pos hbl]; omega⟩
      rw [Function.update_self]
      exact kept_ne_zero_iff hbl
    · rw [Function.update_of_ne hjs]

theorem clearsRange_many (w : Nat → Nat) {s l : Nat} (hlt : s / 64 < l / 64) (hl : l < 2 ^ 64) :
    let e₁ := w (s / 64) &&& (elemMask s (64 * (s / 64) + 63) ^^^ (2 ^ 64 - 1))
    let b₁ := w (s / 64) != 0 && e₁ == 0
    let w₁ := fillBetween (Function.update w (s / 64) e₁) (s / 64) (l / 64) 0
    let e₂ := w₁ (l / 64) &&& (elemMask (64 * (l / 64)) l ^^^ (2 ^ 64 - 1))
    let b₂ := w₁ (l / 64) != 0 && e₂ == 0
    ∀ {c : Bool}, (c = false ↔ b₁ = false ∧ ∀ j, s / 64 < j → j < l / 64 → Function.update w (s / 64) e₁ j = 0) →
      ClearsRange w (Function.update w₁ (l / 64) e₂) s l (c || b₂) (if b₁ then s / 64 else s / 64 + 1)
        (if b₂ then l / 64 else (l / 64 + 2 ^ 64 - 1) % 2 ^ 64) := by
  intro e₁ b₁ w₁ e₂ b₂ c hc
  have hlast : w₁ (l / 64) = w (l / 64) := by
    simp only [w₁, fillBetween, if_neg (show ¬(s / 64 < l / 64 ∧ l / 64 < l / 64) by omega),
      Function.update_of_ne (show l / 64 ≠ s / 64 by omega)]
  have hfirst : w₁ (s / 64) = e₁ := by
    simp only [w₁, fillBetween, if_neg (show ¬(s / 64 < s / 64 ∧ s / 64 < l / 64) by omega), Function.update_self]
  have hmid : ∀ j, s / 64 < j → j < l / 64 → w₁ j = 0 := fun j h₁ h₂ => by
    simp only [w₁, fillBetween, if_pos (And.intro h₁ h₂)]
  have hout : ∀ j, j ≠ s / 64 → ¬(s / 64 < j ∧ j < l / 64) → w₁ j = w j := fun j h₁ h₂ => by
    simp only [w₁, fillBetween, if_neg h₂, Function.update_of_ne h₁]
  have hmid_old : c = false → ∀ j, s / 64 < j → j < l / 64 → w j = 0 := fun hc₀ j h₁ h₂ => by
    have := (hc.mp hc₀).2 j h₁ h₂
    rwa [Function.update_of_ne (by omega)] at this
  have hq : (l / 64 + 2 ^ 64 - 1) % 2 ^ 64 = l / 64 - 1 := by
    rw [show l / 64 + 2 ^ 64 - 1 = (l / 64 - 1) + 2 ^ 64 by omega, Nat.add_mod_right, Nat.mod_eq_of_lt (by omega)]
  -- a first word the call reports blanked reports a change
  have hfirst_changed : b₁ = true → c = true := fun hb₁ => by
    by_contra hc₀
    rw [Bool.not_eq_true] at hc₀
    rw [(hc.mp hc₀).1] at hb₁
    exact Bool.false_ne_true hb₁
  -- a word between the ends is in `p … q` whenever the call reports a change
  have hp : (if b₁ then s / 64 else s / 64 + 1) ≤ s / 64 + 1 := by split <;> omega
  have hq_ge : l / 64 - 1 ≤ (if b₂ then l / 64 else (l / 64 + 2 ^ 64 - 1) % 2 ^ 64) := by split <;> omega
  constructor
  · intro j b hb
    by_cases hjl : j = l / 64
    · subst hjl
      rw [Function.update_self]
      simp only [e₂, hlast]
      rw [testBit_and_elemMask (by omega) rfl (by omega) hb]
      exact and_not_decide_congr (by omega)
    rw [Function.update_of_ne hjl]
    by_cases hjs : j = s / 64
    · subst hjs
      rw [hfirst, testBit_and_elemMask rfl (by omega) (by omega) hb]
      exact and_not_decide_congr (by omega)
    by_cases hin : s / 64 < j ∧ j < l / 64
    · rw [hmid j hin.1 hin.2, Nat.zero_testBit, decide_eq_true (by omega), Bool.not_true, Bool.and_false]
    · rw [hout j hjs hin, decide_eq_false (by omega), Bool.not_false, Bool.and_true]
  · intro j hw
    by_cases hjl : j = l / 64
    · subst hjl
      rw [Function.update_self]
      exact and_lt_of_lt (hlast ▸ hw)
    rw [Function.update_of_ne hjl]
    by_cases hjs : j = s / 64
    · subst hjs
      rw [hfirst]
      exact and_lt_of_lt hw
    by_cases hin : s / 64 < j ∧ j < l / 64
    · rw [hmid j hin.1 hin.2]
      omega
    · rwa [hout j hjs hin]
  · intro hchanged
    refine ⟨?_, by split <;> omega, fun j hj₁ hj₂ => ?_⟩
    · by_cases hb₂ : b₂ = true
      · rw [if_pos hb₂]
        split <;> omega
      rw [if_neg hb₂, hq]
      have hc₁ : c = true := by simpa [hb₂] using hchanged
      by_cases hb₁ : b₁ = true
      · rw [if_pos hb₁]
        omega
      rw [if_neg hb₁]
      by_contra hnext
      -- with no word between the ends, a change comes from one of them
      have hc₀ : c = false := hc.mpr ⟨by simpa using hb₁, fun j h₁ h₂ => absurd h₂ (by omega)⟩
      rw [hc₁] at hc₀
      exact Bool.noConfusion hc₀
    by_cases hjl : j = l / 64
    · have hb₂ : b₂ = true := by
        by_contra hb₂
        rw [if_neg hb₂, hq] at hj₂
        omega
      rw [hjl, Function.update_self]
      exact kept_eq_zero hb₂
    rw [Function.update_of_ne hjl]
    by_cases hjs : j = s / 64
    · have hb₁ : b₁ = true := by
        by_contra hb₁
        rw [if_neg hb₁] at hj₁
        omega
      rw [hjs, hfirst]
      exact kept_eq_zero hb₁
    · exact hmid j (by split at hj₁ <;> omega) (by split at hj₂ <;> omega)
  · intro j hj'
    by_cases hjl : j = l / 64
    · have hb₂ : b₂ = false := by
        by_contra hb₂
        rw [Bool.not_eq_false] at hb₂
        exact hj' ⟨by rw [hb₂, Bool.or_true], by split <;> omega, by rw [if_pos hb₂, hjl]⟩
      rw [hjl, Function.update_self, ← hlast]
      exact kept_ne_zero_iff hb₂
    rw [Function.update_of_ne hjl]
    by_cases hjs : j = s / 64
    · have hb₁ : b₁ = false := by
        by_contra hb₁
        rw [Bool.not_eq_false] at hb₁
        exact hj' ⟨by rw [hfirst_changed hb₁, Bool.true_or], by rw [if_pos hb₁, hjs], by omega⟩
      rw [hjs, hfirst]
      exact kept_ne_zero_iff hb₁
    by_cases hin : s / 64 < j ∧ j < l / 64
    · have hc₀ : c = false := by
        by_contra hc₀
        rw [Bool.not_eq_false] at hc₀
        exact hj' ⟨by rw [hc₀, Bool.true_or], by omega, by omega⟩
      rw [hmid j hin.1 hin.2, hmid_old hc₀ j hin.1 hin.2]
    · rw [hout j hjs hin]

theorem hbResetLevel_spec (hb : HBitmap) (L : Nat) {s l : Nat} (hle : s ≤ l) (hl : l < 2 ^ 64) :
    ∃ W changed p q, hbResetLevel hb L s l = .ok (hb.withLevels (Function.update hb.levels L W), changed, p, q) ∧
      ClearsRange (hb.levels L) W s l changed p q := by
  unfold hbResetLevel
  simp only [Nat.shiftRight_eq_div_pow, show (2 : Nat) ^ 6 = 64 from rfl]
  by_cases hlt : s / 64 < l / 64
  · rw [if_pos hlt, or_63_eq, show 64 * (s / 64) + 63 + 1 - 1 = 64 * (s / 64) + 63 by omega,
      hbResetElem_eq (by omega) (by omega), ok_bind]
    obtain ⟨c', hloop, hc'⟩ := @resetBetweenLoop_eq (l / 64) (l / 64 - s / 64)
      (Function.update (hb.levels L) (s / 64)
        (hb.levels L (s / 64) &&& (elemMask s (64 * (s / 64) + 63) ^^^ (2 ^ 64 - 1)))) (s / 64)
      (hb.levels L (s / 64) != 0 &&
        hb.levels L (s / 64) &&& (elemMask s (64 * (s / 64) + 63) ^^^ (2 ^ 64 - 1)) == 0) (by omega) (by omega)
    rw [show 64 * (s / 64) + 63 + 1 = 64 * (s / 64 + 1) by omega, hloop, pure_bind]
    dsimp only
    rw [Function.update_self, hbResetElem_eq (by omega) (by omega), ok_bind]
    refine ⟨_, _, _, _, ?_, clearsRange_many (hb.levels L) hlt hl hc'⟩
    simp only [HBitmap.setWord, HBitmap.withLevels, Function.update_idem, Function.update_self]
    rfl
  · have hj : s / 64 = l / 64 := by omega
    rw [if_neg hlt, pure_bind]
    dsimp only
    rw [hbResetElem_eq hj hle, ok_bind]
    refine ⟨_, _, _, _, rfl, ?_⟩
    rw [Bool.false_or]
    exact clearsRange_one (hb.levels L) hj hle

namespace HBitmap

@[simp] theorem withLevels_levels (hb : HBitmap) (lv : Nat → Nat → Nat) : (hb.withLevels lv).levels = lv := rfl
@[simp] theorem withLevels_sizes (hb : HBitmap) (lv : Nat → Nat → Nat) : (hb.withLevels lv).sizes = hb.sizes := rfl
@[simp] theorem withLevels_size (hb : HBitmap) (lv : Nat → Nat → Nat) : (hb.withLevels lv).size = hb.size := rfl
@[simp] theorem withLevels_granularity (hb : HBitmap) (lv : Nat → Nat → Nat) :
    (hb.withLevels lv).granularity = hb.granularity := rfl
@[simp] theorem withLevels_withLevels (hb : HBitmap) (lv lv' : Nat → Nat → Nat) :
    (hb.withLevels lv).withLevels lv' = hb.withLevels lv' := rfl

theorem bitAt_withLevels (hb : HBitmap) (lv : Nat → Nat → Nat) (i k : Nat) :
    (hb.withLevels lv).bitAt i k = (lv i (k / 64)).testBit (k % 64) := rfl

/-- Bit `k` of level `i` says whether word `k` of level `i + 1` is nonzero, the sentinel apart:
the field `up` of `Coherent` at one level. -/
def UpAt (hb : HBitmap) (i : Nat) : Prop :=
  ∀ k < 64 * hb.sizes i,
    (hb.bitAt i k = true ↔ (k < hb.sizes (i + 1) ∧ hb.levels (i + 1) k ≠ 0) ∨ (i = 0 ∧ k = 63))

/-- New words whose level `i` is kept keep what level `i` says of them. -/
theorem UpAt.withLevels {hb : HBitmap} {lv : Nat → Nat → Nat} {i : Nat} (hup : hb.UpAt i)
    (h₁ : lv i = hb.levels i) (h₂ : lv (i + 1) = hb.levels (i + 1)) : (hb.withLevels lv).UpAt i := by
  intro k hk
  rw [bitAt_withLevels, h₁, withLevels_levels, h₂]
  exact hup k hk

/-- A write that gives the nodes `R` of level `i` the value `v`, and makes the words `R`
of level `i + 1` nonzero exactly when `v`, keeps what level `i` says. -/
theorem UpAt.update {hb : HBitmap} {lv : Nat → Nat → Nat} {i : Nat} (hup : hb.UpAt i)
    (R : Nat → Prop) [DecidablePred R] (v : Bool)
    (hbit : ∀ k, (hb.withLevels lv).bitAt i k = if R k then v else hb.bitAt i k)
    (hword : ∀ k < hb.sizes (i + 1), (lv (i + 1) k ≠ 0 ↔ if R k then v = true else hb.levels (i + 1) k ≠ 0))
    (hR : ∀ k, R k → k < hb.sizes (i + 1) ∧ ¬(i = 0 ∧ k = 63)) : (hb.withLevels lv).UpAt i := by
  intro k hk
  rw [hbit, withLevels_levels, withLevels_sizes]
  by_cases hRk : R k
  · obtain ⟨hks, hsent⟩ := hR k hRk
    rw [if_pos hRk]
    have hw := hword k hks
    rw [if_pos hRk] at hw
    simp only [hks, true_and, hw, hsent, or_false]
  · rw [if_neg hRk, hup k hk]
    by_cases hks : k < hb.sizes (i + 1)
    · have hw := hword k hks
      rw [if_neg hRk] at hw
      rw [hw]
    · simp only [hks, false_and, false_or]

/-- A write of the words of level `L + 1` keeps what the levels above `L` say. -/
theorem UpAt.update_of_lt {hb : HBitmap} {L : Nat} {W : Nat → Nat} (hup : ∀ i < L + 1, hb.UpAt i) :
    ∀ i < L, (hb.withLevels (Function.update hb.levels (L + 1) W)).UpAt i := fun i hi =>
  (hup i (by omega)).withLevels (Function.update_of_ne (by omega) _ _) (Function.update_of_ne (by omega) _ _)

/-- A write of the words of level `L + 1` that keeps which of them are nonzero keeps what level
`L` says. -/
theorem UpAt.update_of_ne_zero_iff {hb : HBitmap} {L : Nat} {W : Nat → Nat} (hup : hb.UpAt L)
    (hW : ∀ k, W k ≠ 0 ↔ hb.levels (L + 1) k ≠ 0) :
    (hb.withLevels (Function.update hb.levels (L + 1) W)).UpAt L := by
  refine hup.update (fun _ => False) true (fun k => ?_) (fun k _ => ?_) (fun k hk => hk.elim)
  · rw [if_neg not_false, bitAt_withLevels, Function.update_of_ne (by omega)]
    rfl
  · rw [if_neg not_false, Function.update_self]
    exact hW k

/-- A write of 64-bit words to level `L + 1` leaves every word up to that level 64-bit. -/
theorem update_word_lt {hb : HBitmap} {L : Nat} {W : Nat → Nat}
    (hw : ∀ i ≤ L + 1, ∀ j < hb.sizes i, hb.levels i j < 2 ^ 64) (hW : ∀ j < hb.sizes (L + 1), W j < 2 ^ 64) :
    ∀ i ≤ L + 1, ∀ j < hb.sizes i, Function.update hb.levels (L + 1) W i j < 2 ^ 64 := by
  intro i hi j hj
  by_cases hiL : i = L + 1
  · subst hiL
    rw [Function.update_self]
    exact hW j hj
  · rw [Function.update_of_ne hiL]
    exact hw i hi j hj

end HBitmap

/-- After `hb_set_between` on a level, a word is nonzero if it was or if it lies in the range. -/
theorem SetsRange.ne_zero_iff {old new : Nat → Nat} {s l : Nat} {c : Bool} (h : SetsRange old new s l c)
    (hle : s ≤ l) (j : Nat) : new j ≠ 0 ↔ old j ≠ 0 ∨ (s / 64 ≤ j ∧ j ≤ l / 64) := by
  by_cases hj : s / 64 ≤ j ∧ j ≤ l / 64
  · simp only [hj, and_self, or_true, iff_true]
    -- the lowest position of the range in word `j` is set
    have hbit := h.testBit_eq j (max s (64 * j) - 64 * j) (by omega)
    rw [decide_eq_true (by omega), Bool.or_true] at hbit
    intro hzero
    rw [hzero, Nat.zero_testBit] at hbit
    exact Bool.false_ne_true hbit
  · simp only [hj, or_false, h.outside j hj]

/-- A level `hb_set_between` reports unchanged keeps which of its words are nonzero. -/
theorem SetsRange.ne_zero_iff_of_false {old new : Nat → Nat} {s l : Nat} (h : SetsRange old new s l false)
    (hle : s ≤ l) (j : Nat) : new j ≠ 0 ↔ old j ≠ 0 := by
  rw [h.ne_zero_iff hle]
  exact ⟨fun hj => hj.elim id fun hj => h.unchanged rfl j hj.1 hj.2, Or.inl⟩

/-- What `hb_set_between` from level `L` leaves, given the words `lv`. -/
structure SetPost (hb : HBitmap) (lv : Nat → Nat → Nat) (L s l : Nat) (changed : Bool) : Prop where
  above : ∀ i, L < i → lv i = hb.levels i
  level : SetsRange (hb.levels L) (lv L) s l changed
  word_lt : ∀ i ≤ L, ∀ j < hb.sizes i, lv i j < 2 ^ 64
  up : ∀ i < L, (hb.withLevels lv).UpAt i

theorem HBitmap.Shape.withLevels {hb : HBitmap} (hs : hb.Shape) (lv : Nat → Nat → Nat) : (hb.withLevels lv).Shape :=
  ⟨hs.granularity_lt, hs.size_le, hs.size_mul_lt, hs.sizes_last, hs.sizes_up⟩

/-- The bits `hb_set_between` sets on a level, read as nodes. -/
theorem SetsRange.bitAt {hb : HBitmap} {lv : Nat → Nat → Nat} {L s l : Nat} {c : Bool}
    (h : SetsRange (hb.levels L) (lv L) s l c) (k : Nat) :
    (hb.withLevels lv).bitAt L k = if s ≤ k ∧ k ≤ l then true else hb.bitAt L k := by
  rw [HBitmap.bitAt_withLevels, h.testBit_eq _ _ (Nat.mod_lt _ (by omega)), Nat.div_add_mod]
  by_cases hk : s ≤ k ∧ k ≤ l
  · rw [if_pos hk, decide_eq_true hk, Bool.or_true]
  · rw [if_neg hk, decide_eq_false hk, Bool.or_false]
    rfl

theorem hbSetBetween_spec : ∀ (L : Nat) (hb : HBitmap) {s l : Nat}, hb.Shape → L ≤ 6 → s ≤ l →
    l < 64 * hb.sizes L → (∀ i ≤ L, ∀ j < hb.sizes i, hb.levels i j < 2 ^ 64) → (∀ i < L, hb.UpAt i) →
    ∃ lv changed, hbSetBetween L hb s l = .ok (hb.withLevels lv, changed) ∧ SetPost hb lv L s l changed
  | 0, hb, s, l, _, _, hle, _, hw, _ => by
    obtain ⟨W, changed, heq, hset⟩ := hbSetLevel_spec hb 0 hle
    refine ⟨_, changed, by rw [hbSetBetween, heq], ?_⟩
    refine ⟨fun i hi => Function.update_of_ne (by omega) _ _, by simpa using hset, fun i hi j hj => ?_,
      fun i hi => absurd hi (Nat.not_lt_zero i)⟩
    obtain rfl : i = 0 := by omega
    rw [Function.update_self]
    exact hset.word_lt j (hw 0 le_rfl j hj)
  | L + 1, hb, s, l, hs, hL, hle, hl, hw, hup => by
    obtain ⟨W, changed, heq, hset⟩ := hbSetLevel_spec hb (L + 1) hle
    have hbelow : ∀ i ≤ L, Function.update hb.levels (L + 1) W i = hb.levels i :=
      fun i hi => Function.update_of_ne (by omega) _ _
    have hW : ∀ j < hb.sizes (L + 1), W j < 2 ^ 64 := fun j hj => hset.word_lt j (hw _ le_rfl j hj)
    cases changed with
    | false =>
      refine ⟨_, false, by rw [hbSetBetween, heq, ok_bind]; rfl, ?_⟩
      refine ⟨fun i hi => Function.update_of_ne (by omega) _ _, by simpa using hset, HBitmap.update_word_lt hw hW,
        fun i hi => ?_⟩
      rcases Nat.lt_or_ge i L with hiL | hiL
      · exact HBitmap.UpAt.update_of_lt hup i hiL
      -- level `L` is kept and the words below it keep being nonzero or zero
      · rw [show i = L by omega]
        exact (hup L (by omega)).update_of_ne_zero_iff (hset.ne_zero_iff_of_false hle)
    | true =>
      have hl' : l / 64 < 64 * hb.sizes L := by
        have := hs.sizes_le_mul (i := L) (by omega)
        omega
      obtain ⟨lv, c, heq', hpost⟩ := hbSetBetween_spec L (hb.withLevels (Function.update hb.levels (L + 1) W))
        (s := s / 64) (l := l / 64) (hs.withLevels _) (by omega) (Nat.div_le_div_right hle) hl'
        (fun i hi j hj => HBitmap.update_word_lt hw hW i (by omega) j hj) (HBitmap.UpAt.update_of_lt hup)
      refine ⟨lv, true, ?_, ?_⟩
      · rw [hbSetBetween, heq, ok_bind]
        dsimp only
        rw [if_pos rfl, Nat.shiftRight_eq_div_pow, Nat.shiftRight_eq_div_pow, show (2 : Nat) ^ 6 = 64 from rfl, heq',
          ok_bind]
        rfl
      have hlv : lv (L + 1) = W := by
        rw [hpost.above (L + 1) (by omega), HBitmap.withLevels_levels, Function.update_self]
      refine ⟨fun i hi => ?_, hlv ▸ hset, fun i hi j hj => ?_, fun i hi => ?_⟩
      · rw [hpost.above i (by omega), HBitmap.withLevels_levels, Function.update_of_ne (by omega)]
      · by_cases hiL : i = L + 1
        · subst hiL
          rw [hlv]
          exact hW j hj
        · exact hpost.word_lt i (by omega) j hj
      · rcases Nat.lt_or_ge i L with hiL | hiL
        · exact hpost.up i hiL
        -- the nodes of the words the level set are set on level `L`
        · rw [show i = L by omega]
          have hlevel := hpost.level
          rw [HBitmap.withLevels_levels, hbelow L le_rfl] at hlevel
          refine (hup L (by omega)).update (fun k => s / 64 ≤ k ∧ k ≤ l / 64) true (fun k => ?_) (fun k _ => ?_)
            (fun k hk => ⟨?_, ?_⟩)
          · exact @SetsRange.bitAt hb _ _ _ _ _ hlevel k
          · rw [hlv, hset.ne_zero_iff hle k]
            by_cases hk : s / 64 ≤ k ∧ k ≤ l / 64
            · simp only [hk, and_self, or_true, if_true]
            · simp only [hk, or_false, if_false]
          · omega
          · rintro ⟨rfl, rfl⟩
            have h1 : hb.sizes (0 + 1) ≤ 32 := hs.sizes_one_le
            omega

theorem HBitmap.Shape.sizes_le_two_pow {hb : HBitmap} (hs : hb.Shape) {i : Nat} (hi : i ≤ 6) :
    hb.sizes i ≤ 2 ^ 35 := by
  rcases Nat.eq_zero_or_pos i with rfl | hpos
  · rw [hs.sizes_zero]
    omega
  · have h := hs.sizes_le_pow (6 - i) (by omega)
    rw [Nat.sub_sub_self hi] at h
    exact le_trans h (Nat.pow_le_pow_right (by omega) (by omega))

/-- What `hb_reset_between` from level `L` leaves, given the words `lv`. -/
structure ResetPost (hb : HBitmap) (lv : Nat → Nat → Nat) (L s l : Nat) (changed : Bool) : Prop where
  above : ∀ i, L < i → lv i = hb.levels i
  level : ∃ p q, ClearsRange (hb.levels L) (lv L) s l changed p q
  word_lt : ∀ i ≤ L, ∀ j < hb.sizes i, lv i j < 2 ^ 64
  up : ∀ i < L, (hb.withLevels lv).UpAt i

/-- The bits `hb_reset_between` clears on a level, read as nodes. -/
theorem ClearsRange.bitAt {hb : HBitmap} {lv : Nat → Nat → Nat} {L s l : Nat} {c : Bool} {p q : Nat}
    (h : ClearsRange (hb.levels L) (lv L) s l c p q) (k : Nat) :
    (hb.withLevels lv).bitAt L k = if s ≤ k ∧ k ≤ l then false else hb.bitAt L k := by
  rw [HBitmap.bitAt_withLevels, h.testBit_eq _ _ (Nat.mod_lt _ (by omega)), Nat.div_add_mod]
  by_cases hk : s ≤ k ∧ k ≤ l
  · rw [if_pos hk, decide_eq_true hk, Bool.not_true, Bool.and_false]
  · rw [if_neg hk, decide_eq_false hk, Bool.not_false, Bool.and_true]
    rfl

theorem hbResetBetween_spec : ∀ (L : Nat) (hb : HBitmap) {s l : Nat}, hb.Shape → L ≤ 6 → s ≤ l →
    l < 64 * hb.sizes L → (∀ i ≤ L, ∀ j < hb.sizes i, hb.levels i j < 2 ^ 64) → (∀ i < L, hb.UpAt i) →
    ∃ lv changed, hbResetBetween L hb s l = .ok (hb.withLevels lv, changed) ∧ ResetPost hb lv L s l changed
  | 0, hb, s, l, hs, _, hle, hl, hw, _ => by
    have hl64 : l < 2 ^ 64 := by
      have := hs.sizes_le_two_pow (i := 0) (by omega)
      omega
    obtain ⟨W, changed, p, q, heq, hclear⟩ := hbResetLevel_spec hb 0 hle hl64
    refine ⟨_, changed, by rw [hbResetBetween, heq, ok_bind]; rfl, ?_⟩
    refine ⟨fun i hi => Function.update_of_ne (by omega) _ _, ⟨p, q, by simpa using hclear⟩, fun i hi j hj => ?_,
      fun i hi => absurd hi (Nat.not_lt_zero i)⟩
    obtain rfl : i = 0 := by omega
    rw [Function.update_self]
    exact hclear.word_lt j (hw 0 le_rfl j hj)
  | L + 1, hb, s, l, hs, hL, hle, hl, hw, hup => by
    have hl64 : l < 2 ^ 64 := by
      have := hs.sizes_le_two_pow (i := L + 1) hL
      omega
    obtain ⟨W, changed, p, q, heq, hclear⟩ := hbResetLevel_spec hb (L + 1) hle hl64
    have hbelow : ∀ i ≤ L, Function.update hb.levels (L + 1) W i = hb.levels i :=
      fun i hi => Function.update_of_ne (by omega) _ _
    have hW : ∀ j < hb.sizes (L + 1), W j < 2 ^ 64 := fun j hj => hclear.word_lt j (hw _ le_rfl j hj)
    cases changed with
    | false =>
      refine ⟨_, false, by rw [hbResetBetween, heq, ok_bind]; rfl, ?_⟩
      refine ⟨fun i hi => Function.update_of_ne (by omega) _ _, ⟨p, q, by simpa using hclear⟩,
        HBitmap.update_word_lt hw hW, fun i hi => ?_⟩
      rcases Nat.lt_or_ge i L with hiL | hiL
      · exact HBitmap.UpAt.update_of_lt hup i hiL
      -- level `L` is kept and the words below it keep being nonzero or zero
      · rw [show i = L by omega]
        exact (hup L (by omega)).update_of_ne_zero_iff fun k => hclear.kept k fun h => Bool.false_ne_true h.1
    | true =>
      obtain ⟨hpq, hql, hzero⟩ := hclear.blanked rfl
      have hq : q < 64 * hb.sizes L := by
        have := hs.sizes_le_mul (i := L) (by omega)
        omega
      obtain ⟨lv, c, heq', hpost⟩ := hbResetBetween_spec L (hb.withLevels (Function.update hb.levels (L + 1) W))
        (s := p) (l := q) (hs.withLevels _) (by omega) hpq hq
        (fun i hi j hj => HBitmap.update_word_lt hw hW i (by omega) j hj) (HBitmap.UpAt.update_of_lt hup)
      refine ⟨lv, true, ?_, ?_⟩
      · rw [hbResetBetween, heq, ok_bind]
        dsimp only
        rw [if_pos rfl, heq', ok_bind]
        rfl
      have hlv : lv (L + 1) = W := by
        rw [hpost.above (L + 1) (by omega), HBitmap.withLevels_levels, Function.update_self]
      refine ⟨fun i hi => ?_, ⟨p, q, hlv ▸ hclear⟩, fun i hi j hj => ?_, fun i hi => ?_⟩
      · rw [hpost.above i (by omega), HBitmap.withLevels_levels, Function.update_of_ne (by omega)]
      · by_cases hiL : i = L + 1
        · subst hiL
          rw [hlv]
          exact hW j hj
        · exact hpost.word_lt i (by omega) j hj
      · rcases Nat.lt_or_ge i L with hiL | hiL
        · exact hpost.up i hiL
        -- the nodes of the words the level blanked are cleared on level `L`
        · rw [show i = L by omega]
          obtain ⟨p', q', hlevel⟩ := hpost.level
          rw [HBitmap.withLevels_levels, hbelow L le_rfl] at hlevel
          refine (hup L (by omega)).update (fun k => p ≤ k ∧ k ≤ q) false (fun k => ?_) (fun k _ => ?_)
            (fun k hk => ⟨by omega, ?_⟩)
          · exact @ClearsRange.bitAt hb _ _ _ _ _ _ _ hlevel k
          · rw [hlv]
            by_cases hk : p ≤ k ∧ k ≤ q
            · simp only [hk, and_self, if_true, hzero k hk.1 hk.2, ne_eq, not_true_eq_false, Bool.false_eq_true]
            · rw [if_neg hk]
              exact hclear.kept k fun h => hk h.2
          · rintro ⟨rfl, rfl⟩
            have h1 : hb.sizes (0 + 1) ≤ 32 := hs.sizes_one_le
            omega

theorem hbSetLevel_of_lt {hb : HBitmap} {L s l : Nat} (hlt : l < s) : hbSetLevel hb L s l = .error .assertion := by
  have hpos : ¬(s >>> 6 < l >>> 6) := by
    rw [Nat.shiftRight_eq_div_pow, Nat.shiftRight_eq_div_pow]
    exact Nat.not_lt.mpr (Nat.div_le_div_right hlt.le)
  unfold hbSetLevel
  dsimp only
  rw [if_neg hpos, pure_bind]
  dsimp only
  unfold hbSetElem
  split_ifs <;> first | rfl | omega

theorem le_of_hbSetBetween {hb : HBitmap} {L s l : Nat} {r : HBitmap × Bool} (h : hbSetBetween L hb s l = .ok r) :
    s ≤ l := by
  by_contra hlt
  cases L <;> rw [hbSetBetween, hbSetLevel_of_lt (Nat.lt_of_not_le hlt)] at h <;> cases h

/-- `hb_set_between` over the last level of a coherent bitmap, for groups below `size`. -/
theorem hbSetBetween_coherent {hb : HBitmap} (hv : hb.Coherent) {s l : Nat} (hle : s ≤ l) (hl : l < hb.size) :
    ∃ lv changed, hbSetBetween 6 hb s l = .ok (hb.withLevels lv, changed) ∧ (hb.withLevels lv).Coherent ∧
      (hb.withLevels lv).groups = hb.groups ∪ Finset.Icc s l := by
  have hl' : l < 64 * hb.sizes 6 := by
    have := le_mul_wordsAbove hb.size
    rw [hv.sizes_last]
    omega
  obtain ⟨lv, changed, heq, hpost⟩ := hbSetBetween_spec 6 hb hv.toShape le_rfl hle hl' hv.word_lt hv.up
  have hbit : ∀ r, (hb.withLevels lv).bit r = if s ≤ r ∧ r ≤ l then true else hb.bit r := hpost.level.bitAt
  refine ⟨lv, changed, heq, ⟨hv.toShape.withLevels lv, hpost.word_lt, fun r hr hr' => ?_, hpost.up⟩, ?_⟩
  · rw [hbit, if_neg (by simp only [HBitmap.withLevels_size] at hr; omega)]
    exact hv.last_clear r hr hr'
  · ext r
    simp only [HBitmap.mem_groups, HBitmap.withLevels_size, hbit, Finset.mem_union, Finset.mem_Icc]
    by_cases hr : s ≤ r ∧ r ≤ l
    · simp only [hr, if_true, and_self, or_true, iff_true, and_true]
      omega
    · simp only [hr, if_false, or_false]

theorem hbResetLevel_of_lt {hb : HBitmap} {L s l : Nat} (hlt : l < s) :
    hbResetLevel hb L s l = .error .assertion := by
  have hpos : ¬(s >>> 6 < l >>> 6) := by
    rw [Nat.shiftRight_eq_div_pow, Nat.shiftRight_eq_div_pow]
    exact Nat.not_lt.mpr (Nat.div_le_div_right hlt.le)
  unfold hbResetLevel
  dsimp only
  rw [if_neg hpos, pure_bind]
  dsimp only
  unfold hbResetElem
  split_ifs <;> first | rfl | omega

theorem le_of_hbResetBetween {hb : HBitmap} {L s l : Nat} {r : HBitmap × Bool}
    (h : hbResetBetween L hb s l = .ok r) : s ≤ l := by
  by_contra hlt
  cases L <;> rw [hbResetBetween, hbResetLevel_of_lt (Nat.lt_of_not_le hlt)] at h <;> cases h

/-- `hb_reset_between` over the last level of a coherent bitmap, for groups below `size`. -/
theorem hbResetBetween_coherent {hb : HBitmap} (hv : hb.Coherent) {s l : Nat} (hle : s ≤ l) (hl : l < hb.size) :
    ∃ lv changed, hbResetBetween 6 hb s l = .ok (hb.withLevels lv, changed) ∧ (hb.withLevels lv).Coherent ∧
      (hb.withLevels lv).groups = hb.groups \ Finset.Icc s l := by
  have hl' : l < 64 * hb.sizes 6 := by
    have := le_mul_wordsAbove hb.size
    rw [hv.sizes_last]
    omega
  obtain ⟨lv, changed, heq, hpost⟩ := hbResetBetween_spec 6 hb hv.toShape le_rfl hle hl' hv.word_lt hv.up
  obtain ⟨p, q, hlevel⟩ := hpost.level
  have hbit : ∀ r, (hb.withLevels lv).bit r = if s ≤ r ∧ r ≤ l then false else hb.bit r := hlevel.bitAt
  refine ⟨lv, changed, heq, ⟨hv.toShape.withLevels lv, hpost.word_lt, fun r hr hr' => ?_, hpost.up⟩, ?_⟩
  · rw [hbit]
    split
    · rfl
    · exact hv.last_clear r hr hr'
  · ext r
    simp only [HBitmap.mem_groups, HBitmap.withLevels_size, hbit, Finset.mem_sdiff, Finset.mem_Icc]
    by_cases hr : s ≤ r ∧ r ≤ l
    · simp [hr]
    · simp only [hr, if_false, not_false_eq_true, and_true]

/-- `count` is no part of the levels' coherence. -/
theorem HBitmap.Coherent.setCount {hb : HBitmap} (hv : hb.Coherent) (n : Nat) :
    ({ hb with count := n } : HBitmap).Coherent :=
  ⟨⟨hv.granularity_lt, hv.size_le, hv.size_mul_lt, hv.sizes_last, hv.sizes_up⟩, hv.word_lt, hv.last_clear, hv.up⟩

/-- A successful `hb_set_between` from the last level, on a coherent bitmap whose `count`
`hbitmap_set` has just updated. -/
theorem hbSetBetween_coherent_of_ok {hb hb' : HBitmap} {n s l : Nat} {changed : Bool}
    (h : hbSetBetween 6 { hb with count := n } s l = .ok (hb', changed)) (hv : hb.Coherent) (hl : l < hb.size) :
    hb'.Coherent ∧ hb'.groups = hb.groups ∪ Finset.Icc s l ∧
      hb'.size = hb.size ∧ hb'.granularity = hb.granularity ∧ hb'.sizes = hb.sizes := by
  obtain ⟨lv, ch, heq, hcoh, hgroups⟩ := hbSetBetween_coherent (hv.setCount n) (le_of_hbSetBetween h) hl
  rw [heq] at h
  obtain ⟨rfl, -⟩ := Prod.mk.inj (Except.ok.inj h)
  exact ⟨hcoh, hgroups, rfl, rfl, rfl⟩

/-- A successful `hb_reset_between` from the last level, on a coherent bitmap whose `count`
`hbitmap_reset` has just updated. -/
theorem hbResetBetween_coherent_of_ok {hb hb' : HBitmap} {n s l : Nat} {changed : Bool}
    (h : hbResetBetween 6 { hb with count := n } s l = .ok (hb', changed)) (hv : hb.Coherent) (hl : l < hb.size) :
    hb'.Coherent ∧ hb'.groups = hb.groups \ Finset.Icc s l ∧
      hb'.size = hb.size ∧ hb'.granularity = hb.granularity ∧ hb'.sizes = hb.sizes := by
  obtain ⟨lv, ch, heq, hcoh, hgroups⟩ := hbResetBetween_coherent (hv.setCount n) (le_of_hbResetBetween h) hl
  rw [heq] at h
  obtain ⟨rfl, -⟩ := Prod.mk.inj (Except.ok.inj h)
  exact ⟨hcoh, hgroups, rfl, rfl, rfl⟩

/-- `hbitmap_set` keeps a bitmap coherent and sets the groups `first … last` of its range. -/
theorem hbitmapSetOwn_coherent {hb hb' : HBitmap} {start count : Nat} {changed : Bool} (hv : hb.Coherent)
    (h : hbitmapSetOwn hb start count = .ok (hb', changed)) :
    hb'.Coherent ∧ hb'.groups = hb.groups ∪ Finset.Icc (start >>> hb.granularity)
        (((start + count + 2 ^ 64 - 1) % 2 ^ 64) >>> hb.granularity) ∧
      hb'.size = hb.size ∧ hb'.granularity = hb.granularity ∧ hb'.sizes = hb.sizes := by
  unfold hbitmapSetOwn at h
  dsimp only at h
  split_ifs at h with hlast
  obtain ⟨c, -, hbetween⟩ := bind_eq_ok.mp h
  exact hbSetBetween_coherent_of_ok hbetween hv hlast

/-- `hbitmap_reset` keeps a bitmap coherent and clears the groups `first … last` of its range. -/
theorem hbitmapResetOwn_coherent {hb hb' : HBitmap} {start count : Nat} {changed : Bool} (hv : hb.Coherent)
    (h : hbitmapResetOwn hb start count = .ok (hb', changed)) :
    hb'.Coherent ∧ hb'.groups = hb.groups \ Finset.Icc (start >>> hb.granularity)
        (((start + count + 2 ^ 64 - 1) % 2 ^ 64) >>> hb.granularity) ∧
      hb'.size = hb.size ∧ hb'.granularity = hb.granularity ∧ hb'.sizes = hb.sizes := by
  unfold hbitmapResetOwn at h
  dsimp only at h
  split_ifs at h with hlast
  obtain ⟨c, -, hbetween⟩ := bind_eq_ok.mp h
  exact hbResetBetween_coherent_of_ok hbetween hv hlast

/-! ## With the meta bitmap -/

/-- The meta bitmap after `hbitmap_set` or `hbitmap_reset`: the same one, or the old one with
`hbitmap_set` applied. -/
def MetaStep (start count : Nat) (mb mb' : Option HBitmap) : Prop :=
  mb' = mb ∨ ∃ m m' c, mb = some m ∧ mb' = some m' ∧ hbitmapSetOwn m start count = .ok (m', c)

/-- The update of `hb->meta` that ends `hbitmap_set` and `hbitmap_reset`. -/
theorem metaStep_of_update {hb hb' : HBitmap} {mb mb' : Option HBitmap} {start count : Nat} {changed : Bool}
    (h : (match mb with
      | some m =>
          if changed then do
            let (m, _) ← hbitmapSetOwn m start count
            pure (hb, some m)
          else pure (hb, mb)
      | none => pure (hb, none) : Except HbFault (HBitmap × Option HBitmap)) = .ok (hb', mb')) :
    hb' = hb ∧ MetaStep start count mb mb' := by
  rcases mb with _ | m
  · cases h
    exact ⟨rfl, .inl rfl⟩
  · cases changed
    · cases h
      exact ⟨rfl, .inl rfl⟩
    · obtain ⟨⟨m', c⟩, hown, hpure⟩ := bind_eq_ok.mp h
      cases hpure
      exact ⟨rfl, .inr ⟨m, m', c, rfl, rfl, hown⟩⟩

theorem hbitmapSet_eq_ok {hb hb' : HBitmap} {mb mb' : Option HBitmap} {start count : Nat}
    (h : hbitmapSet hb mb start count = .ok (hb', mb')) :
    (∃ c, hbitmapSetOwn hb start count = .ok (hb', c)) ∧ MetaStep start count mb mb' := by
  obtain ⟨⟨hb₁, c⟩, hown, hmeta⟩ := bind_eq_ok.mp h
  obtain ⟨rfl, hstep⟩ := metaStep_of_update hmeta
  exact ⟨⟨c, hown⟩, hstep⟩

theorem hbitmapReset_eq_ok {hb hb' : HBitmap} {mb mb' : Option HBitmap} {start count : Nat}
    (h : hbitmapReset hb mb start count = .ok (hb', mb')) :
    (∃ c, hbitmapResetOwn hb start count = .ok (hb', c)) ∧ MetaStep start count mb mb' := by
  obtain ⟨⟨hb₁, c⟩, hown, hmeta⟩ := bind_eq_ok.mp h
  obtain ⟨rfl, hstep⟩ := metaStep_of_update hmeta
  exact ⟨⟨c, hown⟩, hstep⟩

/-- `hb_set_between` on one level over several words reports no change when its edge words
already hold the range's bits and every word between them is nonzero, full or not. -/
theorem hbSetLevel_unchanged {hb hb' : HBitmap} {L s l : Nat} {changed : Bool}
    (h : hbSetLevel hb L s l = .ok (hb', changed)) {w : Nat → Nat} (hw : hb.levels L = w) (hlt : s / 64 < l / 64)
    (hfirst : w (s / 64) ||| elemMask s (64 * (s / 64) + 63) = w (s / 64))
    (hmid : ∀ j, s / 64 < j → j < l / 64 → w j ≠ 0)
    (hlast : w (l / 64) ||| elemMask (64 * (l / 64)) l = w (l / 64)) : changed = false := by
  subst hw
  unfold hbSetLevel at h
  simp only [Nat.shiftRight_eq_div_pow, show (2 : Nat) ^ 6 = 64 from rfl] at h
  rw [if_pos hlt, or_63_eq, show 64 * (s / 64) + 63 + 1 - 1 = 64 * (s / 64) + 63 by omega,
    hbSetElem_eq (by omega) (by omega), ok_bind, hfirst, bne_self_eq_false] at h
  -- the loop over the middle words finds none of them zero
  obtain ⟨c', hloop, hc'⟩ := @fillLoop_spec (2 ^ 64 - 1) (· == 0) (l / 64) (l / 64 - s / 64)
    (Function.update (hb.levels L) (s / 64) (hb.levels L (s / 64))) (s / 64) false (by omega) (by omega)
  have hc'0 : c' = false := hc'.mpr ⟨rfl, fun j h₁ h₂ => by
    rw [Function.update_of_ne (by omega)]
    simpa using hmid j h₁ h₂⟩
  rw [show 64 * (s / 64) + 63 + 1 = 64 * (s / 64 + 1) by omega, setBetweenLoop_eq_fillLoop, hloop, pure_bind] at h
  dsimp only at h
  rw [Function.update_self, fillBetween, if_neg (by omega), Function.update_of_ne (by omega),
    hbSetElem_eq (by omega) (by omega), ok_bind, hlast, bne_self_eq_false, hc'0] at h
  exact (Prod.mk.inj (Except.ok.inj h)).2.symm

/-- `hbitmap_set` sets the meta bitmap only when `hb_set_between` reports a change, and on
the last level a word strictly inside the range counts as changed only when it was zero.  So a
range over several words whose edge words already hold its bits and whose middle words are
nonzero reports none, and the meta bitmap comes back as it was, though a middle word that was
not full gains bits.  With groups 0…63, 100 and 128…191 set and the meta bitmap clear,
setting 0…191 adds 63 groups and leaves the meta bitmap empty. -/
theorem hbitmapSet_fills_words_skips_meta :
    (∀ (hb m hb' : HBitmap) (mb' : Option HBitmap) (start count : Nat),
        start >>> hb.granularity / 64 < ((start + count + 2 ^ 64 - 1) % 2 ^ 64) >>> hb.granularity / 64 →
        hb.levels 6 (start >>> hb.granularity / 64) |||
            elemMask (start >>> hb.granularity) (64 * (start >>> hb.granularity / 64) + 63) =
          hb.levels 6 (start >>> hb.granularity / 64) →
        (∀ j, start >>> hb.granularity / 64 < j →
          j < ((start + count + 2 ^ 64 - 1) % 2 ^ 64) >>> hb.granularity / 64 → hb.levels 6 j ≠ 0) →
        hb.levels 6 (((start + count + 2 ^ 64 - 1) % 2 ^ 64) >>> hb.granularity / 64) |||
            elemMask (64 * (((start + count + 2 ^ 64 - 1) % 2 ^ 64) >>> hb.granularity / 64))
              (((start + count + 2 ^ 64 - 1) % 2 ^ 64) >>> hb.granularity) =
          hb.levels 6 (((start + count + 2 ^ 64 - 1) % 2 ^ 64) >>> hb.granularity / 64) →
        hbitmapSet hb (some m) start count = .ok (hb', mb') → mb' = some m) ∧
      (do
        let hb ← hbitmapAlloc 192 0
        let m ← hbitmapCreateMeta hb none 1
        let (hb, _) ← hbitmapSetOwn hb 0 64
        let (hb, _) ← hbitmapSetOwn hb 100 1
        let (hb, _) ← hbitmapSetOwn hb 128 64
        let (hb', mb') ← hbitmapSet hb (some m) 0 192
        pure (hb.count, hb'.count, mb'.map (·.count)) : Except HbFault (Nat × Nat × Option Nat)) =
        .ok (129, 192, some 0) := by
  refine ⟨fun hb m hb' mb' start count hlt hfirst hmid hlast hset => ?_, by decide⟩
  obtain ⟨⟨hb'', changed⟩, hown, hmeta⟩ := bind_eq_ok.mp hset
  unfold hbitmapSetOwn at hown
  dsimp only at hown
  split_ifs at hown with hlastlt
  obtain ⟨c, -, hbetween⟩ := bind_eq_ok.mp hown
  -- the last level reports no change, so nothing goes up and the meta bitmap is left
  rw [hbSetBetween] at hbetween
  obtain ⟨⟨hb₁, ch⟩, hlevel, hup⟩ := bind_eq_ok.mp hbetween
  obtain rfl := hbSetLevel_unchanged hlevel rfl hlt hfirst hmid hlast
  obtain ⟨-, rfl⟩ := Prod.mk.inj (Except.ok.inj hup)
  have hsame : hb' = hb'' ∧ mb' = some m := by simpa [pure, Except.pure] using hmeta.symm
  exact hsame.2

/-- The example's bitmap: groups 0…63, 100 and 128…191 set, with a clear meta bitmap. -/
def edgeWordsSetup : Except HbFault (HBitmap × HBitmap) := do
  let hb ← hbitmapAlloc 192 0
  let m ← hbitmapCreateMeta hb none 1
  let (hb, _) ← hbitmapSetOwn hb 0 64
  let (hb, _) ← hbitmapSetOwn hb 100 1
  let (hb, _) ← hbitmapSetOwn hb 128 64
  pure (hb, m)

/-- The general part at that bitmap: the edge words of 0…191 are full and the middle word holds
group 100, so setting 0…191 hands back the meta bitmap untouched. -/
theorem hbitmapSet_fills_words_skips_meta_example :
    ∃ hb m hb' mb', edgeWordsSetup = .ok (hb, m) ∧ hbitmapSet hb (some m) 0 192 = .ok (hb', mb') ∧
      hb.levels 6 1 = 2 ^ 36 ∧ mb' = some m := by
  obtain ⟨⟨hb, m⟩, hrun⟩ := exists_ok_of_isOk (x := edgeWordsSetup) (by decide)
  -- what the general part needs of the bitmap, evaluated once on the run's result
  have hfacts : (edgeWordsSetup.map fun p : HBitmap × HBitmap => decide (
      p.1.granularity = 0 ∧ p.1.levels 6 1 = 2 ^ 36 ∧
      p.1.levels 6 0 ||| elemMask 0 63 = p.1.levels 6 0 ∧
      p.1.levels 6 2 ||| elemMask 128 191 = p.1.levels 6 2 ∧
      (hbitmapSet p.1 (some p.2) 0 192).isOk = true)) = .ok true := by
    decide
  rw [hrun] at hfacts
  obtain ⟨hgran, hmid1, hfirst, hlast, hok⟩ := of_decide_eq_true (Except.ok.inj hfacts)
  obtain ⟨⟨hb', mb'⟩, hset⟩ := exists_ok_of_isOk hok
  have hmid : ∀ j, 0 >>> hb.granularity / 64 < j →
      j < ((0 + 192 + 2 ^ 64 - 1) % 2 ^ 64) >>> hb.granularity / 64 → hb.levels 6 j ≠ 0 := by
    intro j h₁ h₂
    rw [hgran] at h₁ h₂
    obtain rfl : j = 1 := by
      simp only [Nat.shiftRight_zero] at h₁ h₂
      omega
    rw [hmid1]
    exact Nat.pos_iff_ne_zero.mp (Nat.two_pow_pos 36)
  refine ⟨hb, m, hb', mb', hrun, hset, hmid1,
    hbitmapSet_fills_words_skips_meta.1 hb m hb' mb' 0 192 (by rw [hgran]; decide) (by rw [hgran]; exact hfirst)
      hmid (by rw [hgran]; exact hlast) hset⟩

end Xqemu.Util
