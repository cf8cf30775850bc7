import Xqemu.Util.Hbitmap
import Xqemu.Lib.ErrorsIn

/-!
# Setting and resetting ranges of a hierarchical bitmap

`hb_set_between` and `hb_reset_between` work on one level and go up when the
level changed in the way the level above records: for setting, a word that
became nonzero; for resetting, a word that became zero.  Their value is also
what `hbitmap_set` and `hbitmap_reset` read to decide whether to update the
meta bitmap, so a reset that clears bits of a word and leaves others set
reports nothing.
-/

namespace Xqemu.Util

open Xqemu.Faults

section Reset

variable {hb : HBitmap} {level start last : Nat}

theorem hbResetElem_of_kept {elem : Nat} (hpos : start >>> 6 = last >>> 6) (hle : start ≤ last)
    (hkept : elem &&& (elemMask start last ^^^ (2 ^ 64 - 1)) ≠ 0) :
    hbResetElem elem start last = .ok (elem &&& (elemMask start last ^^^ (2 ^ 64 - 1)), false) := by
  unfold hbResetElem
  rw [if_neg (not_not_intro hpos.symm), if_neg (not_not_intro hle)]
  dsimp only
  rw [beq_false_of_ne hkept, Bool.and_false]
  rfl

/-- A reset inside one word that keeps a bit of it set blanks nothing. -/
theorem hbResetLevel_within_word (hpos : start >>> 6 = last >>> 6) (hle : start ≤ last)
    (hkept : hb.levels level (start >>> 6) &&& (elemMask start last ^^^ (2 ^ 64 - 1)) ≠ 0) :
    hbResetLevel hb level start last =
      .ok (hb.setWord level (start >>> 6) (hb.levels level (start >>> 6) &&& (elemMask start last ^^^ (2 ^ 64 - 1))),
        false, start >>> 6, ((last >>> 6) + 2 ^ 64 - 1) % 2 ^ 64) := by
  unfold hbResetLevel
  dsimp only
  rw [if_neg (by omega), pure_bind]
  dsimp only
  rw [hbResetElem_of_kept hpos hle hkept, ok_bind]
  simp only [Bool.or_false, Bool.false_eq_true, if_false, hpos]
  rfl

theorem hbResetBetween_within_word (hpos : start >>> 6 = last >>> 6) (hle : start ≤ last)
    (hkept : hb.levels level (start >>> 6) &&& (elemMask start last ^^^ (2 ^ 64 - 1)) ≠ 0) :
    ∃ hb', hbResetBetween level hb start last = .ok (hb', false) := by
  cases level with
  | zero =>
    rw [hbResetBetween, hbResetLevel_within_word hpos hle hkept, ok_bind]
    exact ⟨_, rfl⟩
  | succ level =>
    rw [hbResetBetween, hbResetLevel_within_word hpos hle hkept, ok_bind]
    exact ⟨_, rfl⟩

end Reset

/-- `hbitmap_reset` sets the meta bitmap only when `hb_reset_between` reports a change,
and a reset inside one word that keeps a bit of it reports none: the meta bitmap comes
back as it was.  After setting groups 0 and 1 and clearing the meta bitmap, resetting
group 0 changes it and leaves the meta bit of group 0 clear. -/
theorem hbitmapReset_within_word_skips_meta :
    (∀ (hb m hb' : HBitmap) (mb' : Option HBitmap) (start count : Nat),
        start >>> hb.granularity >>> 6 = ((start + count + 2 ^ 64 - 1) % 2 ^ 64) >>> hb.granularity >>> 6 →
        start >>> hb.granularity ≤ ((start + count + 2 ^ 64 - 1) % 2 ^ 64) >>> hb.granularity →
        hb.levels 6 (start >>> hb.granularity >>> 6) &&&
            (elemMask (start >>> hb.granularity) (((start + count + 2 ^ 64 - 1) % 2 ^ 64) >>> hb.granularity) ^^^
              (2 ^ 64 - 1)) ≠ 0 →
        hbitmapReset hb (some m) start count = .ok (hb', mb') → mb' = some m) ∧
      (do
        let hb ← hbitmapAlloc 64 0
        let m ← hbitmapCreateMeta hb none 1
        let (hb, mb) ← hbitmapSet hb (some m) 0 2
        let (hb', mb) ← hbitmapReset hb (mb.map hbitmapResetAll) 0 1
        match mb with
        | some m => do
            let inMeta ← hbitmapGet m 0
            pure (hb.bit 0, hb'.bit 0, inMeta)
        | none => throw .assertion : Except HbFault (Bool × Bool × Bool)) = .ok (true, false, false) := by
  refine ⟨fun hb m hb' mb' start count hpos hle hkept hreset => ?_, by decide +kernel⟩
  obtain ⟨⟨hb'', changed⟩, hown, hmeta⟩ := bind_eq_ok.mp hreset
  unfold hbitmapResetOwn at hown
  dsimp only at hown
  split_ifs at hown with hlast
  obtain ⟨c, -, hbetween⟩ := bind_eq_ok.mp hown
  obtain ⟨hb₁, hnochange⟩ :=
    @hbResetBetween_within_word { hb with count := (hb.count + 2 ^ 64 - c) % 2 ^ 64 } 6 _ _ hpos hle hkept
  rw [hnochange] at hbetween
  obtain ⟨-, rfl⟩ := Prod.mk.inj (Except.ok.inj hbetween)
  have hsame : hb' = hb'' ∧ mb' = some m := by simpa [pure, Except.pure] using hmeta.symm
  exact hsame.2

end Xqemu.Util
