import Xqemu.Util.HbitmapTruncate

/-!
# Runs of bitmap calls refine a set of groups

A bitmap of `size` groups stands for the set of the groups it has set (`GroupSet`).  On a
bitmap with no meta bitmap, `hbitmap_set` adds the groups of its range, `hbitmap_reset`
removes them, `hbitmap_reset_all` empties the set and `hbitmap_truncate` keeps the groups below
the new size.  A range that is not empty, does not wrap past `2^64` and ends inside the bitmap,
and a truncation that does not wrap and keeps at most `2^41` groups, pass every assertion of
the code.  So a run of such calls from a valid bitmap never aborts, keeps the bitmap valid, and
leaves the set that the abstract machine `GroupSet.run` reaches (`hbRun_refines`).
-/

namespace Xqemu.Util

open Xqemu.Faults

/-! ## Calls that pass their assertions -/

theorem shiftRight_mono_left {a b : Nat} (h : a ≤ b) (g : Nat) : a >>> g ≤ b >>> g := by
  rw [Nat.shiftRight_eq_div_pow, Nat.shiftRight_eq_div_pow]
  exact Nat.div_le_div_right h

/-- `hb_set_between` from the last level on a range inside a coherent bitmap, whatever `count`
`hbitmap_set` has just stored. -/
theorem hbSetBetween_ok {hb : HBitmap} (hc : hb.Coherent) (n : Nat) {s l : Nat} (hle : s ≤ l) (hl : l < hb.size) :
    ∃ r, hbSetBetween 6 { hb with count := n } s l = .ok r := by
  obtain ⟨lv, changed, heq, -⟩ := hbSetBetween_coherent (hc.setCount n) hle hl
  exact ⟨_, heq⟩

theorem hbResetBetween_ok {hb : HBitmap} (hc : hb.Coherent) (n : Nat) {s l : Nat} (hle : s ≤ l) (hl : l < hb.size) :
    ∃ r, hbResetBetween 6 { hb with count := n } s l = .ok r := by
  obtain ⟨lv, changed, heq, -⟩ := hbResetBetween_coherent (hc.setCount n) hle hl
  exact ⟨_, heq⟩

/-- `hbitmap_set` on a range that ends inside the bitmap passes its assertions. -/
theorem hbitmapSetOwn_ok {hb : HBitmap} (hc : hb.Coherent) {start count : Nat} (hcount : 0 < count)
    (hend : start + count ≤ 2 ^ 64) (hl : (start + count - 1) >>> hb.granularity < hb.size) :
    ∃ r, hbitmapSetOwn hb start count = .ok r := by
  have hlast : (start + count + 2 ^ 64 - 1) % 2 ^ 64 = start + count - 1 :=
    TwosComplement.add_two_pow_sub_one_mod (by omega) hend
  have hfirst := shiftRight_mono_left (show start ≤ start + count - 1 by omega) hb.granularity
  unfold hbitmapSetOwn
  dsimp only
  rw [hlast, if_neg (not_not_intro hl), hbCountBetween_eq hc (lt_of_le_of_lt hfirst hl) hl, ok_bind]
  exact hbSetBetween_ok hc _ hfirst hl

/-- `hbitmap_reset` on a range that ends inside the bitmap passes its assertions. -/
theorem hbitmapResetOwn_ok {hb : HBitmap} (hc : hb.Coherent) {start count : Nat} (hcount : 0 < count)
    (hend : start + count ≤ 2 ^ 64) (hl : (start + count - 1) >>> hb.granularity < hb.size) :
    ∃ r, hbitmapResetOwn hb start count = .ok r := by
  have hlast : (start + count + 2 ^ 64 - 1) % 2 ^ 64 = start + count - 1 :=
    TwosComplement.add_two_pow_sub_one_mod (by omega) hend
  have hfirst := shiftRight_mono_left (show start ≤ start + count - 1 by omega) hb.granularity
  unfold hbitmapResetOwn
  dsimp only
  rw [hlast, if_neg (not_not_intro hl), hbCountBetween_eq hc (lt_of_le_of_lt hfirst hl) hl, ok_bind]
  exact hbResetBetween_ok hc _ hfirst hl

theorem hbitmapSet_none {hb hb' : HBitmap} {start count : Nat} {changed : Bool}
    (h : hbitmapSetOwn hb start count = .ok (hb', changed)) : hbitmapSet hb none start count = .ok (hb', none) := by
  rw [hbitmapSet, h]
  rfl

theorem hbitmapReset_none {hb hb' : HBitmap} {start count : Nat} {changed : Bool}
    (h : hbitmapResetOwn hb start count = .ok (hb', changed)) :
    hbitmapReset hb none start count = .ok (hb', none) := by
  rw [hbitmapReset, h]
  rfl

/-- `hbitmap_truncate` to at most `2^41` groups passes its assertions, those of the reset of
the groups it drops included, and leaves no meta bitmap where there was none. -/
theorem hbitmapTruncateOwn_ok {hb : HBitmap} (hv : hb.Valid) {n : Nat}
    (hle : ((n + (1 <<< hb.granularity) - 1) % 2 ^ 64) >>> hb.granularity ≤ 2 ^ 41) :
    ∃ hb' resized, hbitmapTruncateOwn hb none n = .ok (hb', none, resized) := by
  unfold hbitmapTruncateOwn
  generalize hs : ((n + (1 <<< hb.granularity) - 1) % 2 ^ 64) >>> hb.granularity = s at hle ⊢
  dsimp only
  rw [if_neg (not_not_intro (by rw [Nat.one_shiftLeft]; exact hle))]
  by_cases hsame : s = hb.size
  · rw [if_pos hsame]
    exact ⟨_, _, rfl⟩
  rw [if_neg hsame]
  by_cases hlt : s < hb.size
  · -- shrinking: the groups from `s` on are reset first, a range that ends at the old size
    rw [decide_eq_true hlt, if_pos rfl, roundUp_two_pow n hv.granularity_lt, hs]
    obtain ⟨hfc, hB⟩ := truncate_fixCount hv hlt
    have hA := hv.size_mul_lt
    rw [hfc, if_neg (by omega), Nat.shiftLeft_eq]
    have hl : (s * 2 ^ hb.granularity + (hb.size * 2 ^ hb.granularity - s * 2 ^ hb.granularity) - 1) >>>
        hb.granularity < hb.size := by
      rw [Nat.shiftRight_eq_div_pow, Nat.div_lt_iff_lt_mul (Nat.two_pow_pos _)]
      omega
    obtain ⟨⟨hb₁, c⟩, hown⟩ := hbitmapResetOwn_ok hv.toCoherent (by omega) (by omega) hl
    rw [hbitmapReset_none hown, ok_bind]
    exact ⟨_, _, rfl⟩
  · -- growing: nothing is reset
    rw [decide_eq_false hlt, if_neg Bool.false_ne_true]
    exact ⟨_, _, rfl⟩

/-! ## The abstract machine -/

/-- One call on a bitmap. -/
inductive HbOp
  | set (start count : Nat)
  | reset (start count : Nat)
  | resetAll
  | truncate (size : Nat)
  deriving DecidableEq, Repr

/-- What a bitmap stands for: its number of groups, and the groups that are set. -/
@[ext]
structure GroupSet where
  size : Nat
  groups : Finset Nat
  deriving DecidableEq

/-- The groups of the elements `[start, start + count)` at granularity `g`. -/
def rangeGroups (g start count : Nat) : Finset Nat :=
  Finset.Icc (start / 2 ^ g) ((start + count - 1) / 2 ^ g)

/-- What each call does to the set. -/
def GroupSet.step (g : Nat) (σ : GroupSet) : HbOp → GroupSet
  | .set start count => ⟨σ.size, σ.groups ∪ rangeGroups g start count⟩
  | .reset start count => ⟨σ.size, σ.groups \ rangeGroups g start count⟩
  | .resetAll => ⟨σ.size, ∅⟩
  | .truncate n => ⟨(n + 2 ^ g - 1) / 2 ^ g, σ.groups.filter (· < (n + 2 ^ g - 1) / 2 ^ g)⟩

def GroupSet.run (g : Nat) : GroupSet → List HbOp → GroupSet
  | σ, [] => σ
  | σ, op :: ops => GroupSet.run g (σ.step g op) ops

/-- The precondition of a call on `size` groups of granularity `g`: a range is not empty, does
not wrap past `2^64` and ends inside the bitmap; a truncation does not wrap and keeps at most
`2^41` groups. -/
def HbOp.Allowed (g size : Nat) : HbOp → Prop
  | .set start count | .reset start count =>
      0 < count ∧ start + count ≤ 2 ^ 64 ∧ (start + count - 1) / 2 ^ g < size
  | .resetAll => True
  | .truncate n => n + 2 ^ g ≤ 2 ^ 64 ∧ (n + 2 ^ g - 1) / 2 ^ g ≤ 2 ^ 41

instance (g size : Nat) : (op : HbOp) → Decidable (op.Allowed g size)
  | .set _ _ | .reset _ _ => inferInstanceAs (Decidable (_ ∧ _ ∧ _))
  | .resetAll => inferInstanceAs (Decidable True)
  | .truncate _ => inferInstanceAs (Decidable (_ ∧ _))

/-- Every call of a run meets its precondition in the state the machine has reached. -/
def GroupSet.RunAllowed (g : Nat) : GroupSet → List HbOp → Prop
  | _, [] => True
  | σ, op :: ops => op.Allowed g σ.size ∧ GroupSet.RunAllowed g (σ.step g op) ops

instance GroupSet.decidableRunAllowed (g : Nat) :
    (σ : GroupSet) → (ops : List HbOp) → Decidable (σ.RunAllowed g ops)
  | _, [] => inferInstanceAs (Decidable True)
  | σ, op :: ops =>
      haveI := GroupSet.decidableRunAllowed g (σ.step g op) ops
      inferInstanceAs (Decidable (_ ∧ _))

/-! ## The calls -/

/-- One call on a bitmap with no meta bitmap (`hb->meta == NULL`). -/
def hbOpApply (hb : HBitmap) : HbOp → Except HbFault HBitmap
  | .set start count => do
      let (hb, _) ← hbitmapSet hb none start count
      pure hb
  | .reset start count => do
      let (hb, _) ← hbitmapReset hb none start count
      pure hb
  | .resetAll => pure (hbitmapResetAll hb)
  | .truncate n => do
      let (hb, _) ← hbitmapTruncate hb none n
      pure hb

def hbRun (hb : HBitmap) : List HbOp → Except HbFault HBitmap
  | [] => pure hb
  | op :: ops => do
      let hb ← hbOpApply hb op
      hbRun hb ops

def GroupSet.ofBitmap (hb : HBitmap) : GroupSet := ⟨hb.size, hb.groups⟩

/-! ## Refinement -/

/-- The range's last group as the code computes it. -/
theorem rangeGroups_eq {g start count : Nat} (hcount : 0 < count) (hend : start + count ≤ 2 ^ 64) :
    Finset.Icc (start >>> g) (((start + count + 2 ^ 64 - 1) % 2 ^ 64) >>> g) = rangeGroups g start count := by
  rw [rangeGroups, TwosComplement.add_two_pow_sub_one_mod (by omega) hend, Nat.shiftRight_eq_div_pow,
    Nat.shiftRight_eq_div_pow]

/-- One call from a valid bitmap, under its precondition: it passes its assertions, and the
bitmap stays valid at its granularity and stands for the abstract step's set. -/
theorem hbOpApply_refines {hb : HBitmap} (hv : hb.Valid) {op : HbOp}
    (hok : op.Allowed hb.granularity hb.size) :
    ∃ hb', hbOpApply hb op = .ok hb' ∧ hb'.Valid ∧ hb'.granularity = hb.granularity ∧
      GroupSet.ofBitmap hb' = (GroupSet.ofBitmap hb).step hb.granularity op := by
  cases op with
  | set start count =>
    obtain ⟨hcount, hend, hl⟩ := hok
    rw [← Nat.shiftRight_eq_div_pow] at hl
    obtain ⟨⟨hb', c⟩, hown⟩ := hbitmapSetOwn_ok hv.toCoherent hcount hend hl
    obtain ⟨hv', hgroups⟩ := hbitmapSetOwn_valid hv hown
    obtain ⟨-, -, hsize, hg, -⟩ := hbitmapSetOwn_coherent hv.toCoherent hown
    refine ⟨hb', by rw [hbOpApply, hbitmapSet_none hown]; rfl, hv', hg, GroupSet.ext hsize ?_⟩
    rw [GroupSet.ofBitmap, hgroups, rangeGroups_eq hcount hend]
    rfl
  | reset start count =>
    obtain ⟨hcount, hend, hl⟩ := hok
    rw [← Nat.shiftRight_eq_div_pow] at hl
    obtain ⟨⟨hb', c⟩, hown⟩ := hbitmapResetOwn_ok hv.toCoherent hcount hend hl
    obtain ⟨hv', hgroups⟩ := hbitmapResetOwn_valid hv hown
    obtain ⟨-, -, hsize, hg, -⟩ := hbitmapResetOwn_coherent hv.toCoherent hown
    refine ⟨hb', by rw [hbOpApply, hbitmapReset_none hown]; rfl, hv', hg, GroupSet.ext hsize ?_⟩
    rw [GroupSet.ofBitmap, hgroups, rangeGroups_eq hcount hend]
    rfl
  | resetAll =>
    obtain ⟨hv', hgroups⟩ := hbitmapResetAll_valid hv.toCoherent
    exact ⟨_, rfl, hv', rfl, GroupSet.ext rfl hgroups⟩
  | truncate n =>
    obtain ⟨hend, hle⟩ := hok
    -- the new size is the number of groups of `n` elements: `n + 2^g - 1` does not wrap
    have hs : ((n + (1 <<< hb.granularity) - 1) % 2 ^ 64) >>> hb.granularity =
        (n + 2 ^ hb.granularity - 1) / 2 ^ hb.granularity := by
      rw [Nat.one_shiftLeft, Nat.mod_eq_of_lt (by omega), Nat.shiftRight_eq_div_pow]
    obtain ⟨hb', resized, hown⟩ := hbitmapTruncateOwn_ok hv (by rw [hs]; exact hle)
    obtain ⟨hv', hg, hsize, hgroups⟩ := hbitmapTruncateOwn_valid hv hown
    rw [hs] at hsize
    refine ⟨hb', by rw [hbOpApply, hbitmapTruncate, hown]; rfl, hv', hg, GroupSet.ext hsize ?_⟩
    rw [GroupSet.ofBitmap, hgroups, hsize]
    rfl

/-- A run of calls from a valid bitmap with no meta bitmap, each under its precondition: no
assertion fails, and the bitmap stays valid at its granularity and stands for the set the
abstract machine reaches. -/
theorem hbRun_refines {hb : HBitmap} (hv : hb.Valid) {ops : List HbOp}
    (hok : (GroupSet.ofBitmap hb).RunAllowed hb.granularity ops) :
    ∃ hb', hbRun hb ops = .ok hb' ∧ hb'.Valid ∧ hb'.granularity = hb.granularity ∧
      GroupSet.ofBitmap hb' = (GroupSet.ofBitmap hb).run hb.granularity ops := by
  induction ops generalizing hb with
  | nil => exact ⟨hb, rfl, hv, rfl, rfl⟩
  | cons op ops ih =>
    obtain ⟨hop, hrest⟩ := hok
    obtain ⟨hb₁, h₁, hv₁, hg₁, hσ₁⟩ := hbOpApply_refines hv hop
    rw [← hσ₁, ← hg₁] at hrest
    obtain ⟨hb', h', hv', hg', hσ'⟩ := ih hv₁ hrest
    refine ⟨hb', by rw [hbRun, h₁, ok_bind]; exact h', hv', hg'.trans hg₁, ?_⟩
    rw [hσ', hg₁, hσ₁]
    rfl

theorem hbRun_refines_after_alloc :
    ∃ hb, hbitmapAlloc 256 2 = .ok hb ∧ hb.Valid ∧
      (GroupSet.ofBitmap hb).RunAllowed hb.granularity
        [.set 0 40, .reset 8 8, .truncate 100, .set 90 10, .resetAll, .set 4 1] ∧
      ∃ hb', hbRun hb [.set 0 40, .reset 8 8, .truncate 100, .set 90 10, .resetAll, .set 4 1] = .ok hb' ∧
        hb'.Valid ∧ hb'.granularity = hb.granularity ∧
        GroupSet.ofBitmap hb' = (GroupSet.ofBitmap hb).run hb.granularity
          [.set 0 40, .reset 8 8, .truncate 100, .set 90 10, .resetAll, .set 4 1] := by
  obtain ⟨hb, halloc⟩ : ∃ hb, hbitmapAlloc 256 2 = .ok hb := ⟨_, rfl⟩
  have hv := (hbitmapAlloc_valid halloc).1
  have hok : (GroupSet.ofBitmap hb).RunAllowed hb.granularity
      [.set 0 40, .reset 8 8, .truncate 100, .set 90 10, .resetAll, .set 4 1] := by
    cases halloc
    decide
  exact ⟨hb, halloc, hv, hok, hbRun_refines hv hok⟩

end Xqemu.Util
