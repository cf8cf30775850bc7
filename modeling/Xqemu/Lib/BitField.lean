import Mathlib.Data.Nat.Bitwise

/-!
# Contiguous register fields

`GET_MASK` / `SET_MASK`-style access to a run of bits of a register word.  A
field is given by its lowest bit and its width, so the mask constant of a C
header is `Field.mask` and `ctz32(mask)` is `Field.lo`.  Every lemma below is
derived from the bitwise characterisations `testBit_get`, `testBit_set` and
`testBit_clearMask`; the arithmetic forms follow from them by extensionality.
-/

namespace Xqemu.Bits

/-- `v & ~m` over unbounded naturals: clear the bits of `m` in `v`. -/
def clearMask (v m : Nat) : Nat :=
  v ^^^ (v &&& m)

@[simp] theorem testBit_clearMask (v m i : Nat) :
    (clearMask v m).testBit i = (v.testBit i && !m.testBit i) := by
  unfold clearMask
  rw [Nat.testBit_xor, Nat.testBit_and]
  cases v.testBit i <;> cases m.testBit i <;> rfl

theorem clearMask_le (v m : Nat) : clearMask v m ≤ v := by
  apply Nat.le_of_testBit
  intro i hi
  simp only [testBit_clearMask, Bool.and_eq_true] at hi
  exact hi.1

/-- A single-bit flag `1 << k` is present in `v` exactly when bit `k` is set. -/
theorem and_one_shiftLeft_ne_zero_iff (v k : Nat) :
    v &&& 1 <<< k ≠ 0 ↔ v.testBit k = true := by
  rw [Nat.one_shiftLeft]
  constructor
  · intro h
    by_contra hk
    apply h
    apply Nat.eq_of_testBit_eq
    intro i
    by_cases hik : i = k
    · subst hik
      simp_all
    · simp [Ne.symm hik]
  · intro hk h
    have := congrArg (fun x => x.testBit k) h
    simp [Nat.testBit_two_pow_self, hk] at this

@[simp] theorem testBit_one_shiftLeft (k i : Nat) :
    (1 <<< k).testBit i = decide (k = i) := by
  rw [Nat.one_shiftLeft, Nat.testBit_two_pow]

/-- A contiguous field of `width` bits whose least significant bit is `lo`. -/
structure Field where
  lo : Nat
  width : Nat
  deriving DecidableEq, Repr

namespace Field

/-- The mask constant of the field, as written in a register header. -/
def mask (f : Field) : Nat :=
  (2 ^ f.width - 1) <<< f.lo

/-- `GET_MASK(v, mask)`, that is `(v & mask) >> ctz32(mask)`. -/
def get (f : Field) (v : Nat) : Nat :=
  (v &&& f.mask) >>> f.lo

/-- `SET_MASK(v, mask, x)`, that is `(v & ~mask) | ((x << ctz32(mask)) & mask)`. -/
def set (f : Field) (v x : Nat) : Nat :=
  clearMask v f.mask ||| ((x <<< f.lo) &&& f.mask)

/-- Two fields occupy disjoint bit ranges. -/
def Disjoint (f g : Field) : Prop :=
  f.lo + f.width ≤ g.lo ∨ g.lo + g.width ≤ f.lo

instance (f g : Field) : Decidable (f.Disjoint g) :=
  inferInstanceAs (Decidable (_ ∨ _))

theorem Disjoint.symm {f g : Field} (h : f.Disjoint g) : g.Disjoint f :=
  Or.symm h

@[simp] theorem testBit_mask (f : Field) (i : Nat) :
    f.mask.testBit i = decide (f.lo ≤ i ∧ i < f.lo + f.width) := by
  unfold mask
  rw [Nat.testBit_shiftLeft, Nat.testBit_two_pow_sub_one]
  by_cases h : f.lo ≤ i
  · have : i - f.lo < f.width ↔ i < f.lo + f.width := by omega
    simp [h, this]
  · simp [h]

@[simp] theorem testBit_get (f : Field) (v i : Nat) :
    (f.get v).testBit i = (decide (i < f.width) && v.testBit (f.lo + i)) := by
  unfold get
  rw [Nat.testBit_shiftRight, Nat.testBit_and, testBit_mask]
  by_cases h : i < f.width
  · simp [h]
  · simp [h]

@[simp] theorem testBit_set (f : Field) (v x i : Nat) :
    (f.set v x).testBit i =
      if f.lo ≤ i ∧ i < f.lo + f.width then x.testBit (i - f.lo) else v.testBit i := by
  unfold set
  rw [Nat.testBit_or, testBit_clearMask, Nat.testBit_and, Nat.testBit_shiftLeft, testBit_mask]
  by_cases h : f.lo ≤ i ∧ i < f.lo + f.width
  · simp [h]
  · have hlo : ¬ (i ≥ f.lo ∧ i < f.lo + f.width) := by omega
    simp only [h, decide_false, Bool.not_false, Bool.and_true, Bool.and_false, Bool.or_false,
      if_false]

/-- Masking without the shift: `v & mask` is the field's value in place. -/
theorem and_mask_eq (f : Field) (v : Nat) : v &&& f.mask = f.get v <<< f.lo := by
  apply Nat.eq_of_testBit_eq
  intro i
  rw [Nat.testBit_and, testBit_mask, Nat.testBit_shiftLeft, testBit_get]
  by_cases h : f.lo ≤ i
  · have heq : f.lo + (i - f.lo) = i := by omega
    have hw : i - f.lo < f.width ↔ i < f.lo + f.width := by omega
    simp [h, heq, hw, Bool.and_comm]
  · simp [h]

theorem get_eq_div_mod (f : Field) (v : Nat) : f.get v = v / 2 ^ f.lo % 2 ^ f.width := by
  apply Nat.eq_of_testBit_eq
  intro i
  rw [testBit_get, Nat.testBit_mod_two_pow, Nat.testBit_div_two_pow, Nat.add_comm]

/-- Masking in arithmetic form: the field's digits, left in place. -/
theorem and_mask_eq_mul (f : Field) (v : Nat) :
    v &&& f.mask = v / 2 ^ f.lo % 2 ^ f.width * 2 ^ f.lo := by
  rw [and_mask_eq, get_eq_div_mod, Nat.shiftLeft_eq]

theorem get_lt (f : Field) (v : Nat) : f.get v < 2 ^ f.width := by
  rw [get_eq_div_mod]
  exact Nat.mod_lt _ (Nat.two_pow_pos _)

@[simp] theorem get_set_self (f : Field) (v x : Nat) : f.get (f.set v x) = x % 2 ^ f.width := by
  apply Nat.eq_of_testBit_eq
  intro i
  rw [testBit_get, testBit_set, Nat.testBit_mod_two_pow]
  by_cases h : i < f.width
  · have hin : f.lo ≤ f.lo + i ∧ f.lo + i < f.lo + f.width := by omega
    simp [h, hin]
  · simp [h]

theorem get_set_of_disjoint {f g : Field} (h : f.Disjoint g) (v x : Nat) :
    g.get (f.set v x) = g.get v := by
  apply Nat.eq_of_testBit_eq
  intro i
  rw [testBit_get, testBit_get, testBit_set]
  by_cases hi : i < g.width
  · have hout : ¬ (f.lo ≤ g.lo + i ∧ g.lo + i < f.lo + f.width) := by
      unfold Disjoint at h
      omega
    simp [hout]
  · simp [hi]

/-- A field below bit `n` only reads the value modulo `2 ^ n`. -/
theorem get_mod_two_pow (f : Field) {n : Nat} (hf : f.lo + f.width ≤ n) (v : Nat) :
    f.get (v % 2 ^ n) = f.get v := by
  apply Nat.eq_of_testBit_eq
  intro i
  rw [testBit_get, testBit_get, Nat.testBit_mod_two_pow]
  by_cases hi : i < f.width
  · have hlt : f.lo + i < n := by omega
    simp [hi, hlt]
  · simp [hi]

/-- Setting a field that lies below bit `n` keeps a value below `2 ^ n`. -/
theorem set_lt_two_pow {n : Nat} (f : Field) (hf : f.lo + f.width ≤ n) {v : Nat}
    (hv : v < 2 ^ n) (x : Nat) : f.set v x < 2 ^ n := by
  apply Nat.lt_pow_two_of_testBit
  intro i hi
  rw [testBit_set]
  have hout : ¬ (f.lo ≤ i ∧ i < f.lo + f.width) := by omega
  simp only [hout, if_false]
  exact Nat.testBit_lt_two_pow (Nat.lt_of_lt_of_le hv (Nat.pow_le_pow_right (by omega) hi))

/-- Writing back what a field already holds changes nothing. -/
theorem set_get_self (f : Field) (v : Nat) : f.set v (f.get v) = v := by
  apply Nat.eq_of_testBit_eq
  intro i
  rw [testBit_set]
  by_cases h : f.lo ≤ i ∧ i < f.lo + f.width
  · have hi : i - f.lo < f.width := by omega
    have heq : f.lo + (i - f.lo) = i := by omega
    simp [h, hi, heq]
  · simp [h]

end Field

end Xqemu.Bits
