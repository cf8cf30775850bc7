import Mathlib.Data.Int.Basic
import Mathlib.Algebra.Group.Nat.Defs
import Mathlib.Algebra.Group.Int.Defs

/-!
# Non-restoring division

Binary long division of a dividend, read from its most significant bit, by a
divisor `d > 0`.  After a prefix `n` of the dividend, restoring division holds
`n / d` and `n % d`.  Non-restoring division never adds the divisor back: it
holds a partial remainder that is `n % d` or `n % d - d`, and the sign tells
which.  A step doubles it, brings in the next bit, and subtracts `d` from a
nonnegative remainder or adds `d` to a negative one.  In both cases the result
is the restoring remainder's doubling minus `d`, so the new quotient bit is
one exactly when the new partial remainder is nonnegative.
-/

namespace Xqemu.NonRestoring

/-- One step by the divisor `d`, bringing in the dividend bit `b`. -/
def step (d : Nat) (R : Int) (b : Nat) : Int :=
  if R < 0 then 2 * R + b + d else 2 * R + b - d

/-- `R` is a partial remainder of the prefix `n`. -/
def IsPartial (d n : Nat) (R : Int) : Prop :=
  R = (n % d : Nat) ∨ R = (n % d : Nat) - d

variable {d n b : Nat} {R : Int}

theorem isPartial_of_lt (h : n < d) : IsPartial d n n :=
  Or.inl (by rw [Nat.mod_eq_of_lt h])

theorem IsPartial.bounds (hd : 0 < d) (h : IsPartial d n R) : -(d : Int) ≤ R ∧ R < d := by
  have := Nat.mod_lt n hd
  rcases h with rfl | rfl <;> omega

/-- Whichever the partial remainder, a step gives twice the restoring
remainder and the bit, less `d`. -/
theorem IsPartial.step_eq (hd : 0 < d) (h : IsPartial d n R) :
    step d R b = 2 * (n % d : Nat) + b - d := by
  have := Nat.mod_lt n hd
  unfold step
  rcases h with rfl | rfl <;> split_ifs <;> omega

/-- Restoring division on one more dividend bit. -/
theorem div_mod_two_mul_add (hd : 0 < d) (hb : b < 2) :
    (2 * n + b) / d = 2 * (n / d) + (if d ≤ 2 * (n % d) + b then 1 else 0) ∧
      (2 * n + b) % d = 2 * (n % d) + b - (if d ≤ 2 * (n % d) + b then d else 0) := by
  have hn := Nat.div_add_mod n d
  have hr := Nat.mod_lt n hd
  rw [Nat.div_mod_unique hd, Nat.mul_add, Nat.mul_left_comm]
  split_ifs <;> omega

theorem IsPartial.next (hd : 0 < d) (hb : b < 2) (h : IsPartial d n R) :
    IsPartial d (2 * n + b) (step d R b) := by
  have hr := (div_mod_two_mul_add (n := n) hd hb).2
  rw [h.step_eq hd]
  unfold IsPartial
  split_ifs at hr with hle
  · exact Or.inl (by omega)
  · exact Or.inr (by omega)

/-- The quotient bit of a step is the sign of the new partial remainder. -/
theorem IsPartial.div_step (hd : 0 < d) (hb : b < 2) (h : IsPartial d n R) :
    (2 * n + b) / d = 2 * (n / d) + if 0 ≤ step d R b then 1 else 0 := by
  rw [(div_mod_two_mul_add hd hb).1, h.step_eq hd]
  congr 1
  by_cases hle : d ≤ 2 * (n % d) + b
  · rw [if_pos hle, if_pos (by omega)]
  · rw [if_neg hle, if_neg (by omega)]

end Xqemu.NonRestoring
