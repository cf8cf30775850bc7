import Mathlib.Data.Nat.Basic
import Mathlib.Algebra.Group.Nat.Defs

/-!
# Numbers as paths in a tree of radix `b`

Read in radix `b`, a number `x` is a leaf of a tree whose nodes at height `h`
are the quotients `x / b^h`; `x / b^h % b` is the child taken below the node
`x / b^(h+1)`.  Two leaves compare as the children where their paths part.
-/

namespace Xqemu.Radix

variable {b : Nat}

theorem div_pow_succ (b x h : Nat) : x / b ^ (h + 1) = x / b ^ h / b := by
  rw [Nat.pow_succ, Nat.div_div_eq_div_mul]

/-- The node at height `h + 1` of the first leaf under node `q` of height 1. -/
theorem mul_div_pow_succ (hb : 0 < b) (q h : Nat) : b * q / b ^ (h + 1) = q / b ^ h := by
  rw [Nat.pow_succ, Nat.mul_comm (b ^ h) b, Nat.mul_div_mul_left _ _ hb]

/-- A node is its parent's `b` children apart plus its own digit. -/
theorem div_pow_eq (b x h : Nat) : x / b ^ h = b * (x / b ^ (h + 1)) + x / b ^ h % b := by
  rw [div_pow_succ]
  exact (Nat.div_add_mod _ _).symm

/-- Leaves with one node at some height share every node above it. -/
theorem div_pow_eq_of_le {x y h h' : Nat} (heq : x / b ^ h = y / b ^ h) (hle : h ≤ h') :
    x / b ^ h' = y / b ^ h' := by
  obtain ⟨d, rfl⟩ := Nat.exists_eq_add_of_le hle
  rw [Nat.pow_add, ← Nat.div_div_eq_div_mul, ← Nat.div_div_eq_div_mul, heq]

/-- Below one parent, the smaller digit is the smaller node. -/
theorem div_pow_lt_of_digit_lt {x y h : Nat} (hpar : x / b ^ (h + 1) = y / b ^ (h + 1))
    (hdig : x / b ^ h % b < y / b ^ h % b) : x / b ^ h < y / b ^ h := by
  rw [div_pow_eq b x h, div_pow_eq b y h, hpar]
  omega

/-- A smaller node has only smaller leaves under it. -/
theorem lt_of_div_pow_lt {x y h : Nat} (hlt : x / b ^ h < y / b ^ h) : x < y := by
  by_contra hle
  exact absurd (Nat.div_le_div_right (c := b ^ h) (Nat.le_of_not_lt hle)) (Nat.not_le_of_lt hlt)

theorem lt_of_digit_lt {x y h : Nat} (hpar : x / b ^ (h + 1) = y / b ^ (h + 1))
    (hdig : x / b ^ h % b < y / b ^ h % b) : x < y :=
  lt_of_div_pow_lt (div_pow_lt_of_digit_lt hpar hdig)

/-- Two leaves below one node at height `H` part at a height below `H`, the smaller one
taking the smaller child there. -/
theorem exists_digit_lt_of_lt (hb : 0 < b) {x y : Nat} (hxy : x < y) :
    ∀ {H : Nat}, x / b ^ H = y / b ^ H →
      ∃ h < H, x / b ^ (h + 1) = y / b ^ (h + 1) ∧ x / b ^ h % b < y / b ^ h % b
  | 0, heq => by
    simp only [Nat.pow_zero, Nat.div_one] at heq
    omega
  | H + 1, heq => by
    by_cases hH : x / b ^ H = y / b ^ H
    · obtain ⟨h, hh, hpar, hdig⟩ := exists_digit_lt_of_lt hb hxy hH
      exact ⟨h, by omega, hpar, hdig⟩
    · have hle : x / b ^ H ≤ y / b ^ H := Nat.div_le_div_right (Nat.le_of_lt hxy)
      have hsplit := div_pow_eq b x H
      have hsplit' := div_pow_eq b y H
      rw [heq] at hsplit
      refine ⟨H, Nat.lt_succ_self H, heq, ?_⟩
      omega

end Xqemu.Radix
