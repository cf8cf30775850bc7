import Mathlib.Data.Nat.Dist

/-!
# Convergent rounding to a multiple of a power of two

`roundHalfEven p x` is the multiple of `2 ^ p` nearest to `x`; of two equally
near ones it takes the one whose bit `p` is clear.  It is characterised by
three facts: it is a multiple of `2 ^ p`, no multiple of `2 ^ p` is nearer to
`x`, and any other multiple as near as it leaves it with bit `p` clear.

Hardware computes it by adding half a step and truncating, clearing bit `p` as
well when the sum has no bit below `p` set, which only a tie leaves:
`roundHalfEven_eq_truncEven`.
-/

namespace Xqemu.Rounding

/-- The multiple of `2 ^ p` nearest to `x`, ties to the one whose bit `p` is
clear. -/
def roundHalfEven (p x : Nat) : Nat :=
  let q := x / 2 ^ p
  let r := x % 2 ^ p
  if 2 ^ (p - 1) < r ∨ (r = 2 ^ (p - 1) ∧ q % 2 = 1) then (q + 1) * 2 ^ p else q * 2 ^ p

variable {p x : Nat}

theorem two_pow_eq_two_mul (hp : 0 < p) : 2 ^ p = 2 * 2 ^ (p - 1) := by
  obtain ⟨k, rfl⟩ : ∃ k, p = k + 1 := ⟨p - 1, by omega⟩
  rw [Nat.add_sub_cancel, Nat.pow_succ']

/-- Rounding up past the remainder, or down to the quotient. -/
theorem roundHalfEven_cases (p x : Nat) :
    (roundHalfEven p x = 2 ^ p * (x / 2 ^ p) + 2 ^ p ∧
        (2 ^ (p - 1) < x % 2 ^ p ∨ (x % 2 ^ p = 2 ^ (p - 1) ∧ x / 2 ^ p % 2 = 1))) ∨
      (roundHalfEven p x = 2 ^ p * (x / 2 ^ p) ∧
        ¬(2 ^ (p - 1) < x % 2 ^ p ∨ (x % 2 ^ p = 2 ^ (p - 1) ∧ x / 2 ^ p % 2 = 1))) := by
  unfold roundHalfEven
  dsimp only
  split_ifs with h
  · exact .inl ⟨by rw [Nat.add_mul, Nat.one_mul, Nat.mul_comm], h⟩
  · exact .inr ⟨Nat.mul_comm _ _, h⟩

theorem dvd_roundHalfEven (p x : Nat) : 2 ^ p ∣ roundHalfEven p x := by
  rcases roundHalfEven_cases p x with ⟨h, -⟩ | ⟨h, -⟩ <;> rw [h]
  · exact ⟨x / 2 ^ p + 1, by rw [Nat.mul_add, Nat.mul_one]⟩
  · exact Dvd.intro _ rfl

/-- Where a multiple `B * j` lies against the multiples `B * q` and
`B * q + B` around `x`: below both, at one of them, or above both. -/
theorem mul_cases (B j q : Nat) :
    B * j + B ≤ B * q ∨ B * j = B * q ∨ B * j = B * q + B ∨ B * q + 2 * B ≤ B * j := by
  rcases Nat.lt_or_ge j q with h | h
  · have := Nat.mul_le_mul_left B (show j + 1 ≤ q from h)
    rw [Nat.mul_succ] at this
    exact .inl this
  · rcases Nat.lt_or_ge (q + 1) j with h' | h'
    · have := Nat.mul_le_mul_left B (show q + 2 ≤ j from h')
      rw [Nat.mul_add] at this
      exact .inr (.inr (.inr (by omega)))
    · rcases Nat.eq_or_lt_of_le h with rfl | h''
      · exact .inr (.inl rfl)
      · obtain rfl : j = q + 1 := by omega
        exact .inr (.inr (.inl (Nat.mul_succ B q)))

/-- No multiple of `2 ^ p` is nearer to `x` than its rounding. -/
theorem dist_roundHalfEven_le_of_dvd (hp : 0 < p) (x : Nat) {m : Nat} (hm : 2 ^ p ∣ m) :
    Nat.dist x (roundHalfEven p x) ≤ Nat.dist x m := by
  obtain ⟨j, rfl⟩ := hm
  have hB := two_pow_eq_two_mul hp
  have hx := Nat.div_add_mod x (2 ^ p)
  have hr := Nat.mod_lt x (Nat.two_pow_pos p)
  unfold Nat.dist
  rcases roundHalfEven_cases p x with ⟨h, hc⟩ | ⟨h, hc⟩ <;> rw [h] <;>
    rcases mul_cases (2 ^ p) j (x / 2 ^ p) with hj | hj | hj | hj <;> omega

/-- A different multiple as near as the rounding is a tie, which leaves bit `p`
of the rounding clear. -/
theorem roundHalfEven_tie (hp : 0 < p) (x : Nat) {m : Nat} (hm : 2 ^ p ∣ m)
    (hne : m ≠ roundHalfEven p x) (htie : Nat.dist x m = Nat.dist x (roundHalfEven p x)) :
    roundHalfEven p x / 2 ^ p % 2 = 0 := by
  obtain ⟨j, rfl⟩ := hm
  have hB := two_pow_eq_two_mul hp
  have hx := Nat.div_add_mod x (2 ^ p)
  have hr := Nat.mod_lt x (Nat.two_pow_pos p)
  have hpos := Nat.two_pow_pos p
  unfold Nat.dist at htie
  rcases roundHalfEven_cases p x with ⟨h, hc⟩ | ⟨h, hc⟩ <;> rw [h] at hne htie ⊢
  · -- rounded up: only a tie with an odd quotient rounds up and can be matched
    rw [show 2 ^ p * (x / 2 ^ p) + 2 ^ p = 2 ^ p * (x / 2 ^ p + 1) by rw [Nat.mul_succ],
      Nat.mul_div_cancel_left _ hpos]
    rcases mul_cases (2 ^ p) j (x / 2 ^ p) with hj | hj | hj | hj <;> omega
  · -- rounded down: a tie is only left down when the quotient is even
    rw [Nat.mul_div_cancel_left _ hpos]
    rcases mul_cases (2 ^ p) j (x / 2 ^ p) with hj | hj | hj | hj <;> omega

/-- What round-half-even asks of a multiple `m` of `2 ^ p` standing for `x`. -/
structure IsRoundHalfEven (p x m : Nat) : Prop where
  dvd : 2 ^ p ∣ m
  nearest : ∀ m', 2 ^ p ∣ m' → Nat.dist x m ≤ Nat.dist x m'
  tie_even : ∀ m', 2 ^ p ∣ m' → m' ≠ m → Nat.dist x m' = Nat.dist x m → m / 2 ^ p % 2 = 0

theorem roundHalfEven_spec (hp : 0 < p) (x : Nat) : IsRoundHalfEven p x (roundHalfEven p x) where
  dvd := dvd_roundHalfEven p x
  nearest _ hm := dist_roundHalfEven_le_of_dvd hp x hm
  tie_even _ hm hne htie := roundHalfEven_tie hp x hm hne htie

/-! ## Rounding by adding half a step -/

/-- Truncation to a multiple of `2 ^ p`, or of `2 ^ (p + 1)` when nothing
below bit `p` is set. -/
def truncEven (p z : Nat) : Nat :=
  if z % 2 ^ p = 0 then z / 2 ^ (p + 1) * 2 ^ (p + 1) else z / 2 ^ p * 2 ^ p

theorem truncEven_eq_mul (p z : Nat) :
    truncEven p z = (if z % 2 ^ p = 0 then z / 2 ^ p / 2 * 2 else z / 2 ^ p) * 2 ^ p := by
  unfold truncEven
  split_ifs
  · rw [Nat.div_div_eq_div_mul, ← Nat.pow_succ, Nat.mul_assoc, ← Nat.pow_succ']
  · rfl

/-- Adding half a step moves the quotient up by one exactly when the remainder
reaches half a step. -/
theorem add_half_div_mod (hp : 0 < p) (x : Nat) :
    (x + 2 ^ (p - 1)) / 2 ^ p = x / 2 ^ p + (if 2 ^ (p - 1) ≤ x % 2 ^ p then 1 else 0) ∧
      (x + 2 ^ (p - 1)) % 2 ^ p =
        if 2 ^ (p - 1) ≤ x % 2 ^ p then x % 2 ^ p - 2 ^ (p - 1) else x % 2 ^ p + 2 ^ (p - 1) := by
  have hB := two_pow_eq_two_mul hp
  have hH := Nat.two_pow_pos (p - 1)
  have hr := Nat.mod_lt x (Nat.two_pow_pos p)
  have hHB : 2 ^ (p - 1) < 2 ^ p := by omega
  rw [Nat.add_div (Nat.two_pow_pos p), Nat.add_mod, Nat.div_eq_of_lt hHB, Nat.mod_eq_of_lt hHB]
  constructor
  · have hcarry : 2 ^ p ≤ x % 2 ^ p + 2 ^ (p - 1) ↔ 2 ^ (p - 1) ≤ x % 2 ^ p := by omega
    simp only [hcarry, Nat.add_zero]
  · split_ifs with h
    · -- the sum passes a multiple: one step comes off
      rw [Nat.mod_eq_sub_mod (by omega), Nat.mod_eq_of_lt (by omega)]
      omega
    · exact Nat.mod_eq_of_lt (by omega)

/-- Convergent rounding is adding half a step and truncating, with bit `p`
cleared on a tie. -/
theorem roundHalfEven_eq_truncEven (hp : 0 < p) (x : Nat) :
    roundHalfEven p x = truncEven p (x + 2 ^ (p - 1)) := by
  obtain ⟨hdiv, hmod⟩ := add_half_div_mod hp x
  have hB := two_pow_eq_two_mul hp
  have hH := Nat.two_pow_pos (p - 1)
  have hr := Nat.mod_lt x (Nat.two_pow_pos p)
  rw [truncEven_eq_mul, hdiv, hmod]
  unfold roundHalfEven
  dsimp only
  rw [← ite_mul]
  congr 1
  split_ifs <;> omega

end Xqemu.Rounding
