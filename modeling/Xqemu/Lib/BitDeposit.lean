import Mathlib.Data.Nat.Bitwise

/-!
# Bit deposit and population count

`depositBits w pattern value` places the low bits of `value`, in order, at the
set bits among the low `w` bits of `pattern` (a parallel bit deposit), and
`popcountBits w pattern` counts those set bits.  A deposit only sets bits of
the pattern, and it is injective on the values that fit in the pattern's bits.
`spreadBits pos n` is the pattern with bits at `pos 0`, ..., `pos (n - 1)`.
-/

namespace Xqemu.Bits

def popcountBits : Nat → Nat → Nat
  | 0, _ => 0
  | w + 1, pattern => pattern % 2 + popcountBits w (pattern / 2)

def depositBits : Nat → Nat → Nat → Nat
  | 0, _, _ => 0
  | w + 1, pattern, value =>
      if pattern % 2 = 1 then value % 2 + 2 * depositBits w (pattern / 2) (value / 2)
      else 2 * depositBits w (pattern / 2) value

theorem testBit_zero_add_two_mul {b : Nat} (hb : b < 2) (n : Nat) :
    (b + 2 * n).testBit 0 = decide (b = 1) := by
  rw [Nat.testBit_zero]
  congr 1
  apply propext
  omega

theorem testBit_succ_add_two_mul {b : Nat} (hb : b < 2) (n i : Nat) :
    (b + 2 * n).testBit (i + 1) = n.testBit i := by
  rw [Nat.testBit_succ]
  congr 1
  omega

@[simp] theorem popcountBits_zero_right : ∀ w, popcountBits w 0 = 0
  | 0 => rfl
  | w + 1 => by simp [popcountBits, popcountBits_zero_right w]

@[simp] theorem depositBits_zero_right : ∀ w pattern, depositBits w pattern 0 = 0
  | 0, _ => rfl
  | w + 1, pattern => by
      unfold depositBits
      split_ifs <;> simp [depositBits_zero_right w]

/-- A deposit sets only bits of the pattern, and only below `w`. -/
theorem testBit_depositBits :
    ∀ (w pattern value i : Nat), (depositBits w pattern value).testBit i = true →
      i < w ∧ pattern.testBit i = true
  | 0, _, _, i, h => by simp [depositBits] at h
  | w + 1, pattern, value, i, h => by
      have hp : pattern.testBit 0 = decide (pattern % 2 = 1) := Nat.testBit_zero pattern
      unfold depositBits at h
      split_ifs at h with hodd
      · cases i with
        | zero =>
            exact ⟨by omega, by simp [hp, hodd]⟩
        | succ i =>
            rw [testBit_succ_add_two_mul (Nat.mod_lt _ (by decide))] at h
            obtain ⟨hi, hbit⟩ := testBit_depositBits w (pattern / 2) (value / 2) i h
            exact ⟨by omega, by rwa [Nat.testBit_succ]⟩
      · cases i with
        | zero =>
            rw [← Nat.zero_add (2 * _), testBit_zero_add_two_mul (by decide)] at h
            simp at h
        | succ i =>
            rw [← Nat.zero_add (2 * _), testBit_succ_add_two_mul (by decide)] at h
            obtain ⟨hi, hbit⟩ := testBit_depositBits w (pattern / 2) value i h
            exact ⟨by omega, by rwa [Nat.testBit_succ]⟩

theorem depositBits_le_pattern (w pattern value : Nat) : depositBits w pattern value ≤ pattern :=
  Nat.le_of_testBit fun i h => (testBit_depositBits w pattern value i h).2

theorem depositBits_lt (w pattern value : Nat) : depositBits w pattern value < 2 ^ w :=
  Nat.lt_pow_two_of_testBit _ fun i hi => by
    cases h : (depositBits w pattern value).testBit i with
    | false => rfl
    | true => exact absurd (testBit_depositBits w pattern value i h).1 (by omega)

theorem depositBits_injective :
    ∀ (w pattern value value' : Nat), value < 2 ^ popcountBits w pattern →
      value' < 2 ^ popcountBits w pattern →
      depositBits w pattern value = depositBits w pattern value' → value = value'
  | 0, _, value, value', hv, hv', _ => by
      simp only [popcountBits, Nat.pow_zero] at hv hv'
      omega
  | w + 1, pattern, value, value', hv, hv', h => by
      unfold depositBits at h
      rw [popcountBits, Nat.pow_add] at hv hv'
      split_ifs at h with hodd
      · have hpc : 2 ^ (pattern % 2) = 2 := by rw [hodd]; rfl
        rw [hpc] at hv hv'
        have hlow : value % 2 = value' % 2 := by omega
        have hhigh : depositBits w (pattern / 2) (value / 2) = depositBits w (pattern / 2) (value' / 2) := by
          omega
        have hhalf := depositBits_injective w (pattern / 2) (value / 2) (value' / 2)
          (by rw [Nat.div_lt_iff_lt_mul (by decide)]; omega)
          (by rw [Nat.div_lt_iff_lt_mul (by decide)]; omega) hhigh
        omega
      · have hpc : 2 ^ (pattern % 2) = 1 := by rw [show pattern % 2 = 0 by omega]; rfl
        rw [hpc, Nat.one_mul] at hv hv'
        exact depositBits_injective w (pattern / 2) value value' hv hv' (by omega)

/-- Adding a bit above all the bits of a pattern, within the width, counts one more. -/
theorem popcountBits_add_two_pow :
    ∀ (w pattern j : Nat), j < w → pattern < 2 ^ j →
      popcountBits w (pattern + 2 ^ j) = popcountBits w pattern + 1
  | 0, _, _, hj, _ => absurd hj (Nat.not_lt_zero _)
  | w + 1, pattern, 0, _, hp => by
      have h0 : pattern = 0 := by simpa using hp
      subst h0
      simp [popcountBits]
  | w + 1, pattern, j + 1, hj, hp => by
      have hpow : 2 ^ (j + 1) = 2 * 2 ^ j := by rw [Nat.pow_succ, Nat.mul_comm]
      have hmod : (pattern + 2 ^ (j + 1)) % 2 = pattern % 2 := by omega
      have hdiv : (pattern + 2 ^ (j + 1)) / 2 = pattern / 2 + 2 ^ j := by omega
      have hrec := popcountBits_add_two_pow w (pattern / 2) j (by omega)
        (by rw [Nat.div_lt_iff_lt_mul (by decide)]; omega)
      simp only [popcountBits, hmod, hdiv, hrec]
      omega

/-- Each bit of `a` is a bit of `b`. -/
def BitsIn (a b : Nat) : Prop := ∀ i, a.testBit i = true → b.testBit i = true

theorem bitsIn_depositBits (w pattern value : Nat) : BitsIn (depositBits w pattern value) pattern :=
  fun i h => (testBit_depositBits w pattern value i h).2

theorem BitsIn.le {a b : Nat} (h : BitsIn a b) : a ≤ b := Nat.le_of_testBit h

theorem BitsIn.or {a b p q : Nat} (ha : BitsIn a p) (hb : BitsIn b q) : BitsIn (a ||| b) (p ||| q) := by
  intro i h
  rw [Nat.testBit_or, Bool.or_eq_true] at h ⊢
  exact h.imp (ha i) (hb i)

theorem BitsIn.and_eq_zero {a p q : Nat} (ha : BitsIn a p) (hpq : p &&& q = 0) : a &&& q = 0 := by
  apply Nat.eq_of_testBit_eq
  intro i
  have hi : (p &&& q).testBit i = false := by rw [hpq, Nat.zero_testBit]
  rw [Nat.testBit_and] at hi
  rw [Nat.testBit_and, Nat.zero_testBit]
  cases hai : a.testBit i
  · rfl
  · simpa [ha i hai] using hi

theorem BitsIn.or_and {a b pattern : Nat} (ha : BitsIn a pattern) (hb : b &&& pattern = 0) :
    (a ||| b) &&& pattern = a := by
  apply Nat.eq_of_testBit_eq
  intro i
  have hbi : (b &&& pattern).testBit i = false := by rw [hb, Nat.zero_testBit]
  rw [Nat.testBit_and] at hbi
  rw [Nat.testBit_and, Nat.testBit_or]
  cases hai : a.testBit i
  · cases hbit : b.testBit i <;> simp_all
  · simp [ha i hai]

def spreadBits (pos : Nat → Nat) : Nat → Nat
  | 0 => 0
  | t + 1 => spreadBits pos t ||| 2 ^ pos t

theorem testBit_spreadBits (pos : Nat → Nat) (p : Nat) :
    ∀ n, (spreadBits pos n).testBit p = true ↔ ∃ t < n, pos t = p
  | 0 => by simp [spreadBits]
  | n + 1 => by
      rw [spreadBits, Nat.testBit_or, Nat.testBit_two_pow, Bool.or_eq_true, testBit_spreadBits pos p n,
        decide_eq_true_iff]
      constructor
      · rintro (⟨t, ht, hpos⟩ | hpos)
        · exact ⟨t, by omega, hpos⟩
        · exact ⟨n, by omega, hpos⟩
      · rintro ⟨t, ht, hpos⟩
        by_cases htn : t = n
        · subst htn
          exact Or.inr hpos
        · exact Or.inl ⟨t, by omega, hpos⟩

/-- Along increasing positions, the pattern so far lies below the next position. -/
theorem spreadBits_lt {pos : Nat → Nat} (hmono : ∀ t, pos t < pos (t + 1)) :
    ∀ n, spreadBits pos n < 2 ^ pos n
  | 0 => Nat.two_pow_pos _
  | n + 1 => by
      have hstep : spreadBits pos n ||| 2 ^ pos n < 2 ^ (pos n + 1) :=
        Nat.or_lt_two_pow
          (Nat.lt_of_lt_of_le (spreadBits_lt hmono n) (Nat.pow_le_pow_right (by decide) (by omega)))
          (Nat.pow_lt_pow_right (by decide) (by omega))
      exact Nat.lt_of_lt_of_le hstep (Nat.pow_le_pow_right (by decide) (hmono n))

theorem popcountBits_spreadBits {pos : Nat → Nat} (hmono : ∀ t, pos t < pos (t + 1)) {w : Nat} :
    ∀ n, (∀ t < n, pos t < w) → popcountBits w (spreadBits pos n) = n
  | 0, _ => popcountBits_zero_right w
  | n + 1, hw => by
      have hlt := spreadBits_lt hmono n
      rw [spreadBits, Nat.or_comm, ← Nat.mul_one (2 ^ pos n), ← Nat.two_pow_add_eq_or_of_lt hlt,
        Nat.mul_one, Nat.add_comm, popcountBits_add_two_pow w _ _ (hw n (by omega)) hlt,
        popcountBits_spreadBits hmono n fun t ht => hw t (by omega)]

theorem spreadBits_and_eq_zero {pos pos' : Nat → Nat} {n n' : Nat}
    (h : ∀ t < n, ∀ t' < n', pos t ≠ pos' t') : spreadBits pos n &&& spreadBits pos' n' = 0 := by
  apply Nat.eq_of_testBit_eq
  intro p
  rw [Nat.testBit_and, Nat.zero_testBit]
  cases h₁ : (spreadBits pos n).testBit p
  · rfl
  · cases h₂ : (spreadBits pos' n').testBit p
    · rfl
    · obtain ⟨t, ht, rfl⟩ := (testBit_spreadBits pos p n).mp h₁
      obtain ⟨t', ht', heq⟩ := (testBit_spreadBits pos' _ n').mp h₂
      exact absurd heq.symm (h t ht t' ht')

theorem or3_and_eq {a b c p q r : Nat} (ha : BitsIn a p) (hb : BitsIn b q) (hc : BitsIn c r)
    (hpq : p &&& q = 0) (hpr : p &&& r = 0) (hqr : q &&& r = 0) :
    (a ||| b ||| c) &&& p = a ∧ (a ||| b ||| c) &&& q = b ∧ (a ||| b ||| c) &&& r = c := by
  have hqp : q &&& p = 0 := by rw [Nat.and_comm]; exact hpq
  have hrp : r &&& p = 0 := by rw [Nat.and_comm]; exact hpr
  have hrq : r &&& q = 0 := by rw [Nat.and_comm]; exact hqr
  refine ⟨?_, ?_, ?_⟩
  · rw [Nat.or_assoc]
    exact ha.or_and (by rw [Nat.and_or_distrib_right, hb.and_eq_zero hqp, hc.and_eq_zero hrp,
      Nat.or_zero])
  · rw [Nat.or_comm a b, Nat.or_assoc]
    exact hb.or_and (by rw [Nat.and_or_distrib_right, ha.and_eq_zero hpq, hc.and_eq_zero hrq,
      Nat.or_zero])
  · rw [Nat.or_comm]
    exact hc.or_and (by rw [Nat.and_or_distrib_right, ha.and_eq_zero hpr, hb.and_eq_zero hqr,
      Nat.or_zero])

end Xqemu.Bits
