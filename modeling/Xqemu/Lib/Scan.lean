import Mathlib.Order.Basic

/-!
# Scanning for the first position with a property

`firstFrom p bound i` is the first position of `[i, bound)` where `p` holds,
or `bound` when there is none: what a loop `while (i < bound && !p(i)) i++`
leaves in `i`.  Its behaviour is summed up by `IsFirst`.  The loops of C code
that scan this way are `countLoop`, which steps while a condition holds, and
`alignLoop`, which also counts down a budget; each is proved to stop where
`firstFrom` does.
-/

namespace Xqemu.Scan

/-- At most `n` steps of the scan from `i`. -/
def scanFrom (p : Nat → Bool) : Nat → Nat → Nat
  | 0, i => i
  | n + 1, i => if p i then i else scanFrom p n (i + 1)

/-- The first position of `[i, bound)` where `p` holds, or `bound`. -/
def firstFrom (p : Nat → Bool) (bound i : Nat) : Nat :=
  scanFrom p (bound - i) i

/-- `j` is where a scan of `[i, bound)` for `p` stops. -/
structure IsFirst (p : Nat → Bool) (bound i j : Nat) : Prop where
  le_start : i ≤ j
  le_bound : j ≤ bound
  holds : j < bound → p j = true
  before : ∀ k, i ≤ k → k < j → p k = false

variable {p q : Nat → Bool} {bound i j : Nat}

theorem scanFrom_isFirst (n i : Nat) : IsFirst p (i + n) i (scanFrom p n i) := by
  induction n generalizing i with
  | zero =>
      simp only [scanFrom, Nat.add_zero]
      exact ⟨Nat.le_refl i, Nat.le_refl i, fun h => absurd h (Nat.lt_irrefl i), fun k hk hlt => by omega⟩
  | succ n ih =>
      by_cases hp : p i
      · simp only [scanFrom, hp, if_true]
        exact ⟨Nat.le_refl i, by omega, fun _ => hp, fun k hk hlt => by omega⟩
      · simp only [scanFrom, hp, Bool.false_eq_true, if_false]
        have h := ih (i + 1)
        rw [show i + 1 + n = i + (n + 1) by omega] at h
        refine ⟨by have := h.le_start; omega, h.le_bound, h.holds, fun k hk hlt => ?_⟩
        rcases Nat.eq_or_lt_of_le hk with rfl | hk
        · simpa using hp
        · exact h.before k hk hlt

theorem firstFrom_isFirst (h : i ≤ bound) : IsFirst p bound i (firstFrom p bound i) := by
  have := scanFrom_isFirst (p := p) (bound - i) i
  rwa [Nat.add_sub_cancel' h] at this

theorem IsFirst.unique {j' : Nat} (h : IsFirst p bound i j) (h' : IsFirst p bound i j') : j = j' := by
  by_contra hne
  rcases Nat.lt_or_gt_of_ne hne with hlt | hlt
  · have := h'.before j h.le_start hlt
    rw [h.holds (by have := h'.le_bound; omega)] at this
    exact Bool.noConfusion this
  · have := h.before j' h'.le_start hlt
    rw [h'.holds (by have := h.le_bound; omega)] at this
    exact Bool.noConfusion this

theorem firstFrom_eq (h : IsFirst p bound i j) : firstFrom p bound i = j :=
  (firstFrom_isFirst (Nat.le_trans h.le_start h.le_bound)).unique h

theorem firstFrom_self (p : Nat → Bool) (bound : Nat) : firstFrom p bound bound = bound := by
  simp [firstFrom, scanFrom]

theorem le_firstFrom (h : i ≤ bound) : i ≤ firstFrom p bound i :=
  (firstFrom_isFirst h).le_start

theorem firstFrom_le (h : i ≤ bound) : firstFrom p bound i ≤ bound :=
  (firstFrom_isFirst h).le_bound

/-- A scan that stops before its bound started before it. -/
theorem lt_of_firstFrom_lt (h : firstFrom p bound i < bound) : i < bound := by
  refine Nat.lt_of_not_le fun hge => ?_
  rw [firstFrom, Nat.sub_eq_zero_of_le hge, scanFrom] at h
  omega

/-- A scan stops at or before any position where `p` holds. -/
theorem firstFrom_le_of_holds {k : Nat} (hik : i ≤ k) (hk : k < bound) (hp : p k = true) :
    firstFrom p bound i ≤ k := by
  have h := firstFrom_isFirst (p := p) (Nat.le_trans hik (Nat.le_of_lt hk))
  refine Nat.le_of_not_lt fun hlt => ?_
  rw [h.before k hik hlt] at hp
  exact Bool.noConfusion hp

/-- A scan that starts past a stretch where `p` fails ends where the longer one does. -/
theorem firstFrom_skip {w : Nat} (hiw : i ≤ w) (hw : w ≤ bound)
    (hskip : ∀ k, i ≤ k → k < w → p k = false) : firstFrom p bound w = firstFrom p bound i := by
  have h := firstFrom_isFirst (p := p) hw
  refine (firstFrom_eq ⟨Nat.le_trans hiw h.le_start, h.le_bound, h.holds, fun k hk hlt => ?_⟩).symm
  by_cases hkw : k < w
  · exact hskip k hk hkw
  · exact h.before k (by omega) hlt

/-- A scan that stops before a bound stops at the same place under any larger bound. -/
theorem firstFrom_of_lt {bound' : Nat} (hi : i ≤ bound) (hlt : firstFrom p bound i < bound)
    (hb : bound ≤ bound') : firstFrom p bound' i = firstFrom p bound i := by
  have h := firstFrom_isFirst (p := p) hi
  exact firstFrom_eq ⟨h.le_start, by omega, fun _ => h.holds hlt, h.before⟩

/-- The scan reads `p` only on `[i, bound)`. -/
theorem firstFrom_congr (hpq : ∀ k, i ≤ k → k < bound → p k = q k) :
    firstFrom p bound i = firstFrom q bound i := by
  by_cases hi : i ≤ bound
  · have h := firstFrom_isFirst (p := p) hi
    refine (firstFrom_eq ⟨h.le_start, h.le_bound, fun hlt => ?_, fun k hk hlt => ?_⟩).symm
    · rw [← hpq _ h.le_start hlt]
      exact h.holds hlt
    · rw [← hpq k hk (by have := h.le_bound; omega)]
      exact h.before k hk hlt
  · simp [firstFrom, Nat.sub_eq_zero_of_le (Nat.le_of_not_le hi), scanFrom]

/-- A scan that starts at or past its bound stops at once. -/
theorem firstFrom_of_le (h : bound ≤ i) : firstFrom p bound i = i := by
  rw [firstFrom, Nat.sub_eq_zero_of_le h, scanFrom]

/-- A scan of `[a + i, a + n)` is a scan of `[i, n)` moved by `a`. -/
theorem firstFrom_add (a n i : Nat) :
    firstFrom p (a + n) (a + i) = a + firstFrom (fun k => p (a + k)) n i := by
  by_cases hi : i ≤ n
  · have h := firstFrom_isFirst (p := fun k => p (a + k)) hi
    refine firstFrom_eq ⟨by have := h.le_start; omega, by have := h.le_bound; omega,
      fun hlt => h.holds (by omega), fun k hk hlt => ?_⟩
    have hbefore := h.before (k - a) (by omega) (by omega)
    rwa [Nat.add_sub_cancel' (by omega)] at hbefore
  · rw [firstFrom_of_le (by omega), firstFrom_of_le (by omega)]

/-- A scan that finds a position finds the same one under a larger bound, and stops at a
smaller bound that comes first. -/
theorem firstFrom_eq_min {bound' : Nat} (hi : i ≤ bound') (h : firstFrom p bound i < bound) :
    firstFrom p bound' i = min (firstFrom p bound i) bound' := by
  have h₀ := firstFrom_isFirst (p := p) (Nat.le_of_lt (lt_of_firstFrom_lt h))
  by_cases hlt : firstFrom p bound i < bound'
  · rw [Nat.min_eq_left (Nat.le_of_lt hlt)]
    exact firstFrom_eq ⟨h₀.le_start, Nat.le_of_lt hlt, fun _ => h₀.holds h, h₀.before⟩
  · rw [Nat.min_eq_right (by omega)]
    exact firstFrom_eq ⟨hi, Nat.le_refl _, fun hb => absurd hb (Nat.lt_irrefl _),
      fun k hk hkb => h₀.before k hk (by omega)⟩

/-- A scan of positions for a property of their block `k / d` is a scan of the blocks: it
stops at the first position of the first block from `i`'s on where the property holds, or
at `bound`. -/
theorem firstFrom_comp_div {d E : Nat} (hd : 0 < d) (hi : i ≤ bound) (hE : bound ≤ E * d) :
    firstFrom (fun k => p (k / d)) bound i = min bound (max i (d * firstFrom p E (i / d))) := by
  have hiE : i / d ≤ E := Nat.div_le_of_le_mul (by rw [Nat.mul_comm]; omega)
  have hz := firstFrom_isFirst (p := p) hiE
  generalize firstFrom p E (i / d) = z at hz
  -- the blocks before `z` fail, so the positions before `d * z` do
  have hbefore : ∀ k, i ≤ k → k < d * z → p (k / d) = false := fun k hik hk =>
    hz.before _ (Nat.div_le_div_right hik) ((Nat.div_lt_iff_lt_mul hd).mpr (by rw [Nat.mul_comm]; exact hk))
  refine firstFrom_eq ⟨Nat.le_min.mpr ⟨hi, Nat.le_max_left _ _⟩, Nat.min_le_left _ _, fun hlt => ?_,
    fun k hik hk => hbefore k hik (by omega)⟩
  rw [Nat.min_eq_right (by omega)] at hlt ⊢
  -- the scan stops inside block `z`, which lies below `E`
  have hzE : z < E := Nat.lt_of_not_le fun hEz => by
    have : E * d ≤ d * z := by rw [Nat.mul_comm]; exact Nat.mul_le_mul_left d hEz
    omega
  by_cases hzi : d * z ≤ i
  · have hzeq : z = i / d := Nat.le_antisymm ((Nat.le_div_iff_mul_le hd).mpr (by rw [Nat.mul_comm]; exact hzi))
      hz.le_start
    rw [Nat.max_eq_left hzi, ← hzeq]
    exact hz.holds hzE
  · rw [Nat.max_eq_right (by omega), Nat.mul_div_cancel_left _ hd]
    exact hz.holds hzE

/-- `while (cond(i)) { i += step; len += step; }` with at most `fuel` turns;
`none` is the fuel running out. -/
def countLoop (cond : Nat → Bool) (step : Nat) : Nat → Nat → Nat → Option (Nat × Nat)
  | 0, i, len => if cond i then none else some (i, len)
  | fuel + 1, i, len => if cond i then countLoop cond step fuel (i + step) (len + step) else some (i, len)

/-- `while (res && !stop(i)) { i++; len++; res--; }`: what is left of `res`,
and `i` and `len` after the loop. -/
def alignLoop (stop : Nat → Bool) : Nat → Nat → Nat → Nat × Nat × Nat
  | 0, i, len => (0, i, len)
  | res + 1, i, len => if stop i then (res + 1, i, len) else alignLoop stop res (i + 1) (len + 1)

/-- A counted loop whose condition holds for `T` turns and then fails stops
after those turns, given the fuel for them. -/
theorem countLoop_eq {cond : Nat → Bool} {step T fuel : Nat}
    (hrun : ∀ t < T, cond (i + step * t) = true) (hstop : cond (i + step * T) = false)
    (hfuel : T ≤ fuel) (len : Nat) :
    countLoop cond step fuel i len = some (i + step * T, len + step * T) := by
  induction T generalizing fuel i len with
  | zero =>
      rw [Nat.mul_zero, Nat.add_zero] at hstop
      cases fuel <;> simp [countLoop, hstop]
  | succ T ih =>
      obtain ⟨fuel, rfl⟩ : ∃ f, fuel = f + 1 := ⟨fuel - 1, by omega⟩
      have hhead : cond i = true := by simpa using hrun 0 (by omega)
      have hshift : ∀ a t, a + step + step * t = a + step * (t + 1) := fun a t => by
        rw [Nat.mul_succ]
        omega
      have htail := @ih (i + step) fuel
        (fun t ht => by rw [hshift]; exact hrun (t + 1) (by omega))
        (by rwa [hshift]) (by omega) (len + step)
      rw [countLoop, if_pos hhead, htail, hshift, hshift]

/-- A counted loop stops at the first turn where its condition fails, given a
turn `N` where it does. -/
theorem countLoop_eq_firstFrom (cond : Nat → Bool) {step N fuel : Nat}
    (hN : cond (i + step * N) = false) (hfuel : N ≤ fuel) (len : Nat) :
    let T := firstFrom (fun t => !cond (i + step * t)) N 0
    countLoop cond step fuel i len = some (i + step * T, len + step * T) := by
  have h := firstFrom_isFirst (p := fun t => !cond (i + step * t)) (Nat.zero_le N)
  refine countLoop_eq (fun t ht => ?_) ?_ (Nat.le_trans h.le_bound hfuel) len
  · simpa using h.before t (Nat.zero_le t) ht
  · rcases Nat.lt_or_ge (firstFrom (fun t => !cond (i + step * t)) N 0) N with hlt | hge
    · simpa using h.holds hlt
    · rwa [Nat.le_antisymm h.le_bound hge]

/-- A byte loop `while (i < bound && !p(i)) { i++; len++; }` stops at the first
position where `p` holds; its condition need only read so on the positions the
loop reaches. -/
theorem countLoop_scan (cond : Nat → Bool) {fuel : Nat} (len : Nat) (hi : i ≤ bound)
    (hfuel : bound - i ≤ fuel)
    (hcond : ∀ k, i ≤ k → k ≤ firstFrom p bound i → cond k = (decide (k < bound) && !p k)) :
    countLoop cond 1 fuel i len = some (firstFrom p bound i, len + (firstFrom p bound i - i)) := by
  have h := firstFrom_isFirst (p := p) hi
  have hstop : cond (i + 1 * (firstFrom p bound i - i)) = false := by
    rw [Nat.one_mul, Nat.add_sub_cancel' h.le_start, hcond _ h.le_start (Nat.le_refl _)]
    rcases Nat.lt_or_ge (firstFrom p bound i) bound with hlt | hge
    · simp [h.holds hlt]
    · simp [Nat.not_lt.mpr hge]
  have hrun : ∀ t < firstFrom p bound i - i, cond (i + 1 * t) = true := by
    intro t ht
    rw [Nat.one_mul, hcond _ (by omega) (by omega), h.before (i + t) (by omega) (by omega)]
    have := h.le_bound
    simp only [Bool.not_false, Bool.and_true, decide_eq_true_eq]
    omega
  rw [countLoop_eq hrun hstop (by have := h.le_bound; omega) len, Nat.one_mul,
    Nat.add_sub_cancel' h.le_start]

/-- An aligning loop stops at the first position of its budget where `stop`
holds, and has spent the budget up to there. -/
theorem alignLoop_eq (stop : Nat → Bool) (res i len : Nat) :
    alignLoop stop res i len =
      (res - (firstFrom stop (i + res) i - i), firstFrom stop (i + res) i,
        len + (firstFrom stop (i + res) i - i)) := by
  induction res generalizing i len with
  | zero => simp [alignLoop, firstFrom_self]
  | succ res ih =>
      by_cases hs : stop i
      · have hfirst : firstFrom stop (i + (res + 1)) i = i :=
          firstFrom_eq ⟨Nat.le_refl i, by omega, fun _ => hs, fun k hk hlt => by omega⟩
        simp [alignLoop, hs, hfirst]
      · have hskip : firstFrom stop (i + 1 + res) (i + 1) = firstFrom stop (i + (res + 1)) i := by
          rw [show i + 1 + res = i + (res + 1) by omega]
          exact firstFrom_skip (by omega) (by omega) fun k hk hlt => by
            rw [show k = i by omega]
            simpa using hs
        have hgt : i + 1 ≤ firstFrom stop (i + (res + 1)) i := by
          rw [← hskip]
          exact le_firstFrom (by omega)
        simp only [alignLoop, hs, Bool.false_eq_true, if_false, ih, hskip]
        refine Prod.ext ?_ (Prod.ext rfl ?_) <;> dsimp only <;> omega

end Xqemu.Scan
