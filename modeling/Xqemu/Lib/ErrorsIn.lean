import Mathlib.Logic.Basic

/-!
# The errors a computation in `Except` can end with

`ErrorsIn P x` says that whenever `x` ends with an error, the error satisfies
`P`; `ErrorsIn (fun _ => False) x` says that `x` never fails.  The rules follow
the monad's operations, so the errors of a `do` block are read off it one bind
at a time.
-/

namespace Xqemu.Faults

variable {ε α β : Type} {P Q : ε → Prop}

@[simp] theorem ok_bind (a : α) (f : α → Except ε β) : (Except.ok a >>= f) = f a := rfl

@[simp] theorem error_bind (e : ε) (f : α → Except ε β) : (Except.error e >>= f) = .error e := rfl

theorem bind_eq_ok {x : Except ε α} {f : α → Except ε β} {b : β} :
    (x >>= f) = .ok b ↔ ∃ a, x = .ok a ∧ f a = .ok b := by
  cases x <;> simp [bind, Except.bind]

/-- Every error `x` can end with satisfies `P`. -/
def ErrorsIn (P : ε → Prop) (x : Except ε α) : Prop := ∀ e, x = .error e → P e

theorem errorsIn_ok (a : α) : ErrorsIn P (Except.ok a : Except ε α) := fun _ h => nomatch h

theorem errorsIn_pure (a : α) : ErrorsIn P (pure a : Except ε α) := errorsIn_ok a

theorem errorsIn_throw {e : ε} (h : P e) : ErrorsIn P (throw e : Except ε α) := by
  rintro e' ⟨⟩
  exact h

theorem ErrorsIn.bind {x : Except ε α} {f : α → Except ε β} (hx : ErrorsIn P x)
    (hf : ∀ a, x = .ok a → ErrorsIn P (f a)) : ErrorsIn P (x >>= f) := by
  intro e h
  cases hxa : x with
  | error e' =>
      rw [hxa] at h
      cases h
      exact hx _ hxa
  | ok a =>
      rw [hxa] at h
      exact hf a hxa e h

theorem errorsIn_ite {c : Prop} [Decidable c] {x y : Except ε α} (h₁ : c → ErrorsIn P x)
    (h₂ : ¬c → ErrorsIn P y) : ErrorsIn P (if c then x else y) := by
  by_cases hc : c
  · rw [if_pos hc]
    exact h₁ hc
  · rw [if_neg hc]
    exact h₂ hc

/-- What a chain of tests returns is one of its branches: the rule that reads a
fact about a dispatch off each of its cases. -/
theorem ite_eq_elim {γ : Type} {c : Prop} [Decidable c] {a b x : γ} {R : Prop}
    (ha : a = x → R) (hb : b = x → R) : (if c then a else b) = x → R := by
  by_cases hc : c
  · rw [if_pos hc]
    exact ha
  · rw [if_neg hc]
    exact hb

theorem ErrorsIn.mono {x : Except ε α} (h : ErrorsIn P x) (hPQ : ∀ e, P e → Q e) : ErrorsIn Q x :=
  fun e he => hPQ e (h e he)

/-- A fold whose every step fails only with `P` fails only with `P`. -/
theorem errorsIn_foldlM {f : β → α → Except ε β} :
    ∀ (l : List α) (init : β), (∀ b, ∀ a ∈ l, ErrorsIn P (f b a)) → ErrorsIn P (l.foldlM f init)
  | [], _, _ => errorsIn_pure _
  | a :: l, init, h => by
      rw [List.foldlM_cons]
      exact ErrorsIn.bind (h init a List.mem_cons_self) fun b _ =>
        errorsIn_foldlM l b fun b' a' ha' => h b' a' (List.mem_cons_of_mem _ ha')

/-- A computation that never fails fails with anything. -/
theorem ErrorsIn.of_never {x : Except ε α} (h : ErrorsIn (fun _ => False) x) : ErrorsIn P x :=
  h.mono fun _ => False.elim

theorem ErrorsIn.exists_ok {x : Except ε α} (h : ErrorsIn (fun _ => False) x) : ∃ a, x = .ok a := by
  cases x with
  | error e => exact (h e rfl).elim
  | ok a => exact ⟨a, rfl⟩

/-- A computation that its test says succeeded has a result: the form a `decide` on a fixed
input produces. -/
theorem exists_ok_of_isOk {x : Except ε α} (h : x.isOk = true) : ∃ a, x = .ok a := by
  cases x with
  | error e => exact absurd h Bool.false_ne_true
  | ok a => exact ⟨a, rfl⟩

end Xqemu.Faults
