import Mathlib.Data.List.Infix

/-!
# Stuttering simulation by a deterministic machine with output

An abstract machine moves by `next : σ → Option (σ × List ω)`, emitting a list
of outputs per step; `iterate next n` runs it `n` steps.  A concrete system is
simulated from a start state `c₀` up to the abstraction `abs` and the observed
output `out` when the machine, started at `abs c₀`, reaches `abs c` in some
number of steps and emits exactly what was observed since `c₀`.  A concrete
step keeps this when it leaves the abstraction and the output alone (a stutter)
or is one machine step.
-/

namespace Xqemu.Sim

variable {σ ω : Type*}

/-- `n` steps of `next`, concatenating their outputs; `none` when a step fails. -/
def iterate (next : σ → Option (σ × List ω)) : Nat → σ → Option (σ × List ω)
  | 0, a => some (a, [])
  | n + 1, a =>
      match iterate next n a with
      | none => none
      | some (b, o) =>
          match next b with
          | none => none
          | some (c, o') => some (c, o ++ o')

section Iterate

variable {next : σ → Option (σ × List ω)}

theorem iterate_succ_of_eq {n : Nat} {a b c : σ} {o o' : List ω}
    (h : iterate next n a = some (b, o)) (hb : next b = some (c, o')) :
    iterate next (n + 1) a = some (c, o ++ o') := by
  simp [iterate, h, hb]

theorem iterate_succ_inv {n : Nat} {a c : σ} {o : List ω}
    (h : iterate next (n + 1) a = some (c, o)) :
    ∃ b o₁ o₂, iterate next n a = some (b, o₁) ∧ next b = some (c, o₂) ∧ o = o₁ ++ o₂ := by
  simp only [iterate] at h
  split at h
  · cases h
  · next b o₁ hn =>
      split at h
      · cases h
      · next c' o₂ hb =>
          simp only [Option.some.injEq, Prod.mk.injEq] at h
          obtain ⟨rfl, rfl⟩ := h
          exact ⟨b, o₁, o₂, hn, hb, rfl⟩

/-- A state the machine maps to itself without output is kept forever. -/
theorem iterate_of_fixed {a : σ} (ha : next a = some (a, [])) (n : Nat) :
    iterate next n a = some (a, []) := by
  induction n with
  | zero => rfl
  | succ n ih => simpa using iterate_succ_of_eq ih ha

/-- Runs compose: `m + n` steps are `m` steps followed by `n` more. -/
theorem iterate_add {m n : Nat} {a b c : σ} {o o' : List ω}
    (hm : iterate next m a = some (b, o)) (hn : iterate next n b = some (c, o')) :
    iterate next (m + n) a = some (c, o ++ o') := by
  induction n generalizing c o' with
  | zero =>
      simp only [iterate, Option.some.injEq, Prod.mk.injEq] at hn
      obtain ⟨rfl, rfl⟩ := hn
      simpa using hm
  | succ n ih =>
      obtain ⟨b', o₁, o₂, hn', hb', rfl⟩ := iterate_succ_inv hn
      rw [← Nat.add_assoc, ← List.append_assoc]
      exact iterate_succ_of_eq (ih hn') hb'

end Iterate

section Simulation

variable {γ : Type*} (next : σ → Option (σ × List ω)) (abs : γ → σ) (out : γ → List ω)

/-- `c` is simulated from `c₀`: the machine reaches `abs c` from `abs c₀`,
emitting what `out` gained from `c₀` to `c`. -/
def Simulated (c₀ c : γ) : Prop :=
  ∃ n o, iterate next n (abs c₀) = some (abs c, o) ∧ out c = out c₀ ++ o

variable {next abs out}

theorem Simulated.refl (c : γ) : Simulated next abs out c c :=
  ⟨0, [], rfl, by simp⟩

/-- A concrete step that changes neither the abstraction nor the output. -/
theorem Simulated.stutter {c₀ c c' : γ} (h : Simulated next abs out c₀ c)
    (habs : abs c' = abs c) (hout : out c' = out c) : Simulated next abs out c₀ c' := by
  obtain ⟨n, o, hn, ho⟩ := h
  exact ⟨n, o, habs ▸ hn, hout ▸ ho⟩

/-- A concrete step that is one machine step and emits what it observes. -/
theorem Simulated.step {c₀ c c' : γ} {o' : List ω} (h : Simulated next abs out c₀ c)
    (hnext : next (abs c) = some (abs c', o')) (hout : out c' = out c ++ o') :
    Simulated next abs out c₀ c' := by
  obtain ⟨n, o, hn, ho⟩ := h
  refine ⟨n + 1, o ++ o', iterate_succ_of_eq hn hnext, ?_⟩
  rw [hout, ho, List.append_assoc]

end Simulation

end Xqemu.Sim
