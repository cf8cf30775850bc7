import Mathlib.Logic.Function.Basic
import Mathlib.Data.List.Basic

/-!
# A bounded stack held in an array

Cells `1 … depth` of an array hold the entries of a stack from the bottom up,
so cell `depth` is its top and cell `0` is what stands below an empty stack.  A
push writes cell `depth + 1` and a pop reads cell `depth`: an array holding `l`
is kept by a push as the list is by `l ++ [x]`, and by a pop as the list is by
dropping its last entry.
-/

namespace Xqemu.ArrayStack

variable {α β : Type*}

/-- Cells `1 … l.length` of `cells` hold `l` from the bottom up. -/
def Holds (cells : Nat → α) (l : List α) : Prop :=
  ∀ i (h : i < l.length), cells (i + 1) = l[i]

variable {cells : Nat → α} {l : List α} {x : α}

theorem holds_nil (cells : Nat → α) : Holds cells [] :=
  fun i h => absurd h (Nat.not_lt_zero i)

/-- A push writes the cell just above the top. -/
theorem Holds.push (h : Holds cells l) (x : α) :
    Holds (Function.update cells (l.length + 1) x) (l ++ [x]) := by
  intro i hi
  rw [List.length_append, List.length_singleton] at hi
  by_cases hil : i < l.length
  · have hne : i + 1 ≠ l.length + 1 := by omega
    rw [Function.update_of_ne hne, h i hil, List.getElem_append_left hil]
  · have hi' : i = l.length := by omega
    subst hi'
    simp

/-- The top of a non-empty stack is its last entry. -/
theorem Holds.top (h : Holds cells (l ++ [x])) : cells (l.length + 1) = x := by
  simpa using h l.length (by simp)

/-- A pop leaves the entries below the top. -/
theorem Holds.pop (h : Holds cells (l ++ [x])) : Holds cells l := by
  intro i hi
  rw [h i (by simp; omega), List.getElem_append_left hi]

/-- Two arrays written at one index are one array of pairs written there. -/
theorem update_pair (f : Nat → α) (g : Nat → β) (k : Nat) (a : α) (b : β) :
    (fun i => (Function.update f k a i, Function.update g k b i)) =
      Function.update (fun i => (f i, g i)) k (a, b) := by
  funext i
  by_cases hi : i = k
  · subst hi
    simp
  · simp [Function.update_of_ne hi]

end Xqemu.ArrayStack
