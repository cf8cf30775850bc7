import Xqemu.Lib.ByteMemory

/-!
# Byte transfers through an address map

A device that copies a buffer out to scattered addresses stores byte `k` of
the buffer at `addr k`, one byte after another; one that gathers reads byte `k`
from `addr k`.  `scatterSeq` and `gatherInto` are these two transfers.  Each
splits at any point into a transfer of the first bytes followed by one of the
rest, and `memcpy` is each of them at a contiguous map, so a loop that copies
a buffer chunk by chunk is one transfer through the map its chunks follow.
-/

namespace Xqemu.Memory

/-- Store `src k` at `addr k` for `k = 0, …, n - 1`, in that order: where two
bytes go to one address, the later one stays. -/
def scatterSeq (m : Mem) (addr : Nat → Nat) (src : Nat → UInt8) : Nat → Mem
  | 0 => m
  | n + 1 => fun x => if x = addr n then src n else scatterSeq m addr src n x

/-- `dst` with its bytes `[d, d + n)` read from `src` at `addr 0, …, addr (n - 1)`. -/
def gatherInto (dst : Mem) (d n : Nat) (src : Mem) (addr : Nat → Nat) : Mem :=
  fun x => if d ≤ x ∧ x < d + n then src (addr (x - d)) else dst x

section Scatter

variable {m : Mem} {addr addr' : Nat → Nat} {src src' : Nat → UInt8}

@[simp] theorem scatterSeq_zero : scatterSeq m addr src 0 = m := rfl

theorem scatterSeq_succ (n x : Nat) :
    scatterSeq m addr src (n + 1) x = if x = addr n then src n else scatterSeq m addr src n x :=
  rfl

/-- The first `a` stores, then the next `b`. -/
theorem scatterSeq_add (a b : Nat) :
    scatterSeq m addr src (a + b) =
      scatterSeq (scatterSeq m addr src a) (fun k => addr (a + k)) (fun k => src (a + k)) b := by
  induction b with
  | zero => rfl
  | succ b ih =>
      funext x
      rw [← Nat.add_assoc, scatterSeq_succ, ih, scatterSeq_succ]

/-- Only the first `n` addresses and bytes matter. -/
theorem scatterSeq_congr {n : Nat} (haddr : ∀ k < n, addr k = addr' k)
    (hsrc : ∀ k < n, src k = src' k) : scatterSeq m addr src n = scatterSeq m addr' src' n := by
  induction n with
  | zero => rfl
  | succ n ih =>
      funext x
      rw [scatterSeq_succ, scatterSeq_succ, haddr n (by omega), hsrc n (by omega),
        ih (fun k hk => haddr k (by omega)) (fun k hk => hsrc k (by omega))]

/-- A byte that no store addresses keeps its value. -/
theorem scatterSeq_of_forall_ne {n x : Nat} (h : ∀ k < n, addr k ≠ x) :
    scatterSeq m addr src n x = m x := by
  induction n with
  | zero => rfl
  | succ n ih =>
      rw [scatterSeq_succ, if_neg (Ne.symm (h n (by omega))), ih (fun k hk => h k (by omega))]

/-- A byte ends as the last store to it. -/
theorem scatterSeq_of_last {n k x : Nat} (hk : k < n) (hx : addr k = x)
    (hlast : ∀ j, k < j → j < n → addr j ≠ x) : scatterSeq m addr src n x = src k := by
  obtain ⟨b, rfl⟩ : ∃ b, n = k + 1 + b := ⟨n - (k + 1), by omega⟩
  rw [scatterSeq_add, scatterSeq_of_forall_ne (fun j hj => hlast (k + 1 + j) (by omega) (by omega)),
    scatterSeq_succ, if_pos hx.symm]

/-- Stores that all miss a range leave it as it was. -/
theorem agreeOn_scatterSeq {n a len : Nat} (h : ∀ k < n, addr k < a ∨ a + len ≤ addr k) :
    AgreeOn m (scatterSeq m addr src n) a len := by
  intro x hx₁ hx₂
  rw [scatterSeq_of_forall_ne fun k hk hkx => by have := h k hk; omega]

/-- `memcpy` stores its bytes one after another, at consecutive addresses. -/
theorem memcpy_eq_scatterSeq (dst : Mem) (d : Nat) (src : Mem) (s n : Nat) :
    memcpy dst d src s n = scatterSeq dst (fun k => d + k) (fun k => src (s + k)) n := by
  induction n with
  | zero =>
      funext x
      exact memcpy_of_not_mem (by omega)
  | succ n ih =>
      funext x
      rw [scatterSeq_succ, ← ih]
      by_cases hx : x = d + n
      · rw [if_pos hx, memcpy_of_mem (by omega) (by omega), hx, Nat.add_sub_cancel_left]
      · rw [if_neg hx]
        by_cases hin : d ≤ x ∧ x < d + n
        · rw [memcpy_of_mem hin.1 (by omega), memcpy_of_mem hin.1 hin.2]
        · rw [memcpy_of_not_mem (by omega), memcpy_of_not_mem hin]

end Scatter

section Gather

variable {dst src : Mem} {addr addr' : Nat → Nat}

@[simp] theorem gatherInto_zero (d : Nat) : gatherInto dst d 0 src addr = dst := by
  funext x
  simp only [gatherInto]
  rw [if_neg (by omega)]

/-- The first `a` bytes, then the next `b`. -/
theorem gatherInto_add (d a b : Nat) :
    gatherInto (gatherInto dst d a src addr) (d + a) b src (fun k => addr (a + k)) =
      gatherInto dst d (a + b) src addr := by
  funext x
  simp only [gatherInto]
  by_cases h₁ : d + a ≤ x ∧ x < d + a + b
  · rw [if_pos h₁, if_pos (by omega), show a + (x - (d + a)) = x - d by omega]
  · rw [if_neg h₁]
    by_cases h₂ : d ≤ x ∧ x < d + a
    · rw [if_pos h₂, if_pos (by omega)]
    · rw [if_neg h₂, if_neg (by omega)]

/-- Only the first `n` addresses matter. -/
theorem gatherInto_congr {d n : Nat} (h : ∀ k < n, addr k = addr' k) :
    gatherInto dst d n src addr = gatherInto dst d n src addr' := by
  funext x
  simp only [gatherInto]
  split_ifs with hx
  · rw [h (x - d) (by omega)]
  · rfl

theorem memcpy_eq_gatherInto (dst : Mem) (d : Nat) (src : Mem) (s n : Nat) :
    memcpy dst d src s n = gatherInto dst d n src (fun k => s + k) :=
  rfl

end Gather

end Xqemu.Memory
