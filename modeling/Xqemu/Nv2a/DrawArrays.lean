import Xqemu.Lib.BitField
import Mathlib.Data.List.Chain

/-! # Draw-arrays batches of PGRAPH (nv2a_pgraph.c)

Between two `NV097_SET_BEGIN_END` calls, each `NV097_DRAW_ARRAYS` names a
range of `COUNT + 1` vertices from `START_INDEX`.  PGRAPH records the ranges in
`gl_draw_arrays_start` and `gl_draw_arrays_count`, extending the last one in
place when the new range starts where it ends, keeps the largest end in
`draw_arrays_max_count`, and at the end of the batch hands them to
`glMultiDrawArrays`.

The recorded ranges list the submitted vertices in order, no two neighbours
could have been merged, and the largest end is the largest submitted end.
-/

namespace Xqemu.Nv2a.Pgraph

open Xqemu.Bits

def nv097DrawArrays : Nat := 0x1810
def nv097DrawArraysCount : Field := ⟨24, 8⟩
def nv097DrawArraysStartIndex : Field := ⟨0, 24⟩

/-- `ARRAY_SIZE(pg->gl_draw_arrays_start)`. -/
def drawArraysCapacity : Nat := 1000

/-- The draw-arrays state of `PGRAPHState`: the first `draw_arrays_length`
entries of `gl_draw_arrays_start` and `gl_draw_arrays_count`, as ranges, and
`draw_arrays_max_count`. -/
structure DrawArrays where
  ranges : List (Nat × Nat)
  maxCount : Nat
  deriving DecidableEq, Repr

/-- What `NV097_SET_BEGIN_END` leaves when a batch begins. -/
def DrawArrays.begin : DrawArrays := ⟨[], 0⟩

/-- The range a `NV097_DRAW_ARRAYS` parameter names: its start and count. -/
def submittedRange (parameter : Nat) : Nat × Nat :=
  (nv097DrawArraysStartIndex.get parameter, nv097DrawArraysCount.get parameter + 1)

/-- `NV097_DRAW_ARRAYS`; `none` is a failed `assert`. -/
def drawArrays (s : DrawArrays) (parameter : Nat) : Option DrawArrays :=
  let start := nv097DrawArraysStartIndex.get parameter
  let count := nv097DrawArraysCount.get parameter + 1
  let maxCount := max s.maxCount (start + count)
  if s.ranges.length < drawArraysCapacity then
    -- attempt to connect primitives
    match s.ranges.getLast? with
    | some (lastStart, lastCount) =>
        if start = lastStart + lastCount then
          some ⟨s.ranges.dropLast ++ [(lastStart, lastCount + count)], maxCount⟩
        else some ⟨s.ranges ++ [(start, count)], maxCount⟩
    | none => some ⟨s.ranges ++ [(start, count)], maxCount⟩
  else none

/-! ## The abstract batch -/

/-- The vertex indices a range draws. -/
def rangeIndices (r : Nat × Nat) : List Nat := List.range' r.1 r.2

/-- A range `b` that does not start where `a` ends. -/
def NotContiguous (a b : Nat × Nat) : Prop := b.1 ≠ a.1 + a.2

/-- The largest end of a list of ranges, the way `draw_arrays_max_count`
accumulates it. -/
def maxEnd (rs : List (Nat × Nat)) : Nat := rs.foldl (fun m r => max m (r.1 + r.2)) 0

/-- The recorded state of a batch whose ranges so far are `submitted`. -/
structure Recorded (submitted : List (Nat × Nat)) (s : DrawArrays) : Prop where
  indices : s.ranges.flatMap rangeIndices = submitted.flatMap rangeIndices
  maximal : s.ranges.IsChain NotContiguous
  maxCount : s.maxCount = maxEnd submitted

theorem recorded_begin : Recorded [] DrawArrays.begin :=
  ⟨rfl, List.IsChain.nil, rfl⟩

/-- What a `NV097_DRAW_ARRAYS` that passes its assertion does: extend the last
range it continues, or append its own. -/
theorem drawArrays_cases {s s' : DrawArrays} {parameter : Nat}
    (h : drawArrays s parameter = some s') :
    s'.maxCount = max s.maxCount ((submittedRange parameter).1 + (submittedRange parameter).2) ∧
      ((∃ init lastStart lastCount, s.ranges = init ++ [(lastStart, lastCount)] ∧
          (submittedRange parameter).1 = lastStart + lastCount ∧
          s'.ranges = init ++ [(lastStart, lastCount + (submittedRange parameter).2)]) ∨
        ((∀ r ∈ s.ranges.getLast?, NotContiguous r (submittedRange parameter)) ∧
          s'.ranges = s.ranges ++ [submittedRange parameter])) := by
  unfold drawArrays at h
  dsimp only at h
  split_ifs at h with hlen
  split at h
  · next lastStart lastCount hlast =>
      obtain ⟨init, hinit⟩ := List.getLast?_eq_some_iff.mp hlast
      split_ifs at h with hc
      · obtain rfl := (Option.some.inj h).symm
        refine ⟨rfl, .inl ⟨init, lastStart, lastCount, hinit, hc, ?_⟩⟩
        simp [hinit, submittedRange]
      · obtain rfl := (Option.some.inj h).symm
        refine ⟨rfl, .inr ⟨fun r hr => ?_, rfl⟩⟩
        rw [hlast, Option.mem_some_iff] at hr
        subst hr
        exact hc
  · next hlast =>
      obtain rfl := (Option.some.inj h).symm
      refine ⟨rfl, .inr ⟨fun r hr => ?_, rfl⟩⟩
      rw [hlast] at hr
      cases hr

/-- Extending the last range leaves the chain, whose links only see its start. -/
theorem isChain_extend_last {init : List (Nat × Nat)} {start count count' : Nat}
    (h : (init ++ [(start, count)]).IsChain NotContiguous) :
    (init ++ [(start, count')]).IsChain NotContiguous := by
  obtain ⟨hinit, -, hlink⟩ := List.isChain_append.mp h
  refine List.isChain_append.mpr ⟨hinit, List.isChain_singleton _, fun x hx y hy => ?_⟩
  rw [List.head?_singleton, Option.mem_some_iff] at hy
  subst hy
  exact hlink x hx (start, count) (by simp)

theorem maxEnd_append (rs : List (Nat × Nat)) (r : Nat × Nat) :
    maxEnd (rs ++ [r]) = max (maxEnd rs) (r.1 + r.2) := by
  simp [maxEnd, List.foldl_append]

/-- One `NV097_DRAW_ARRAYS` keeps the batch recorded. -/
theorem Recorded.step {submitted : List (Nat × Nat)} {s s' : DrawArrays} {parameter : Nat}
    (hr : Recorded submitted s) (h : drawArrays s parameter = some s') :
    Recorded (submitted ++ [submittedRange parameter]) s' := by
  obtain ⟨hmax, ⟨init, lastStart, lastCount, hs, hstart, hs'⟩ | ⟨hlink, hs'⟩⟩ := drawArrays_cases h
  · -- the new range continues the last one, which grows by its count
    refine ⟨?_, ?_, by rw [hmax, hr.maxCount, maxEnd_append]⟩
    · rw [hs', List.flatMap_append, List.flatMap_append, ← hr.indices, hs, List.flatMap_append,
        List.append_assoc]
      simp [rangeIndices, hstart, List.range'_append_1]
    · rw [hs']
      exact isChain_extend_last (hs ▸ hr.maximal)
  · refine ⟨?_, ?_, by rw [hmax, hr.maxCount, maxEnd_append]⟩
    · rw [hs', List.flatMap_append, List.flatMap_append, hr.indices]
    · rw [hs']
      refine List.isChain_append.mpr ⟨hr.maximal, List.isChain_singleton _, fun x hx y hy => ?_⟩
      rw [List.head?_singleton, Option.mem_some_iff] at hy
      subst hy
      exact hlink x hx

/-- A run of `NV097_DRAW_ARRAYS` methods keeps the batch recorded. -/
theorem Recorded.run {submitted : List (Nat × Nat)} :
    ∀ {s s' : DrawArrays} (parameters : List Nat), Recorded submitted s →
      parameters.foldlM drawArrays s = some s' →
      Recorded (submitted ++ parameters.map submittedRange) s'
  | s, s', [], hr, h => by
      obtain rfl : s = s' := Option.some.inj h
      simpa using hr
  | s, s', p :: ps, hr, h => by
      rw [List.foldlM_cons, Option.bind_eq_bind, Option.bind_eq_some_iff] at h
      obtain ⟨t, ht, hrest⟩ := h
      have := Recorded.run ps (hr.step ht) hrest
      simpa using this

/-- The ranges a batch of `NV097_DRAW_ARRAYS` records, while `draw_arrays_length`
stays within its array: flattened, they are the submitted vertex indices in
order; no recorded range starts where the one before it ends; and
`draw_arrays_max_count` is the largest submitted end. -/
theorem drawArrays_records_submitted (parameters : List Nat) (s : DrawArrays)
    (h : parameters.foldlM drawArrays DrawArrays.begin = some s) :
    s.ranges.flatMap rangeIndices = (parameters.map submittedRange).flatMap rangeIndices ∧
      s.ranges.IsChain NotContiguous ∧ s.maxCount = maxEnd (parameters.map submittedRange) := by
  have hr := Recorded.run parameters recorded_begin h
  rw [List.nil_append] at hr
  exact ⟨hr.indices, hr.maximal, hr.maxCount⟩

/-- Three vertices from 0, then two from 3: one range of five. -/
theorem drawArrays_merge_two :
    [0x02000000, 0x01000003].foldlM drawArrays DrawArrays.begin = some ⟨[(0, 5)], 5⟩ ∧
      ([(0, 5)] : List (Nat × Nat)).flatMap rangeIndices =
          (([0x02000000, 0x01000003] : List Nat).map submittedRange).flatMap rangeIndices ∧
        ([(0, 5)] : List (Nat × Nat)).IsChain NotContiguous ∧
          (5 : Nat) = maxEnd (([0x02000000, 0x01000003] : List Nat).map submittedRange) :=
  have h : [0x02000000, 0x01000003].foldlM drawArrays DrawArrays.begin = some ⟨[(0, 5)], 5⟩ := by
    decide
  ⟨h, drawArrays_records_submitted _ _ h⟩

end Xqemu.Nv2a.Pgraph
