import Mathlib.Data.List.Basic

/-!
# Inline vertex batches of PGRAPH (nv2a_pgraph.c)

Between `NV097_SET_BEGIN_END` calls, the Kelvin object collects a batch in one
of three forms: element indices (`NV097_ARRAY_ELEMENT16`/`32`, into
`pg->inline_elements`), raw vertex words (`NV097_INLINE_ARRAY`, into
`pg->inline_array`), or vertices assembled from the `SET_VERTEX*` methods
(`pgraph_finish_inline_buffer_vertex`, into each attribute's `inline_buffer`,
four floats a vertex).  Each array holds `NV2A_MAX_BATCH_LENGTH` entries and
each counter is reset when a batch begins.

The model is the part of `pgraph_method`'s Kelvin switch that touches these
counters and arrays.  A method returns the stores it makes, as index ranges
into the arrays, or `none` when one of its assertions fails.  The END branch
of `SET_BEGIN_END` chooses its drawing path by `pg->draw_arrays_length`,
which the batches do not hold; a call carries it.

Every store into `inline_array` and into the inline buffers is within the
array.  `NV097_ARRAY_ELEMENT16` checks the counter once and then stores two
indices, so the second can land one past the end of `inline_elements`, and
65536 of them after a reset do so.
-/

namespace Xqemu.Nv2a.Pgraph

def nv2aMaxBatchLength : Nat := 0x1FFFF
def nv2aVertexshaderAttributes : Nat := 16
def nv2aVertexAttrPosition : Nat := 0

def nv097SetVertex3f : Nat := 0x1500
def nv097SetVertex4f : Nat := 0x1518
def nv097SetBeginEnd : Nat := 0x17FC
def nv097SetBeginEndOpEnd : Nat := 0x00
def nv097SetBeginEndOpPolygon : Nat := 0x0A
def nv097ArrayElement16 : Nat := 0x1800
def nv097ArrayElement32 : Nat := 0x1808
def nv097InlineArray : Nat := 0x1818
def nv097SetVertexData2fM : Nat := 0x1880
def nv097SetVertexData2s : Nat := 0x1900
def nv097SetVertexData4ub : Nat := 0x1940
def nv097SetVertexData4sM : Nat := 0x1980
def nv097SetVertexData4fM : Nat := 0x1A00

/-- The batch state of `PGRAPHState`: the three counters and which vertex
attributes have an `inline_buffer`. -/
structure Batch where
  inlineArrayLength : Nat
  inlineElementsLength : Nat
  inlineBufferLength : Nat
  inlineBuffer : Nat → Bool

/-- The state `pgraph_init` leaves: no batch, no inline buffer. -/
def Batch.init : Batch := ⟨0, 0, 0, fun _ => false⟩

/-- The array a store goes to. -/
inductive Target
  | inlineArray
  | inlineElements
  | inlineBuffer (attr : Nat)
  deriving DecidableEq, Repr

/-- A store of `count` entries from index `start`: `uint32_t`s, or the
floats of an inline buffer. -/
structure Store where
  target : Target
  start : Nat
  count : Nat
  deriving DecidableEq, Repr

/-- The entries of each array: `NV2A_MAX_BATCH_LENGTH`, and four floats for
each of as many vertices in an inline buffer. -/
def Target.capacity : Target → Nat
  | .inlineArray => nv2aMaxBatchLength
  | .inlineElements => nv2aMaxBatchLength
  | .inlineBuffer _ => nv2aMaxBatchLength * 4

/-- The store stays within its array. -/
def Store.InBounds (s : Store) : Prop := s.start + s.count ≤ s.target.capacity

instance (s : Store) : Decidable s.InBounds := inferInstanceAs (Decidable (_ ≤ _))

/-- One method call on the Kelvin object, with the `draw_arrays_length` the
rest of PGRAPH holds at that point. -/
structure MethodCall where
  method : Nat
  parameter : Nat
  drawArraysLength : Nat

/-! ## The handlers -/

/-- `pgraph_allocate_inline_buffer_vertices(pg, attr)`: the first value of an
attribute inside an inline-buffer batch allocates its buffer and fills the
vertices so far with the attribute's current value. -/
def allocateInlineBufferVertices (b : Batch) (attr : Nat) : Batch × List Store :=
  if b.inlineBuffer attr || b.inlineBufferLength == 0 then (b, [])
  else
    ({ b with inlineBuffer := Function.update b.inlineBuffer attr true },
      (List.range b.inlineBufferLength).map fun i => ⟨.inlineBuffer attr, i * 4, 4⟩)

/-- `pgraph_finish_inline_buffer_vertex(pg)`. -/
def finishInlineBufferVertex (b : Batch) : Option (Batch × List Store) :=
  if b.inlineBufferLength < nv2aMaxBatchLength then
    some ({ b with inlineBufferLength := b.inlineBufferLength + 1 },
      ((List.range nv2aVertexshaderAttributes).filter b.inlineBuffer).map
        fun i => ⟨.inlineBuffer i, b.inlineBufferLength * 4, 4⟩)
  else none

/-- A `SET_VERTEX*` method on attribute `slot`: allocate its buffer, set its
value, and finish the vertex when `last`. -/
def vertexData (b : Batch) (slot : Nat) (last : Bool) : Option (Batch × List Store) :=
  let r := allocateInlineBufferVertices b slot
  if last then (finishInlineBufferVertex r.1).map fun r' => (r'.1, r.2 ++ r'.2)
  else some r

/-- `NV097_SET_BEGIN_END`.  END draws the batch that has a nonzero counter,
asserting the others are empty, and frees the inline buffers after drawing
them; any other operation up to POLYGON begins a batch. -/
def setBeginEnd (b : Batch) (parameter drawArraysLength : Nat) : Option (Batch × List Store) :=
  if parameter = nv097SetBeginEndOpEnd then
    if drawArraysLength ≠ 0 then
      if b.inlineBufferLength = 0 ∧ b.inlineArrayLength = 0 ∧ b.inlineElementsLength = 0 then
        some (b, [])
      else none
    else if b.inlineBufferLength ≠ 0 then
      if b.inlineArrayLength = 0 ∧ b.inlineElementsLength = 0 then
        some ({ b with inlineBuffer := fun _ => false }, [])
      else none
    else if b.inlineArrayLength ≠ 0 then
      if b.inlineElementsLength = 0 then some (b, []) else none
    else if b.inlineElementsLength ≠ 0 then some (b, [])
    else none
  else if parameter ≤ nv097SetBeginEndOpPolygon then
    some ({ b with inlineElementsLength := 0, inlineArrayLength := 0, inlineBufferLength := 0 }, [])
  else none

/-- The cases of `pgraph_method`'s Kelvin switch that touch the batches. -/
inductive BatchOp
  /-- A `SET_VERTEX*` method: the attribute, and whether it completes a vertex. -/
  | vertex (slot : Nat) (last : Bool)
  | beginEnd
  | arrayElement16
  | arrayElement32
  | inlineArray
  /-- `NV097_SET_VERTEX_DATA4S_M`, which starts with `assert(false)`. -/
  | vertexData4s
  /-- Every other method, which leaves the batches as they are. -/
  | other
  deriving DecidableEq, Repr

/-- The case labels of the switch, with the attribute slot each vertex method
computes. -/
def batchOp (method : Nat) : BatchOp :=
  if nv097SetVertex3f ≤ method ∧ method ≤ nv097SetVertex3f + 8 then
    .vertex nv2aVertexAttrPosition ((method - nv097SetVertex3f) / 4 == 2)
  else if nv097SetVertex4f ≤ method ∧ method ≤ nv097SetVertex4f + 12 then
    .vertex nv2aVertexAttrPosition ((method - nv097SetVertex4f) / 4 == 3)
  else if method = nv097SetBeginEnd then .beginEnd
  else if method = nv097ArrayElement16 then .arrayElement16
  else if method = nv097ArrayElement32 then .arrayElement32
  else if method = nv097InlineArray then .inlineArray
  else if nv097SetVertexData2fM ≤ method ∧ method ≤ nv097SetVertexData2fM + 0x7c then
    let slot := (method - nv097SetVertexData2fM) / 4
    .vertex (slot / 2) (slot / 2 == 0 && slot % 2 == 1)
  else if nv097SetVertexData4fM ≤ method ∧ method ≤ nv097SetVertexData4fM + 0xfc then
    let slot := (method - nv097SetVertexData4fM) / 4
    .vertex (slot / 4) (slot / 4 == 0 && slot % 4 == 3)
  else if nv097SetVertexData2s ≤ method ∧ method ≤ nv097SetVertexData2s + 0x3c then
    let slot := (method - nv097SetVertexData2s) / 4
    .vertex slot (slot == 0)
  else if nv097SetVertexData4ub ≤ method ∧ method ≤ nv097SetVertexData4ub + 0x3c then
    let slot := (method - nv097SetVertexData4ub) / 4
    .vertex slot (slot == 0)
  else if nv097SetVertexData4sM ≤ method ∧ method ≤ nv097SetVertexData4sM + 0x7c then .vertexData4s
  else .other

/-- One method call on the batches. -/
def kelvinBatchMethod (b : Batch) (c : MethodCall) : Option (Batch × List Store) :=
  match batchOp c.method with
  | .vertex slot last => vertexData b slot last
  | .beginEnd => setBeginEnd b c.parameter c.drawArraysLength
  | .arrayElement16 =>
      if b.inlineElementsLength < nv2aMaxBatchLength then
        some ({ b with inlineElementsLength := b.inlineElementsLength + 2 },
          [⟨.inlineElements, b.inlineElementsLength, 1⟩, ⟨.inlineElements, b.inlineElementsLength + 1, 1⟩])
      else none
  | .arrayElement32 =>
      if b.inlineElementsLength < nv2aMaxBatchLength then
        some ({ b with inlineElementsLength := b.inlineElementsLength + 1 },
          [⟨.inlineElements, b.inlineElementsLength, 1⟩])
      else none
  | .inlineArray =>
      if b.inlineArrayLength < nv2aMaxBatchLength then
        some ({ b with inlineArrayLength := b.inlineArrayLength + 1 },
          [⟨.inlineArray, b.inlineArrayLength, 1⟩])
      else none
  | .vertexData4s => none
  | .other => some (b, [])

/-- A sequence of method calls, with every store it makes in order. -/
def runMethods (b : Batch) : List MethodCall → Option (Batch × List Store)
  | [] => some (b, [])
  | c :: cs => do
      let r ← kelvinBatchMethod b c
      let r' ← runMethods r.1 cs
      pure (r'.1, r.2 ++ r'.2)

/-! ## Bounds over every run -/

/-- The counters within their arrays, `inline_elements_length` up to one past. -/
structure Batch.Bounded (b : Batch) : Prop where
  array_le : b.inlineArrayLength ≤ nv2aMaxBatchLength
  elements_le : b.inlineElementsLength ≤ nv2aMaxBatchLength + 1
  buffer_le : b.inlineBufferLength ≤ nv2aMaxBatchLength

/-- Within the array, or an element index one past the end. -/
def Store.InBoundsOrNext (s : Store) : Prop :=
  s.InBounds ∨ (s.target = .inlineElements ∧ s.start + s.count = s.target.capacity + 1)

section Bounds

variable {b b' : Batch} {ss : List Store}

theorem allocateInlineBufferVertices_spec (hb : b.Bounded) (attr : Nat) :
    let r := allocateInlineBufferVertices b attr
    r.1.inlineArrayLength = b.inlineArrayLength ∧ r.1.inlineElementsLength = b.inlineElementsLength ∧
      r.1.inlineBufferLength = b.inlineBufferLength ∧ ∀ s ∈ r.2, s.InBounds := by
  unfold allocateInlineBufferVertices
  split
  · exact ⟨rfl, rfl, rfl, by simp⟩
  · refine ⟨rfl, rfl, rfl, ?_⟩
    simp only [List.mem_map, List.mem_range]
    rintro s ⟨i, hi, rfl⟩
    have := hb.buffer_le
    show i * 4 + 4 ≤ nv2aMaxBatchLength * 4
    omega

theorem finishInlineBufferVertex_spec (hb : b.Bounded) (h : finishInlineBufferVertex b = some (b', ss)) :
    b'.Bounded ∧ ∀ s ∈ ss, s.InBounds := by
  unfold finishInlineBufferVertex at h
  split at h
  · next hlt =>
      cases h
      refine ⟨⟨hb.array_le, hb.elements_le, hlt⟩, ?_⟩
      simp only [List.mem_map, List.mem_filter, List.mem_range]
      rintro s ⟨i, -, rfl⟩
      show b.inlineBufferLength * 4 + 4 ≤ nv2aMaxBatchLength * 4
      omega
  · cases h

theorem vertexData_spec {slot : Nat} {last : Bool} (hb : b.Bounded)
    (h : vertexData b slot last = some (b', ss)) : b'.Bounded ∧ ∀ s ∈ ss, s.InBounds := by
  obtain ⟨h1, h2, h3, hs⟩ := allocateInlineBufferVertices_spec hb slot
  have hb₁ : (allocateInlineBufferVertices b slot).1.Bounded :=
    ⟨h1 ▸ hb.array_le, h2 ▸ hb.elements_le, h3 ▸ hb.buffer_le⟩
  unfold vertexData at h
  dsimp only at h
  split at h
  · obtain ⟨r', hr', hrr⟩ := Option.map_eq_some_iff.mp h
    cases hrr
    obtain ⟨hb', hs'⟩ := finishInlineBufferVertex_spec hb₁ hr'
    refine ⟨hb', fun s hmem => ?_⟩
    rcases List.mem_append.mp hmem with hmem | hmem
    · exact hs s hmem
    · exact hs' s hmem
  · rw [Option.some.inj h] at hb₁ hs
    exact ⟨hb₁, hs⟩

theorem setBeginEnd_spec {parameter drawArraysLength : Nat} (hb : b.Bounded)
    (h : setBeginEnd b parameter drawArraysLength = some (b', ss)) : b'.Bounded ∧ ss = [] := by
  unfold setBeginEnd at h
  split_ifs at h <;> cases h
  all_goals first
    | exact ⟨hb, rfl⟩
    | exact ⟨⟨hb.array_le, hb.elements_le, hb.buffer_le⟩, rfl⟩
    | exact ⟨⟨Nat.zero_le _, Nat.zero_le _, Nat.zero_le _⟩, rfl⟩

/-- One method keeps the counters bounded; its stores are within their
arrays, but for `ARRAY_ELEMENT16`'s second, which may be one past. -/
theorem kelvinBatchMethod_spec {c : MethodCall} (hb : b.Bounded)
    (h : kelvinBatchMethod b c = some (b', ss)) : b'.Bounded ∧ ∀ s ∈ ss, s.InBoundsOrNext := by
  have inBounds : (∀ s ∈ ss, s.InBounds) → ∀ s ∈ ss, s.InBoundsOrNext :=
    fun h s hs => Or.inl (h s hs)
  obtain ⟨ha, he, hbuf⟩ := hb
  unfold kelvinBatchMethod at h
  split at h
  · exact (vertexData_spec ⟨ha, he, hbuf⟩ h).imp_right inBounds
  · obtain ⟨hb', rfl⟩ := setBeginEnd_spec ⟨ha, he, hbuf⟩ h
    exact ⟨hb', by simp⟩
  · -- the one check covers the first store only
    split at h
    · next hlt =>
        cases h
        refine ⟨⟨ha, show b.inlineElementsLength + 2 ≤ _ by omega, hbuf⟩, ?_⟩
        simp only [List.mem_cons, List.not_mem_nil, or_false]
        rintro s (rfl | rfl)
        · exact Or.inl (show b.inlineElementsLength + 1 ≤ nv2aMaxBatchLength by omega)
        · by_cases hlast : b.inlineElementsLength + 1 < nv2aMaxBatchLength
          · exact Or.inl (show b.inlineElementsLength + 1 + 1 ≤ nv2aMaxBatchLength by omega)
          · exact Or.inr ⟨rfl, show b.inlineElementsLength + 1 + 1 = nv2aMaxBatchLength + 1 by omega⟩
    · cases h
  · split at h
    · next hlt =>
        cases h
        refine ⟨⟨ha, show b.inlineElementsLength + 1 ≤ _ by omega, hbuf⟩, ?_⟩
        simp only [List.mem_cons, List.not_mem_nil, or_false]
        rintro s rfl
        exact Or.inl (show b.inlineElementsLength + 1 ≤ nv2aMaxBatchLength by omega)
    · cases h
  · split at h
    · next hlt =>
        cases h
        refine ⟨⟨hlt, he, hbuf⟩, ?_⟩
        simp only [List.mem_cons, List.not_mem_nil, or_false]
        rintro s rfl
        exact Or.inl (show b.inlineArrayLength + 1 ≤ nv2aMaxBatchLength by omega)
    · cases h
  · cases h
  · cases h
    exact ⟨⟨ha, he, hbuf⟩, by simp⟩

/-- Over any run from bounded counters, every store is within its array or
an element index one past the end. -/
theorem runMethods_spec : ∀ {cs : List MethodCall} {b b' : Batch} {ss : List Store},
    b.Bounded → runMethods b cs = some (b', ss) → b'.Bounded ∧ ∀ s ∈ ss, s.InBoundsOrNext
  | [], b, b', ss, hb, h => by
      cases h
      exact ⟨hb, by simp⟩
  | c :: cs, b, b', ss, hb, h => by
      simp only [runMethods, Option.bind_eq_bind, Option.bind_eq_some_iff, Option.pure_def,
        Option.some.injEq, Prod.mk.injEq] at h
      obtain ⟨r, hr, r', hr', rfl, rfl⟩ := h
      obtain ⟨hb₁, hs₁⟩ := kelvinBatchMethod_spec hb hr
      obtain ⟨hb₂, hs₂⟩ := runMethods_spec hb₁ hr'
      refine ⟨hb₂, fun s hmem => ?_⟩
      rcases List.mem_append.mp hmem with hmem | hmem
      · exact hs₁ s hmem
      · exact hs₂ s hmem

end Bounds

/-! ## ARRAY_ELEMENT16 past the end -/

theorem kelvinBatchMethod_arrayElement16 (b : Batch) (parameter drawArraysLength : Nat) :
    kelvinBatchMethod b ⟨nv097ArrayElement16, parameter, drawArraysLength⟩ =
      if b.inlineElementsLength < nv2aMaxBatchLength then
        some ({ b with inlineElementsLength := b.inlineElementsLength + 2 },
          [⟨.inlineElements, b.inlineElementsLength, 1⟩, ⟨.inlineElements, b.inlineElementsLength + 1, 1⟩])
      else none := by
  have hop : batchOp nv097ArrayElement16 = .arrayElement16 := by decide
  simp only [kelvinBatchMethod, hop]

/-- `n` calls of `ARRAY_ELEMENT16` pass their check while the counter before
the last is below the limit; the last stores at the counter plus `2 * n - 1`. -/
theorem runMethods_arrayElement16 (n : Nat) : ∀ b : Batch,
    b.inlineElementsLength + 2 * n ≤ nv2aMaxBatchLength + 1 →
      ∃ b' ss, runMethods b (List.replicate n ⟨nv097ArrayElement16, 0, 0⟩) = some (b', ss) ∧
        b'.inlineElementsLength = b.inlineElementsLength + 2 * n ∧
        (0 < n → ⟨.inlineElements, b.inlineElementsLength + 2 * n - 1, 1⟩ ∈ ss) := by
  induction n with
  | zero => exact fun b _ => ⟨b, [], rfl, rfl, by omega⟩
  | succ n ih =>
      intro b hb
      obtain ⟨b', ss, hrun, hlen, hlast⟩ :=
        ih { b with inlineElementsLength := b.inlineElementsLength + 2 } (by dsimp only; omega)
      refine ⟨b', [⟨.inlineElements, b.inlineElementsLength, 1⟩,
        ⟨.inlineElements, b.inlineElementsLength + 1, 1⟩] ++ ss, ?_, by dsimp only at hlen; omega,
        fun _ => ?_⟩
      · rw [List.replicate_succ, runMethods, kelvinBatchMethod_arrayElement16, if_pos (by omega)]
        simp only [Option.bind_eq_bind, Option.bind_some, hrun]
        rfl
      · dsimp only at hlast
        rcases Nat.eq_zero_or_pos n with rfl | hn
        · simp
        · refine List.mem_append_right _ ?_
          rw [show b.inlineElementsLength + 2 * (n + 1) - 1 = b.inlineElementsLength + 2 + 2 * n - 1 by omega]
          exact hlast hn

/-- After `pgraph_init`, 65536 calls of `ARRAY_ELEMENT16` all pass the check;
the last stores index `NV2A_MAX_BATCH_LENGTH`, one past the end of
`inline_elements`, and leaves the counter above the limit. -/
theorem arrayElement16_stores_past_end :
    ∃ b ss, runMethods Batch.init (List.replicate 65536 ⟨nv097ArrayElement16, 0, 0⟩) = some (b, ss) ∧
      nv2aMaxBatchLength < b.inlineElementsLength ∧ ∃ s ∈ ss, ¬s.InBounds := by
  obtain ⟨b, ss, hrun, hlen, hlast⟩ := runMethods_arrayElement16 65536 Batch.init (by decide)
  refine ⟨b, ss, hrun, by rw [hlen]; decide, _, hlast (by decide), by decide⟩

end Xqemu.Nv2a.Pgraph
