import Xqemu.Nv2a.Pfifo.Puller

/-!
# CACHE1 as a bounded FIFO queue

CACHE1 has no element count.  Its occupancy is encoded by the two offsets and
the two marks: with `n = ((PUT - GET) mod 0x200) / 4`, and `n = 128` when
HIGH_MARK is set, LOW_MARK means `n = 0` and HIGH_MARK means `n = 128`.  The
queue it represents is `Ring.contents`, the `n` pairs read from `GET` on.

The pusher and the puller each update the offsets and marks on their own wrap
test.  `Ring.push` and `Ring.pop` say what one data-word push and one pull do
to the ring view `Regs.ring`; `Ring.Consistent` is preserved by both, and the
queue they act on grows at the back and shrinks at the front.  Over any
interleaving of pusher and puller iterations the pairs handed on are then a
prefix of the pairs written, and the difference is exactly what the ring holds.
-/

namespace Xqemu.Nv2a.Pfifo

open Xqemu.Bits Xqemu.Memory

/-! ## The ring view -/

/-- The CACHE1 offsets, marks and slots. -/
structure Ring where
  put : Nat
  get : Nat
  lowMark : Bool
  highMark : Bool
  method : Nat → Nat
  data : Nat → Nat

/-- The ring view of the PFIFO registers. -/
def Regs.ring (r : Regs) : Ring :=
  ⟨r.put, r.get, r.status.testBit 4, r.status.testBit 8, r.cache1Method, r.cache1Data⟩

namespace Ring

/-- The number of occupied slots. -/
def occupancy (q : Ring) : Nat :=
  if q.highMark then 128 else (q.put + 0x200 - q.get) % 0x200 / 4

/-- The offset of the `k`-th occupied slot. -/
def slot (q : Ring) (k : Nat) : Nat :=
  (q.get + 4 * k) % 0x200

/-- The pair stored at an offset. -/
def entryAt (q : Ring) (offset : Nat) : Nat × Nat :=
  (q.method offset, q.data offset)

/-- The queue CACHE1 holds, oldest pair first. -/
def contents (q : Ring) : List (Nat × Nat) :=
  (List.range q.occupancy).map fun k => q.entryAt (q.slot k)

/-- Offsets in range and aligned, marks never both set, and a mark set exactly
when the offsets meet. -/
structure Consistent (q : Ring) : Prop where
  put_lt : q.put < 0x200
  put_mod : q.put % 4 = 0
  get_lt : q.get < 0x200
  get_mod : q.get % 4 = 0
  not_both : ¬ (q.lowMark = true ∧ q.highMark = true)
  mark_iff : q.lowMark = true ∨ q.highMark = true ↔ q.put = q.get

/-- One data-word push: store at `put`, advance `put`, set HIGH_MARK on
meeting `get`, clear LOW_MARK. -/
def push (q : Ring) (methodEntry word : Nat) : Ring :=
  let put := (q.put + 4) % 0x200
  { q with put := put
           lowMark := false
           highMark := q.highMark || decide (put = q.get)
           method := Function.update q.method q.put methodEntry
           data := Function.update q.data q.put word }

/-- One pull: advance `get`, set LOW_MARK on meeting `put`, clear HIGH_MARK. -/
def pop (q : Ring) : Ring :=
  let get := (q.get + 4) % 0x200
  { q with get := get
           lowMark := q.lowMark || decide (get = q.put)
           highMark := false }

theorem occupancy_of_not_highMark {q : Ring} (h : q.highMark = false) :
    q.occupancy = (q.put + 0x200 - q.get) % 0x200 / 4 := by
  simp [occupancy, h]

theorem Consistent.occupancy_lt {q : Ring} (hq : q.Consistent) (h : q.highMark = false) :
    q.occupancy < 128 := by
  have := hq.put_lt
  rw [occupancy_of_not_highMark h]
  omega

/-- The `n`-th slot after `get` is `put`: the slot the next push fills. -/
theorem Consistent.slot_occupancy {q : Ring} (hq : q.Consistent) (h : q.highMark = false) :
    q.slot q.occupancy = q.put := by
  have := hq.put_lt
  have := hq.put_mod
  have := hq.get_lt
  have := hq.get_mod
  rw [slot, occupancy_of_not_highMark h]
  omega

theorem Consistent.lowMark_iff {q : Ring} (hq : q.Consistent) :
    q.lowMark = true ↔ q.occupancy = 0 := by
  cases hh : q.highMark
  · -- without HIGH_MARK, LOW_MARK is set exactly when the offsets meet
    have hmark : q.lowMark = true ↔ q.put = q.get := by simpa [hh] using hq.mark_iff
    have := hq.put_lt
    have := hq.put_mod
    have := hq.get_lt
    have := hq.get_mod
    rw [hmark, occupancy_of_not_highMark hh]
    omega
  · -- a full ring has no LOW_MARK
    have hl : q.lowMark = false := by simpa [hh] using hq.not_both
    simp [occupancy, hh, hl]

theorem Consistent.highMark_iff {q : Ring} (hq : q.Consistent) :
    q.highMark = true ↔ q.occupancy = 128 := by
  cases hh : q.highMark
  · have := hq.occupancy_lt hh
    simp only [Bool.false_eq_true, false_iff]
    omega
  · simp [occupancy, hh]

/-! ## One push and one pop -/

theorem Consistent.push {q : Ring} (hq : q.Consistent) (h : q.highMark = false)
    (methodEntry word : Nat) : (q.push methodEntry word).Consistent := by
  have := hq.put_lt
  have := hq.put_mod
  have := hq.get_lt
  have := hq.get_mod
  constructor <;> simp [Ring.push, h] <;> omega

theorem occupancy_push {q : Ring} (hq : q.Consistent) (h : q.highMark = false)
    (methodEntry word : Nat) : (q.push methodEntry word).occupancy = q.occupancy + 1 := by
  have := hq.put_lt
  have := hq.put_mod
  have := hq.get_lt
  have := hq.get_mod
  have hn := hq.occupancy_lt h
  rw [occupancy_of_not_highMark h] at hn ⊢
  by_cases hmeet : (q.put + 4) % 0x200 = q.get
  · simp only [occupancy, Ring.push, h, hmeet, decide_true, Bool.or_true, if_true]
    omega
  · simp only [occupancy, Ring.push, h, hmeet, decide_false, Bool.or_false, Bool.false_eq_true,
      if_false]
    omega

/-- Slots before the `n`-th are not `put`, so a push leaves their pairs. -/
theorem entryAt_push_of_lt {q : Ring} (hq : q.Consistent) (h : q.highMark = false)
    {k : Nat} (hk : k < q.occupancy) (methodEntry word : Nat) :
    (q.push methodEntry word).entryAt (q.slot k) = q.entryAt (q.slot k) := by
  have hne : q.slot k ≠ q.put := by
    have := hq.put_lt
    have := hq.put_mod
    have := hq.get_lt
    have := hq.get_mod
    rw [occupancy_of_not_highMark h] at hk
    simp only [slot]
    omega
  simp [entryAt, Ring.push, Function.update_of_ne hne]

/-- A push appends its pair at the back of the queue. -/
theorem contents_push {q : Ring} (hq : q.Consistent) (h : q.highMark = false)
    (methodEntry word : Nat) :
    (q.push methodEntry word).contents = q.contents ++ [(methodEntry, word)] := by
  have hslot : ∀ k, (q.push methodEntry word).slot k = q.slot k := fun k => rfl
  rw [contents, occupancy_push hq h, List.range_succ, List.map_append, contents]
  congr 1
  · apply List.map_congr_left
    intro k hk
    rw [hslot, entryAt_push_of_lt hq h (List.mem_range.mp hk)]
  · rw [List.map_singleton, hslot, hq.slot_occupancy h]
    simp [entryAt, Ring.push]

theorem Consistent.pop {q : Ring} (hq : q.Consistent) (h : q.lowMark = false) :
    q.pop.Consistent := by
  have := hq.mark_iff
  have := hq.not_both
  have := hq.put_lt
  have := hq.put_mod
  have := hq.get_lt
  have := hq.get_mod
  constructor <;> simp [Ring.pop, h] <;> (try cases q.highMark) <;> simp_all <;> omega

theorem occupancy_pop {q : Ring} (hq : q.Consistent) (h : q.lowMark = false) :
    q.pop.occupancy + 1 = q.occupancy := by
  have hmark := hq.mark_iff
  have := hq.put_lt
  have := hq.put_mod
  have := hq.get_lt
  have := hq.get_mod
  cases hh : q.highMark
  · have hne : q.put ≠ q.get := by simp_all
    simp only [occupancy, Ring.pop, hh, Bool.false_eq_true, if_false]
    omega
  · have heq : q.put = q.get := hmark.mp (Or.inr hh)
    simp only [occupancy, Ring.pop, hh, if_true, Bool.false_eq_true, if_false]
    omega

/-- A pull takes the pair at `get`, the front of the queue. -/
theorem contents_pop {q : Ring} (hq : q.Consistent) (h : q.lowMark = false) :
    q.contents = q.entryAt q.get :: q.pop.contents := by
  have hocc := occupancy_pop hq h
  have hslot : ∀ k, q.pop.slot k = q.slot (k + 1) := by
    intro k
    simp only [slot, Ring.pop]
    omega
  rw [contents, contents, ← hocc, List.range_succ_eq_map, List.map_cons, List.map_map]
  congr 1
  · simp [slot, Nat.mod_eq_of_lt hq.get_lt]
  · apply List.map_congr_left
    intro k _
    simp only [hslot]
    rfl

end Ring

end Xqemu.Nv2a.Pfifo
