import Mathlib.Data.List.Basic

/-!
# Singly linked list segments in a heap

A heap of cells is given by the `next` pointer of every cell, `ν → Option ν`,
with `none` for `NULL`.  `Seg next p l q` says that following `next` from the
pointer `p` visits the cells of `l` in order and then stands at `q`; a list
ending in `NULL` is `Seg next p l none`.  Such a list is acyclic and has no
repeated cell, and it is determined by its head.  Writing the `next` field of a
cell that is not on a segment leaves the segment alone.
-/

namespace Xqemu.Heap

variable {ν : Type*}

/-- Following `next` from `p` visits the cells of `l` and then stands at `q`. -/
def Seg (next : ν → Option ν) : Option ν → List ν → Option ν → Prop
  | p, [], q => p = q
  | p, n :: l, q => p = some n ∧ Seg next (next n) l q

variable {next : ν → Option ν} {p q r : Option ν} {n : ν} {l l₁ l₂ : List ν}

@[simp] theorem seg_nil : Seg next p [] q ↔ p = q := Iff.rfl

@[simp] theorem seg_cons : Seg next p (n :: l) q ↔ p = some n ∧ Seg next (next n) l q := Iff.rfl

theorem seg_append : Seg next p (l₁ ++ l₂) r ↔ ∃ q, Seg next p l₁ q ∧ Seg next q l₂ r := by
  induction l₁ generalizing p with
  | nil => simp
  | cons m l₁ ih =>
      simp only [List.cons_append, seg_cons, ih]
      constructor
      · rintro ⟨hp, q, h₁, h₂⟩
        exact ⟨q, ⟨hp, h₁⟩, h₂⟩
      · rintro ⟨q, ⟨hp, h₁⟩, h₂⟩
        exact ⟨hp, q, h₁, h₂⟩

/-- A list ending in `NULL` is determined by its head. -/
theorem Seg.unique (h : Seg next p l none) (h' : Seg next p l' none) : l = l' := by
  induction l generalizing p l' with
  | nil =>
      cases l' with
      | nil => rfl
      | cons m l' =>
          simp only [seg_nil, seg_cons] at h h'
          rw [h] at h'
          cases h'.1
  | cons n l ih =>
      cases l' with
      | nil =>
          simp only [seg_nil, seg_cons] at h h'
          rw [h'] at h
          cases h.1
      | cons m l' =>
          obtain ⟨hp, hl⟩ := h
          obtain ⟨hp', hl'⟩ := h'
          have hnm : n = m := Option.some.inj (hp.symm.trans hp')
          subst hnm
          rw [ih hl hl']

/-- A list ending in `NULL` visits no cell twice: a repeated cell would start
two lists of different lengths. -/
theorem Seg.nodup (h : Seg next p l none) : l.Nodup := by
  induction l generalizing p with
  | nil => exact List.nodup_nil
  | cons n l ih =>
      obtain ⟨-, hl⟩ := h
      refine List.nodup_cons.mpr ⟨fun hmem => ?_, ih hl⟩
      obtain ⟨l₁, l₂, rfl⟩ := List.append_of_mem hmem
      obtain ⟨q, -, hq⟩ := seg_append.mp hl
      obtain ⟨-, hrest⟩ := hq
      have hlen := congrArg List.length (Seg.unique hl hrest)
      simp at hlen
      omega

/-- Nothing is visited from `NULL`. -/
theorem Seg.eq_nil_of_none (h : Seg next none l q) : l = [] := by
  cases l with
  | nil => rfl
  | cons m l => cases h.1

/-- The last cell of a list ending in `NULL` points to `NULL`. -/
theorem Seg.next_last (h : Seg next p (l ++ [n]) none) : next n = none := by
  obtain ⟨q, -, hq⟩ := seg_append.mp h
  exact hq.2

/-- A cell that points to itself starts no list ending in `NULL`. -/
theorem not_seg_of_self_loop (hn : next n = some n) (l : List ν) : ¬Seg next (some n) l none := by
  induction l with
  | nil => exact fun h => nomatch h
  | cons m l ih =>
      rintro ⟨hm, hl⟩
      cases hm
      rw [hn] at hl
      exact ih hl

/-- Writing the `next` field of a cell off the segment keeps it. -/
theorem seg_update_of_not_mem [DecidableEq ν] {v : Option ν} (hn : n ∉ l) :
    Seg (Function.update next n v) p l q ↔ Seg next p l q := by
  induction l generalizing p with
  | nil => rfl
  | cons m l ih =>
      have hm : m ≠ n := fun h => hn (h ▸ List.mem_cons_self)
      simp only [seg_cons, Function.update_of_ne hm, ih (fun h => hn (List.mem_cons_of_mem m h))]

/-- Linking a cell that is off a segment in front of it. -/
theorem Seg.push [DecidableEq ν] (h : Seg next p l q) (hn : n ∉ l) :
    Seg (Function.update next n p) (some n) (n :: l) q := by
  rw [seg_cons, Function.update_self, seg_update_of_not_mem hn]
  exact ⟨rfl, h⟩

/-- `l` with `x` inserted right after the first `a`, or `l` itself if `a` is
not on it. -/
def insertAfter [DecidableEq ν] (a x : ν) : List ν → List ν
  | [] => []
  | y :: l => if y = a then y :: x :: l else y :: insertAfter a x l

/-- Splicing a cell `x` that is off a segment in after the cell `a`: `x` takes
over the link of `a`, and `a` links to `x`.  Where `a` is off the segment too,
the segment stays as it was. -/
theorem Seg.insertAfter [DecidableEq ν] {a x : ν} (h : Seg next p l q) (hl : l.Nodup)
    (hx : x ∉ l) :
    Seg (Function.update (Function.update next x (next a)) a (some x)) p (insertAfter a x l) q := by
  induction l generalizing p with
  | nil => exact h
  | cons y l ih =>
      obtain ⟨hp, hl'⟩ := h
      have hxy : y ≠ x := fun hyx => hx (hyx ▸ List.mem_cons_self)
      have hxl : x ∉ l := fun hmem => hx (List.mem_cons_of_mem y hmem)
      rw [insertAfter]
      split_ifs with hya
      · -- `a` is this cell: `a → x → the rest`, which avoids both
        subst hya
        have hyl : y ∉ l := (List.nodup_cons.mp hl).1
        rw [seg_cons, seg_cons, Function.update_self, Function.update_of_ne hxy.symm,
          Function.update_self, seg_update_of_not_mem hyl, seg_update_of_not_mem hxl]
        exact ⟨hp, rfl, hl'⟩
      · rw [seg_cons, Function.update_of_ne hya, Function.update_of_ne hxy]
        exact ⟨hp, ih hl' (List.nodup_cons.mp hl).2 hxl⟩

theorem mem_insertAfter [DecidableEq ν] {a x y : ν} {l : List ν} :
    y ∈ insertAfter a x l ↔ y ∈ l ∨ (a ∈ l ∧ y = x) := by
  induction l with
  | nil => simp [insertAfter]
  | cons z l ih =>
      rw [insertAfter]
      split_ifs with hza
      · subst hza
        simp only [List.mem_cons]
        tauto
      · simp only [List.mem_cons, ih]
        constructor
        · rintro (h | h | ⟨h₁, h₂⟩) <;> tauto
        · rintro ((h | h) | ⟨h₁ | h₁, h₂⟩)
          · exact Or.inl h
          · exact Or.inr (Or.inl h)
          · exact absurd h₁.symm hza
          · exact Or.inr (Or.inr ⟨h₁, h₂⟩)

/-- The cell before a position of a walk, `prev` before the first, moves on by
one cell. -/
theorem getLast?_cons_or (n : ν) (l : List ν) (prev : Option ν) :
    (n :: l).getLast?.or prev = l.getLast?.or (some n) := by
  rw [List.getLast?_cons]
  cases l.getLast? <;> rfl

end Xqemu.Heap
