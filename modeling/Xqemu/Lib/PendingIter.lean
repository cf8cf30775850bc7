import Mathlib.Data.Finset.Sort
import Mathlib.Order.Bounds.Basic

/-!
# Iterators over a pending set

An iterator that walks a changing live set in increasing order, as a bitmap
iterator does while the bitmap is written between its calls, is described by
the set of elements it still has to look at.  A call of `next` returns the
least pending element that is live and afterwards keeps only larger pending
elements, among them every larger live one; when no pending element is live
it returns nothing and keeps its pending set.  A write changes the live set
only.

Over any run of such calls, what is returned was pending and live at its call
(`Run.mem_of_returned`), the returned elements increase (`Run.returned_sorted`),
a pending element that stays live is returned before a call returns nothing
(`Run.mem_returned_of_live`), and with the live set fixed the calls return the
live pending elements in order, then nothing (`Run.next_eq_sort`).
-/

namespace Xqemu.PendingIter

variable {α : Type*}

/-- A call of an interleaving: a write, or a `next` and what it returned. -/
inductive Call (α : Type*) where
  | write
  | next (o : Option α)

/-- What a call returned. -/
def Call.result : Call α → Option α
  | .write => none
  | .next o => o

theorem Call.result_eq_some {c : Call α} {r : α} : c.result = some r ↔ c = .next (some r) := by
  cases c <;> simp [Call.result]

/-- The elements the calls returned, in order. -/
def returned (cs : List (Set α × Call α)) : List α := cs.filterMap fun c => c.2.result

theorem mem_returned {cs : List (Set α × Call α)} {r : α} :
    r ∈ returned cs ↔ ∃ S, (S, Call.next (some r)) ∈ cs := by
  simp only [returned, List.mem_filterMap, Call.result_eq_some]
  constructor
  · rintro ⟨⟨S, c⟩, hc, rfl⟩
    exact ⟨S, hc⟩
  · rintro ⟨S, hS⟩
    exact ⟨(S, _), hS, rfl⟩

@[simp] theorem returned_write (S : Set α) (cs : List (Set α × Call α)) :
    returned ((S, .write) :: cs) = returned cs := rfl

@[simp] theorem returned_next_none (S : Set α) (cs : List (Set α × Call α)) :
    returned ((S, .next none) :: cs) = returned cs := rfl

@[simp] theorem returned_next_some (S : Set α) (r : α) (cs : List (Set α × Call α)) :
    returned ((S, .next (some r)) :: cs) = r :: returned cs := rfl

variable [LinearOrder α]

/-- One call of `next` over the live set `S`, from the pending set `P` to `P'`, returning `o`. -/
def NextSpec (P S : Set α) : Option α → Set α → Prop
  | none, P' => P ∩ S = ∅ ∧ P' = P
  | some r, P' => IsLeast (P ∩ S) r ∧ P' ⊆ P ∩ Set.Ioi r ∧ P ∩ S ∩ Set.Ioi r ⊆ P'

theorem NextSpec.subset {P S P' : Set α} : ∀ {o : Option α}, NextSpec P S o P' → P' ⊆ P
  | none, h => h.2.le
  | some _, h => fun _ hx => (h.2.1 hx).1

/-- A run from the pending set `P`: its calls, each with the live set it sees. -/
inductive Run : Set α → List (Set α × Call α) → Prop where
  | nil (P : Set α) : Run P []
  | write {P S : Set α} {cs : List (Set α × Call α)} : Run P cs → Run P ((S, .write) :: cs)
  | next {P S P' : Set α} {o : Option α} {cs : List (Set α × Call α)} :
      NextSpec P S o P' → Run P' cs → Run P ((S, .next o) :: cs)

/-- One call of a run over the live set `S`, from the pending set `P` to `P'`: a write keeps
the pending set. -/
def Step (P S : Set α) : Call α → Set α → Prop
  | .write, P' => P' = P
  | .next o, P' => NextSpec P S o P'

namespace Run

variable {P : Set α} {cs : List (Set α × Call α)}

theorem cons {S P' : Set α} {c : Call α} (h : Step P S c P') (hr : Run P' cs) : Run P ((S, c) :: cs) := by
  cases c with
  | write =>
    subst h
    exact .write hr
  | next o => exact .next h hr

/-- What a run returns was pending at its start and live at its call. -/
theorem mem_of_returned (h : Run P cs) {S : Set α} {r : α} (hr : (S, Call.next (some r)) ∈ cs) :
    r ∈ P ∧ r ∈ S := by
  induction h with
  | nil => simp at hr
  | write _ ih =>
    rcases List.mem_cons.mp hr with hhead | htail
    · simp at hhead
    · exact ih htail
  | next hspec _ ih =>
    rcases List.mem_cons.mp hr with hhead | htail
    · obtain ⟨rfl, hcall⟩ := Prod.mk.inj hhead
      cases hcall
      exact hspec.1.1
    · obtain ⟨hP, hS⟩ := ih htail
      exact ⟨hspec.subset hP, hS⟩

/-- The returned elements increase strictly. -/
theorem returned_sorted (h : Run P cs) : (returned cs).Pairwise (· < ·) := by
  induction h with
  | nil => exact List.Pairwise.nil
  | write _ ih => exact ih
  | @next P S P' o cs hspec hrun ih =>
    cases o with
    | none => exact ih
    | some r =>
      rw [returned_next_some, List.pairwise_cons]
      refine ⟨fun x hx => ?_, ih⟩
      obtain ⟨S', hS'⟩ := mem_returned.mp hx
      exact (hspec.2.1 (hrun.mem_of_returned hS').1).2

/-- A pending element that is live at every call up to one that returns nothing has been
returned before it. -/
theorem mem_returned_of_live {pre post : List (Set α × Call α)} {S : Set α} {r : α} :
    Run P (pre ++ (S, .next none) :: post) → r ∈ P → (∀ c ∈ pre, r ∈ c.1) → r ∈ S →
      r ∈ returned pre := by
  induction pre generalizing P with
  | nil =>
    intro h hr _ hS
    cases h with
    | next hspec _ =>
      have hmem : r ∈ P ∩ S := ⟨hr, hS⟩
      rw [hspec.1] at hmem
      exact hmem.elim
  | cons c pre ih =>
    intro h hr hlive hS
    have htail : ∀ c ∈ pre, r ∈ c.1 := fun c hc => hlive c (.tail _ hc)
    have hhead : r ∈ c.1 := hlive c (.head _)
    obtain ⟨S₀, call⟩ := c
    cases h with
    | write hrun => exact ih hrun hr htail hS
    | @next _ _ P' o _ hspec hrun =>
      cases o with
      | none =>
        -- a live pending element rules out an empty result
        have hmem : r ∈ P ∩ S₀ := ⟨hr, hhead⟩
        rw [hspec.1] at hmem
        exact hmem.elim
      | some m =>
        rw [returned_next_some]
        by_cases hm : m = r
        · exact hm ▸ List.mem_cons_self
        · have hle : m ≤ r := hspec.1.2 ⟨hr, hhead⟩
          have hpending : r ∈ P' := hspec.2.2 ⟨⟨hr, hhead⟩, lt_of_le_of_ne hle hm⟩
          exact List.mem_cons_of_mem _ (ih hrun hpending htail hS)

/-- The pending elements a `next` call leaves live, when it returned `r`. -/
theorem inter_eq_erase {P' S : Set α} {T : Finset α} {r : α} (hT : P ∩ S = ↑T)
    (hspec : NextSpec P S (some r) P') : P' ∩ S = ↑(T.erase r) := by
  ext x
  rw [Finset.coe_erase, Set.mem_sdiff, ← hT, Set.mem_singleton_iff]
  constructor
  · rintro ⟨hx, hS⟩
    obtain ⟨hP, hlt⟩ := hspec.2.1 hx
    exact ⟨⟨hP, hS⟩, ne_of_gt hlt⟩
  · rintro ⟨hx, hne⟩
    have hlt : r < x := lt_of_le_of_ne (hspec.1.2 hx) (Ne.symm hne)
    exact ⟨hspec.2.2 ⟨hx, hlt⟩, hx.2⟩

/-- With the live set fixed, call `k` returns the `k`-th smallest live pending element, and
nothing once they have all been returned. -/
theorem next_eq_sort {S : Set α} :
    ∀ {P : Set α} (T : Finset α), P ∩ S = ↑T → ∀ {os : List (Option α)},
      Run P (os.map fun o => (S, .next o)) → ∀ k (hk : k < os.length), os[k] = (T.sort (· ≤ ·))[k]?
  | _, _, _, [], _, k, hk => absurd hk (Nat.not_lt_zero k)
  | P, T, hT, o :: os, h, k, hk => by
    cases h with
    | @next _ _ P' _ _ hspec hrun =>
      cases o with
      | none =>
        have hempty : T = ∅ := by
          rw [← Finset.coe_eq_empty, ← hT]
          exact hspec.1
        subst hempty
        cases k with
        | zero => simp
        | succ k =>
          have := next_eq_sort ∅ (hspec.2 ▸ hT) hrun k (by simpa using hk)
          simpa using this
      | some r =>
        have hrT : r ∈ T := by
          rw [← Finset.mem_coe, ← hT]
          exact hspec.1.1
        have hsort : T.sort (· ≤ ·) = r :: (T.erase r).sort (· ≤ ·) := by
          conv_lhs => rw [← Finset.insert_erase hrT]
          refine Finset.sort_insert _ (fun b hb => ?_) (Finset.notMem_erase r T)
          exact hspec.1.2 (by rw [hT]; exact Finset.mem_of_mem_erase hb)
        rw [hsort]
        cases k with
        | zero => rfl
        | succ k =>
          exact next_eq_sort (T.erase r) (inter_eq_erase hT hspec) hrun k (by simpa using hk)

end Run

end Xqemu.PendingIter
