import Mathlib.Data.List.Nodup
import Xqemu.Lib.ListSeg

/-!
# The LRU object list of `lru.c`

`struct lru` keeps two singly linked lists of caller-allocated nodes, the
active list in order of recent use and the free list.  A node is identified by
its address, a value of `ν`; the `next` and `hash` fields of every node are the
functions `Lru.next` and `Lru.hash`.  The three callbacks are not run by the
model: `obj_init` and `obj_deinit` are returned, in order, as `LruCall`s, and
`obj_key_compare(node, key) == 0` is the predicate `keyCompare` that a lookup
receives.  The statistics counters are left out.

`lru_lookup`'s search loop and `lru_flush`'s loop follow `next` pointers, so
their models take fuel; `none` is also what a failed assertion gives.  The list
lengths bound the fuel they need.

`LruList` is what the design comment in `lru.h` describes: the active nodes,
most recently used first, and the free nodes.  `Represents` relates the two;
every operation keeps it, so the pointer structure refines the list model
(`lru_refines_lruList`).
-/

namespace Xqemu.Nv2a

open Xqemu.Heap

variable {ν κ : Type*} [DecidableEq ν]

/-- `struct lru` with the `hash` and `next` fields of its nodes. -/
structure Lru (ν : Type*) where
  active : Option ν
  free : Option ν
  next : ν → Option ν
  hash : ν → Nat
  numFree : Nat

/-- A callback call made by `lru_lookup` or `lru_flush`. -/
inductive LruCall (ν κ : Type*)
  | init (node : ν) (key : κ)
  | deinit (node : ν)
  deriving DecidableEq, Repr

/-- `lru_init`: both lists empty; the nodes' fields are untouched. -/
def lruInit (lru : Lru ν) : Lru ν :=
  { lru with active := none, free := none, numFree := 0 }

/-- `lru_add_free`. -/
def lruAddFree (lru : Lru ν) (node : ν) : Lru ν :=
  { lru with next := Function.update lru.next node lru.free, free := some node,
             numFree := lru.numFree + 1 }

/-- Where the `do … while (1)` walk of `lru_lookup` stops: at a node whose hash
and key match, or at the last active node. -/
inductive Search (ν : Type*)
  | hit (prev : Option ν) (node : ν)
  | last (prev : Option ν) (node : ν)

/-- The walk from `node`, whose predecessor is `prev`; `isMatch` is the hash
test followed by `obj_key_compare`. -/
def lruSearch (next : ν → Option ν) (isMatch : ν → Bool) : Nat → Option ν → ν → Option (Search ν)
  | 0, _, _ => none
  | fuel + 1, prev, node =>
      if isMatch node then some (.hit prev node)
      else
        match next node with
        | none => some (.last prev node)
        | some n => lruSearch next isMatch fuel (some node) n

/-- A hit after `prev`: unlink `node` and push it on the front of the active list. -/
def lruPromote (lru : Lru ν) (prev node : ν) : Lru ν :=
  let next := Function.update lru.next prev (lru.next node)
  { lru with next := Function.update next node lru.active, active := some node }

/-- With no free node, unlink the last active node `node` (after `prev`, if
any), deinitialise it and add it to the free list. -/
def lruEvict (lru : Lru ν) (prev : Option ν) (node : ν) : Lru ν :=
  let lru := match prev with
    | none => { lru with active := none }
    | some prev => { lru with next := Function.update lru.next prev (lru.next node) }
  lruAddFree lru node

/-- Pop a node from the free list, set its hash and push it on the front of
the active list; `none` when `assert(node != NULL)` fails. -/
def lruAlloc (lru : Lru ν) (hash : Nat) : Option (Lru ν × ν) :=
  match lru.free with
  | none => none
  | some node =>
      let lru := { lru with free := lru.next node, numFree := lru.numFree - 1 }
      some ({ lru with hash := Function.update lru.hash node hash,
                       next := Function.update lru.next node lru.active,
                       active := some node }, node)

/-- `lru_lookup(lru, hash, key)`: the node returned and the callbacks called. -/
def lruLookup (fuel : Nat) (lru : Lru ν) (hash : Nat) (keyCompare : ν → Bool) (key : κ) :
    Option (Lru ν × ν × List (LruCall ν κ)) :=
  if lru.active = none ∧ lru.free = none then none
  else
    -- `some none` for an empty active list, `none` when the walk runs out of fuel
    let walk : Option (Option (Search ν)) :=
      match lru.active with
      | none => some none
      | some node =>
          (lruSearch lru.next (fun n => lru.hash n = hash && keyCompare n) fuel none node).map some
    match walk with
    | none => none
    | some (some (.hit none node)) => some (lru, node, [])
    | some (some (.hit (some prev) node)) => some (lruPromote lru prev node, node, [])
    | some found =>
        let evicted : Option (Lru ν × List (LruCall ν κ)) :=
          match lru.free, found with
          | some _, _ => some (lru, [])
          | none, some (.last prev node) => some (lruEvict lru prev node, [.deinit node])
          | none, _ => none
        match evicted with
        | none => none
        | some (lru, calls) =>
            match lruAlloc lru hash with
            | none => none
            | some (lru, node) => some (lru, node, calls ++ [.init node key])

/-- The loop of `lru_flush` from `node`: deinitialise and free every node. -/
def lruFlushLoop : Nat → Lru ν → Option ν → Option (Lru ν × List (LruCall ν κ))
  | _, lru, none => some (lru, [])
  | 0, _, some _ => none
  | fuel + 1, lru, some node =>
      let next := lru.next node
      (lruFlushLoop fuel (lruAddFree lru node) next).map fun (lru, calls) =>
        (lru, .deinit node :: calls)

/-- `lru_flush`. -/
def lruFlush (fuel : Nat) (lru : Lru ν) : Option (Lru ν × List (LruCall ν κ)) :=
  (lruFlushLoop fuel lru lru.active).map fun (lru, calls) => ({ lru with active := none }, calls)

/-! ## The walk over a list -/

omit [DecidableEq ν] in
/-- On an active list ending in `NULL`, with fuel for every node, the walk
stops at the first matching node, or at the last node when none isMatch;
`prev` becomes the node before it. -/
theorem lruSearch_spec (isMatch : ν → Bool) {next : ν → Option ν} {n : ν} {l : List ν}
    (hseg : Seg next (next n) l none) {fuel : Nat} (hfuel : l.length < fuel) (prev : Option ν) :
    (∀ node, (n :: l).find? isMatch = some node → ∃ l₁ l₂, n :: l = l₁ ++ node :: l₂ ∧
        lruSearch next isMatch fuel prev n = some (.hit (l₁.getLast?.or prev) node)) ∧
      ((n :: l).find? isMatch = none → ∃ l₁ last, n :: l = l₁ ++ [last] ∧
        lruSearch next isMatch fuel prev n = some (.last (l₁.getLast?.or prev) last)) := by
  induction l generalizing n prev fuel with
  | nil =>
      obtain ⟨fuel, rfl⟩ : ∃ k, fuel = k + 1 := ⟨fuel - 1, by simp at hfuel; omega⟩
      have hlast : next n = none := hseg
      by_cases hm : isMatch n
      · refine ⟨fun node hfind => ⟨[], [], ?_, ?_⟩, fun hfind => ?_⟩
        · simp_all
        · simp_all [lruSearch]
        · simp [hm] at hfind
      · refine ⟨fun node hfind => ?_, fun _ => ⟨[], n, rfl, ?_⟩⟩
        · simp [hm] at hfind
        · simp [lruSearch, hm, hlast]
  | cons m l ih =>
      obtain ⟨fuel, rfl⟩ : ∃ k, fuel = k + 1 := ⟨fuel - 1, by simp at hfuel; omega⟩
      obtain ⟨hm, hrest⟩ := hseg
      have hwalk := ih hrest (by simp at hfuel ⊢; omega) (some n)
      by_cases hmn : isMatch n
      · refine ⟨fun node hfind => ⟨[], m :: l, ?_, ?_⟩, fun hfind => ?_⟩
        · simp_all
        · simp_all [lruSearch]
        · simp [hmn] at hfind
      · -- `n` does not match: the walk goes on from `m` with `n` as predecessor
        have hstep : lruSearch next isMatch (fuel + 1) prev n =
            lruSearch next isMatch fuel (some n) m := by
          simp [lruSearch, hmn, hm]
        have hfind : (n :: m :: l).find? isMatch = (m :: l).find? isMatch := by
          simp [hmn]
        refine ⟨fun node hnode => ?_, fun hnone => ?_⟩
        · obtain ⟨l₁, l₂, hsplit, hsearch⟩ := hwalk.1 node (hfind ▸ hnode)
          refine ⟨n :: l₁, l₂, by rw [hsplit]; rfl, ?_⟩
          rw [hstep, hsearch, getLast?_cons_or]
        · obtain ⟨l₁, last, hsplit, hsearch⟩ := hwalk.2 (hfind ▸ hnone)
          refine ⟨n :: l₁, last, by rw [hsplit]; rfl, ?_⟩
          rw [hstep, hsearch, getLast?_cons_or]

/-! ## The list model -/

/-- The LRU of the design comment: the active nodes, most recently used first,
the free nodes, and the hash of every node. -/
structure LruList (ν : Type*) where
  active : List ν
  free : List ν
  hash : ν → Nat

namespace LruList

/-- A lookup moves the first active node with the hash whose key compares
equal to the front; a miss takes a free node or, when none is left, evicts and
reuses the least recently used node; the node taken is initialised for the key. -/
def lookup (a : LruList ν) (hash : Nat) (keyCompare : ν → Bool) (key : κ) :
    Option (LruList ν × ν × List (LruCall ν κ)) :=
  match a.active.find? (fun n => a.hash n = hash && keyCompare n) with
  | some node => some ({ a with active := node :: a.active.erase node }, node, [])
  | none =>
      match a.free with
      | node :: free =>
          some (⟨node :: a.active, free, Function.update a.hash node hash⟩, node, [.init node key])
      | [] =>
          match a.active.getLast? with
          | none => none
          | some node =>
              some (⟨node :: a.active.dropLast, [], Function.update a.hash node hash⟩, node,
                [.deinit node, .init node key])

/-- A flush deinitialises and frees every active node, the last one ending on
top of the free list. -/
def flush (a : LruList ν) : LruList ν × List (LruCall ν κ) :=
  (⟨[], a.active.reverse ++ a.free, a.hash⟩, a.active.map .deinit)

/-- A lookup neither loses nor adds a node. -/
theorem lookup_perm {a a' : LruList ν} {hash : Nat} {keyCompare : ν → Bool} {key : κ} {node : ν}
    {calls : List (LruCall ν κ)} (h : a.lookup hash keyCompare key = some (a', node, calls)) :
    (a'.active ++ a'.free).Perm (a.active ++ a.free) := by
  unfold lookup at h
  cases hfind : a.active.find? (fun n => a.hash n = hash && keyCompare n) with
  | some hit =>
      -- a hit: the node moves to the front
      simp only [hfind, Option.some.injEq, Prod.mk.injEq] at h
      obtain ⟨rfl, -, -⟩ := h
      exact (List.perm_cons_erase (List.mem_of_find?_eq_some hfind)).symm.append_right a.free
  | none =>
      simp only [hfind] at h
      cases hfree : a.free with
      | cons first free =>
          simp only [hfree, Option.some.injEq, Prod.mk.injEq] at h
          obtain ⟨rfl, -, -⟩ := h
          exact List.perm_middle.symm
      | nil =>
          -- an eviction: the last node moves to the front
          simp only [hfree] at h
          cases hlast : a.active.getLast? with
          | none => simp [hlast] at h
          | some last =>
              simp only [hlast, Option.some.injEq, Prod.mk.injEq] at h
              obtain ⟨rfl, -, -⟩ := h
              have hsplit := List.dropLast_append_getLast? last hlast
              simp only [List.append_nil]
              have hperm : (last :: a.active.dropLast).Perm (a.active.dropLast ++ [last]) :=
                (List.perm_append_singleton last a.active.dropLast).symm
              rwa [hsplit] at hperm

end LruList

/-- The pointer structure `c` holds the lists of `a`: both end in `NULL`, no
node is on both or twice on one, and `num_free` counts the free list. -/
structure Represents (c : Lru ν) (a : LruList ν) : Prop where
  active : Seg c.next c.active a.active none
  free : Seg c.next c.free a.free none
  nodup : (a.active ++ a.free).Nodup
  numFree : c.numFree = a.free.length
  hash : c.hash = a.hash

section Represents

variable {c : Lru ν} {a : LruList ν}

theorem lruAddFree_represents {node : ν} (hr : Represents c a) (hnode : node ∉ a.active ++ a.free) :
    Represents (lruAddFree c node) ⟨a.active, node :: a.free, a.hash⟩ where
  active := (seg_update_of_not_mem (fun h => hnode (List.mem_append_left _ h))).mpr hr.active
  free := by
    refine ⟨rfl, ?_⟩
    simp only [lruAddFree, Function.update_self]
    exact (seg_update_of_not_mem (fun h => hnode (List.mem_append_right _ h))).mpr hr.free
  nodup := List.nodup_middle.mpr (List.nodup_cons.mpr ⟨hnode, hr.nodup⟩)
  numFree := by simp [lruAddFree, hr.numFree]
  hash := hr.hash

/-- Taking the first free node puts it in front of the active list. -/
theorem lruAlloc_represents {node : ν} {free : List ν} (hr : Represents c a)
    (hfree : a.free = node :: free) (hash : Nat) :
    ∃ c', lruAlloc c hash = some (c', node) ∧
      Represents c' ⟨node :: a.active, free, Function.update a.hash node hash⟩ := by
  have hseg := hr.free
  rw [hfree] at hseg
  obtain ⟨hhead, hrest⟩ := hseg
  have hnodup := hr.nodup
  rw [hfree, List.nodup_middle] at hnodup
  have hnode : node ∉ a.active ++ free := (List.nodup_cons.mp hnodup).1
  unfold lruAlloc
  rw [hhead]
  refine ⟨_, rfl, ?_, ?_, hnodup, ?_, ?_⟩
  · refine ⟨rfl, ?_⟩
    simp only [Function.update_self]
    exact (seg_update_of_not_mem (fun h => hnode (List.mem_append_left _ h))).mpr hr.active
  · exact (seg_update_of_not_mem (fun h => hnode (List.mem_append_right _ h))).mpr hrest
  · simp [hr.numFree, hfree]
  · simp [hr.hash]

/-- A hit after `prev` moves the node to the front and keeps the other nodes in order. -/
theorem lruPromote_represents {prev node : ν} {l₀ l₂ : List ν} (hr : Represents c a)
    (hsplit : a.active = l₀ ++ prev :: node :: l₂) :
    Represents (lruPromote c prev node) ⟨node :: (l₀ ++ prev :: l₂), a.free, a.hash⟩ := by
  have hnodup := hr.nodup
  rw [hsplit] at hnodup
  have hmid : (node :: ((l₀ ++ [prev]) ++ (l₂ ++ a.free))).Nodup := by
    rw [← List.nodup_middle]
    simpa using hnodup
  obtain ⟨hnode, hrest⟩ := List.nodup_cons.mp hmid
  have hprev : prev ∉ l₀ ++ (l₂ ++ a.free) := by
    have := (List.nodup_middle.mp (by simpa using hrest : (l₀ ++ prev :: (l₂ ++ a.free)).Nodup))
    exact (List.nodup_cons.mp this).1
  have hne : prev ≠ node := fun h => hnode (by simp [h])
  -- the old list is `l₀`, then `prev → node → l₂`
  have hseg := hr.active
  rw [hsplit, seg_append] at hseg
  obtain ⟨q, h₀, hq, -, h₂⟩ := hseg
  subst hq
  have hnot : ∀ x ∈ l₀ ++ (l₂ ++ a.free), x ≠ prev ∧ x ≠ node := by
    intro x hx
    exact ⟨fun h => hprev (h ▸ hx), fun h => hnode (by simp_all)⟩
  refine ⟨?_, ?_, ?_, hr.numFree, hr.hash⟩
  · refine ⟨rfl, ?_⟩
    simp only [lruPromote, Function.update_self]
    rw [seg_append]
    refine ⟨some prev, ?_, rfl, ?_⟩
    · rw [seg_update_of_not_mem (fun h => hnode (by simp [h])),
        seg_update_of_not_mem (fun h => hprev (by simp [h]))]
      exact h₀
    · rw [Function.update_of_ne hne, Function.update_self,
        seg_update_of_not_mem (fun h => hnode (by simp [h])),
        seg_update_of_not_mem (fun h => hprev (by simp [h]))]
      exact h₂
  · simp only [lruPromote]
    rw [seg_update_of_not_mem (fun h => hnode (by simp [h])),
      seg_update_of_not_mem (fun h => hprev (by simp [h]))]
    exact hr.free
  · simpa using hmid

/-- With no free node, the last active node is unlinked and becomes the only free node. -/
theorem lruEvict_represents {node : ν} {l₁ : List ν} (hr : Represents c a) (hfree : a.free = [])
    (hsplit : a.active = l₁ ++ [node]) :
    Represents (lruEvict c l₁.getLast? node) ⟨l₁, [node], a.hash⟩ := by
  have hnodup := hr.nodup
  rw [hsplit, hfree, List.append_nil, List.nodup_append] at hnodup
  obtain ⟨hl₁, -, hdisj⟩ := hnodup
  have hnode : node ∉ l₁ := fun h => hdisj node h node (List.mem_singleton_self node) rfl
  have hseg := hr.active
  rw [hsplit] at hseg
  have hlast : c.next node = none := hseg.next_last
  have hnil : c.free = none := by
    have := hr.free
    rw [hfree] at this
    exact this
  -- first the unlink, to the lists `l₁` and `[]`, then `lru_add_free`
  suffices hunlink : Represents (match l₁.getLast? with
      | none => { c with active := none }
      | some prev => { c with next := Function.update c.next prev (c.next node) }) ⟨l₁, [], a.hash⟩ by
    exact lruAddFree_represents hunlink (by simpa using hnode)
  have hnum : c.numFree = 0 := by simp [hr.numFree, hfree]
  rcases List.eq_nil_or_concat l₁ with rfl | ⟨l₀, prev, rfl⟩
  · exact ⟨rfl, hnil, List.nodup_nil, hnum, hr.hash⟩
  · simp only [List.concat_eq_append] at hseg hl₁ ⊢
    rw [List.getLast?_concat]
    have hprev : prev ∉ l₀ := by
      have := List.nodup_append.mp hl₁
      exact fun h => this.2.2 prev h prev (List.mem_singleton_self prev) rfl
    -- the old list ends `… → prev → node`; `prev` now ends it
    have hseg' : Seg c.next c.active (l₀ ++ [prev, node]) none := by simpa using hseg
    obtain ⟨q, h₀, rfl, -, -⟩ := seg_append.mp hseg'
    refine ⟨?_, hnil, by simpa using hl₁, hnum, hr.hash⟩
    refine seg_append.mpr ⟨some prev, (seg_update_of_not_mem hprev).mpr h₀, rfl, ?_⟩
    simp [hlast]

/-- A lookup on the pointer structure does what the list model does: it
returns the same node after the same callbacks, and the result represents the
new lists. -/
theorem lruLookup_represents (hr : Represents c a) (hne : a.active ++ a.free ≠ []) {fuel : Nat}
    (hfuel : a.active.length ≤ fuel) (hash : Nat) (keyCompare : ν → Bool) (key : κ) :
    ∃ a' c' node calls, a.lookup hash keyCompare key = some (a', node, calls) ∧
      lruLookup fuel c hash keyCompare key = some (c', node, calls) ∧ Represents c' a' := by
  have hguard : ¬ (c.active = none ∧ c.free = none) := by
    rintro ⟨hact, hfr⟩
    have h₁ := (hact ▸ hr.active).eq_nil_of_none
    have h₂ := (hfr ▸ hr.free).eq_nil_of_none
    exact hne (by rw [h₁, h₂]; rfl)
  have hsame : (fun n => a.hash n = hash && keyCompare n) =
      (fun n => c.hash n = hash && keyCompare n) := by
    rw [hr.hash]
  unfold lruLookup LruList.lookup
  rw [if_neg hguard, hsame]
  cases hact : a.active with
  | nil =>
      -- nothing is active: the first free node is taken
      have hcact : c.active = none := by simpa [hact] using hr.active
      obtain ⟨node, free, hfree⟩ : ∃ node free, a.free = node :: free := by
        cases h : a.free with
        | nil => exact absurd (by simp [hact, h]) hne
        | cons node free => exact ⟨node, free, rfl⟩
      have hcfree : c.free = some node := by
        have := hr.free
        rw [hfree] at this
        exact this.1
      obtain ⟨c', halloc, hr'⟩ := lruAlloc_represents hr hfree hash
      rw [hact] at hr'
      refine ⟨_, c', node, [.init node key], ?_, ?_, hr'⟩
      · simp [hfree]
      · simp [hcact, hcfree, halloc]
  | cons n l =>
      have hseg := hr.active
      rw [hact] at hseg
      obtain ⟨hcact, hrest⟩ := hseg
      have hwalk := lruSearch_spec (fun x => c.hash x = hash && keyCompare x) hrest
        (show l.length < fuel by rw [hact] at hfuel; simp at hfuel; omega) none
      have hnodup : (n :: l).Nodup := by
        have := hr.nodup
        rw [hact] at this
        exact (List.nodup_append.mp this).1
      simp only [hcact]
      cases hfind : (n :: l).find? (fun x => c.hash x = hash && keyCompare x) with
      | some node =>
          obtain ⟨l₁, l₂, hsplit, hsearch⟩ := hwalk.1 node hfind
          rcases List.eq_nil_or_concat l₁ with rfl | ⟨l₀, prev, rfl⟩
          · -- a hit at the front: nothing moves
            simp only [List.nil_append, List.cons.injEq] at hsplit
            obtain ⟨rfl, rfl⟩ := hsplit
            refine ⟨a, c, n, [], ?_, ?_, hr⟩
            · show some (⟨n :: (n :: l).erase n, a.free, a.hash⟩, n, []) = some (a, n, [])
              rw [List.erase_cons_head, ← hact]
            · rw [hsearch]
              rfl
          · -- a hit after `prev`: the node moves to the front
            simp only [List.concat_eq_append] at hsplit hsearch
            rw [List.getLast?_concat, Option.some_or] at hsearch
            have hsplit' : a.active = l₀ ++ prev :: node :: l₂ := by
              rw [hact, hsplit]
              simp
            have hnode : node ∉ l₀ ++ [prev] := by
              rw [hsplit] at hnodup
              exact (List.nodup_append.mp hnodup).2.2 |> fun h hmem => h node hmem node
                List.mem_cons_self rfl
            have herase : (n :: l).erase node = l₀ ++ prev :: l₂ := by
              rw [hsplit, List.erase_append_right _ hnode]
              simp
            refine ⟨_, _, node, [], ?_, ?_, lruPromote_represents hr hsplit'⟩
            · show some (LruList.mk (node :: (n :: l).erase node) a.free a.hash, node, []) = _
              rw [herase]
            · rw [hsearch]
              rfl
      | none =>
          obtain ⟨l₁, last, hsplit, hsearch⟩ := hwalk.2 hfind
          simp only [Option.or_none] at hsearch
          rw [hsearch]
          cases hfr : a.free with
          | cons f fs =>
              -- a miss with a free node left
              have hcfree : c.free = some f := by
                have := hr.free
                rw [hfr] at this
                exact this.1
              obtain ⟨c', halloc, hr'⟩ := lruAlloc_represents hr hfr hash
              rw [hact] at hr'
              refine ⟨_, c', f, [.init f key], rfl, ?_, hr'⟩
              simp [hcfree, halloc]
          | nil =>
              -- a miss with no free node: the least recently used node is evicted
              have hcfree : c.free = none := by
                have := hr.free
                rw [hfr] at this
                exact this
              have hsplit' : a.active = l₁ ++ [last] := by rw [hact, hsplit]
              obtain ⟨c', halloc, hr'⟩ := lruAlloc_represents
                (lruEvict_represents hr hfr hsplit') rfl hash
              refine ⟨_, c', last, [.deinit last, .init last key], ?_, ?_, hr'⟩
              · rw [hsplit, List.getLast?_concat, List.dropLast_concat]
              · simp [hcfree, halloc]

/-- The loop of `lru_flush` over the rest `rest` of the active list pushes its
nodes on the free list in list order and deinitialises each. -/
theorem lruFlushLoop_spec {node : Option ν} {rest free : List ν}
    (hrest : Seg c.next node rest none) (hfree : Seg c.next c.free free none)
    (hnodup : (rest ++ free).Nodup) (hnum : c.numFree = free.length) {fuel : Nat}
    (hfuel : rest.length ≤ fuel) :
    ∃ c', lruFlushLoop fuel c node = some (c', (rest.map LruCall.deinit : List (LruCall ν κ))) ∧
      Seg c'.next c'.free (rest.reverse ++ free) none ∧
      c'.numFree = (rest.reverse ++ free).length ∧ c'.hash = c.hash ∧ c'.active = c.active := by
  induction rest generalizing c node free fuel with
  | nil =>
      rw [show node = none from hrest]
      refine ⟨c, ?_, hfree, hnum, rfl, rfl⟩
      cases fuel <;> rfl
  | cons n rest ih =>
      obtain ⟨rfl, hrest⟩ := hrest
      obtain ⟨fuel, rfl⟩ : ∃ k, fuel = k + 1 := ⟨fuel - 1, by simp at hfuel; omega⟩
      have hmid : (n :: (rest ++ free)).Nodup := by simpa using hnodup
      obtain ⟨hn, hnodup'⟩ := List.nodup_cons.mp hmid
      -- after `lru_add_free` of `n`, the rest of the list is intact and `n` tops the free list
      have hrest₁ : Seg (lruAddFree c n).next (c.next n) rest none :=
        (seg_update_of_not_mem (fun h => hn (List.mem_append_left _ h))).mpr hrest
      have hfree₁ : Seg (lruAddFree c n).next (lruAddFree c n).free (n :: free) none := by
        refine ⟨rfl, ?_⟩
        simp only [lruAddFree, Function.update_self]
        exact (seg_update_of_not_mem (fun h => hn (List.mem_append_right _ h))).mpr hfree
      obtain ⟨c', hloop, hseg, hnum', hhash, hact⟩ := ih hrest₁ hfree₁ (List.nodup_middle.mpr hmid)
        (by simp [lruAddFree, hnum]) (by simp at hfuel; omega)
      refine ⟨c', ?_, by simpa using hseg, by simpa using hnum', hhash, hact⟩
      simp [lruFlushLoop, hloop]

/-- A flush frees every active node, the last one on top of the free list. -/
theorem lruFlush_represents (hr : Represents c a) {fuel : Nat} (hfuel : a.active.length ≤ fuel) :
    ∃ c', lruFlush fuel c = some (c', (a.active.map LruCall.deinit : List (LruCall ν κ))) ∧
      Represents c' ⟨[], a.active.reverse ++ a.free, a.hash⟩ := by
  obtain ⟨c', hloop, hseg, hnum, hhash, -⟩ :=
    lruFlushLoop_spec (κ := κ) hr.active hr.free hr.nodup hr.numFree hfuel
  refine ⟨{ c' with active := none }, by simp [lruFlush, hloop], rfl, hseg, ?_, hnum, ?_⟩
  · have := hr.nodup
    simpa using (List.reverse_perm a.active).append_right a.free |>.nodup_iff.mpr this
  · exact hhash.trans hr.hash

end Represents

/-! ## Runs -/

/-- An operation on a populated `struct lru`. -/
inductive LruOp (ν κ : Type*)
  | lookup (hash : Nat) (keyCompare : ν → Bool) (key : κ)
  | flush

/-- A sequence of operations with fuel `fuel` for each loop; every operation
reports the node a lookup returned (`none` for a flush) and its callbacks. -/
def lruRun (fuel : Nat) : Lru ν → List (LruOp ν κ) →
    Option (Lru ν × List (Option ν × List (LruCall ν κ)))
  | lru, [] => some (lru, [])
  | lru, .lookup hash keyCompare key :: ops =>
      match lruLookup fuel lru hash keyCompare key with
      | none => none
      | some (lru, node, calls) =>
          (lruRun fuel lru ops).map fun (lru, outs) => (lru, (some node, calls) :: outs)
  | lru, .flush :: ops =>
      match lruFlush fuel lru with
      | none => none
      | some (lru, calls) => (lruRun fuel lru ops).map fun (lru, outs) => (lru, (none, calls) :: outs)

/-- The same operations on the list model. -/
def LruList.run : LruList ν → List (LruOp ν κ) →
    Option (LruList ν × List (Option ν × List (LruCall ν κ)))
  | a, [] => some (a, [])
  | a, .lookup hash keyCompare key :: ops =>
      match a.lookup hash keyCompare key with
      | none => none
      | some (a, node, calls) => (run a ops).map fun (a, outs) => (a, (some node, calls) :: outs)
  | a, .flush :: ops =>
      let (a, calls) : LruList ν × List (LruCall ν κ) := a.flush
      (run a ops).map fun (a, outs) => (a, (none, calls) :: outs)

/-- `lru_add_free` of distinct new nodes pushes them on the free list. -/
theorem lruAddFree_foldl_represents {c : Lru ν} {a : LruList ν} {nodes : List ν}
    (hr : Represents c a) (hnodup : (nodes ++ a.active ++ a.free).Nodup) :
    Represents (nodes.foldl lruAddFree c) ⟨a.active, nodes.reverse ++ a.free, a.hash⟩ := by
  induction nodes generalizing c a with
  | nil => exact hr
  | cons n nodes ih =>
      have hmid : (n :: (nodes ++ a.active ++ a.free)).Nodup := hnodup
      obtain ⟨hn, hrest⟩ := List.nodup_cons.mp hmid
      have hr₁ := lruAddFree_represents hr (fun h => hn (by
        rw [List.append_assoc]
        exact List.mem_append_right _ h))
      have hnodup₁ : (nodes ++ a.active ++ n :: a.free).Nodup := by
        have : ((nodes ++ a.active) ++ n :: a.free).Nodup :=
          List.nodup_middle.mpr (List.nodup_cons.mpr ⟨hn, hrest⟩)
        simpa using this
      simpa using ih hr₁ hnodup₁

/-- Every run from a represented state, with fuel for all the nodes, matches the
list model's run output for output, and keeps the representation and the set
of nodes. -/
theorem lruRun_refines {nodes : List ν} (hne : nodes ≠ []) (ops : List (LruOp ν κ)) :
    ∀ {c : Lru ν} {a : LruList ν}, Represents c a → (a.active ++ a.free).Perm nodes →
      ∃ c' a' outs, lruRun nodes.length c ops = some (c', outs) ∧ a.run ops = some (a', outs) ∧
        Represents c' a' ∧ (a'.active ++ a'.free).Perm nodes := by
  induction ops with
  | nil => exact fun hr hperm => ⟨_, _, [], rfl, rfl, hr, hperm⟩
  | cons op ops ih =>
      intro c a hr hperm
      have hfuel : a.active.length ≤ nodes.length := by
        have := hperm.length_eq
        simp at this
        omega
      cases op with
      | lookup hash keyCompare key =>
          have hnonempty : a.active ++ a.free ≠ [] := fun h => hne (by
            rw [h] at hperm
            exact hperm.nil_eq.symm)
          obtain ⟨a₁, c₁, node, calls, habs, hlookup, hr₁⟩ :=
            lruLookup_represents hr hnonempty hfuel hash keyCompare key
          obtain ⟨c', a', outs, hrun, habsrun, hr', hperm'⟩ :=
            ih hr₁ ((LruList.lookup_perm habs).trans hperm)
          exact ⟨c', a', (some node, calls) :: outs, by simp [lruRun, hlookup, hrun],
            by simp [LruList.run, habs, habsrun], hr', hperm'⟩
      | flush =>
          obtain ⟨c₁, hflush, hr₁⟩ := lruFlush_represents (κ := κ) hr hfuel
          have hperm₁ : ([] ++ (a.active.reverse ++ a.free)).Perm nodes :=
            ((List.reverse_perm a.active).append_right a.free).trans hperm
          obtain ⟨c', a', outs, hrun, habsrun, hr', hperm'⟩ := ih hr₁ hperm₁
          exact ⟨c', a', (none, a.active.map LruCall.deinit) :: outs, by simp [lruRun, hflush, hrun],
            by simp [LruList.run, LruList.flush, habsrun], hr', hperm'⟩

/-- After `lru_init` and `lru_add_free` of `N ≥ 1` distinct nodes, every
sequence of lookups and flushes keeps both lists ending in `NULL` (acyclic),
disjoint and without repeats, with the `N` nodes as their union and `num_free`
counting the free list; and every operation returns the node, and makes the
`obj_init`/`obj_deinit` calls, that the list model prescribes. -/
theorem lru_refines_lruList (lru : Lru ν) {nodes : List ν} (hnodup : nodes.Nodup)
    (hne : nodes ≠ []) (ops : List (LruOp ν κ)) :
    ∃ c a outs, lruRun nodes.length (nodes.foldl lruAddFree (lruInit lru)) ops = some (c, outs) ∧
      (LruList.mk [] nodes.reverse lru.hash).run ops = some (a, outs) ∧
      Represents c a ∧ (a.active ++ a.free).Perm nodes := by
  have hinit : Represents (lruInit lru) ⟨[], [], lru.hash⟩ := ⟨rfl, rfl, List.nodup_nil, rfl, rfl⟩
  have hr := lruAddFree_foldl_represents hinit (by simpa using hnodup)
  simp only [List.append_nil] at hr
  exact lruRun_refines hne ops hr (by simp)

/-- Two nodes, 1 and 2, with the `next` and `hash` fields zeroed. -/
def twoNodeLru : Lru Nat := ⟨none, none, fun _ => none, fun _ => 0, 0⟩

/-- A miss, a hit and a flush. -/
def twoNodeOps : List (LruOp Nat Unit) :=
  [.lookup 7 (fun _ => true) (), .lookup 7 (fun _ => true) (), .flush]

theorem lru_refines_lruList_two_nodes :
    (∃ c, lruRun 2 ([1, 2].foldl lruAddFree (lruInit twoNodeLru)) twoNodeOps =
        some (c, [(some 2, [.init 2 ()]), (some 2, []), (none, [.deinit 2])])) ∧
      ∃ c a outs, lruRun [1, 2].length ([1, 2].foldl lruAddFree (lruInit twoNodeLru)) twoNodeOps =
          some (c, outs) ∧
        (LruList.mk [] [1, 2].reverse twoNodeLru.hash).run twoNodeOps = some (a, outs) ∧
        Represents c a ∧ (a.active ++ a.free).Perm [1, 2] :=
  ⟨⟨_, rfl⟩, lru_refines_lruList twoNodeLru (by decide) (by decide) twoNodeOps⟩

end Xqemu.Nv2a
