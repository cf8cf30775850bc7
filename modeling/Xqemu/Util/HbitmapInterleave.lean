import Xqemu.Util.HbitmapIter
import Xqemu.Util.HbitmapCoherent

/-!
# Iterating while the bitmap is written

`hbitmap_iter_init` allows the bitmap to be set and reset while an iterator walks
it.  A run interleaves `hbitmap_iter_next` with `hbitmap_set`, `hbitmap_reset` and
`hbitmap_reset_all`.  The writes keep the bitmap coherent and of the same shape, so
the iterator keeps its invariant (`HBitmapIter.Inv.of_eq`), and each `next` is a
call of the pending-set iterator over the groups set at that moment: the run
simulates a `PendingIter.Run` (`runIterCalls_simulates`).

What such runs return is then read off the pending-set iterator.  A group `r` is
returned as the `int64` `r << g`, so the values keep the order of the groups only
while `size << g` stays within `2^63`.
-/

namespace Xqemu.Util

open Xqemu.PendingIter Xqemu.Faults

/-- A call on a bitmap while an iterator walks it. -/
inductive HbIterCall where
  | set (start count : Nat)
  | reset (start count : Nat)
  | resetAll
  | next
  deriving DecidableEq, Repr

/-- One call on `hb`, its meta bitmap `mb` and an iterator `hbi` over `hb`: what
`hbitmap_iter_next` returned, and the three after the call. -/
def HbIterCall.step : HbIterCall → HBitmap → Option HBitmap → HBitmapIter →
    Except HbFault (Option Int × HBitmap × Option HBitmap × HBitmapIter)
  | .set start count, hb, mb, hbi => do
      let (hb, mb) ← hbitmapSet hb mb start count
      pure (none, hb, mb, hbi)
  | .reset start count, hb, mb, hbi => do
      let (hb, mb) ← hbitmapReset hb mb start count
      pure (none, hb, mb, hbi)
  | .resetAll, hb, mb, hbi => pure (none, hbitmapResetAll hb, mb, hbi)
  | .next, hb, mb, hbi => do
      let (v, hbi) ← hbitmapIterNext hb hbi
      pure (some v, hb, mb, hbi)

/-- Runs the calls in order: for each call, the bitmap it finds and what it returned. -/
def runIterCalls : List HbIterCall → HBitmap → Option HBitmap → HBitmapIter →
    Except HbFault (List (HBitmap × Option Int))
  | [], _, _, _ => pure []
  | c :: cs, hb, mb, hbi => do
      let (v, hb', mb', hbi') ← c.step hb mb hbi
      let t ← runIterCalls cs hb' mb' hbi'
      pure ((hb, v) :: t)

/-- What a call of the pending-set iterator returns, as `hbitmap_iter_next` returns it. -/
def callValue (g : Nat) : Call Nat → Option Int
  | .write => none
  | .next o => some (iterValue g o)

/-- The groups a call of a run sees, and what it returned. -/
def seen : HBitmap × Option Int → Set Nat × Option Int :=
  Prod.map (fun hb => ↑hb.groups) id

/-! ## One call -/

/-- A write that leaves a coherent bitmap of the same shape is a write of the pending-set
iterator. -/
theorem step_of_write {hb hb' : HBitmap} {hbi : HBitmapIter} (hi : hbi.Inv hb) (hc' : hb'.Coherent)
    (hsize : hb'.size = hb.size) (hgran : hb'.granularity = hb.granularity) (hsizes : hb'.sizes = hb.sizes) :
    hb'.Coherent ∧ hb'.size = hb.size ∧ hb'.granularity = hb.granularity ∧ hbi.Inv hb' ∧
      ∃ a, none = callValue hb.granularity a ∧ Step hbi.pending ↑hb.groups a hbi.pending :=
  ⟨hc', hsize, hgran, hi.of_eq hgran (congrFun hsizes 6), .write, rfl, rfl⟩

/-- `hbitmap_iter_next` on a coherent bitmap: a `next` of the pending-set iterator over its groups. -/
theorem step_next {hb : HBitmap} {mb : Option HBitmap} {hbi : HBitmapIter} (hc : hb.Coherent) (hi : hbi.Inv hb) :
    ∃ o hbi', HbIterCall.next.step hb mb hbi = .ok (some (iterValue hb.granularity o), hb, mb, hbi') ∧
      hbi'.Inv hb ∧ NextSpec hbi.pending ↑hb.groups o hbi'.pending := by
  obtain ⟨o, hbi', heq, hi', hspec⟩ := hbitmapIterNext_spec hc hi
  refine ⟨o, hbi', ?_, hi', hspec⟩
  rw [HbIterCall.step, heq, ok_bind, hi.granularity_eq]
  rfl

/-- Each call on a coherent bitmap with an iterator in its invariant keeps both, keeps the shape
of the bitmap, and is one call of the pending-set iterator over the groups set before it. -/
theorem HbIterCall.step_spec {c : HbIterCall} {hb hb' : HBitmap} {mb mb' : Option HBitmap}
    {hbi hbi' : HBitmapIter} {v : Option Int} (hc : hb.Coherent) (hi : hbi.Inv hb)
    (h : c.step hb mb hbi = .ok (v, hb', mb', hbi')) :
    hb'.Coherent ∧ hb'.size = hb.size ∧ hb'.granularity = hb.granularity ∧ hbi'.Inv hb' ∧
      ∃ a, v = callValue hb.granularity a ∧ Step hbi.pending ↑hb.groups a hbi'.pending := by
  cases c with
  | set start count =>
    obtain ⟨⟨hb₁, mb₁⟩, hset, hpure⟩ := bind_eq_ok.mp h
    cases hpure
    obtain ⟨⟨_, hown⟩, -⟩ := hbitmapSet_eq_ok hset
    obtain ⟨hc', -, hsize, hgran, hsizes⟩ := hbitmapSetOwn_coherent hc hown
    exact step_of_write hi hc' hsize hgran hsizes
  | reset start count =>
    obtain ⟨⟨hb₁, mb₁⟩, hreset, hpure⟩ := bind_eq_ok.mp h
    cases hpure
    obtain ⟨⟨_, hown⟩, -⟩ := hbitmapReset_eq_ok hreset
    obtain ⟨hc', -, hsize, hgran, hsizes⟩ := hbitmapResetOwn_coherent hc hown
    exact step_of_write hi hc' hsize hgran hsizes
  | resetAll =>
    cases h
    exact step_of_write hi (hbitmapResetAll_valid hc).1.toCoherent rfl rfl rfl
  | next =>
    obtain ⟨o, hbi₂, heq, hi', hspec⟩ := @step_next hb mb hbi hc hi
    rw [heq] at h
    cases h
    exact ⟨hc, rfl, rfl, hi', .next o, rfl, hspec⟩

/-! ## Whole runs -/

/-- A run on a coherent bitmap simulates a run of the pending-set iterator from the iterator's
pending set, each call seeing the groups set when it is made; every bitmap of the run is
coherent and of the first one's shape. -/
theorem runIterCalls_simulates : ∀ (cs : List HbIterCall) {hb : HBitmap} {mb : Option HBitmap}
    {hbi : HBitmapIter} {t : List (HBitmap × Option Int)}, hb.Coherent → hbi.Inv hb →
    runIterCalls cs hb mb hbi = .ok t →
    ∃ as : List (Set Nat × Call Nat), Run hbi.pending as ∧
      t.map seen = as.map (Prod.map id (callValue hb.granularity)) ∧
      (∀ c ∈ t, c.1.Coherent ∧ c.1.size = hb.size ∧ c.1.granularity = hb.granularity) ∧
      ∀ a ∈ as, a.1 ⊆ Set.Iio hb.size
  | [], _, _, _, t, _, _, h => by
    cases h
    exact ⟨[], .nil _, rfl, fun c hc => absurd hc List.not_mem_nil, fun a ha => absurd ha List.not_mem_nil⟩
  | c :: cs, hb, mb, hbi, t, hc, hi, h => by
    obtain ⟨⟨v, hb', mb', hbi'⟩, hstep, hrest⟩ := bind_eq_ok.mp h
    obtain ⟨t', hrun, hpure⟩ := bind_eq_ok.mp hrest
    cases hpure
    obtain ⟨hc', hsize, hgran, hi', a, rfl, hastep⟩ := HbIterCall.step_spec hc hi hstep
    obtain ⟨as, hrun', hmap, hall, hlt⟩ := runIterCalls_simulates cs hc' hi' hrun
    refine ⟨(↑hb.groups, a) :: as, hrun'.cons hastep, ?_, ?_, ?_⟩
    · rw [List.map_cons, List.map_cons, hmap, hgran]
      rfl
    · rintro c (_ | ⟨_, hct⟩)
      · exact ⟨hc, rfl, rfl⟩
      · obtain ⟨hcc, hcs, hcg⟩ := hall c hct
        exact ⟨hcc, hcs.trans hsize, hcg.trans hgran⟩
    · rintro a' (_ | ⟨_, hat⟩) r hr
      · exact (HBitmap.mem_groups.mp hr).1
      · exact hsize ▸ hlt a' hat hr

/-- A run of `next` calls alone is a run of `next` calls of the pending-set iterator over the
groups of the bitmap. -/
theorem runIterCalls_replicate_next : ∀ (n : Nat) {hb : HBitmap} {mb : Option HBitmap} {hbi : HBitmapIter}
    {t : List (HBitmap × Option Int)}, hb.Coherent → hbi.Inv hb →
    runIterCalls (List.replicate n .next) hb mb hbi = .ok t →
    ∃ os : List (Option Nat), Run hbi.pending (os.map fun o => ((↑hb.groups : Set Nat), .next o)) ∧
      t = os.map fun o => (hb, some (iterValue hb.granularity o))
  | 0, _, _, _, t, _, _, h => by
    cases h
    exact ⟨[], .nil _, rfl⟩
  | n + 1, hb, mb, hbi, t, hc, hi, h => by
    obtain ⟨o, hbi', heq, hi', hspec⟩ := @step_next hb mb hbi hc hi
    rw [List.replicate_succ, runIterCalls, heq, ok_bind] at h
    dsimp only at h
    obtain ⟨t', hrun, hpure⟩ := bind_eq_ok.mp h
    cases hpure
    obtain ⟨os, hrun', rfl⟩ := runIterCalls_replicate_next n hc hi' hrun
    exact ⟨o :: os, .next hspec hrun', rfl⟩

/-! ## What a run returns -/

/-- With `size << g` within `2^63`, the first element of a group fits an `int64`. -/
theorem shiftLeft_lt_of_lt {size g r : Nat} (hbound : size <<< g ≤ 2 ^ 63) (hr : r < size) :
    r <<< g < 2 ^ 63 := by
  rw [Nat.shiftLeft_eq] at hbound ⊢
  exact lt_of_lt_of_le (Nat.mul_lt_mul_of_pos_right hr (Nat.two_pow_pos g)) hbound

/-- A group whose first element fits an `int64` is returned as that element. -/
theorem iterValue_some {g r : Nat} (h : r <<< g < 2 ^ 63) : iterValue g (some r) = ((r <<< g : Nat) : Int) := by
  rw [iterValue, Nat.mod_eq_of_lt (by omega), Xqemu.TwosComplement.toSigned, if_pos h]

theorem callValue_eq_some {g : Nat} {a : Call Nat} {v : Int} (h : callValue g a = some v) :
    ∃ o, a = .next o ∧ iterValue g o = v := by
  cases a with
  | write => cases h
  | next o => exact ⟨o, rfl, Option.some.inj h⟩

/-- The pending groups that are set, when the pending set is the groups from `q` on. -/
theorem inter_groups_eq {P : Set Nat} {G : Finset Nat} {q : Nat} (hsub : P ⊆ Set.Ici q)
    (hsup : ↑G ∩ Set.Ici q ⊆ P) : P ∩ ↑G = ↑(G.filter fun r => q ≤ r) := by
  ext r
  rw [Finset.coe_filter, Set.mem_inter_iff, Set.mem_ofPred_eq, Finset.mem_coe]
  constructor
  · rintro ⟨hP, hG⟩
    exact ⟨hG, hsub hP⟩
  · rintro ⟨hG, hq⟩
    exact ⟨hsup ⟨hG, hq⟩, hG⟩

section Simulated

variable {t : List (HBitmap × Option Int)} {as : List (Set Nat × Call Nat)} {g : Nat}

/-- A call of a run, in the pending-set run it simulates. -/
theorem exists_call_of_mem (hmap : t.map seen = as.map (Prod.map id (callValue g)))
    {c : HBitmap × Option Int} (hc : c ∈ t) : ∃ a ∈ as, a.1 = ↑c.1.groups ∧ callValue g a.2 = c.2 := by
  have hmem : seen c ∈ as.map (Prod.map id (callValue g)) := hmap ▸ List.mem_map_of_mem hc
  obtain ⟨a, ha, heq⟩ := List.mem_map.mp hmem
  exact ⟨a, ha, congrArg Prod.fst heq, congrArg Prod.snd heq⟩

/-- A call of the pending-set run, in the run it simulates. -/
theorem exists_mem_of_call (hmap : t.map seen = as.map (Prod.map id (callValue g)))
    {a : Set Nat × Call Nat} (ha : a ∈ as) : ∃ c ∈ t, a.1 = ↑c.1.groups ∧ callValue g a.2 = c.2 := by
  have hmem : Prod.map id (callValue g) a ∈ t.map seen := hmap ▸ List.mem_map_of_mem ha
  obtain ⟨c, hc, heq⟩ := List.mem_map.mp hmem
  exact ⟨c, hc, (congrArg Prod.fst heq).symm, (congrArg Prod.snd heq).symm⟩

variable {P : Set Nat} {size : Nat} (hrun : Run P as) (hmap : t.map seen = as.map (Prod.map id (callValue g)))
  (hlt : ∀ a ∈ as, a.1 ⊆ Set.Iio size) (hbound : size <<< g ≤ 2 ^ 63)
include hrun hlt hbound

/-- The value of a call that found the group `r`. -/
theorem callValue_of_returned {S : Set Nat} {r : Nat} (ha : (S, Call.next (some r)) ∈ as) :
    iterValue g (some r) = ((r <<< g : Nat) : Int) :=
  iterValue_some (shiftLeft_lt_of_lt hbound (hlt _ ha (hrun.mem_of_returned ha).2))

include hmap

/-- A value the run returns is -1, or the first element of a pending group set at its call. -/
theorem value_of_mem {hb' : HBitmap} {v : Int} (hv : (hb', some v) ∈ t) :
    v = -1 ∨ ∃ r ∈ hb'.groups, r ∈ P ∧ v = ((r <<< g : Nat) : Int) := by
  obtain ⟨⟨S, c⟩, ha, hS, hval⟩ := exists_call_of_mem hmap hv
  obtain ⟨o, rfl, rfl⟩ := callValue_eq_some hval
  cases o with
  | none => exact .inl rfl
  | some r =>
    obtain ⟨hP, hr⟩ := hrun.mem_of_returned ha
    have hS' : S = ↑hb'.groups := hS
    exact .inr ⟨r, by rw [hS'] at hr; exact hr, hP, callValue_of_returned hrun hlt hbound ha⟩

/-- The values other than -1 that the run returns increase strictly. -/
theorem values_sorted : (t.filterMap fun c => c.2.filter fun v => 0 ≤ v).Pairwise (· < ·) := by
  -- they are the first elements of the groups the pending-set run returns
  have hvals : (t.filterMap fun c => c.2.filter fun v => 0 ≤ v) =
      (returned as).map fun r => ((r <<< g : Nat) : Int) := by
    have hseen : (t.filterMap fun c => c.2.filter fun v => 0 ≤ v) =
        (t.map seen).filterMap fun s => s.2.filter fun v => 0 ≤ v := by
      rw [List.filterMap_map]
      rfl
    rw [hseen, hmap, List.filterMap_map, returned, List.map_filterMap]
    apply List.filterMap_congr
    rintro ⟨S, c⟩ ha
    cases c with
    | write => rfl
    | next o =>
      cases o with
      | none => rfl
      | some r =>
        rw [Function.comp_apply, Prod.map_snd, callValue, callValue_of_returned hrun hlt hbound ha,
          Option.filter_some, decide_eq_true (Int.natCast_nonneg _)]
        rfl
  rw [hvals, List.pairwise_map]
  refine hrun.returned_sorted.imp fun {r r'} hrr => ?_
  rw [Nat.shiftLeft_eq, Nat.shiftLeft_eq]
  exact_mod_cast Nat.mul_lt_mul_of_pos_right hrr (Nat.two_pow_pos g)

/-- A pending group that is set at every call up to one that returns -1 was returned before it. -/
theorem returned_before_end {pre post : List (HBitmap × Option Int)} {hb' : HBitmap} {r : Nat}
    (ht : t = pre ++ (hb', some (-1)) :: post) (hr : r ∈ P) (hlive : ∀ c ∈ pre, r ∈ c.1.groups)
    (hr' : r ∈ hb'.groups) : ∃ c ∈ pre, c.2 = some ((r <<< g : Nat) : Int) := by
  rw [ht, List.map_append, List.map_cons] at hmap
  obtain ⟨as₁, as₂, rfl, hmap₁, hmap₂⟩ := List.map_eq_append_iff.mp hmap.symm
  obtain ⟨⟨S, c⟩, as₃, rfl, ha, -⟩ := List.map_eq_cons_iff.mp hmap₂
  have hS : S = ↑hb'.groups := congrArg Prod.fst ha
  obtain ⟨o, rfl, hval⟩ := callValue_eq_some (congrArg Prod.snd ha)
  -- a call that found a group returns its first element, not -1
  have ho : o = none := by
    cases o with
    | none => rfl
    | some r₀ =>
      rw [callValue_of_returned hrun hlt hbound (List.mem_append_right _ List.mem_cons_self)] at hval
      generalize r₀ <<< g = x at hval
      omega
  subst ho
  have hlive' : ∀ a ∈ as₁, r ∈ a.1 := fun a ha₁ => by
    obtain ⟨c, hc, hc₁, -⟩ := exists_mem_of_call hmap₁.symm ha₁
    rw [hc₁]
    exact hlive c hc
  have hret := hrun.mem_returned_of_live hr hlive' (hS ▸ hr')
  obtain ⟨S', hS'⟩ := mem_returned.mp hret
  obtain ⟨c, hc, -, hcv⟩ := exists_mem_of_call hmap₁.symm hS'
  refine ⟨c, hc, ?_⟩
  rw [← hcv, callValue, callValue_of_returned hrun hlt hbound (List.mem_append_left _ hS')]

end Simulated

/-- With no write, call `k` returns the first element of the `k`-th pending group that is set,
or -1 once they have all been returned. -/
theorem values_of_replicate_next {n : Nat} {hb : HBitmap} {mb : Option HBitmap} {hbi : HBitmapIter}
    {t : List (HBitmap × Option Int)} (hc : hb.Coherent) (hbound : hb.size <<< hb.granularity ≤ 2 ^ 63)
    (hi : hbi.Inv hb) {T : Finset Nat} (hT : hbi.pending ∩ ↑hb.groups = ↑T)
    (h : runIterCalls (List.replicate n .next) hb mb hbi = .ok t) (k : Nat) (hk : k < t.length) :
    t[k].2 = some (((T.sort (· ≤ ·))[k]?.map fun r => ((r <<< hb.granularity : Nat) : Int)).getD (-1)) := by
  obtain ⟨os, hrun, rfl⟩ := runIterCalls_replicate_next n hc hi h
  have hk' : k < os.length := by simpa using hk
  have hsort := Run.next_eq_sort T hT hrun k hk'
  rw [List.getElem_map]
  dsimp only
  rw [hsort]
  cases hkth : (T.sort (· ≤ ·))[k]? with
  | none => rfl
  | some r =>
    -- the `k`-th group is set, so it lies below `size`
    have hrT : r ∈ T := (Finset.mem_sort _).mp (List.mem_of_getElem? hkth)
    have hrG : r ∈ hb.groups := by
      have : r ∈ hbi.pending ∩ ↑hb.groups := by rw [hT]; exact hrT
      exact this.2
    rw [iterValue_some (shiftLeft_lt_of_lt hbound (HBitmap.mem_groups.mp hrG).1)]
    rfl

/-! ## Iterating while the bitmap is written -/

/-- A bitmap of 64 groups of one element, none of them set. -/
def hbitmap64 : HBitmap where
  origSize := 64
  size := 64
  count := 0
  granularity := 0
  levels := fun i j => if i = 0 ∧ j = 0 then 1 <<< 63 else 0
  sizes := fun i => if i < 7 then 1 else 0

theorem hbitmap64_coherent : hbitmap64.Coherent :=
  (HBitmap.Shape.valid_of_cleared ⟨by decide, by decide, by decide, by decide, by decide⟩ rfl
    fun _ _ _ _ => rfl).1.toCoherent

end Xqemu.Util
