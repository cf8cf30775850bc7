import Xqemu.Lib.ByteTransfer
import Xqemu.Lib.ErrorsIn

/-! # Scatter-gather transfers of the APU DSPs (mcpx_apu.c)

The GP and EP DSPs reach guest memory through scatter-gather tables: entry `i`
of a table holds the guest address of page `i` of a buffer.
`scatter_gather_rw` copies a range of such a buffer page by page, the first
page partial, and `circular_scatter_gather_rw` splits a transfer at the end of
a circular buffer `[base, end)`.

The asserts abort the emulator, so a call that would fail one stops with a
`FifoFault`; the loop of `circular_scatter_gather_rw` is bounded by a fuel
argument.  A successful transfer that stores nothing into its own table moves
byte `k` of the DSP buffer through the page of its `k`-th offset
(`Transferred`).  From a `cur` inside `[base, end)` every round copies at least
one byte; with `base = end` no round copies any.
-/

namespace Xqemu.Apu

open Xqemu.Memory Xqemu.Faults

/-- `TARGET_PAGE_SIZE` of the i386 target, `1 << 12`. -/
def targetPageSize : Nat := 4096

/-- The assert a transfer fails. -/
inductive FifoFault
  /-- `assert(index < GP_OUTPUT_FIFO_COUNT)` and the three like it -/
  | fifoIndex
  /-- `assert(cur < end)` -/
  | curPastEnd
  /-- `assert((cur >= base) && ((cur + bytes_to_copy) <= end))` -/
  | outsideBuffer
  /-- `assert(cur == end)` -/
  | wrapPastEnd
  /-- `assert(page_entry <= max_sge)` -/
  | pageEntry
  /-- `assert(paddr + bytes_to_copy < memory_region_size(d->ram))` -/
  | ramBounds
  | outOfFuel
  deriving DecidableEq, Repr

/-- What the transfers read and write: the register file `d->regs`, indexed by
byte offset, guest RAM `d->ram_ptr` and its size, and the DSP-side buffer that
`ptr` points into.  `memory_region_set_dirty` only feeds dirty tracking and is
left out. -/
structure ApuState where
  regs : Nat → Nat
  ram : Mem
  ramSize : Nat
  buf : Mem

/-- `ldl_le_phys(&address_space_memory, sge_base + page_entry * 8 + 0)`: the
guest address of page `page_entry` of a table. -/
def prdAddress (ram : Mem) (sgeBase pageEntry : Nat) : Nat :=
  ldlLe ram (sgeBase + pageEntry * 8 + 0)

/-- The `memcpy` of one chunk of `scatter_gather_rw`. -/
def copyChunk (s : ApuState) (dir : Bool) (paddr ptr n : Nat) : ApuState :=
  if dir then { s with ram := memcpy s.ram paddr s.buf ptr n }
  else { s with buf := memcpy s.buf ptr s.ram paddr n }

/-- The `while (len > 0)` loop of `scatter_gather_rw`. -/
def scatterGatherLoop (sgeBase maxSge : Nat) (dir : Bool) :
    Nat → ApuState → Nat → Nat → Nat → Nat → Nat → Except FifoFault ApuState
  | fuel, s, pageEntry, offsetInPage, bytesToCopy, ptr, len =>
    if len > 0 then
      match fuel with
      | 0 => .error .outOfFuel
      | fuel + 1 =>
        if pageEntry ≤ maxSge then
          let paddr := prdAddress s.ram sgeBase pageEntry + offsetInPage
          let bytesToCopy := if bytesToCopy > len then len else bytesToCopy
          if paddr + bytesToCopy < s.ramSize then
            -- After the first iteration, we are page aligned
            scatterGatherLoop sgeBase maxSge dir fuel (copyChunk s dir paddr ptr bytesToCopy)
              (pageEntry + 1) 0 targetPageSize (ptr + bytesToCopy) (len - bytesToCopy)
          else .error .ramBounds
        else .error .pageEntry
    else .ok s

/-- `scatter_gather_rw(d, sge_base, max_sge, ptr, addr, len, dir)`.  Every
round copies at least one byte, so `len` rounds are enough. -/
def scatterGatherRw (s : ApuState) (sgeBase maxSge ptr addr len : Nat) (dir : Bool) :
    Except FifoFault ApuState :=
  scatterGatherLoop sgeBase maxSge dir len s (addr / targetPageSize) (addr % targetPageSize)
    (targetPageSize - addr % targetPageSize) ptr len

/-- The loop of `circular_scatter_gather_rw`, with its `uint32_t` arithmetic
on `cur`; it returns the state and the final `cur`. -/
def circularScatterGatherLoop (sgeBase maxSge base end_ : Nat) (dir : Bool) :
    Nat → ApuState → Nat → Nat → Nat → Except FifoFault (ApuState × Nat)
  | fuel, s, ptr, cur, len =>
    if len > 0 then
      match fuel with
      | 0 => .error .outOfFuel
      | fuel + 1 =>
        let bytesToCopy := (end_ + 2 ^ 32 - cur) % 2 ^ 32
        let bytesToCopy := if bytesToCopy > len then len else bytesToCopy
        if cur ≥ base ∧ (cur + bytesToCopy) % 2 ^ 32 ≤ end_ then
          scatterGatherRw s sgeBase maxSge ptr cur bytesToCopy dir >>= fun s =>
            let cur := (cur + bytesToCopy) % 2 ^ 32
            -- After the first iteration we might have to wrap
            if cur ≥ end_ then
              if cur = end_ then
                circularScatterGatherLoop sgeBase maxSge base end_ dir fuel s (ptr + bytesToCopy)
                  base (len - bytesToCopy)
              else .error .wrapPastEnd
            else
              circularScatterGatherLoop sgeBase maxSge base end_ dir fuel s (ptr + bytesToCopy)
                cur (len - bytesToCopy)
        else .error .outsideBuffer
    else .ok (s, cur)

/-- `circular_scatter_gather_rw(d, sge_base, max_sge, ptr, base, end, cur, len, dir)`. -/
def circularScatterGatherRw (fuel : Nat) (s : ApuState) (sgeBase maxSge ptr base end_ cur len : Nat)
    (dir : Bool) : Except FifoFault (ApuState × Nat) :=
  circularScatterGatherLoop sgeBase maxSge base end_ dir fuel s ptr cur len

/-! ## What one round of each loop does -/

theorem clamp_eq_min (b len : Nat) : (if b > len then len else b) = min b len := by
  split <;> omega

section Rounds

variable {sgeBase maxSge base end_ fuel ptr len : Nat} {dir : Bool} {s : ApuState}

@[simp] theorem scatterGatherLoop_len_zero (fuel e o b : Nat) :
    scatterGatherLoop sgeBase maxSge dir fuel s e o b ptr 0 = .ok s := by
  rw [scatterGatherLoop.eq_def]
  rfl

theorem scatterGatherLoop_zero (hlen : 0 < len) (e o b : Nat) :
    scatterGatherLoop sgeBase maxSge dir 0 s e o b ptr len = .error .outOfFuel := by
  rw [scatterGatherLoop, if_pos hlen]

theorem scatterGatherLoop_succ (hlen : 0 < len) (e o b : Nat) :
    scatterGatherLoop sgeBase maxSge dir (fuel + 1) s e o b ptr len =
      if e ≤ maxSge then
        if prdAddress s.ram sgeBase e + o + min b len < s.ramSize then
          scatterGatherLoop sgeBase maxSge dir fuel
            (copyChunk s dir (prdAddress s.ram sgeBase e + o) ptr (min b len))
            (e + 1) 0 targetPageSize (ptr + min b len) (len - min b len)
        else .error .ramBounds
      else .error .pageEntry := by
  rw [scatterGatherLoop, if_pos hlen]
  simp only [clamp_eq_min]

@[simp] theorem circularScatterGatherLoop_len_zero (fuel cur : Nat) :
    circularScatterGatherLoop sgeBase maxSge base end_ dir fuel s ptr cur 0 = .ok (s, cur) := by
  rw [circularScatterGatherLoop.eq_def]
  rfl

theorem circularScatterGatherLoop_zero (hlen : 0 < len) (cur : Nat) :
    circularScatterGatherLoop sgeBase maxSge base end_ dir 0 s ptr cur len = .error .outOfFuel := by
  rw [circularScatterGatherLoop, if_pos hlen]

/-- A round from a `cur` inside `[base, end)`: it copies up to the end of the
buffer, or all of `len` if that comes first, and wraps to `base` at the end. -/
theorem circularScatterGatherLoop_succ {cur : Nat} (hlen : 0 < len) (hb : base ≤ cur)
    (hc : cur < end_) (he : end_ < 2 ^ 32) :
    circularScatterGatherLoop sgeBase maxSge base end_ dir (fuel + 1) s ptr cur len =
      scatterGatherRw s sgeBase maxSge ptr cur (min (end_ - cur) len) dir >>= fun s =>
        circularScatterGatherLoop sgeBase maxSge base end_ dir fuel s (ptr + min (end_ - cur) len)
          (if cur + min (end_ - cur) len = end_ then base else cur + min (end_ - cur) len)
          (len - min (end_ - cur) len) := by
  have hbytes : (end_ + 2 ^ 32 - cur) % 2 ^ 32 = end_ - cur := by omega
  have hnext : (cur + min (end_ - cur) len) % 2 ^ 32 = cur + min (end_ - cur) len := by omega
  have hassert : cur ≥ base ∧ cur + min (end_ - cur) len ≤ end_ := by omega
  rw [circularScatterGatherLoop, if_pos hlen]
  simp only [hbytes, clamp_eq_min, hnext, if_pos hassert]
  congr 1
  funext s
  by_cases hend : cur + min (end_ - cur) len = end_
  · rw [if_pos hend.ge, if_pos hend, if_pos hend]
  · rw [if_neg (by omega), if_neg hend]

/-- With `base = end`, a round from `base` copies nothing and starts again
from `base` with all of `len` left. -/
theorem circularScatterGatherLoop_succ_of_empty (hlen : 0 < len) (he : end_ < 2 ^ 32) :
    circularScatterGatherLoop sgeBase maxSge end_ end_ dir (fuel + 1) s ptr end_ len =
      circularScatterGatherLoop sgeBase maxSge end_ end_ dir fuel s ptr end_ len := by
  have hbytes : (end_ + 2 ^ 32 - end_) % 2 ^ 32 = 0 := by omega
  have hsize : ¬ (0 > len) := by omega
  have hnext : (end_ + 0) % 2 ^ 32 = end_ := by omega
  rw [circularScatterGatherLoop, if_pos hlen]
  simp only [hbytes, if_neg hsize, hnext, ge_iff_le, le_refl, and_self, if_true]
  rw [scatterGatherRw, scatterGatherLoop_len_zero, ok_bind, Nat.add_zero, Nat.sub_zero]

theorem scatterGatherLoop_succ_eq_ok {e o b : Nat} {s' : ApuState} (hlen : 0 < len)
    (h : scatterGatherLoop sgeBase maxSge dir (fuel + 1) s e o b ptr len = .ok s') :
    e ≤ maxSge ∧ prdAddress s.ram sgeBase e + o + min b len < s.ramSize ∧
      scatterGatherLoop sgeBase maxSge dir fuel
        (copyChunk s dir (prdAddress s.ram sgeBase e + o) ptr (min b len))
        (e + 1) 0 targetPageSize (ptr + min b len) (len - min b len) = .ok s' := by
  rw [scatterGatherLoop_succ hlen] at h
  split_ifs at h with he hram
  exact ⟨he, hram, h⟩

end Rounds

/-! ## The transfer a successful call makes -/

/-- The guest address `scatter_gather_rw` maps offset `a` of a buffer to:
`PRD[a / TARGET_PAGE_SIZE] + a % TARGET_PAGE_SIZE`. -/
def sgAddress (ram : Mem) (sgeBase a : Nat) : Nat :=
  prdAddress ram sgeBase (a / targetPageSize) + a % targetPageSize

/-- Move `len` bytes between the DSP buffer at `ptr` and the guest addresses
`addr 0, …, addr (len - 1)`, one byte after another. -/
def ApuState.transfer (s : ApuState) (dir : Bool) (addr : Nat → Nat) (ptr len : Nat) : ApuState :=
  if dir then { s with ram := scatterSeq s.ram addr (fun k => s.buf (ptr + k)) len }
  else { s with buf := gatherInto s.buf ptr len s.ram addr }

/-- Offset `k` of the circular buffer `[base, end)`, counted from `c`. -/
def circularOffset (base end_ c k : Nat) : Nat :=
  base + (c - base + k) % (end_ - base)

/-- A write to the offsets `a 0, …, a (n - 1)` stores no byte into the words
`0, …, max_sge` of the table, so the table reads the same all through it. -/
def WritesMissTable (dir : Bool) (ram : Mem) (sgeBase maxSge : Nat) (a : Nat → Nat) (n : Nat) :
    Prop :=
  dir = true → ∀ k < n, a k / targetPageSize ≤ maxSge →
    sgAddress ram sgeBase (a k) < sgeBase ∨ sgeBase + 8 * (maxSge + 1) ≤ sgAddress ram sgeBase (a k)

/-- What a successful transfer of the offsets `a 0, …, a (len - 1)` from `s`
ends in: it used only pages of the table, and it moved byte `k` of the buffer
through the page of `a k`. -/
structure Transferred (sgeBase maxSge : Nat) (dir : Bool) (s : ApuState) (a : Nat → Nat)
    (ptr len : Nat) (s' : ApuState) : Prop where
  pages : ∀ k < len, a k / targetPageSize ≤ maxSge
  eq : s' = s.transfer dir (fun k => sgAddress s.ram sgeBase (a k)) ptr len

namespace ApuState

variable {s : ApuState} {dir : Bool} {addr addr' : Nat → Nat} {ptr : Nat}

@[simp] theorem transfer_regs (len : Nat) : (s.transfer dir addr ptr len).regs = s.regs := by
  cases dir <;> rfl

@[simp] theorem transfer_zero : s.transfer dir addr ptr 0 = s := by
  cases dir <;> simp [transfer]

/-- The first `a` bytes, then the next `b`. -/
theorem transfer_add (a b : Nat) :
    (s.transfer dir addr ptr a).transfer dir (fun k => addr (a + k)) (ptr + a) b =
      s.transfer dir addr ptr (a + b) := by
  cases dir
  · simp only [transfer, Bool.false_eq_true, if_false, gatherInto_add]
  · simp only [transfer, if_true, scatterSeq_add, Nat.add_assoc]

theorem transfer_congr {len : Nat} (h : ∀ k < len, addr k = addr' k) :
    s.transfer dir addr ptr len = s.transfer dir addr' ptr len := by
  cases dir
  · simp only [transfer, Bool.false_eq_true, if_false, gatherInto_congr h]
  · simp only [transfer, if_true, scatterSeq_congr h fun _ _ => rfl]

@[simp] theorem copyChunk_regs (paddr n : Nat) : (copyChunk s dir paddr ptr n).regs = s.regs := by
  cases dir <;> rfl

theorem copyChunk_eq (paddr n : Nat) :
    copyChunk s dir paddr ptr n = s.transfer dir (fun k => paddr + k) ptr n := by
  cases dir
  · rfl
  · simp only [copyChunk, transfer, if_true, memcpy_eq_scatterSeq]

end ApuState

section Table

variable {ram ram' : Mem} {sgeBase maxSge : Nat}

theorem prdAddress_congr {e : Nat} (h : AgreeOn ram ram' sgeBase (8 * (maxSge + 1)))
    (he : e ≤ maxSge) : prdAddress ram sgeBase e = prdAddress ram' sgeBase e :=
  loadLe_congr (h.mono (by omega) (by omega))

theorem sgAddress_congr {a : Nat} (h : AgreeOn ram ram' sgeBase (8 * (maxSge + 1)))
    (ha : a / targetPageSize ≤ maxSge) : sgAddress ram sgeBase a = sgAddress ram' sgeBase a := by
  rw [sgAddress, sgAddress, prdAddress_congr h ha]

/-- Inside page `e` the table maps offset `o + j` to `j` bytes past offset `o`. -/
theorem sgAddress_of_lt {e o j : Nat} (hj : o + j < targetPageSize) :
    sgAddress ram sgeBase (e * targetPageSize + o + j) = prdAddress ram sgeBase e + o + j := by
  have hdiv : (e * targetPageSize + o + j) / targetPageSize = e := by
    unfold targetPageSize at *
    omega
  have hmod : (e * targetPageSize + o + j) % targetPageSize = o + j := by
    unfold targetPageSize at *
    omega
  rw [sgAddress, hdiv, hmod, Nat.add_assoc]

variable {dir : Bool} {a a' : Nat → Nat} {n len : Nat}

theorem WritesMissTable.congr (h : WritesMissTable dir ram sgeBase maxSge a len)
    (ha : ∀ k < len, a k = a' k) : WritesMissTable dir ram sgeBase maxSge a' len := by
  intro hdir k hk
  rw [← ha k hk]
  exact h hdir k hk

theorem WritesMissTable.mono (h : WritesMissTable dir ram sgeBase maxSge a len) (hn : n ≤ len) :
    WritesMissTable dir ram sgeBase maxSge a n :=
  fun hdir k hk => h hdir k (by omega)

/-- A transfer that misses the table leaves every page address it can read. -/
theorem sgAddress_transfer {s : ApuState} {ptr x : Nat}
    (hmiss : WritesMissTable dir s.ram sgeBase maxSge a n)
    (hpages : ∀ k < n, a k / targetPageSize ≤ maxSge) (hx : x / targetPageSize ≤ maxSge) :
    sgAddress (s.transfer dir (fun k => sgAddress s.ram sgeBase (a k)) ptr n).ram sgeBase x =
      sgAddress s.ram sgeBase x := by
  cases dir
  · rfl
  · exact (sgAddress_congr (agreeOn_scatterSeq fun k hk => hmiss rfl k hk (hpages k hk)) hx).symm

variable {s s₁ s' : ApuState} {ptr : Nat}

/-- After a first part of a write that misses the table, the rest still misses it. -/
theorem WritesMissTable.rest (hmiss : WritesMissTable dir s.ram sgeBase maxSge a len)
    (h₁ : Transferred sgeBase maxSge dir s a ptr n s₁) (hn : n ≤ len)
    (ha' : ∀ k < len - n, a' k = a (n + k)) :
    WritesMissTable dir s₁.ram sgeBase maxSge a' (len - n) := by
  intro hdir k hk hpage
  have hpage' : a (n + k) / targetPageSize ≤ maxSge := ha' k hk ▸ hpage
  rw [h₁.eq, sgAddress_transfer (hmiss.mono hn) h₁.pages hpage, ha' k hk]
  exact hmiss hdir (n + k) (by omega) hpage'

theorem Transferred.zero : Transferred sgeBase maxSge dir s a ptr 0 s :=
  ⟨fun _ hk => absurd hk (Nat.not_lt_zero _), ApuState.transfer_zero.symm⟩

theorem Transferred.congr (h : Transferred sgeBase maxSge dir s a ptr len s')
    (ha : ∀ k < len, a k = a' k) : Transferred sgeBase maxSge dir s a' ptr len s' :=
  ⟨fun k hk => ha k hk ▸ h.pages k hk,
    h.eq.trans (ApuState.transfer_congr fun k hk => by rw [ha k hk])⟩

/-- A first part of a transfer, then the rest through the table as the first
part left it, is one transfer through the table as it was: the first part
missed the pages the rest reads. -/
theorem Transferred.append (hmiss : WritesMissTable dir s.ram sgeBase maxSge a len)
    (h₁ : Transferred sgeBase maxSge dir s a ptr n s₁)
    (h₂ : Transferred sgeBase maxSge dir s₁ a' (ptr + n) (len - n) s') (hn : n ≤ len)
    (ha' : ∀ k < len - n, a' k = a (n + k)) : Transferred sgeBase maxSge dir s a ptr len s' := by
  have hpages : ∀ k < len, a k / targetPageSize ≤ maxSge := by
    intro k hk
    by_cases hkn : k < n
    · exact h₁.pages k hkn
    · have hrest := h₂.pages (k - n) (by omega)
      rwa [ha' (k - n) (by omega), Nat.add_sub_cancel' (Nat.le_of_not_lt hkn)] at hrest
  refine ⟨hpages, ?_⟩
  calc s' = s₁.transfer dir (fun k => sgAddress s₁.ram sgeBase (a' k)) (ptr + n) (len - n) := h₂.eq
    _ = s₁.transfer dir (fun k => sgAddress s.ram sgeBase (a (n + k))) (ptr + n) (len - n) := by
        refine ApuState.transfer_congr fun k hk => ?_
        rw [h₁.eq, sgAddress_transfer (hmiss.mono hn) h₁.pages (h₂.pages k hk), ha' k hk]
    _ = s.transfer dir (fun k => sgAddress s.ram sgeBase (a k)) ptr (n + (len - n)) := by
        rw [h₁.eq, ApuState.transfer_add]
    _ = s.transfer dir (fun k => sgAddress s.ram sgeBase (a k)) ptr len := by
        rw [Nat.add_sub_cancel' hn]

end Table

section Circular

variable {base c : Nat}

theorem circularOffset_of_lt {end_ k : Nat} (hb : base ≤ c) (h : c + k < end_) :
    circularOffset base end_ c k = c + k := by
  rw [circularOffset, Nat.mod_eq_of_lt (by omega)]
  omega

theorem circularOffset_zero {end_ : Nat} (hb : base ≤ c) (hc : c < end_) :
    circularOffset base end_ c 0 = c := by
  rw [circularOffset_of_lt hb (by omega), Nat.add_zero]

theorem circularOffset_lt {end_ : Nat} (h : base < end_) (k : Nat) :
    circularOffset base end_ c k < end_ := by
  have := Nat.mod_lt (c - base + k) (show 0 < end_ - base by omega)
  rw [circularOffset]
  omega

/-- Moving the cursor `n` bytes on, and back to `base` at the end, shifts
every later offset by `n`. -/
theorem circularOffset_next (end_ n : Nat) (hb : base ≤ c) (k : Nat) :
    circularOffset base end_ (if c + n = end_ then base else c + n) k =
      circularOffset base end_ c (n + k) := by
  unfold circularOffset
  split_ifs with hend
  · rw [Nat.sub_self, Nat.zero_add, show c - base + (n + k) = k + (end_ - base) * 1 by omega,
      Nat.add_mul_mod_self_left]
  · rw [show c + n - base + k = c - base + (n + k) by omega]

end Circular

/-! ## The two loops -/

section Loops

variable {sgeBase maxSge : Nat} {dir : Bool}

/-- `scatter_gather_rw` touches no register. -/
theorem scatterGatherLoop_regs {fuel e o b ptr len : Nat} {s s' : ApuState}
    (h : scatterGatherLoop sgeBase maxSge dir fuel s e o b ptr len = .ok s') : s'.regs = s.regs := by
  induction fuel generalizing s e o b ptr len with
  | zero =>
      rcases Nat.eq_zero_or_pos len with rfl | hlen
      · rw [scatterGatherLoop_len_zero] at h
        cases h
        rfl
      · rw [scatterGatherLoop_zero hlen] at h
        cases h
  | succ fuel ih =>
      rcases Nat.eq_zero_or_pos len with rfl | hlen
      · rw [scatterGatherLoop_len_zero] at h
        cases h
        rfl
      obtain ⟨-, -, hrest⟩ := scatterGatherLoop_succ_eq_ok hlen h
      rw [ih hrest, ApuState.copyChunk_regs]

/-- The loop of `scatter_gather_rw`: its first round copies within page `e`
from offset `o`, and every later one from the start of the next page. -/
theorem scatterGatherLoop_spec {fuel e o b ptr len : Nat} {s s' : ApuState}
    (hb : o + b = targetPageSize)
    (hmiss : WritesMissTable dir s.ram sgeBase maxSge (fun k => e * targetPageSize + o + k) len)
    (h : scatterGatherLoop sgeBase maxSge dir fuel s e o b ptr len = .ok s') :
    Transferred sgeBase maxSge dir s (fun k => e * targetPageSize + o + k) ptr len s' := by
  induction fuel generalizing s e o b ptr len with
  | zero =>
      rcases Nat.eq_zero_or_pos len with rfl | hlen
      · rw [scatterGatherLoop_len_zero] at h
        cases h
        exact Transferred.zero
      · rw [scatterGatherLoop_zero hlen] at h
        cases h
  | succ fuel ih =>
      rcases Nat.eq_zero_or_pos len with rfl | hlen
      · rw [scatterGatherLoop_len_zero] at h
        cases h
        exact Transferred.zero
      obtain ⟨he, -, hrest⟩ := scatterGatherLoop_succ_eq_ok hlen h
      have hn : min b len ≤ len := Nat.min_le_right b len
      -- the round copies `min b len` bytes within page `e`
      have h₁ : Transferred sgeBase maxSge dir s (fun k => e * targetPageSize + o + k) ptr
          (min b len) (copyChunk s dir (prdAddress s.ram sgeBase e + o) ptr (min b len)) := by
        refine ⟨fun k hk => ?_, ?_⟩
        · have hpage : (e * targetPageSize + o + k) / targetPageSize = e := by
            unfold targetPageSize at *
            omega
          rw [hpage]
          exact he
        · rw [ApuState.copyChunk_eq]
          exact ApuState.transfer_congr fun j hj => (sgAddress_of_lt (by omega)).symm
      -- the rest starts at the beginning of page `e + 1`
      have ha' : ∀ k < len - min b len,
          (e + 1) * targetPageSize + 0 + k = e * targetPageSize + o + (min b len + k) := by
        intro k hk
        unfold targetPageSize at *
        omega
      exact h₁.append hmiss (ih (Nat.zero_add _) (hmiss.rest h₁ hn ha') hrest) hn ha'

/-- `scatter_gather_rw` moves byte `k` through the page of offset `addr + k`. -/
theorem scatterGatherRw_spec {s s' : ApuState} {ptr addr len : Nat}
    (hmiss : WritesMissTable dir s.ram sgeBase maxSge (fun k => addr + k) len)
    (h : scatterGatherRw s sgeBase maxSge ptr addr len dir = .ok s') :
    Transferred sgeBase maxSge dir s (fun k => addr + k) ptr len s' := by
  have hsplit : ∀ k, addr / targetPageSize * targetPageSize + addr % targetPageSize + k = addr + k :=
    fun k => by rw [Nat.div_add_mod']
  have hmod := Nat.mod_lt addr (show 0 < targetPageSize by decide)
  exact (scatterGatherLoop_spec (by omega) (hmiss.congr fun k _ => (hsplit k).symm) h).congr
    fun k _ => hsplit k

/-- Every round copies at least one byte, so `len` rounds are enough. -/
theorem scatterGatherLoop_ne_outOfFuel {fuel e o b ptr len : Nat} {s : ApuState} (hb : 0 < b)
    (hfuel : len ≤ fuel) :
    scatterGatherLoop sgeBase maxSge dir fuel s e o b ptr len ≠ .error .outOfFuel := by
  induction fuel generalizing s e o b ptr len with
  | zero =>
      rw [Nat.le_zero.mp hfuel, scatterGatherLoop_len_zero]
      simp
  | succ fuel ih =>
      rcases Nat.eq_zero_or_pos len with rfl | hlen
      · rw [scatterGatherLoop_len_zero]
        simp
      rw [scatterGatherLoop_succ hlen]
      split_ifs
      · exact ih (by decide) (by omega)
      all_goals simp

theorem scatterGatherRw_ne_outOfFuel (s : ApuState) (ptr addr len : Nat) :
    scatterGatherRw s sgeBase maxSge ptr addr len dir ≠ .error .outOfFuel := by
  have hmod := Nat.mod_lt addr (show 0 < targetPageSize by decide)
  exact scatterGatherLoop_ne_outOfFuel (by omega) le_rfl

variable {base end_ : Nat}

/-- The loop of `circular_scatter_gather_rw` from a `cur` inside `[base, end)`
touches no register and ends at the circular offset `len` past `cur`. -/
theorem circularScatterGatherLoop_cur {fuel ptr cur len cur' : Nat} {s s' : ApuState}
    (hb : base ≤ cur) (hc : cur < end_) (he : end_ < 2 ^ 32)
    (h : circularScatterGatherLoop sgeBase maxSge base end_ dir fuel s ptr cur len = .ok (s', cur')) :
    s'.regs = s.regs ∧ cur' = circularOffset base end_ cur len := by
  induction fuel generalizing s ptr cur len with
  | zero =>
      rcases Nat.eq_zero_or_pos len with rfl | hlen
      · rw [circularScatterGatherLoop_len_zero] at h
        cases h
        exact ⟨rfl, (circularOffset_zero hb hc).symm⟩
      · rw [circularScatterGatherLoop_zero hlen] at h
        cases h
  | succ fuel ih =>
      rcases Nat.eq_zero_or_pos len with rfl | hlen
      · rw [circularScatterGatherLoop_len_zero] at h
        cases h
        exact ⟨rfl, (circularOffset_zero hb hc).symm⟩
      rw [circularScatterGatherLoop_succ hlen hb hc he, bind_eq_ok] at h
      obtain ⟨s₁, h₁, hrest⟩ := h
      have hn : min (end_ - cur) len ≤ len := Nat.min_le_right _ _
      obtain ⟨hregs, hcur'⟩ := ih (by split <;> omega) (by split <;> omega) hrest
      refine ⟨hregs.trans (scatterGatherLoop_regs h₁), ?_⟩
      rw [hcur', circularOffset_next end_ _ hb, Nat.add_sub_cancel' hn]

/-- The loop of `circular_scatter_gather_rw` from a `cur` inside `[base, end)`
moves byte `k` through the page of the circular offset `k` past `cur`. -/
theorem circularScatterGatherLoop_spec {fuel ptr cur len cur' : Nat} {s s' : ApuState}
    (hb : base ≤ cur) (hc : cur < end_) (he : end_ < 2 ^ 32)
    (hmiss : WritesMissTable dir s.ram sgeBase maxSge (circularOffset base end_ cur) len)
    (h : circularScatterGatherLoop sgeBase maxSge base end_ dir fuel s ptr cur len = .ok (s', cur')) :
    Transferred sgeBase maxSge dir s (circularOffset base end_ cur) ptr len s' := by
  induction fuel generalizing s ptr cur len with
  | zero =>
      rcases Nat.eq_zero_or_pos len with rfl | hlen
      · rw [circularScatterGatherLoop_len_zero] at h
        cases h
        exact Transferred.zero
      · rw [circularScatterGatherLoop_zero hlen] at h
        cases h
  | succ fuel ih =>
      rcases Nat.eq_zero_or_pos len with rfl | hlen
      · rw [circularScatterGatherLoop_len_zero] at h
        cases h
        exact Transferred.zero
      rw [circularScatterGatherLoop_succ hlen hb hc he, bind_eq_ok] at h
      obtain ⟨s₁, h₁, hrest⟩ := h
      have hn : min (end_ - cur) len ≤ len := Nat.min_le_right _ _
      -- the round copies up to the end of the buffer, where offsets run on from `cur`
      have hchunk : ∀ k < min (end_ - cur) len, cur + k = circularOffset base end_ cur k :=
        fun k hk => (circularOffset_of_lt hb (by omega)).symm
      have htr₁ := (scatterGatherRw_spec ((hmiss.mono hn).congr fun k hk => (hchunk k hk).symm)
        h₁).congr hchunk
      have hnext := circularOffset_next end_ (min (end_ - cur) len) hb
      have htr₂ := ih (by split <;> omega) (by split <;> omega)
        (hmiss.rest htr₁ hn fun k _ => hnext k) hrest
      exact htr₁.append hmiss htr₂ hn fun k _ => hnext k

/-- From a `cur` inside `[base, end)`, every round copies at least one byte. -/
theorem circularScatterGatherLoop_ne_outOfFuel {fuel ptr cur len : Nat} {s : ApuState}
    (hb : base ≤ cur) (hc : cur < end_) (he : end_ < 2 ^ 32) (hfuel : len ≤ fuel) :
    circularScatterGatherLoop sgeBase maxSge base end_ dir fuel s ptr cur len ≠ .error .outOfFuel := by
  induction fuel generalizing s ptr cur len with
  | zero =>
      rw [Nat.le_zero.mp hfuel, circularScatterGatherLoop_len_zero]
      simp
  | succ fuel ih =>
      rcases Nat.eq_zero_or_pos len with rfl | hlen
      · rw [circularScatterGatherLoop_len_zero]
        simp
      rw [circularScatterGatherLoop_succ hlen hb hc he]
      cases hsg : scatterGatherRw s sgeBase maxSge ptr cur (min (end_ - cur) len) dir with
      | error e =>
          rw [error_bind]
          rintro ⟨⟩
          exact scatterGatherRw_ne_outOfFuel s ptr cur _ hsg
      | ok s₁ =>
          rw [ok_bind]
          exact ih (by split <;> omega) (by split <;> omega) (by omega)

end Loops

/-! ## An empty circular buffer -/

/-- With `base = end` every round from `base` copies nothing, so the loop of
`circular_scatter_gather_rw` never ends. -/
theorem circularScatterGatherLoop_spins {sgeBase maxSge end_ len : Nat} {dir : Bool} (hlen : 0 < len)
    (he : end_ < 2 ^ 32) (s : ApuState) (ptr fuel : Nat) :
    circularScatterGatherLoop sgeBase maxSge end_ end_ dir fuel s ptr end_ len = .error .outOfFuel := by
  induction fuel with
  | zero => exact circularScatterGatherLoop_zero hlen end_
  | succ fuel ih => rw [circularScatterGatherLoop_succ_of_empty hlen he, ih]

end Xqemu.Apu
