import Xqemu.Util.HostUtils
import Xqemu.Lib.ByteMemory

/-!
# Hierarchical bitmaps (util/hbitmap.c)

An `HBitmap` stacks `HBITMAP_LEVELS` bitmaps of `unsigned long` words.  Bit `r`
of the last level is group `r` of `2^granularity` elements; in every other
level, bit `j` tells whether word `j` of the level below is nonzero.  Word 0 of
level 0 carries a sentinel in its top bit, which ends the climb of the
iterator.

On a 64-bit host `BITS_PER_LONG` is 64, `BITS_PER_LEVEL` 6,
`HBITMAP_LOG_MAX_SIZE` 41 and `HBITMAP_LEVELS` 7; they are written here as
numbers.  A level is a function from word index to word, a word a `Nat` below
`2^64`, and `sizes i` the number of words allocated to level `i`.  The `meta`
pointer of the C structure is passed beside the bitmap (`none` for NULL); a
meta bitmap is made by `hbitmap_alloc` and has no meta bitmap of its own.

Functions return `Except HbFault`: `assertion` is a failed `assert`,
`outOfBounds` a read of a word that is not allocated (made by
`hbitmap_next_zero` before it checks its arguments, and by the iterator's climb
past level 0), and `outOfFuel` the end of the fuel of a loop the C code runs
without a bound.  `uint64_t` arithmetic that can wrap is taken modulo `2^64`,
and the `int64_t` results of the iterator and of `hbitmap_next_zero` are read by
`toSigned 63`.
-/

namespace Xqemu.Util

open Xqemu.Memory Xqemu.TwosComplement

/-- The ways the hbitmap code fails. -/
inductive HbFault where
  | assertion
  | outOfBounds
  | outOfFuel
  deriving DecidableEq, Repr

/-- `struct HBitmap` without its `meta` pointer. -/
structure HBitmap where
  origSize : Nat
  size : Nat
  count : Nat
  granularity : Nat
  levels : Nat → Nat → Nat
  sizes : Nat → Nat

namespace HBitmap

/-- `hb->levels[i][j] = v`. -/
def setWord (hb : HBitmap) (i j v : Nat) : HBitmap :=
  { hb with levels := Function.update hb.levels i (Function.update (hb.levels i) j v) }

/-- Group `r` is set: bit `r` of the last level. -/
def bit (hb : HBitmap) (r : Nat) : Bool := (hb.levels 6 (r / 64)).testBit (r % 64)

end HBitmap

/-! ## Allocation and single bits -/

/-- The loop of `hbitmap_alloc` over the levels `i - 1` down to 0: each level
gets `MAX((size + 63) >> 6, 1)` words of the one below.  Returns the sizes and
the size of level 0. -/
def allocLoop : (i size : Nat) → (Nat → Nat) → (Nat → Nat) × Nat
  | 0, size, sizes => (sizes, size)
  | i + 1, size, sizes =>
      let size := max ((size + 63) >>> 6) 1
      allocLoop i size (Function.update sizes i size)

/-- `hbitmap_alloc(size, granularity)`. -/
def hbitmapAlloc (size granularity : Nat) : Except HbFault HBitmap :=
  if ¬granularity < 64 then throw .assertion
  else
    let n := ((size + (1 <<< granularity) - 1) % 2 ^ 64) >>> granularity
    if ¬n ≤ 1 <<< 41 then throw .assertion
    else
      let r := allocLoop 7 n (fun _ => 0)
      if r.2 ≠ 1 then throw .assertion
      else pure { origSize := size, size := n, count := 0, granularity,
                  levels := fun i j => if i = 0 ∧ j = 0 then 1 <<< 63 else 0, sizes := r.1 }

/-- `hbitmap_get(hb, item)`. -/
def hbitmapGet (hb : HBitmap) (item : Nat) : Except HbFault Bool :=
  let pos := item >>> hb.granularity
  if ¬pos < hb.size then throw .assertion
  else pure (hb.levels 6 (pos >>> 6) &&& (1 <<< (pos &&& 63)) ≠ 0)

/-- `hbitmap_count(hb)`: the number of elements in set groups. -/
def hbitmapCount (hb : HBitmap) : Nat := (hb.count <<< hb.granularity) % 2 ^ 64

/-! ## The iterator -/

/-- `struct HBitmapIter`; the bitmap it walks is passed beside it. -/
structure HBitmapIter where
  pos : Nat
  granularity : Nat
  cur : Nat → Nat

/-- The `do … while (cur == 0)` loop of `hbitmap_iter_skip_words`, up from
level `i` with `pos` the word index there: the level, word index and masked
word where it stops.  Going on from level 0 would read `hbi->cur[-1]`. -/
def skipWordsUp (hb : HBitmap) (hbi : HBitmapIter) : (i pos : Nat) → Except HbFault (Nat × Nat × Nat)
  | 0, _ => throw .outOfBounds
  | i + 1, pos =>
      let cur := hbi.cur i &&& hb.levels i (pos >>> 6)
      if cur = 0 then skipWordsUp hb hbi i (pos >>> 6) else pure (i, pos >>> 6, cur)

/-- The `for (; i < HBITMAP_LEVELS - 1; i++)` loop of `hbitmap_iter_skip_words`,
down from level `i` with `k` turns left: it follows the lowest set bit of `cur`,
keeps the other bits in `hbi->cur[i]` and reads the word below.  Returns the
word index and word reached in the last level, and the cached words. -/
def skipWordsDown (hb : HBitmap) : (k i pos cur : Nat) → (Nat → Nat) → Except HbFault (Nat × Nat × (Nat → Nat))
  | 0, _, pos, cur, c => pure (pos, cur, c)
  | k + 1, i, pos, cur, c =>
      if cur = 0 then throw .assertion
      else
        let pos := (pos <<< 6) + ctz64 cur
        skipWordsDown hb k (i + 1) pos (hb.levels (i + 1) pos) (Function.update c i (cur &&& (cur - 1)))

/-- `hbitmap_iter_skip_words(hbi)`: the next nonzero word of the last level and
the iterator moved to it, or 0 and the iterator unchanged at the end. -/
def hbitmapIterSkipWords (hb : HBitmap) (hbi : HBitmapIter) : Except HbFault (Nat × HBitmapIter) := do
  let (i, pos, cur) ← skipWordsUp hb hbi 6 hbi.pos
  if i = 0 ∧ cur = 1 <<< 63 then pure (0, hbi)
  else do
    let (pos, cur, c) ← skipWordsDown hb (6 - i) i pos cur hbi.cur
    if cur = 0 then throw .assertion
    else pure (cur, { hbi with pos, cur := c })

/-- `hbitmap_iter_next(hbi)`: the first element of the next set group, or -1. -/
def hbitmapIterNext (hb : HBitmap) (hbi : HBitmapIter) : Except HbFault (Int × HBitmapIter) := do
  let cur := hbi.cur 6 &&& hb.levels 6 hbi.pos
  let (cur, hbi) ← (if cur = 0 then hbitmapIterSkipWords hb hbi else pure (cur, hbi))
  if cur = 0 then pure (-1, hbi)
  else
    let item := (hbi.pos <<< 6) + ctz64 cur
    pure (toSigned 63 ((item <<< hbi.granularity) % 2 ^ 64),
      { hbi with cur := Function.update hbi.cur 6 (cur &&& (cur - 1)) })

/-- The loop of `hbitmap_iter_init` over the levels `i - 1` down to 0, with
`pos` the bit index of `first`'s group in level `i - 1`: each cached word drops
the bits before it, and every level but the last also the bit itself. -/
def iterInitLoop (hb : HBitmap) : (i pos : Nat) → (Nat → Nat) → (Nat → Nat)
  | 0, _, cur => cur
  | i + 1, pos, cur =>
      let bit := pos &&& 63
      let w := hb.levels i (pos >>> 6) &&& (((1 <<< bit) - 1) ^^^ (2 ^ 64 - 1))
      let w := if i ≠ 6 then w &&& ((1 <<< bit) ^^^ (2 ^ 64 - 1)) else w
      iterInitLoop hb i (pos >>> 6) (Function.update cur i w)

/-- `hbitmap_iter_init(hbi, hb, first)`. -/
def hbitmapIterInit (hb : HBitmap) (first : Nat) : Except HbFault HBitmapIter :=
  let pos := first >>> hb.granularity
  if ¬pos < hb.size then throw .assertion
  else pure { pos := pos >>> 6, granularity := hb.granularity, cur := iterInitLoop hb 7 pos (fun _ => 0) }

/-- `hbitmap_iter_next_word(hbi, &cur)`: the index of the next nonzero word of
the last level, the word, and the iterator; `(size_t)-1` and 0 at the end. -/
def hbitmapIterNextWord (hb : HBitmap) (hbi : HBitmapIter) : Except HbFault (Nat × Nat × HBitmapIter) := do
  let (cur, hbi) ← (if hbi.cur 6 = 0 then hbitmapIterSkipWords hb hbi else pure (hbi.cur 6, hbi))
  if cur = 0 then pure (2 ^ 64 - 1, 0, hbi)
  else pure (hbi.pos, cur, { hbi with cur := Function.update hbi.cur 6 0 })

/-- The `for (;;)` loop of `hb_count_between`, `fuel` turns at most: the word
index where it stopped, the word there and the count so far. -/
def countBetweenLoop (hb : HBitmap) (endPos : Nat) :
    (fuel : Nat) → HBitmapIter → Nat → Except HbFault (Nat × Nat × Nat)
  | 0, _, _ => throw .outOfFuel
  | fuel + 1, hbi, count => do
      let (pos, cur, hbi) ← hbitmapIterNextWord hb hbi
      if pos ≥ endPos then pure (pos, cur, count)
      else countBetweenLoop hb endPos fuel hbi (count + ctpop64 cur)

/-- `hb_count_between(hb, start, last)`: the set groups from `start` to `last`.
Each turn of the loop moves to a later word of the last level, so
`sizes[HBITMAP_LEVELS - 1] + 1` turns are enough. -/
def hbCountBetween (hb : HBitmap) (start last : Nat) : Except HbFault Nat := do
  let e := (last + 1) % 2 ^ 64
  let hbi ← hbitmapIterInit hb ((start <<< hb.granularity) % 2 ^ 64)
  let (pos, cur, count) ← countBetweenLoop hb (e >>> 6) (hb.sizes 6 + 1) hbi 0
  if pos = e >>> 6 then pure (count + ctpop64 (cur &&& ((1 <<< (e &&& 63)) - 1)))
  else pure count

/-! ## Setting and resetting -/

/-- `mask = 2UL << (last & 63); mask -= 1UL << (start & 63)` of `hb_set_elem`
and `hb_reset_elem`. -/
def elemMask (start last : Nat) : Nat :=
  ((2 <<< (last &&& 63)) % 2 ^ 64 + 2 ^ 64 - (1 <<< (start &&& 63))) % 2 ^ 64

/-- `hb_set_elem(elem, start, last)`: the new word, and whether it changed. -/
def hbSetElem (elem start last : Nat) : Except HbFault (Nat × Bool) :=
  if last >>> 6 ≠ start >>> 6 then throw .assertion
  else if ¬start ≤ last then throw .assertion
  else pure (elem ||| elemMask start last, elem != (elem ||| elemMask start last))

/-- The `for (;;)` loop of `hb_set_between` on the words `w` of a level, `k`
turns at most: `start` moves on to `next`, and each word before `lastpos` is set
to all ones, `changed` if it was zero.  Returns the words, the word index it
stopped at, `start` and `changed`. -/
def setBetweenLoop (lastpos : Nat) : (k : Nat) → (Nat → Nat) → (i start next : Nat) → Bool →
    (Nat → Nat) × Nat × Nat × Bool
  | 0, w, i, start, _, changed => (w, i, start, changed)
  | k + 1, w, i, start, next, changed =>
      if i + 1 = lastpos then (w, i + 1, start, changed)
      else setBetweenLoop lastpos k (Function.update w (i + 1) (2 ^ 64 - 1)) (i + 1) next (next + 64)
        (changed || w (i + 1) == 0)

/-- `hb_set_between` on one level, before it goes up: the bitmap and `changed`. -/
def hbSetLevel (hb : HBitmap) (level start last : Nat) : Except HbFault (HBitmap × Bool) := do
  let pos := start >>> 6
  let lastpos := last >>> 6
  let (hb, i, start, changed) ← (if pos < lastpos then do
      let next := (start ||| 63) + 1
      let (e, c) ← hbSetElem (hb.levels level pos) start (next - 1)
      let r := setBetweenLoop lastpos (lastpos - pos) (Function.update (hb.levels level) pos e) pos next
        (next + 64) c
      pure ({ hb with levels := Function.update hb.levels level r.1 }, r.2.1, r.2.2.1, r.2.2.2)
    else pure (hb, pos, start, false))
  let (e, c) ← hbSetElem (hb.levels level i) start last
  pure (hb.setWord level i e, changed || c)

/-- `hb_set_between(hb, level, start, last)`: a change in a level is carried to
the bits `start >> 6 … last >> 6` of the level above. -/
def hbSetBetween : Nat → HBitmap → Nat → Nat → Except HbFault (HBitmap × Bool)
  | 0, hb, start, last => hbSetLevel hb 0 start last
  | level + 1, hb, start, last => do
      let (hb, changed) ← hbSetLevel hb (level + 1) start last
      if changed then do
        let (hb, _) ← hbSetBetween level hb (start >>> 6) (last >>> 6)
        pure (hb, changed)
      else pure (hb, changed)

/-- `hbitmap_set(hb, start, count)` up to the update of `hb->meta`: the bitmap,
and the value of `hb_set_between` that decides whether the meta bitmap is set. -/
def hbitmapSetOwn (hb : HBitmap) (start count : Nat) : Except HbFault (HBitmap × Bool) := do
  let last := (start + count + 2 ^ 64 - 1) % 2 ^ 64
  let first := start >>> hb.granularity
  let last := last >>> hb.granularity
  if ¬last < hb.size then throw .assertion
  else do
    let n := (last + 2 ^ 64 - first + 1) % 2 ^ 64
    let c ← hbCountBetween hb first last
    hbSetBetween 6 { hb with count := (hb.count + (n + 2 ^ 64 - c) % 2 ^ 64) % 2 ^ 64 } first last

/-- `hbitmap_set(hb, start, count)`, with `mb` for `hb->meta`. -/
def hbitmapSet (hb : HBitmap) (mb : Option HBitmap) (start count : Nat) :
    Except HbFault (HBitmap × Option HBitmap) := do
  let (hb, changed) ← hbitmapSetOwn hb start count
  match mb with
  | some m =>
      if changed then do
        let (m, _) ← hbitmapSetOwn m start count
        pure (hb, some m)
      else pure (hb, mb)
  | none => pure (hb, none)

/-- `hb_reset_elem(elem, start, last)`: the new word, and whether a nonzero
word became zero. -/
def hbResetElem (elem start last : Nat) : Except HbFault (Nat × Bool) :=
  if last >>> 6 ≠ start >>> 6 then throw .assertion
  else if ¬start ≤ last then throw .assertion
  else
    let kept := elem &&& (elemMask start last ^^^ (2 ^ 64 - 1))
    pure (kept, elem != 0 && kept == 0)

/-- The `for (;;)` loop of `hb_reset_between`: as `setBetweenLoop`, clearing
the words, `changed` if one was nonzero. -/
def resetBetweenLoop (lastpos : Nat) : (k : Nat) → (Nat → Nat) → (i start next : Nat) → Bool →
    (Nat → Nat) × Nat × Nat × Bool
  | 0, w, i, start, _, changed => (w, i, start, changed)
  | k + 1, w, i, start, next, changed =>
      if i + 1 = lastpos then (w, i + 1, start, changed)
      else resetBetweenLoop lastpos k (Function.update w (i + 1) 0) (i + 1) next (next + 64)
        (changed || w (i + 1) != 0)

/-- `hb_reset_between` on one level, before it goes up: the bitmap, `changed`,
and `pos`, `lastpos` for the level above, where a word that kept some bits is
dropped from the range. -/
def hbResetLevel (hb : HBitmap) (level start last : Nat) : Except HbFault (HBitmap × Bool × Nat × Nat) := do
  let pos := start >>> 6
  let lastpos := last >>> 6
  let (hb, i, start, changed, pos) ← (if pos < lastpos then do
      let next := (start ||| 63) + 1
      let (e, blanked) ← hbResetElem (hb.levels level pos) start (next - 1)
      let r := resetBetweenLoop lastpos (lastpos - pos) (Function.update (hb.levels level) pos e) pos next
        (next + 64) blanked
      pure ({ hb with levels := Function.update hb.levels level r.1 }, r.2.1, r.2.2.1, r.2.2.2,
        if blanked then pos else pos + 1)
    else pure (hb, pos, start, false, pos))
  let (e, blanked) ← hbResetElem (hb.levels level i) start last
  pure (hb.setWord level i e, changed || blanked, pos,
    if blanked then lastpos else (lastpos + 2 ^ 64 - 1) % 2 ^ 64)

/-- `hb_reset_between(hb, level, start, last)`. -/
def hbResetBetween : Nat → HBitmap → Nat → Nat → Except HbFault (HBitmap × Bool)
  | 0, hb, start, last => do
      let (hb, changed, _, _) ← hbResetLevel hb 0 start last
      pure (hb, changed)
  | level + 1, hb, start, last => do
      let (hb, changed, pos, lastpos) ← hbResetLevel hb (level + 1) start last
      if changed then do
        let (hb, _) ← hbResetBetween level hb pos lastpos
        pure (hb, changed)
      else pure (hb, changed)

/-- `hbitmap_reset(hb, start, count)` up to the update of `hb->meta`. -/
def hbitmapResetOwn (hb : HBitmap) (start count : Nat) : Except HbFault (HBitmap × Bool) := do
  let last := (start + count + 2 ^ 64 - 1) % 2 ^ 64
  let first := start >>> hb.granularity
  let last := last >>> hb.granularity
  if ¬last < hb.size then throw .assertion
  else do
    let c ← hbCountBetween hb first last
    hbResetBetween 6 { hb with count := (hb.count + 2 ^ 64 - c) % 2 ^ 64 } first last

/-- `hbitmap_reset(hb, start, count)`, with `mb` for `hb->meta`: a reported
change sets the range in the meta bitmap. -/
def hbitmapReset (hb : HBitmap) (mb : Option HBitmap) (start count : Nat) :
    Except HbFault (HBitmap × Option HBitmap) := do
  let (hb, changed) ← hbitmapResetOwn hb start count
  match mb with
  | some m =>
      if changed then do
        let (m, _) ← hbitmapSetOwn m start count
        pure (hb, some m)
      else pure (hb, mb)
  | none => pure (hb, none)

/-- `hbitmap_reset_all(hb)`: the levels 6 down to 1 are cleared and level 0
gets back its sentinel alone. -/
def hbitmapResetAll (hb : HBitmap) : HBitmap :=
  { hb with
    levels := fun i j =>
      if i = 0 ∧ j = 0 then 1 <<< 63 else if 1 ≤ i ∧ i ≤ 6 ∧ j < hb.sizes i then 0 else hb.levels i j
    count := 0 }

/-! ## Searching -/

/-- A read of `hb->levels[HBITMAP_LEVELS - 1][pos]` that faults past the
allocated words. -/
def readLastLevel (hb : HBitmap) (pos : Nat) : Except HbFault Nat :=
  if pos < hb.sizes 6 then pure (hb.levels 6 pos) else throw .outOfBounds

/-- The `do { pos++; } while (pos < sz && last_lev[pos] == (unsigned long)-1)`
loop of `hbitmap_next_zero`, `fuel` turns at most. -/
def skipFullWords (hb : HBitmap) (sz : Nat) : (fuel pos : Nat) → Except HbFault Nat
  | 0, _ => throw .outOfFuel
  | fuel + 1, pos =>
      if pos + 1 < sz then do
        let w ← readLastLevel hb (pos + 1)
        if w = 2 ^ 64 - 1 then skipFullWords hb sz fuel (pos + 1) else pure (pos + 1)
      else pure (pos + 1)

/-- The end of `hbitmap_next_zero` from the word `cur` at `pos`: the first zero
bit, unless it is at or past `end_bit`, scaled to elements and clamped to
`start` inside its group. -/
def nextZeroTail (granularity start endBit pos cur : Nat) : Except HbFault Int :=
  let res := (pos <<< 6) + cto64 cur
  if res ≥ endBit then pure (-1)
  else
    let res := (res <<< granularity) % 2 ^ 64
    if res < start then
      if (start - res) >>> granularity ≠ 0 then throw .assertion else pure (toSigned 63 start)
    else pure (toSigned 63 res)

/-- `hbitmap_next_zero(hb, start, count)`.  The word at `start` is read when the
local variables are initialised, before `start` is checked. -/
def hbitmapNextZero (hb : HBitmap) (start count : Nat) : Except HbFault Int := do
  let pos := (start >>> hb.granularity) >>> 6
  let cur ← readLastLevel hb pos
  if start ≥ hb.origSize ∨ count = 0 then pure (-1)
  else
    let endBit := if count > hb.origSize - start then hb.size
      else (((start + count + 2 ^ 64 - 1) % 2 ^ 64) >>> hb.granularity) + 1
    let sz := (endBit + 63) >>> 6
    let cur := cur ||| ((1 <<< ((start >>> hb.granularity) &&& 63)) - 1)
    if ¬(start >>> hb.granularity) < hb.size then throw .assertion
    else if cur = 2 ^ 64 - 1 then do
      let pos ← skipFullWords hb sz sz pos
      if pos ≥ sz then pure (-1)
      else do
        let cur ← readLastLevel hb pos
        nextZeroTail hb.granularity start endBit pos cur
    else nextZeroTail hb.granularity start endBit pos cur

/-- `hbitmap_next_dirty_area(hb, &start, &count)`: the return value and `*start`,
`*count` after. -/
def hbitmapNextDirtyArea (hb : HBitmap) (start count : Nat) : Except HbFault (Bool × Nat × Nat) :=
  if start ≥ hb.origSize ∨ count = 0 then pure (false, start, count)
  else do
    let e := if count > hb.origSize - start then hb.origSize else start + count
    let hbi ← hbitmapIterInit hb start
    let (firtDirtyOff, _) ← hbitmapIterNext hb hbi
    if firtDirtyOff < 0 ∨ firtDirtyOff.toNat ≥ e then pure (false, start, count)
    else do
      let f := firtDirtyOff.toNat
      let granularity := (1 <<< hb.granularity) % 2 ^ 32
      let areaEnd ← (if f + granularity ≥ e then pure (toSigned 63 e)
        else do
          let a ← hbitmapNextZero hb (f + granularity) (e - f - granularity)
          pure (if a < 0 then toSigned 63 e else a))
      let start := if f > start then f else start
      pure (true, start, ((areaEnd - start) % 2 ^ 64).toNat)

/-! ## Resizing and merging -/

/-- `ROUND_UP(n, d)` of osdep.h, in `uint64_t`. -/
def roundUp (n d : Nat) : Nat := ((n + d - 1) % 2 ^ 64) &&& ((2 ^ 64 - d) % 2 ^ 64)

/-- The loop of `hbitmap_truncate` over the levels `i - 1` down to 0: each gets
`MAX(BITS_TO_LONGS(size), 1)` words, until one already has that many; the words
a level gains are zeroed.  `g_realloc` to fewer words leaves the words past the
end unreachable, and they stay in the function. -/
def truncateLoop (shrink : Bool) : (i size : Nat) → HBitmap → HBitmap
  | 0, _, hb => hb
  | i + 1, size, hb =>
      let size := max ((size + 63) / 64) 1
      if hb.sizes i = size then hb
      else
        let old := hb.sizes i
        let hb := { hb with sizes := Function.update hb.sizes i size }
        let hb := if shrink then hb
          else { hb with levels := (Function.update hb.levels i
                  (fun j => if old ≤ j ∧ j < size then 0 else hb.levels i j)) }
        truncateLoop shrink i size hb

/-- `hbitmap_truncate(hb, size)` up to the truncation of `hb->meta`: the bitmap,
the meta bitmap (set by the reset of the groups that go), and whether the
bitmap changed size, which is when the meta bitmap is truncated too. -/
def hbitmapTruncateOwn (hb : HBitmap) (mb : Option HBitmap) (size : Nat) :
    Except HbFault (HBitmap × Option HBitmap × Bool) :=
  let numElements := size
  let size := ((size + (1 <<< hb.granularity) - 1) % 2 ^ 64) >>> hb.granularity
  if ¬size ≤ 1 <<< 41 then throw .assertion
  else if size = hb.size then pure (hb, mb, false)
  else do
    let shrink := decide (size < hb.size)
    let (hb, mb) ← (if shrink then do
        let start := roundUp numElements (1 <<< hb.granularity)
        let fixCount := ((hb.size <<< hb.granularity) % 2 ^ 64 + 2 ^ 64 - start) % 2 ^ 64
        if fixCount = 0 then throw .assertion else hbitmapReset hb mb start fixCount
      else pure (hb, mb))
    pure (truncateLoop shrink 7 size { hb with size }, mb, true)

/-- `hbitmap_truncate(hb, size)`, with `mb` for `hb->meta`. -/
def hbitmapTruncate (hb : HBitmap) (mb : Option HBitmap) (size : Nat) :
    Except HbFault (HBitmap × Option HBitmap) := do
  let (hb, mb, resized) ← hbitmapTruncateOwn hb mb size
  match mb with
  | some m =>
      if resized then do
        let (m, _, _) ← hbitmapTruncateOwn m none ((hb.size <<< hb.granularity) % 2 ^ 64)
        pure (hb, some m)
      else pure (hb, mb)
  | none => pure (hb, none)

/-- `hbitmap_can_merge(a, b)`. -/
def hbitmapCanMerge (a b : HBitmap) : Bool := a.size == b.size && a.granularity == b.granularity

/-- `hbitmap_merge(a, b, result)`: the return value and `result` after.  Each
word of `result` is written from the words of `a` and `b` at the same place
alone, so the function of the three values also describes the calls where
`result` is `a` or `b`. -/
def hbitmapMerge (a b result : HBitmap) : Except HbFault (Bool × HBitmap) :=
  if !hbitmapCanMerge a b || !hbitmapCanMerge a result then pure (false, result)
  else if !hbitmapCanMerge b result then throw .assertion
  else if hbitmapCount b = 0 then pure (true, result)
  else do
    let result := { result with
      levels := fun i j => if i ≤ 6 ∧ j < a.sizes i then a.levels i j ||| b.levels i j else result.levels i j }
    let c ← hbCountBetween result 0 ((result.size + 2 ^ 64 - 1) % 2 ^ 64)
    pure (true, { result with count := c })

/-- `hbitmap_create_meta(hb, chunk_size)`: the meta bitmap, one bit for each
`chunk_size` groups. -/
def hbitmapCreateMeta (hb : HBitmap) (mb : Option HBitmap) (chunkSize : Nat) : Except HbFault HBitmap :=
  if chunkSize &&& (chunkSize - 1) ≠ 0 then throw .assertion
  else if mb.isSome then throw .assertion
  else hbitmapAlloc ((hb.size <<< hb.granularity) % 2 ^ 64) (hb.granularity + ctz32 chunkSize)

/-! ## Serialization -/

/-- `hbitmap_serialization_align(hb)`. -/
def hbitmapSerializationAlign (hb : HBitmap) : Except HbFault Nat :=
  if hb.granularity < 58 then pure ((64 <<< hb.granularity) % 2 ^ 64) else throw .assertion

/-- `serialization_chunk(hb, start, count, &first_el, &el_count)`: the first
word of the last level and the number of words. -/
def serializationChunk (hb : HBitmap) (start count : Nat) : Except HbFault (Nat × Nat) := do
  let last := (start + count + 2 ^ 64 - 1) % 2 ^ 64
  let gran ← hbitmapSerializationAlign hb
  if start &&& (gran - 1) ≠ 0 then throw .assertion
  else if ¬(last >>> hb.granularity) < hb.size then throw .assertion
  else if last >>> hb.granularity ≠ (hb.size + 2 ^ 64 - 1) % 2 ^ 64 ∧ count &&& (gran - 1) ≠ 0 then
    throw .assertion
  else
    let first := (start >>> hb.granularity) >>> 6
    pure (first, ((last >>> hb.granularity) >>> 6) - first + 1)

/-- `hbitmap_serialization_size(hb, start, count)`. -/
def hbitmapSerializationSize (hb : HBitmap) (start count : Nat) : Except HbFault Nat :=
  if count = 0 then pure 0
  else do
    let (_, elCount) ← serializationChunk hb start count
    pure (elCount * 8)

/-- The copy loop of `hbitmap_serialize_part`: `k` words of the last level from
word `cur`, stored little-endian from byte `b` of the buffer. -/
def serializeWords (hb : HBitmap) : (k : Nat) → (buf : Mem) → (b cur : Nat) → Mem
  | 0, buf, _, _ => buf
  | k + 1, buf, b, cur => serializeWords hb k (stqLe buf b (hb.levels 6 cur)) (b + 8) (cur + 1)

/-- `hbitmap_serialize_part(hb, buf, start, count)`. -/
def hbitmapSerializePart (hb : HBitmap) (buf : Mem) (start count : Nat) : Except HbFault Mem :=
  if count = 0 then pure buf
  else do
    let (first, elCount) ← serializationChunk hb start count
    pure (serializeWords hb elCount buf 0 first)

/-- The copy loop of `hbitmap_deserialize_part`: `k` little-endian words from
byte `b` of the buffer into the words `w` of the last level from `cur`. -/
def deserializeWords (buf : Mem) : (k b cur : Nat) → (Nat → Nat) → (Nat → Nat)
  | 0, _, _, w => w
  | k + 1, b, cur, w => deserializeWords buf k (b + 8) (cur + 1) (Function.update w cur (loadLe buf b 8))

/-- The loop over `i < prev_size` of `hbitmap_deserialize_finish` from `i`, `k`
turns: bit `i` of the words `w` is set for each nonzero word `i` of `lower`. -/
def finishLevelLoop (lower : Nat → Nat) : (k i : Nat) → (Nat → Nat) → (Nat → Nat)
  | 0, _, w => w
  | k + 1, i, w =>
      finishLevelLoop lower k (i + 1)
        (if lower i ≠ 0 then Function.update w (i >>> 6) (w (i >>> 6) ||| (1 <<< (i &&& 63))) else w)

/-- The loop of `hbitmap_deserialize_finish` over the levels `lev - 1` down to
0, `size` words in level `lev`: each level is cleared and rebuilt from the one
below. -/
def finishLoop : (lev size : Nat) → (Nat → Nat → Nat) → (Nat → Nat → Nat)
  | 0, _, levels => levels
  | lev + 1, size, levels =>
      let newSize := max ((size + 63) >>> 6) 1
      let cleared := fun j => if j < newSize then 0 else levels lev j
      finishLoop lev newSize (Function.update levels lev (finishLevelLoop (levels (lev + 1)) size 0 cleared))

/-- `hbitmap_deserialize_finish(hb)`: the upper levels rebuilt from the last
one, the sentinel put back, and `count` recomputed. -/
def hbitmapDeserializeFinish (hb : HBitmap) : Except HbFault HBitmap := do
  let levels := finishLoop 6 (max ((hb.size + 63) >>> 6) 1) hb.levels
  let hb := { hb with levels := Function.update levels 0 (Function.update (levels 0) 0 (levels 0 0 ||| (1 <<< 63))) }
  let c ← hbCountBetween hb 0 ((hb.size + 2 ^ 64 - 1) % 2 ^ 64)
  pure { hb with count := c }

/-- `hbitmap_deserialize_part(hb, buf, start, count, finish)`. -/
def hbitmapDeserializePart (hb : HBitmap) (buf : Mem) (start count : Nat) (finish : Bool) :
    Except HbFault HBitmap :=
  if count = 0 then pure hb
  else do
    let (first, elCount) ← serializationChunk hb start count
    let hb := { hb with levels := Function.update hb.levels 6 (deserializeWords buf elCount 0 first (hb.levels 6)) }
    if finish then hbitmapDeserializeFinish hb else pure hb

/-- The `memset` of `hbitmap_deserialize_zeroes` and `hbitmap_deserialize_ones`
over a chunk, with the word `fill`. -/
def hbitmapDeserializeFill (fill : Nat) (hb : HBitmap) (start count : Nat) (finish : Bool) :
    Except HbFault HBitmap :=
  if count = 0 then pure hb
  else do
    let (first, elCount) ← serializationChunk hb start count
    let hb := { hb with levels := (Function.update hb.levels 6
      (fun j => if first ≤ j ∧ j < first + elCount then fill else hb.levels 6 j)) }
    if finish then hbitmapDeserializeFinish hb else pure hb

/-- `hbitmap_deserialize_zeroes(hb, start, count, finish)`. -/
def hbitmapDeserializeZeroes (hb : HBitmap) (start count : Nat) (finish : Bool) : Except HbFault HBitmap :=
  hbitmapDeserializeFill 0 hb start count finish

/-- `hbitmap_deserialize_ones(hb, start, count, finish)`. -/
def hbitmapDeserializeOnes (hb : HBitmap) (start count : Nat) (finish : Bool) : Except HbFault HBitmap :=
  hbitmapDeserializeFill (2 ^ 64 - 1) hb start count finish

end Xqemu.Util
