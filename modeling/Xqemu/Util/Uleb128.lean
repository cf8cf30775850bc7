import Xqemu.Lib.ByteMemory

/-!
# Small unsigned LEB128 numbers (util/cutils.c)

`uleb128_encode_small` and `uleb128_decode_small` handle the numbers of at
most 14 bits that the xbzrle page encoding uses for its run lengths.  Both are
compared with the general LEB128 encoding `uleb128`: seven bits a byte, lowest
first, every byte but the last with its top bit set.
-/

namespace Xqemu.Util

open Xqemu.Memory

/-- The LEB128 encoding of `n`. -/
def uleb128 (n : Nat) : List UInt8 :=
  if n < 0x80 then [UInt8.ofNat n] else UInt8.ofNat (n % 0x80 + 0x80) :: uleb128 (n / 0x80)
termination_by n
decreasing_by omega

/-- `uleb128_encode_small(out, n)`: the memory with the encoding stored at `a`
and the number of bytes written; `none` is the failed assertion `n <= 0x3fff`. -/
def uleb128EncodeSmall (out : Mem) (a n : Nat) : Option (Mem × Nat) :=
  if n ≤ 0x3fff then
    if n < 0x80 then some (storeBytes out a [UInt8.ofNat n], 1)
    else some (storeBytes out a [UInt8.ofNat (n &&& 0x7f ||| 0x80), UInt8.ofNat (n >>> 7)], 2)
  else none

/-- `uleb128_decode_small(in, &n)`: the number read at `a` and the number of
bytes it takes; `none` is the return value `-1` of a number over 14 bits. -/
def uleb128DecodeSmall (src : Mem) (a : Nat) : Option (Nat × Nat) :=
  if src a &&& 0x80 = 0 then some ((src a).toNat, 1)
  else if src (a + 1) &&& 0x80 ≠ 0 then none
  else some ((src a &&& 0x7f).toNat ||| (src (a + 1)).toNat <<< 7, 2)

theorem uleb128_of_lt {n : Nat} (h : n < 0x80) : uleb128 n = [UInt8.ofNat n] := by
  rw [uleb128, if_pos h]

/-- A number of 8 to 14 bits takes two bytes. -/
theorem uleb128_of_two_bytes {n : Nat} (h₁ : 0x80 ≤ n) (h₂ : n ≤ 0x3fff) :
    uleb128 n = [UInt8.ofNat (n % 0x80 + 0x80), UInt8.ofNat (n / 0x80)] := by
  rw [uleb128, if_neg (by omega), uleb128_of_lt (by omega)]

theorem length_uleb128_pos (n : Nat) : 0 < (uleb128 n).length := by
  rw [uleb128]
  split <;> simp

theorem length_uleb128_le {n : Nat} (h : n ≤ 0x3fff) : (uleb128 n).length ≤ 2 := by
  by_cases hn : n < 0x80
  · simp [uleb128_of_lt hn]
  · simp [uleb128_of_two_bytes (by omega) h]

/-- The bytes of a seven-bit number. -/
theorem seven_bits_byte : ∀ r < 0x80, UInt8.ofNat r &&& 0x80 = 0 ∧ (UInt8.ofNat r).toNat = r := by
  decide

/-- The first byte of a two-byte number: its top bit set above the low seven bits. -/
theorem continued_byte : ∀ r < 0x80, r ||| 0x80 = r + 0x80 ∧
    UInt8.ofNat (r + 0x80) &&& 0x80 ≠ 0 ∧ (UInt8.ofNat (r + 0x80) &&& 0x7f).toNat = r := by
  decide

/-- The encoder stores the LEB128 encoding of every number it accepts. -/
theorem uleb128EncodeSmall_eq (out : Mem) (a : Nat) {n : Nat} (h : n ≤ 0x3fff) :
    uleb128EncodeSmall out a n = some (storeBytes out a (uleb128 n), (uleb128 n).length) := by
  unfold uleb128EncodeSmall
  rw [if_pos h]
  by_cases hn : n < 0x80
  · rw [if_pos hn, uleb128_of_lt hn]
    rfl
  · have hlow : n &&& 0x7f = n % 0x80 := Nat.and_two_pow_sub_one_eq_mod n 7
    have hhigh : n >>> 7 = n / 0x80 := Nat.shiftRight_eq_div_pow n 7
    rw [if_neg hn, uleb128_of_two_bytes (by omega) h, hlow, hhigh,
      (continued_byte (n % 0x80) (Nat.mod_lt n (by omega))).1]
    rfl

/-- The decoder reads back every number of at most 14 bits from its LEB128
encoding. -/
theorem uleb128DecodeSmall_of_bytes {src : Mem} {a n : Nat} (hn : n ≤ 0x3fff)
    (h : bytes src a (uleb128 n).length = uleb128 n) :
    uleb128DecodeSmall src a = some (n, (uleb128 n).length) := by
  unfold uleb128DecodeSmall
  by_cases hsmall : n < 0x80
  · rw [uleb128_of_lt hsmall] at h ⊢
    have hbyte : src a = UInt8.ofNat n := apply_of_bytes_eq h (i := 0) (by simp)
    obtain ⟨hz, hval⟩ := seven_bits_byte n hsmall
    rw [hbyte, if_pos hz, hval]
    rfl
  · rw [uleb128_of_two_bytes (by omega) hn] at h ⊢
    have hb₀ : src a = UInt8.ofNat (n % 0x80 + 0x80) := apply_of_bytes_eq h (i := 0) (by simp)
    have hb₁ : src (a + 1) = UInt8.ofNat (n / 0x80) := apply_of_bytes_eq h (i := 1) (by simp)
    obtain ⟨-, hcont, hlow⟩ := continued_byte (n % 0x80) (Nat.mod_lt n (by omega))
    obtain ⟨hz, hhigh⟩ := seven_bits_byte (n / 0x80) (by omega)
    rw [hb₀, hb₁, if_neg hcont, if_neg (not_not.mpr hz), hlow, hhigh, Nat.lor_comm,
      ← Nat.shiftLeft_add_eq_or_of_lt (Nat.mod_lt n (by omega)), Nat.shiftLeft_eq]
    have hsplit : n / 0x80 * 2 ^ 7 + n % 0x80 = n := by
      have := Nat.div_add_mod n 0x80
      omega
    rw [hsplit]
    rfl

/-- What the encoder writes, the decoder reads back. -/
theorem uleb128DecodeSmall_uleb128EncodeSmall {out out' : Mem} {a n k : Nat}
    (he : uleb128EncodeSmall out a n = some (out', k)) : uleb128DecodeSmall out' a = some (n, k) := by
  have hn : n ≤ 0x3fff := by
    unfold uleb128EncodeSmall at he
    split at he
    · assumption
    · exact absurd he (by simp)
  rw [uleb128EncodeSmall_eq out a hn, Option.some.injEq, Prod.mk.injEq] at he
  obtain ⟨rfl, rfl⟩ := he
  exact uleb128DecodeSmall_of_bytes hn (bytes_storeBytes out a _)

theorem uleb128_roundtrip_three_hundred :
    ∃ r, uleb128EncodeSmall (fun _ => 0) 0 300 = some r ∧ uleb128DecodeSmall r.1 0 = some (300, r.2) :=
  ⟨_, rfl, uleb128DecodeSmall_uleb128EncodeSmall rfl⟩

/-- `bs` is a LEB128 form of `n` in at most two bytes.  LEB128 admits padded forms
such as [0x80, 0], which read as 0, and so does the decoder. -/
inductive ShortLeb128 : List UInt8 → Nat → Prop
  | one {b : UInt8} : b.toNat < 0x80 → ShortLeb128 [b] b.toNat
  | two {b₀ b₁ : UInt8} : 0x80 ≤ b₀.toNat → b₁.toNat < 0x80 →
      ShortLeb128 [b₀, b₁] (b₀.toNat - 0x80 + 0x80 * b₁.toNat)

theorem ShortLeb128.length_pos {bs : List UInt8} {n : Nat} (h : ShortLeb128 bs n) : 0 < bs.length := by
  cases h <;> simp

theorem ShortLeb128.length_le_two {bs : List UInt8} {n : Nat} (h : ShortLeb128 bs n) : bs.length ≤ 2 := by
  cases h <;> simp

/-- The top bit of a byte, as the decoder tests it. -/
theorem top_bit_eq_zero_iff (b : UInt8) : b &&& 0x80 = 0 ↔ b.toNat < 0x80 := by
  have hbyte : ∀ n < 256, n &&& 0x80 = 0 ↔ n < 0x80 := by decide +kernel
  rw [← UInt8.toNat_inj, UInt8.toNat_and]
  exact hbyte _ b.toNat_lt

theorem low_bits_of_top_bit (b : UInt8) (h : 0x80 ≤ b.toNat) : (b &&& 0x7f).toNat = b.toNat - 0x80 := by
  have hbyte : ∀ n < 256, 0x80 ≤ n → n &&& 0x7f = n - 0x80 := by decide +kernel
  rw [UInt8.toNat_and]
  exact hbyte _ b.toNat_lt h

/-- The value of a two-byte number, as the decoder assembles it. -/
theorem two_byte_value {b₀ b₁ : UInt8} (h₀ : 0x80 ≤ b₀.toNat) :
    (b₀ &&& 0x7f).toNat ||| b₁.toNat <<< 7 = b₀.toNat - 0x80 + 0x80 * b₁.toNat := by
  have hlow : (b₀ &&& 0x7f).toNat < 2 ^ 7 := by
    rw [low_bits_of_top_bit b₀ h₀]
    have := b₀.toNat_lt
    omega
  rw [Nat.lor_comm, ← Nat.shiftLeft_add_eq_or_of_lt hlow, Nat.shiftLeft_eq, low_bits_of_top_bit b₀ h₀]
  omega

/-- The decoder reads every short LEB128 form it finds in memory. -/
theorem uleb128DecodeSmall_of_shortLeb128 {src : Mem} {a n : Nat} {bs : List UInt8}
    (h : ShortLeb128 bs n) (hb : bytes src a bs.length = bs) :
    uleb128DecodeSmall src a = some (n, bs.length) := by
  unfold uleb128DecodeSmall
  cases h with
  | one hlt =>
    have hbyte := apply_of_bytes_eq hb (i := 0) (by simp)
    simp only [Nat.add_zero, List.getElem_cons_zero] at hbyte
    rw [hbyte, if_pos ((top_bit_eq_zero_iff _).mpr hlt)]
    rfl
  | two h₀ h₁ =>
    have hbyte₀ := apply_of_bytes_eq hb (i := 0) (by simp)
    have hbyte₁ := apply_of_bytes_eq hb (i := 1) (by simp)
    simp only [Nat.add_zero, List.getElem_cons_zero, List.getElem_cons_succ] at hbyte₀ hbyte₁
    rw [hbyte₀, hbyte₁, if_neg (mt (top_bit_eq_zero_iff _).mp (by omega)),
      if_neg (not_not.mpr ((top_bit_eq_zero_iff _).mpr h₁)), two_byte_value h₀]
    rfl

/-- Whatever the decoder accepts is a short LEB128 form of the number it returns. -/
theorem shortLeb128_of_uleb128DecodeSmall {src : Mem} {a n k : Nat}
    (h : uleb128DecodeSmall src a = some (n, k)) : ShortLeb128 (bytes src a k) n := by
  unfold uleb128DecodeSmall at h
  split_ifs at h with h₀ h₁
  · obtain ⟨rfl, rfl⟩ := Prod.mk.inj (Option.some.inj h)
    exact ShortLeb128.one ((top_bit_eq_zero_iff _).mp h₀)
  · obtain ⟨rfl, rfl⟩ := Prod.mk.inj (Option.some.inj h)
    have hhigh : 0x80 ≤ (src a).toNat := by
      have := mt (top_bit_eq_zero_iff (src a)).mpr h₀
      omega
    rw [two_byte_value hhigh]
    exact ShortLeb128.two hhigh ((top_bit_eq_zero_iff _).mp (not_not.mp h₁))

end Xqemu.Util
