import Mathlib.Data.Nat.Bitwise

/-!
# Byte-addressed memories

A host pointer into a guest RAM block is an offset into a total byte memory.
Little-endian loads and stores of `n` bytes (`ldl_le_p`, `stl_le_p`,
`stq_le_p`) are `loadLe` and `storeLe`.  The lemmas are the frame and
agreement facts the device models need: a store touches exactly its own
`n` bytes, and a load only sees its own `n` bytes.  `memcpy` and `bytes`
(the list of bytes a reader takes from a range) serve the buffers a device
builds on the host side.
-/

namespace Xqemu.Memory

/-- A byte-addressed memory. -/
abbrev Mem := Nat → UInt8

/-- Two memories agree on the half-open range `[a, a + n)`. -/
def AgreeOn (m m' : Mem) (a n : Nat) : Prop :=
  ∀ x, a ≤ x → x < a + n → m x = m' x

/-- The little-endian value of the `n` bytes at `a`. -/
def loadLe (m : Mem) (a : Nat) : Nat → Nat
  | 0 => 0
  | n + 1 => (m a).toNat + 256 * loadLe m (a + 1) n

/-- `ldl_le_p`: the little-endian 32-bit word at `a`. -/
def ldlLe (m : Mem) (a : Nat) : Nat :=
  loadLe m a 4

/-- Store the low `n` bytes of `v` little-endian at `a`. -/
def storeLe (m : Mem) (a n v : Nat) : Mem :=
  fun x => if a ≤ x ∧ x < a + n then UInt8.ofNat (v / 256 ^ (x - a)) else m x

/-- `stl_le_p`: store a 32-bit word. -/
def stlLe (m : Mem) (a v : Nat) : Mem :=
  storeLe m a 4 v

/-- `stq_le_p`: store a 64-bit word. -/
def stqLe (m : Mem) (a v : Nat) : Mem :=
  storeLe m a 8 v

theorem storeLe_of_lt {m : Mem} {a n x : Nat} (v : Nat) (hx : x < a) :
    storeLe m a n v x = m x := by
  simp [storeLe, show ¬ a ≤ x by omega]

theorem storeLe_of_ge {m : Mem} {a n x : Nat} (v : Nat) (hx : a + n ≤ x) :
    storeLe m a n v x = m x := by
  simp [storeLe, show ¬ x < a + n by omega]

theorem storeLe_of_mem {m : Mem} {a n x : Nat} (v : Nat) (h₁ : a ≤ x) (h₂ : x < a + n) :
    storeLe m a n v x = UInt8.ofNat (v / 256 ^ (x - a)) := by
  simp [storeLe, h₁, h₂]

/-- A load only reads its own bytes. -/
theorem loadLe_congr {m m' : Mem} {a n : Nat} (h : AgreeOn m m' a n) :
    loadLe m a n = loadLe m' a n := by
  induction n generalizing a with
  | zero => rfl
  | succ n ih =>
      have hhead : m a = m' a := h a (Nat.le_refl a) (by omega)
      have htail : AgreeOn m m' (a + 1) n := by
        intro x hx₁ hx₂
        exact h x (by omega) (by omega)
      simp only [loadLe, hhead, ih htail]

/-- A load of bytes that a store does not touch. -/
theorem loadLe_storeLe_of_disjoint {m : Mem} {a n b k : Nat} (v : Nat) (h : a + n ≤ b ∨ b + k ≤ a) :
    loadLe (storeLe m a n v) b k = loadLe m b k := by
  apply loadLe_congr
  intro x hx₁ hx₂
  rcases h with h | h
  · exact storeLe_of_ge v (by omega)
  · exact storeLe_of_lt v (by omega)

/-- A load of exactly the bytes of a store reads the stored value back. -/
theorem loadLe_storeLe_self (m : Mem) (a n v : Nat) : loadLe (storeLe m a n v) a n = v % 256 ^ n := by
  induction n generalizing a v with
  | zero => simp [loadLe, Nat.mod_one]
  | succ n ih =>
      -- the bytes after the first are the store of `v / 256` one byte on
      have htail : AgreeOn (storeLe m a (n + 1) v) (storeLe m (a + 1) n (v / 256)) (a + 1) n := by
        intro x hx₁ hx₂
        rw [storeLe_of_mem v (by omega) (by omega), storeLe_of_mem (v / 256) hx₁ hx₂,
          Nat.div_div_eq_div_mul, show x - a = x - (a + 1) + 1 by omega, Nat.pow_succ, Nat.mul_comm]
      rw [loadLe, loadLe_congr htail, ih, storeLe_of_mem v (Nat.le_refl a) (by omega), Nat.sub_self,
        Nat.pow_zero, Nat.div_one, UInt8.toNat_ofNat', show (2 : Nat) ^ 8 = 256 from rfl,
        Nat.pow_succ' (m := 256), Nat.mod_mul]

/-- `memcpy(dst + d, src + s, n)`. -/
def memcpy (dst : Mem) (d : Nat) (src : Mem) (s n : Nat) : Mem :=
  fun x => if d ≤ x ∧ x < d + n then src (s + (x - d)) else dst x

/-- Store the bytes `bs` at `a`. -/
def storeBytes (m : Mem) (a : Nat) (bs : List UInt8) : Mem :=
  fun x => if a ≤ x ∧ x < a + bs.length then bs.getD (x - a) 0 else m x

/-- The memory seen through a pointer to `a`. -/
def shift (m : Mem) (a : Nat) : Mem :=
  fun i => m (a + i)

@[simp] theorem shift_zero (m : Mem) : shift m 0 = m := by
  funext i
  simp [shift]

/-- The `n` bytes at `a`, in order. -/
def bytes (m : Mem) (a n : Nat) : List UInt8 :=
  (List.range n).map fun i => m (a + i)

theorem memcpy_of_not_mem {dst src : Mem} {d s n x : Nat} (hx : ¬(d ≤ x ∧ x < d + n)) :
    memcpy dst d src s n x = dst x := by
  simp only [memcpy, if_neg hx]

theorem memcpy_of_mem {dst src : Mem} {d s n x : Nat} (h₁ : d ≤ x) (h₂ : x < d + n) :
    memcpy dst d src s n x = src (s + (x - d)) := by
  simp [memcpy, h₁, h₂]

theorem length_bytes (m : Mem) (a n : Nat) : (bytes m a n).length = n := by
  simp [bytes]

theorem getElem_bytes (m : Mem) (a n i : Nat) (h : i < (bytes m a n).length) :
    (bytes m a n)[i] = m (a + i) := by
  simp [bytes]

theorem AgreeOn.mono {m m' : Mem} {a n a' n' : Nat} (h : AgreeOn m m' a n) (ha : a ≤ a')
    (hn : a' + n' ≤ a + n) : AgreeOn m m' a' n' :=
  fun x hx hx' => h x (by omega) (by omega)

/-- A write past a range leaves the range as it was. -/
theorem agreeOn_update_of_le {m : Mem} {a n p : Nat} (v : UInt8) (h : a + n ≤ p) :
    AgreeOn m (Function.update m p v) a n :=
  fun x _ hx => (Function.update_of_ne (show x ≠ p by omega) _ _).symm

theorem agreeOn_shift {m m' : Mem} {a n : Nat} (h : AgreeOn m m' a n) :
    AgreeOn (shift m a) (shift m' a) 0 n :=
  fun x _ hx => h (a + x) (by omega) (by omega)

/-- A reader of a range only sees that range. -/
theorem bytes_congr {m m' : Mem} {a n : Nat} (h : AgreeOn m m' a n) :
    bytes m a n = bytes m' a n := by
  unfold bytes
  refine List.map_congr_left fun i hi => h (a + i) (by omega) ?_
  have := List.mem_range.mp hi
  omega

/-- Steps of a fold that each leave byte `x` alone leave it alone together. -/
theorem foldl_apply_of_forall {β : Type*} {step : Mem → β → Mem} {x : Nat}
    (ws : List β) (hstep : ∀ w ∈ ws, ∀ m, step m w x = m x) (m : Mem) :
    ws.foldl step m x = m x := by
  induction ws generalizing m with
  | nil => rfl
  | cons w ws ih =>
      rw [List.foldl_cons, ih (fun w' hw' => hstep w' (List.mem_cons_of_mem w hw')),
        hstep w List.mem_cons_self]

/-- A byte that every write of a fold of copies either misses or sets to `v`,
and that some write covers, ends as `v`: the writes need not be disjoint. -/
theorem foldl_memcpy_apply {β : Type*} {dest srcOf : β → Nat} {src : Mem} {n x : Nat} {v : UInt8}
    (ws : List β)
    (hws : ∀ w ∈ ws, dest w ≤ x ∧ x < dest w + n → src (srcOf w + (x - dest w)) = v)
    (hcover : ∃ w ∈ ws, dest w ≤ x ∧ x < dest w + n) (m : Mem) :
    ws.foldl (fun buf w => memcpy buf (dest w) src (srcOf w) n) m x = v := by
  induction ws generalizing m with
  | nil => simp at hcover
  | cons w ws ih =>
      rw [List.foldl_cons]
      by_cases hlater : ∃ w' ∈ ws, dest w' ≤ x ∧ x < dest w' + n
      · exact ih (fun w' hw' => hws w' (List.mem_cons_of_mem w hw')) hlater _
      · -- no later write covers `x`, so the head write is the one that does
        simp only [not_exists, not_and, Nat.not_lt] at hlater
        have hhead : dest w ≤ x ∧ x < dest w + n := by
          obtain ⟨w', hw', hcov⟩ := hcover
          rcases List.mem_cons.mp hw' with rfl | hw'
          · exact hcov
          · exact absurd hcov.2 (Nat.not_lt.mpr (hlater w' hw' hcov.1))
        rw [foldl_apply_of_forall ws
          (fun w' hw' m' => memcpy_of_not_mem fun h => Nat.not_lt.mpr (hlater w' hw' h.1) h.2),
          memcpy_of_mem hhead.1 hhead.2]
        exact hws w List.mem_cons_self hhead

theorem loadLe_lt (m : Mem) (a n : Nat) : loadLe m a n < 256 ^ n := by
  induction n generalizing a with
  | zero => simp [loadLe]
  | succ n ih =>
      have hb : (m a).toNat < 256 := (m a).toNat_lt
      have hr := ih (a + 1)
      rw [loadLe, Nat.pow_succ]
      omega

/-- Byte `k` of a load is the byte stored at `a + k`. -/
theorem loadLe_byte (m : Mem) {a n k : Nat} (hk : k < n) :
    loadLe m a n / 256 ^ k % 256 = (m (a + k)).toNat := by
  induction n generalizing a k with
  | zero => omega
  | succ n ih =>
      have hb : (m a).toNat < 256 := (m a).toNat_lt
      cases k with
      | zero =>
          rw [loadLe, Nat.pow_zero, Nat.div_one, Nat.add_mul_mod_self_left, Nat.mod_eq_of_lt hb,
            Nat.add_zero]
      | succ k =>
          have hdiv : ((m a).toNat + 256 * loadLe m (a + 1) n) / 256 = loadLe m (a + 1) n := by omega
          rw [loadLe, Nat.pow_succ, Nat.mul_comm (256 ^ k) 256, ← Nat.div_div_eq_div_mul, hdiv,
            ih (by omega), Nat.add_right_comm, Nat.add_assoc]

/-- Two loads are equal just when the bytes they read are. -/
theorem loadLe_eq_iff {m m' : Mem} {a n : Nat} :
    loadLe m a n = loadLe m' a n ↔ AgreeOn m m' a n := by
  refine ⟨fun h x hx₁ hx₂ => ?_, loadLe_congr⟩
  have hbyte := loadLe_byte m (a := a) (show x - a < n by omega)
  rw [h, loadLe_byte m' (by omega), Nat.add_sub_cancel' hx₁] at hbyte
  exact UInt8.toNat_inj.mp hbyte.symm

theorem storeBytes_of_not_mem {m : Mem} {a x : Nat} {bs : List UInt8}
    (hx : ¬(a ≤ x ∧ x < a + bs.length)) : storeBytes m a bs x = m x := by
  simp only [storeBytes, if_neg hx]

theorem bytes_storeBytes (m : Mem) (a : Nat) (bs : List UInt8) :
    bytes (storeBytes m a bs) a bs.length = bs := by
  apply List.ext_getElem (length_bytes _ _ _)
  intro i h₁ h₂
  rw [getElem_bytes]
  simp [storeBytes, h₂]

theorem bytes_memcpy (dst src : Mem) (d s n : Nat) : bytes (memcpy dst d src s n) d n = bytes src s n := by
  unfold bytes
  refine List.map_congr_left fun i hi => ?_
  have := List.mem_range.mp hi
  rw [memcpy_of_mem (by omega) (by omega), Nat.add_sub_cancel_left]

/-- A copy stores the bytes it reads. -/
theorem memcpy_eq_storeBytes (dst : Mem) (d : Nat) (src : Mem) (s n : Nat) :
    memcpy dst d src s n = storeBytes dst d (bytes src s n) := by
  funext x
  unfold memcpy storeBytes
  rw [length_bytes]
  split_ifs with hx
  · rw [List.getD_eq_getElem _ _ (by rw [length_bytes]; omega), getElem_bytes]
  · rfl

theorem bytes_add (m : Mem) (a n k : Nat) : bytes m a (n + k) = bytes m a n ++ bytes m (a + n) k := by
  simp [bytes, List.range_add, Nat.add_assoc]

/-- A range read as a concatenation holds each part at its own place. -/
theorem bytes_eq_append {m : Mem} {a n : Nat} {l₁ l₂ : List UInt8} (h : bytes m a n = l₁ ++ l₂) :
    bytes m a l₁.length = l₁ ∧ bytes m (a + l₁.length) l₂.length = l₂ := by
  have hn : n = l₁.length + l₂.length := by rw [← length_bytes m a n, h, List.length_append]
  rw [hn, bytes_add] at h
  exact List.append_inj h (length_bytes _ _ _)

/-- A range read as a list holds each element at its own place. -/
theorem apply_of_bytes_eq {m : Mem} {a : Nat} {l : List UInt8} (h : bytes m a l.length = l) {i : Nat}
    (hi : i < l.length) : m (a + i) = l[i] := by
  rw [← getElem_bytes m a l.length i (by rw [length_bytes]; exact hi)]
  exact List.getElem_of_eq h _

/-- Two ranges read alike hold the same byte at each offset. -/
theorem apply_eq_of_bytes_eq {m m' : Mem} {a a' n t : Nat} (h : bytes m a n = bytes m' a' n) (ht : t < n) :
    m (a + t) = m' (a' + t) := by
  have := getElem_bytes m a n t (by rw [length_bytes]; exact ht)
  rw [List.getElem_of_eq h, getElem_bytes] at this
  exact this.symm

/-- Memories that are equal as read on a range agree there. -/
theorem agreeOn_of_bytes_eq {m m' : Mem} {a n : Nat} (h : bytes m a n = bytes m' a n) :
    AgreeOn m m' a n := by
  intro x hx₁ hx₂
  have hi : x - a < (bytes m a n).length := by rw [length_bytes]; omega
  have := getElem_bytes m a n (x - a) hi
  rw [List.getElem_of_eq h hi, getElem_bytes, Nat.add_sub_cancel' hx₁] at this
  exact this.symm

/-- A copy only reads its source range. -/
theorem memcpy_congr {dst src src' : Mem} {d s n : Nat} (h : AgreeOn src src' s n) :
    memcpy dst d src s n = memcpy dst d src' s n := by
  funext x
  unfold memcpy
  split_ifs with hx
  · exact h _ (by omega) (by omega)
  · rfl

end Xqemu.Memory
