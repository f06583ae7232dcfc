import Mathlib.Algebra.Group.Nat.Defs
import Mathlib.Logic.Function.Basic

/-!
# Byte memory

A flat, byte-addressed memory and little-endian words in it.

A memory is a total function from addresses to bytes. A word of `n` bytes is
read and written least significant byte first. Everything a client needs is in
three facts about a write: the written range reads back the value modulo its
width (`readLE_writeLE_self`), a byte outside the written range is unchanged
(`writeLE_of_outside`), and hence so is every word that does not overlap it
(`readLE_writeLE_of_disjoint`). `copy` and `fill` are `memcpy` and `memset`.
-/

namespace ByteMemory

/-- Byte-addressed memory. -/
abbrev Memory := Nat → UInt8

/-- The little-endian value of the `n` bytes at `a`. -/
def readLE (m : Memory) (a : Nat) : Nat → Nat
  | 0 => 0
  | n + 1 => (m a).toNat + 256 * readLE m (a + 1) n

/-- Store the low `n` bytes of `v` at `a`, least significant byte first. -/
def writeLE (m : Memory) (a : Nat) : Nat → Nat → Memory
  | 0, _ => m
  | n + 1, v => writeLE (Function.update m a (UInt8.ofNat v)) (a + 1) n (v / 256)

/-- `memcpy(dst, src, n)`: the bytes are all read before the first is written,
so an overlap of the two ranges is not modelled (it is undefined behaviour). -/
def copy (m : Memory) (dst src n : Nat) : Memory := fun x =>
  if dst ≤ x ∧ x < dst + n then m (src + (x - dst)) else m x

/-- `memset(dst, v, n)`. -/
def fill (m : Memory) (dst n : Nat) (v : UInt8) : Memory := fun x =>
  if dst ≤ x ∧ x < dst + n then v else m x

/-- The `n` bytes at `a`. -/
def bytes (m : Memory) (a n : Nat) : List UInt8 := (List.range n).map fun i => m (a + i)

/-! ### Frame rules -/

/-- A write leaves every byte outside its range alone. -/
theorem writeLE_of_outside {m : Memory} {a n v x : Nat} (h : x < a ∨ a + n ≤ x) :
    writeLE m a n v x = m x := by
  induction n generalizing m a v with
  | zero => rfl
  | succ n ih =>
      rw [writeLE, ih (by omega)]
      exact Function.update_of_ne (by omega) _ _

/-- A read depends only on the bytes of its range. -/
theorem readLE_congr {m m' : Memory} {a n : Nat}
    (h : ∀ x, a ≤ x → x < a + n → m' x = m x) : readLE m' a n = readLE m a n := by
  induction n generalizing a with
  | zero => rfl
  | succ n ih =>
      rw [readLE, readLE, h a (by omega) (by omega),
        ih (fun x h₁ h₂ => h x (by omega) (by omega))]

theorem readLE_writeLE_of_disjoint {m : Memory} {a n v b k : Nat}
    (h : a + n ≤ b ∨ b + k ≤ a) : readLE (writeLE m a n v) b k = readLE m b k :=
  readLE_congr fun _ _ _ => writeLE_of_outside (by omega)

@[simp] theorem copy_of_outside {m : Memory} {dst src n x : Nat} (h : x < dst ∨ dst + n ≤ x) :
    copy m dst src n x = m x :=
  if_neg (by omega)

@[simp] theorem fill_of_outside {m : Memory} {dst n x : Nat} {v : UInt8}
    (h : x < dst ∨ dst + n ≤ x) : fill m dst n v x = m x :=
  if_neg (by omega)

@[simp] theorem bytes_length (m : Memory) (a n : Nat) : (bytes m a n).length = n := by
  simp [bytes]

theorem bytes_getElem? {m : Memory} {a n i : Nat} (hi : i < n) :
    (bytes m a n)[i]? = some (m (a + i)) := by
  simp [bytes, hi]

theorem bytes_congr {m m' : Memory} {a a' n : Nat} (h : ∀ i < n, m' (a' + i) = m (a + i)) :
    bytes m' a' n = bytes m a n :=
  List.map_congr_left fun i hi => h i (List.mem_range.mp hi)

/-- A longer read begins like a shorter one. -/
theorem bytes_prefix {m : Memory} {a n k : Nat} (h : n ≤ k) : bytes m a n <+: bytes m a k := by
  obtain ⟨d, rfl⟩ := Nat.exists_eq_add_of_le h
  unfold bytes
  rw [List.range_add, List.map_append]
  exact List.prefix_append _ _

/-- What is read at `a` once a byte has been written at `x`. -/
theorem bytes_update {m : Memory} {a n x : Nat} {v : UInt8} :
    bytes (Function.update m x v) a n =
      if a ≤ x then (bytes m a n).set (x - a) v else bytes m a n := by
  split
  case isTrue h =>
    refine List.ext_getElem (by simp) fun i hi hi' => ?_
    simp only [bytes, List.getElem_map, List.getElem_range, List.getElem_set]
    by_cases hx : x - a = i
    · rw [if_pos hx, show a + i = x by omega, Function.update_self]
    · rw [if_neg hx, Function.update_of_ne (by omega)]
  case isFalse h => exact bytes_congr fun i _ => Function.update_of_ne (by omega) _ _

/-! ### Reading back -/

/-- A word reads back what was written, modulo its width. -/
theorem readLE_writeLE_self (m : Memory) (a n v : Nat) :
    readLE (writeLE m a n v) a n = v % 256 ^ n := by
  induction n generalizing m a v with
  | zero => simp [readLE, Nat.mod_one]
  | succ n ih =>
      have hhead : writeLE m a (n + 1) v a = UInt8.ofNat v := by
        rw [writeLE, writeLE_of_outside (Or.inl (Nat.lt_succ_self a))]
        exact Function.update_self _ _ _
      have htail : readLE (writeLE m a (n + 1) v) (a + 1) n = v / 256 % 256 ^ n := by
        rw [writeLE, ih]
      have hbyte : (UInt8.ofNat v).toNat = v % 256 := by simp
      rw [readLE, hhead, htail, hbyte, Nat.pow_succ, Nat.mul_comm (256 ^ n), Nat.mod_mul]

/-- A value that fits is read back unchanged. -/
theorem readLE_writeLE_of_lt {m : Memory} {a n v : Nat} (h : v < 256 ^ n) :
    readLE (writeLE m a n v) a n = v := by
  rw [readLE_writeLE_self, Nat.mod_eq_of_lt h]

end ByteMemory
