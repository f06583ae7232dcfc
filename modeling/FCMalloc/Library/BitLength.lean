import Mathlib.Data.Nat.Size
import Mathlib.Data.Nat.Log
import Mathlib.Data.Nat.Bitwise

/-!
# Bit lengths and bit smearing

`smear w y` ors `y` with itself shifted right by `1, 2, 4, …, 2 ^ (w - 1)`, which
fills every bit below the leading one: for `y < 2 ^ 2 ^ w` the result is
`2 ^ Nat.size y - 1` (`smear_eq`). Adding one gives the next power of two, the
ceiling of the binary logarithm of `y + 1` (`size_pred`).
-/

namespace BitLength

/-- `y` or-ed with itself shifted right by the powers of two below `2 ^ w`. -/
def smear : Nat → Nat → Nat
  | 0, y => y
  | w + 1, y => smear w y ||| smear w y >>> 2 ^ w

/-- Bit `i` of the smeared word is set iff one of the `2 ^ w` bits from `i` up is. -/
theorem testBit_smear (w y i : Nat) :
    (smear w y).testBit i = true ↔ ∃ j < 2 ^ w, y.testBit (i + j) = true := by
  induction w generalizing i with
  | zero => simp [smear]
  | succ w ih =>
      rw [smear, Nat.testBit_or, Nat.testBit_shiftRight, Bool.or_eq_true, ih, ih]
      constructor
      · rintro (⟨j, hj, hbit⟩ | ⟨j, hj, hbit⟩)
        · exact ⟨j, by omega, hbit⟩
        · refine ⟨2 ^ w + j, by omega, ?_⟩
          rwa [show i + (2 ^ w + j) = 2 ^ w + i + j by omega]
      · rintro ⟨j, hj, hbit⟩
        by_cases hlow : j < 2 ^ w
        · exact Or.inl ⟨j, hlow, hbit⟩
        · refine Or.inr ⟨j - 2 ^ w, by omega, ?_⟩
          rwa [show 2 ^ w + i + (j - 2 ^ w) = i + j by omega]

/-- Some bit at or above `i` is set iff `i` is below the bit length. -/
theorem exists_testBit_iff {y i : Nat} :
    (∃ j, y.testBit (i + j) = true) ↔ i < y.size := by
  constructor
  · rintro ⟨j, hj⟩
    have hpow : 2 ^ (i + j) ≤ y := Nat.ge_two_pow_of_testBit hj
    exact Nat.lt_of_le_of_lt (Nat.le_add_right i j) (Nat.lt_size.mpr hpow)
  · intro h
    obtain ⟨k, hk, hbit⟩ := Nat.exists_ge_and_testBit_of_ge_two_pow (Nat.lt_size.mp h)
    exact ⟨k - i, by rwa [Nat.add_sub_cancel' hk]⟩

/-- **Smearing fills the bits below the leading one.** -/
theorem smear_eq {w y : Nat} (hy : y < 2 ^ 2 ^ w) : smear w y = 2 ^ y.size - 1 := by
  apply Nat.eq_of_testBit_eq
  intro i
  rw [Nat.testBit_two_pow_sub_one, Bool.eq_iff_iff, testBit_smear, decide_eq_true_iff,
    ← exists_testBit_iff]
  constructor
  · rintro ⟨j, -, hbit⟩
    exact ⟨j, hbit⟩
  · rintro ⟨j, hbit⟩
    refine ⟨j, ?_, hbit⟩
    by_contra hge
    have hpow : 2 ^ 2 ^ w ≤ 2 ^ (i + j) := Nat.pow_le_pow_right Nat.two_pos (by omega)
    have := Nat.ge_two_pow_of_testBit hbit
    omega

/-- The bit length of `x - 1` is the ceiling of the binary logarithm of `x`. -/
theorem size_pred {x : Nat} (hx : 0 < x) : (x - 1).size = Nat.clog 2 x := by
  apply Nat.le_antisymm
  · rw [Nat.size_le]
    have := Nat.le_pow_clog Nat.one_lt_two x
    omega
  · rw [Nat.clog_le_iff_le_pow Nat.one_lt_two]
    have := Nat.lt_size_self (x - 1)
    omega

/-- The bit length through the floor of the binary logarithm. -/
theorem size_eq_log2 {x : Nat} (hx : x ≠ 0) : x.size = x.log2 + 1 := by
  apply Nat.le_antisymm
  · exact Nat.size_le.mpr Nat.lt_log2_self
  · exact Nat.lt_size.mpr (Nat.log2_self_le hx)

end BitLength
