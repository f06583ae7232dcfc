import FCMalloc.Library.BitLength

/-!
# FCMalloc.Misc

The arithmetic of `misc.hpp`: word-sized wrap-around, `ALIGN`, and the two
independent bit algorithms that choose a block's size (`roundupPowerof2`) and its
class (`logarithm2`).

A `size_t`, a `uintptr_t` or a pointer is a `Nat` below `2 ^ 64`, with `0` for
`nullptr`; `u64` marks every place where the C++ expression can wrap. What `__builtin_clz(0)`
evaluates to is left to the build (`ClzZero`): the source notes that compilers disagree.
-/

namespace FCMalloc

/-- Reduction of an unsigned 64-bit result. -/
def u64 (n : Nat) : Nat := n % 2 ^ 64

theorem u64_lt (n : Nat) : u64 n < 2 ^ 64 := Nat.mod_lt _ (by decide)

theorem u64_of_lt {n : Nat} (h : n < 2 ^ 64) : u64 n = n := Nat.mod_eq_of_lt h

/-- Reduction of the result of an `int` computation, in two's complement. -/
def i32 (n : Int) : Int := n.bmod (2 ^ 32)

theorem i32_of_lt {n : Int} (hlow : -2 ^ 31 ≤ n) (hlt : n < 2 ^ 31) : i32 n = n :=
  Int.bmod_eq_of_le_mul_two (by omega) (by omega)

/-- `ALIGN(v, n)`: `v` rounded up to a multiple of `n`. Only the addition can
wrap; the final product is at most its dividend. -/
def align (v n : Nat) : Nat := u64 (v + n - 1) / n * n

/-- `roundup_powerof2`: decrement, smear by 1, 2, 4, 8, 16 and 32, increment. -/
def roundupPowerof2 (x : Nat) : Nat :=
  let x := u64 (x + (2 ^ 64 - 1))
  let x := x ||| x >>> 1
  let x := x ||| x >>> 2
  let x := x ||| x >>> 4
  let x := x ||| x >>> 8
  let x := x ||| x >>> 16
  let x := x ||| x >>> 32
  u64 (x + 1)

/-- The value a build gives to `__builtin_clz(0)`, which is undefined: 31 or 32, as the source
notes. -/
class ClzZero where
  value : Nat
  value_le : value ≤ 32

/-- The value the source notes for g++. It is the one meant wherever no `ClzZero` is named. The
g++ of today, with the flags of the repository, gives 31. -/
instance clzNoted : ClzZero := ⟨32, Nat.le_refl 32⟩

/-- `__builtin_clz` of a 32-bit word. -/
def builtinClz [ClzZero] (v : Nat) : Nat := if v = 0 then ClzZero.value else 31 - v.log2

/-- `logarithm2` over the leading-zero count `clz` it is compiled with. -/
def logarithm2With (clz : Nat → Nat) (x : Nat) : Nat :=
  if x ≤ 8 then
    -- min size must be 8 = 2^3 byte, so this return 3
    3
  else if 0x8000000000000000 ≤ x then 64
  else
    let v := x - (if x > 1 then 1 else 0)
    if x < 2 ^ 32 then 32 - clz v
    else 32 + (32 - clz (v >>> 32))

/-- The size class of `x`. -/
def logarithm2 [ClzZero] (x : Nat) : Nat := logarithm2With builtinClz x

/-- `multCausesOverflow`. -/
def multCausesOverflow (a b : Nat) : Bool :=
  let x := u64 (a * b)
  a ≠ 0 && x / a ≠ b

/-- `addCausesOverflow`. -/
def addCausesOverflow (a b : Nat) : Bool :=
  let maxSize := 2 ^ 64 - 1
  maxSize - a < b

/-- The product is tested by dividing it again. -/
theorem multCausesOverflow_iff {a b : Nat} :
    multCausesOverflow a b = true ↔ 2 ^ 64 ≤ a * b := by
  rcases Nat.eq_zero_or_pos a with rfl | ha
  · simp [multCausesOverflow]
  have htest : multCausesOverflow a b = true ↔ u64 (a * b) / a ≠ b := by
    simp [multCausesOverflow, Nat.ne_of_gt ha]
  rw [htest]
  by_cases hfits : a * b < 2 ^ 64
  · rw [u64_of_lt hfits, Nat.mul_div_cancel_left b ha]
    exact ⟨fun hne => absurd rfl hne, fun hle => absurd hfits (Nat.not_lt.mpr hle)⟩
  · refine ⟨fun _ => Nat.le_of_not_lt hfits, fun _ => Nat.ne_of_lt ?_⟩
    have hwrap : u64 (a * b) < a * b :=
      Nat.lt_of_lt_of_le (Nat.mod_lt _ (by decide)) (Nat.le_of_not_lt hfits)
    exact (Nat.div_lt_iff_lt_mul ha).mpr (Nat.mul_comm b a ▸ hwrap)

/-! ### `ALIGN` -/

variable {v n : Nat}

/-- Without wrap-around `ALIGN` is the round-up it is meant to be. -/
theorem align_spec (hn : 0 < n) (hv : v + n ≤ 2 ^ 64) :
    v ≤ align v n ∧ align v n < v + n ∧ n ∣ align v n := by
  have hw : u64 (v + n - 1) = v + n - 1 := u64_of_lt (by omega)
  have hdiv := Nat.div_add_mod (v + n - 1) n
  have hmod := Nat.mod_lt (v + n - 1) hn
  have hcomm : (v + n - 1) / n * n = n * ((v + n - 1) / n) := Nat.mul_comm _ _
  refine ⟨?_, ?_, Nat.dvd_mul_left _ _⟩ <;> rw [align, hw, hcomm] <;> omega

theorem dvd_align (v n : Nat) : n ∣ align v n := Nat.dvd_mul_left _ _

/-- A round-up that wraps collapses to nothing. -/
theorem align_of_wrap (hv : v < 2 ^ 64) (hn : n ≤ 2 ^ 64) (hw : 2 ^ 64 < v + n) :
    align v n = 0 := by
  have hrem : u64 (v + n - 1) = v + n - 1 - 2 ^ 64 := by
    rw [u64, Nat.mod_eq_sub_mod (by omega), Nat.mod_eq_of_lt (by omega)]
  rw [align, hrem, Nat.div_eq_of_lt (by omega), Nat.zero_mul]

/-! ### Round-up and class

Both algorithms compute the ceiling of the binary logarithm, `Nat.clog 2`. -/

variable {x y : Nat}

/-- What the six shifts make of the decremented word, wrapping included. -/
theorem roundupPowerof2_smear (x : Nat) :
    roundupPowerof2 x = u64 (2 ^ (u64 (x + (2 ^ 64 - 1))).size) := by
  have hsmear : roundupPowerof2 x = u64 (BitLength.smear 6 (u64 (x + (2 ^ 64 - 1))) + 1) := by
    simp only [roundupPowerof2, BitLength.smear]
    rfl
  rw [hsmear, BitLength.smear_eq (u64_lt _), Nat.sub_add_cancel (Nat.two_pow_pos _)]

/-- **The OR-smear rounds up to the next power of two.** -/
theorem roundupPowerof2_eq (hx : 0 < x) (hx' : x ≤ 2 ^ 63) :
    roundupPowerof2 x = 2 ^ Nat.clog 2 x := by
  have hpred : u64 (x + (2 ^ 64 - 1)) = x - 1 := by
    rw [u64, Nat.mod_eq_sub_mod (by omega), Nat.mod_eq_of_lt (by omega)]
    omega
  have hclog : Nat.clog 2 x ≤ 63 := (Nat.clog_le_iff_le_pow Nat.one_lt_two).mpr hx'
  have hpow : 2 ^ Nat.clog 2 x ≤ 2 ^ 63 := Nat.pow_le_pow_right Nat.two_pos hclog
  rw [roundupPowerof2_smear, hpred, BitLength.size_pred hx, u64_of_lt (by omega)]

/-- Beyond `2 ^ 63` the round-up wraps to nothing. -/
theorem roundupPowerof2_of_wrap (hx : 2 ^ 63 < x) (hx' : x < 2 ^ 64) : roundupPowerof2 x = 0 := by
  have hpred : u64 (x + (2 ^ 64 - 1)) = x - 1 := by
    rw [u64, Nat.mod_eq_sub_mod (by omega), Nat.mod_eq_of_lt (by omega)]
    omega
  have hlow : 63 < (x - 1).size := Nat.lt_size.mpr (by omega)
  have hhigh : (x - 1).size ≤ 64 := Nat.size_le.mpr (by omega)
  have hsize : (x - 1).size = 64 := by omega
  rw [roundupPowerof2_smear, hpred, hsize]
  rfl

/-- The round-up of a word is a power of two up to `2 ^ 63`, or zero. -/
theorem roundupPowerof2_le (x : Nat) : roundupPowerof2 x ≤ 2 ^ 63 := by
  have hsize : (u64 (x + (2 ^ 64 - 1))).size ≤ 64 := Nat.size_le.mpr (u64_lt _)
  rw [roundupPowerof2_smear]
  by_cases htop : (u64 (x + (2 ^ 64 - 1))).size = 64
  · rw [htop]
    decide
  · have hpow : 2 ^ (u64 (x + (2 ^ 64 - 1))).size ≤ 2 ^ 63 :=
      Nat.pow_le_pow_right Nat.two_pos (by omega)
    rw [u64_of_lt (by omega)]
    exact hpow

/-- `32 - __builtin_clz(v)` is the bit length of a 32-bit `v`. -/
theorem sub_builtinClz {v : Nat} (hv : v < 2 ^ 32) : 32 - builtinClz v = v.size := by
  by_cases h0 : v = 0
  · subst h0
    rfl
  · have hlog : v.log2 < 32 := (Nat.log2_lt h0).mpr hv
    rw [builtinClz, if_neg h0, BitLength.size_eq_log2 h0]
    omega

theorem logarithm2_le [ClzZero] (x : Nat) : logarithm2 x ≤ 64 := by
  unfold logarithm2 logarithm2With
  dsimp only
  split
  · omega
  · split
    · omega
    · split <;> omega

/-- The bit length of `y >>> 32` accounts for all but the low 32 bits. -/
theorem size_shiftRight {y : Nat} (hy : 2 ^ 31 ≤ y) : 32 + (y >>> 32).size = max 32 y.size := by
  have hlarge : 32 ≤ y.size := Nat.lt_size.mpr hy
  rw [max_eq_right hlarge]
  apply Nat.le_antisymm
  · have : (y >>> 32).size ≤ y.size - 32 := by
      rw [Nat.size_le, Nat.shiftRight_eq_div_pow, Nat.div_lt_iff_lt_mul (by decide), ← Nat.pow_add,
        Nat.sub_add_cancel hlarge]
      exact Nat.lt_size_self y
    omega
  · have hlt : y / 2 ^ 32 < 2 ^ (y >>> 32).size := by
      rw [← Nat.shiftRight_eq_div_pow]
      exact Nat.lt_size_self _
    rw [Nat.size_le, Nat.pow_add, Nat.mul_comm]
    exact (Nat.div_lt_iff_lt_mul (by decide)).mp hlt

/-- **The class is the ceiling of the logarithm**, from 8 bytes up. -/
theorem logarithm2_eq (hx : 8 < x) (hx' : x < 2 ^ 63) : logarithm2 x = Nat.clog 2 x := by
  have hv : x - (if x > 1 then 1 else 0) = x - 1 := by rw [if_pos (by omega)]
  unfold logarithm2 logarithm2With
  rw [if_neg (by omega), if_neg (by omega), hv, ← BitLength.size_pred (by omega)]
  dsimp only
  by_cases hlow : x < 2 ^ 32
  · rw [if_pos hlow, sub_builtinClz (by omega)]
  · have hhigh : (x - 1) >>> 32 < 2 ^ 32 := by
      rw [Nat.shiftRight_eq_div_pow]
      omega
    rw [if_neg hlow, sub_builtinClz hhigh, size_shiftRight (by omega), max_eq_right]
    exact Nat.lt_size.mpr (by omega)

theorem logarithm2_of_le (hx : x ≤ 8) : logarithm2 x = 3 := if_pos hx

theorem logarithm2_of_ge (hx : 2 ^ 63 ≤ x) : logarithm2 x = 64 := by
  unfold logarithm2 logarithm2With
  rw [if_neg (by omega), if_pos (by omega)]

/-- The smallest class is 3, the class of 8 bytes. -/
theorem three_le_logarithm2 (x : Nat) : 3 ≤ logarithm2 x := by
  by_cases hsmall : x ≤ 8
  · rw [logarithm2_of_le hsmall]
  · by_cases hbig : 2 ^ 63 ≤ x
    · rw [logarithm2_of_ge hbig]
      decide
    · rw [logarithm2_eq (by omega) (by omega)]
      by_contra hlt
      have := (Nat.clog_le_iff_le_pow Nat.one_lt_two (x := x) (y := 2)).mp (by omega)
      omega

/-- A request is never larger than its class. -/
theorem le_two_pow_logarithm2 (hx : x < 2 ^ 64) : x ≤ 2 ^ logarithm2 x := by
  by_cases hsmall : x ≤ 8
  · rw [logarithm2_of_le hsmall]
    exact hsmall
  · by_cases hbig : 2 ^ 63 ≤ x
    · rw [logarithm2_of_ge hbig]
      exact Nat.le_of_lt hx
    · rw [logarithm2_eq (by omega) (by omega)]
      exact Nat.le_pow_clog Nat.one_lt_two x

/-- A request of class at most 62 asks for at most `2 ^ 62` bytes. -/
theorem le_of_logarithm2_le (hx : logarithm2 x ≤ 62) : x ≤ 2 ^ 62 := by
  by_contra hbig
  by_cases htop : 2 ^ 63 ≤ x
  · rw [logarithm2_of_ge htop] at hx
    omega
  · rw [logarithm2_eq (by omega) (by omega), Nat.clog_le_iff_le_pow Nat.one_lt_two] at hx
    omega

/-- **The body size stored in a block is the power of two of its class**: the
request is rounded up and raised to 8 bytes. -/
theorem max_roundupPowerof2 (hx : 0 < x) (hx' : logarithm2 x ≤ 62) :
    (if roundupPowerof2 x < 8 then 8 else roundupPowerof2 x) = 2 ^ logarithm2 x := by
  have hle := le_of_logarithm2_le hx'
  rw [roundupPowerof2_eq hx (by omega)]
  by_cases hsmall : x ≤ 8
  · have hpow : 2 ^ Nat.clog 2 x ≤ 2 ^ 3 :=
      Nat.pow_le_pow_right Nat.two_pos ((Nat.clog_le_iff_le_pow Nat.one_lt_two).mpr hsmall)
    rw [logarithm2_of_le hsmall]
    split <;> omega
  · have hge := Nat.le_pow_clog Nat.one_lt_two x
    rw [logarithm2_eq (by omega) (by omega), if_neg (by omega)]

/-- The class of a stored body size is the class it was stored under. -/
theorem logarithm2_two_pow {i : Nat} (hi : 3 ≤ i) (hi' : i ≤ 62) : logarithm2 (2 ^ i) = i := by
  by_cases h3 : i = 3
  · subst h3
    rfl
  · have hlow : 2 ^ 4 ≤ 2 ^ i := Nat.pow_le_pow_right Nat.two_pos (by omega)
    have hhigh : 2 ^ i ≤ 2 ^ 62 := Nat.pow_le_pow_right Nat.two_pos hi'
    rw [logarithm2_eq (by omega) (by omega), Nat.clog_pow 2 i Nat.one_lt_two]

example : logarithm2 17 = 5 ∧ logarithm2 0x100000000 = 32 ∧ roundupPowerof2 17 = 32 := by decide

end FCMalloc
