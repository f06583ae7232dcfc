import FCMalloc.LocalMemoryManager
import Mathlib.Order.Bounds.Basic

/-!
# FCMalloc.SizeClasses

The two bit algorithms of `misc.hpp` against what they are meant to compute.

`logarithm2` has two branches, a doubling loop under `#if 0` and the count of leading zeros that
is compiled. Both are `max 3` of the ceiling of the logarithm, up to where the early returns take
over (`doublingLoop_eq`, `logarithm2_eq_max`); `branchesAgree_iff` says where they agree and the
count is defined. Two sizes are left out: `2 ^ 32`, which the branch for large sizes gets although
its predecessor has only 32 bits, and `2 ^ 63`, which the guard in front of the loop takes.

`class_stable` is what the heap needs of the pair: rounding a request up does not change its
class.
-/

namespace FCMalloc

variable {x : Nat}

/-! ### The two branches of `logarithm2` -/

/-- `for (i = 0; v < x; i++) v *= 2;` from `v` and `i` on, or `none` if it has not ended after
`fuel` tests. -/
def doublingLoop (x : Nat) : (fuel : Nat) → (v i : Nat) → Option Nat
  | 0, _, _ => none
  | fuel + 1, v, i => if v < x then doublingLoop x fuel (u64 (v * 2)) (i + 1) else some i

/-- The branch of `logarithm2` under `#if 0`. A word has no more powers of two than the loop is
given tests. -/
def referenceLogarithm2 (x : Nat) : Option Nat :=
  (doublingLoop x 64 1 0).map fun i => if i < 3 then 3 else i

/-- The arguments `__builtin_clz` is evaluated on in the compiled branch of `logarithm2`. -/
def clzArguments (x : Nat) : List Nat :=
  if x ≤ 8 then []
  else if 0x8000000000000000 ≤ x then []
  else
    let v := x - (if x > 1 then 1 else 0)
    if x < 2 ^ 32 then [v]
    else [v >>> 32]

/-- The branches of `logarithm2` give one value for `x`, the least class that holds it, and the
compiled one does not count the leading zeros of zero. -/
structure BranchesAgree (x : Nat) : Prop where
  same : referenceLogarithm2 x = some (logarithm2 x)
  least : IsLeast {i | 3 ≤ i ∧ x ≤ 2 ^ i} (logarithm2 x)
  defined : 0 ∉ clzArguments x

/-- `clzArguments` is all that the compiled branch asks the compiler for. -/
theorem logarithm2With_congr {clz clz' : Nat → Nat} (h : ∀ v ∈ clzArguments x, clz v = clz' v) :
    logarithm2With clz x = logarithm2With clz' x := by
  unfold clzArguments at h
  unfold logarithm2With
  dsimp only at h ⊢
  by_cases hsmall : x ≤ 8
  · rw [if_pos hsmall, if_pos hsmall]
  · rw [if_neg hsmall] at h
    rw [if_neg hsmall, if_neg hsmall]
    by_cases hbig : 0x8000000000000000 ≤ x
    · rw [if_pos hbig, if_pos hbig]
    · rw [if_neg hbig] at h
      rw [if_neg hbig, if_neg hbig]
      by_cases hlow : x < 2 ^ 32
      · rw [if_pos hlow] at h
        rw [if_pos hlow, if_pos hlow, h _ List.mem_cons_self]
      · rw [if_neg hlow] at h
        rw [if_neg hlow, if_neg hlow, h _ List.mem_cons_self]

/-- Where the branches agree, every compiler's count gives the class: compilers differ at zero
only. -/
theorem BranchesAgree.anyClz {clz : Nat → Nat} (h : BranchesAgree x)
    (hclz : ∀ v, v ≠ 0 → clz v = builtinClz v) : logarithm2With clz x = logarithm2 x := by
  refine logarithm2With_congr fun v hv => hclz v ?_
  rintro rfl
  exact h.defined hv

/-- Up to `2 ^ 63` the loop stops at the ceiling of the logarithm. -/
theorem doublingLoop_eq (hx : x ≤ 2 ^ 63) {fuel i : Nat} (hi : i ≤ Nat.clog 2 x)
    (hfuel : Nat.clog 2 x < i + fuel) : doublingLoop x fuel (2 ^ i) i = some (Nat.clog 2 x) := by
  induction fuel generalizing i with
  | zero => omega
  | succ fuel ih =>
      rw [doublingLoop]
      by_cases hlt : 2 ^ i < x
      · have hnext : i + 1 ≤ Nat.clog 2 x := (Nat.lt_clog_iff_pow_lt Nat.one_lt_two).mpr hlt
        have htop : Nat.clog 2 x ≤ 63 := (Nat.clog_le_iff_le_pow Nat.one_lt_two).mpr hx
        have hpow : 2 ^ (i + 1) ≤ 2 ^ 63 := Nat.pow_le_pow_right Nat.two_pos (by omega)
        have hdouble : u64 (2 ^ i * 2) = 2 ^ (i + 1) := u64_of_lt (by omega)
        rw [if_pos hlt, hdouble]
        exact ih hnext (by omega)
      · have hge : Nat.clog 2 x ≤ i :=
          (Nat.clog_le_iff_le_pow Nat.one_lt_two).mpr (Nat.not_lt.mp hlt)
        rw [if_neg hlt, Nat.le_antisymm hi hge]

/-- The powers of two that fit a word, and the zero they wrap to. -/
def PowerOrZero (v : Nat) : Prop := v = 0 ∨ ∃ i ≤ 63, v = 2 ^ i

theorem PowerOrZero.double {v : Nat} (h : PowerOrZero v) : PowerOrZero (u64 (v * 2)) := by
  obtain rfl | ⟨i, hi, rfl⟩ := h
  · exact Or.inl rfl
  · rw [← Nat.pow_succ]
    by_cases htop : i = 63
    · subst htop
      exact Or.inl rfl
    · have hpow : 2 ^ (i + 1) ≤ 2 ^ 63 := Nat.pow_le_pow_right Nat.two_pos (by omega)
      exact Or.inr ⟨i + 1, by omega, u64_of_lt (by omega)⟩

/-- Beyond `2 ^ 63` the loop does not end, however many tests it is given: this is what the guard
in front of it is for. -/
theorem doublingLoop_diverges (hx : 2 ^ 63 < x) (fuel : Nat) {v : Nat} (hv : PowerOrZero v)
    (i : Nat) : doublingLoop x fuel v i = none := by
  induction fuel generalizing v i with
  | zero => rfl
  | succ fuel ih =>
      have hlt : v < x := by
        obtain rfl | ⟨k, hk, rfl⟩ := hv
        · omega
        · have hpow : 2 ^ k ≤ 2 ^ 63 := Nat.pow_le_pow_right Nat.two_pos hk
          omega
      rw [doublingLoop, if_pos hlt]
      exact ih hv.double (i + 1)

theorem referenceLogarithm2_eq (hx : x ≤ 2 ^ 63) :
    referenceLogarithm2 x = some (max 3 (Nat.clog 2 x)) := by
  have htop : Nat.clog 2 x ≤ 63 := (Nat.clog_le_iff_le_pow Nat.one_lt_two).mpr hx
  have hloop : doublingLoop x 64 1 0 = some (Nat.clog 2 x) :=
    doublingLoop_eq (i := 0) hx (Nat.zero_le _) (by omega)
  rw [referenceLogarithm2, hloop, Option.map_some]
  congr 1
  split <;> omega

theorem referenceLogarithm2_of_gt (hx : 2 ^ 63 < x) : referenceLogarithm2 x = none := by
  have hone : PowerOrZero 1 := Or.inr ⟨0, by decide, rfl⟩
  rw [referenceLogarithm2, doublingLoop_diverges hx 64 hone 0, Option.map_none]

/-- The least class whose blocks hold `x` bytes. -/
theorem isLeast_class (x : Nat) : IsLeast {i | 3 ≤ i ∧ x ≤ 2 ^ i} (max 3 (Nat.clog 2 x)) := by
  constructor
  · exact ⟨le_max_left _ _, (Nat.clog_le_iff_le_pow Nat.one_lt_two).mp (le_max_right _ _)⟩
  · intro i hi
    exact max_le hi.1 ((Nat.clog_le_iff_le_pow Nat.one_lt_two).mpr hi.2)

/-- The compiled branch, the small sizes included. -/
theorem logarithm2_eq_max (hx : x < 2 ^ 63) : logarithm2 x = max 3 (Nat.clog 2 x) := by
  by_cases hsmall : x ≤ 8
  · have hclog : Nat.clog 2 x ≤ 3 := (Nat.clog_le_iff_le_pow Nat.one_lt_two).mpr hsmall
    rw [logarithm2_of_le hsmall, max_eq_left hclog]
  · have hlarge : 3 < Nat.clog 2 x := (Nat.lt_clog_iff_pow_lt Nat.one_lt_two).mpr (by omega)
    rw [logarithm2_eq (by omega) hx, max_eq_right (Nat.le_of_lt hlarge)]

/-- The count is asked for zero at `2 ^ 32` only: the branch is chosen by `x`, the argument is
made of `x - 1`. -/
theorem zero_mem_clzArguments_iff : 0 ∈ clzArguments x ↔ x = 2 ^ 32 := by
  unfold clzArguments
  by_cases hsmall : x ≤ 8
  · rw [if_pos hsmall]
    simp
    omega
  have hpred : x - (if x > 1 then 1 else 0) = x - 1 := by rw [if_pos (by omega)]
  rw [if_neg hsmall, hpred]
  by_cases hbig : 0x8000000000000000 ≤ x
  · rw [if_pos hbig]
    simp
    omega
  rw [if_neg hbig]
  by_cases hlow : x < 2 ^ 32
  · rw [if_pos hlow, List.mem_singleton]
    omega
  · rw [if_neg hlow, List.mem_singleton, Nat.shiftRight_eq_div_pow]
    omega

/-- **The compiled branch against the reference loop**, for every size. -/
theorem branchesAgree_iff (x : Nat) : BranchesAgree x ↔ x < 2 ^ 63 ∧ x ≠ 2 ^ 32 := by
  constructor
  · intro h
    refine ⟨?_, fun heq => h.defined (zero_mem_clzArguments_iff.mpr heq)⟩
    by_contra hbig
    have hsame := h.same
    -- the guard gives 64 from `2 ^ 63` on: the loop ends with 63 there, and not at all beyond
    by_cases htop : x = 2 ^ 63
    · rw [referenceLogarithm2_eq (Nat.le_of_eq htop), logarithm2_of_ge (by omega)] at hsame
      have hclog : Nat.clog 2 x ≤ 63 :=
        (Nat.clog_le_iff_le_pow Nat.one_lt_two).mpr (Nat.le_of_eq htop)
      have := Option.some.inj hsame
      omega
    · rw [referenceLogarithm2_of_gt (by omega)] at hsame
      exact absurd hsame (by simp)
  · rintro ⟨hlt, hne⟩
    refine ⟨?_, ?_, fun hmem => hne (zero_mem_clzArguments_iff.mp hmem)⟩
    · rw [referenceLogarithm2_eq (Nat.le_of_lt hlt), logarithm2_eq_max hlt]
    · rw [logarithm2_eq_max hlt]
      exact isLeast_class x

/-- At `2 ^ 32` the compiled branch counts the leading zeros of zero, and at `2 ^ 63` it gives
another class than the loop. -/
theorem branches_differ : ¬ (∀ x, 1 ≤ x → x ≤ 2 ^ 63 → BranchesAgree x) ∧
    clzArguments 0x100000000 = [0] ∧ logarithm2 0x8000000000000000 = 64 ∧
    referenceLogarithm2 0x8000000000000000 = some 63 := by
  refine ⟨fun h => ?_, by decide, by decide, by decide⟩
  exact (h 0x100000000 (by decide) (by decide)).defined (by decide)

/-! ### Class stability -/

/-- What the heap needs of the two algorithms for a request of `size` bytes: the body that
`allocateMemoryLinkedList` stores is the whole of its class, `Free` files it where `Allocate` put
it, and a block made for any request of the class serves every request of a class not above. -/
structure ClassStable (size : Nat) : Prop where
  round : IsLeast {p | (∃ i, p = 2 ^ i) ∧ size ≤ p} (roundupPowerof2 size)
  body : bodySize size = max 8 (roundupPowerof2 size)
  body_eq : bodySize size = 2 ^ logarithm2 size
  body_class : logarithm2 (bodySize size) = logarithm2 size
  refiled : ∀ (s : Store ListId) l m, m < 2 ^ 64 → readField s.mem m .size = bodySize size →
    s.free l (m + headerSize) = s.push l (sizeClass size) m
  serves : ∀ made, 1 ≤ made → made ≤ 2 ^ 62 → logarithm2 made = logarithm2 size →
    ∀ request, 1 ≤ request → request ≤ 2 ^ 62 → logarithm2 request ≤ logarithm2 size →
      request ≤ bodySize made

/-- A request of at most `2 ^ 62` bytes has a class below 63. -/
theorem logarithm2_le_of_le (hx : x ≤ 2 ^ 62) : logarithm2 x ≤ 62 := by
  rw [logarithm2_eq_max (by omega)]
  exact max_le (by decide) ((Nat.clog_le_iff_le_pow Nat.one_lt_two).mpr hx)

/-- The class grows with the size. -/
theorem logarithm2_monotoneOn : MonotoneOn logarithm2 (Set.Icc 1 (2 ^ 62)) := by
  rintro r ⟨-, hr⟩ size ⟨-, hsize⟩ hle
  rw [logarithm2_eq_max (by omega), logarithm2_eq_max (by omega)]
  exact max_le_max (Nat.le_refl 3) (Nat.clog_mono_right 2 hle)

/-- The round-up is the least power of two that holds the request. -/
theorem isLeast_roundupPowerof2 (hx : 1 ≤ x) (hx' : x ≤ 2 ^ 63) :
    IsLeast {p | (∃ i, p = 2 ^ i) ∧ x ≤ p} (roundupPowerof2 x) := by
  rw [roundupPowerof2_eq hx hx']
  constructor
  · exact ⟨⟨_, rfl⟩, Nat.le_pow_clog Nat.one_lt_two x⟩
  · rintro p ⟨⟨i, rfl⟩, hle⟩
    exact Nat.pow_le_pow_right Nat.two_pos ((Nat.clog_le_iff_le_pow Nat.one_lt_two).mpr hle)

theorem bodySize_eq_max (size : Nat) : bodySize size = max 8 (roundupPowerof2 size) := by
  unfold bodySize
  dsimp only
  split <;> omega

theorem bodySize_eq_pow (hx : 1 ≤ x) (hx' : x ≤ 2 ^ 62) : bodySize x = 2 ^ logarithm2 x :=
  max_roundupPowerof2 hx (logarithm2_le_of_le hx')

/-- A body is of the class of the request it was made for. -/
theorem logarithm2_bodySize (hx : 1 ≤ x) (hx' : x ≤ 2 ^ 62) :
    logarithm2 (bodySize x) = logarithm2 x := by
  rw [bodySize_eq_pow hx hx']
  exact logarithm2_two_pow (three_le_logarithm2 x) (logarithm2_le_of_le hx')

/-- **Class stability**: round-up and class agree on every request up to `2 ^ 62`, and the class
is monotone there. -/
theorem class_stable : MonotoneOn logarithm2 (Set.Icc 1 (2 ^ 62)) ∧
    ∀ size, 1 ≤ size → size ≤ 2 ^ 62 → ClassStable size := by
  refine ⟨logarithm2_monotoneOn, fun size hpos hle => ?_⟩
  constructor
  case round => exact isLeast_roundupPowerof2 hpos (by omega)
  case body => exact bodySize_eq_max size
  case body_eq => exact bodySize_eq_pow hpos hle
  case body_class => exact logarithm2_bodySize hpos hle
  case refiled =>
    intro s l m hm hsize
    have hclass : sizeClass (readField s.mem m .size) = sizeClass size := by
      rw [hsize]
      exact Fin.ext (logarithm2_bodySize hpos hle)
    rw [Rep.free_body hm, hclass]
  case serves =>
    intro made hmade hmade' hclass request _ hrequest hlog
    calc request ≤ 2 ^ logarithm2 request := le_two_pow_logarithm2 (by omega)
      _ ≤ 2 ^ logarithm2 made := Nat.pow_le_pow_right Nat.two_pos (hclass ▸ hlog)
      _ = bodySize made := (bodySize_eq_pow hmade hmade').symm

/-- A request of 17 bytes is rounded to 32, and both are of class 5. -/
theorem class_stable_seventeen :
    logarithm2 17 = 5 ∧ bodySize 17 = 32 ∧ ClassStable 17 ∧ logarithm2 17 ≤ logarithm2 33 :=
  ⟨by decide, by decide, class_stable.2 17 (by decide) (by decide),
    class_stable.1 (by simp) (by simp) (by decide)⟩

end FCMalloc
