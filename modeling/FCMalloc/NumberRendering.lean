import FCMalloc.Library.Numeral
import FCMalloc.MyprintfImpl
import Mathlib.Algebra.Group.Int.Defs
import Mathlib.Algebra.Group.Nat.Defs

/-!
# FCMalloc.NumberRendering

What `mywrite` makes of a number.

Both conversion loops take the last digit off the value and put it in front of the text; one lemma
is about either (`loop_text`), with the recursion of the loop as its hypothesis. From it follows
what any of the overloads leaves in its buffer (`mywrite_number`), and that a buffer of 128 bytes
is long enough for all of them. `mywrite_renders_iff` then compares the text with the canonical
literal: it is that literal for every number of the three types but the least `int`, whose negation
is negative again and has no digits.
-/

namespace FCMalloc

namespace Myprintf

open Numeral (literal Canonical)

variable {b : Buffer} {val n : Nat} {num : Int32}

/-! ### Padding -/

theorem repeatChar_flatten (c : Char) (n : Int32) :
    (repeatChar c n).flatten = List.replicate n.toInt.toNat c := by
  unfold repeatChar
  split
  case isTrue hneg =>
    rw [Int.toNat_eq_zero.mpr hneg]
    rfl
  case isFalse hpos =>
    have hfull : ∀ k, (forRange k (fun _ ws => ws ++ [List.replicate size c]) []).flatten =
        List.replicate (size * k) c := by
      intro k
      refine forRange_invariant
        (fun k (ws : Writes) => ws.flatten = List.replicate (size * k) c) rfl fun k _ ws hws => ?_
      rw [List.flatten_append, hws, List.flatten_singleton, List.replicate_append_replicate,
        Nat.mul_succ]
    have hsplit := Nat.div_add_mod n.toInt.toNat size
    have hrest : n.toInt.toNat % size < size := Nat.mod_lt _ (by decide)
    dsimp only
    split
    · rw [List.flatten_append, hfull, List.flatten_singleton, List.take_replicate,
        Nat.min_eq_left (Nat.le_of_lt hrest), List.replicate_append_replicate, hsplit]
    · rw [hfull]
      congr 1
      omega

/-- The padding fills up to the width. -/
theorem padding_flatten (hnum : 0 ≤ num) {len : Nat} (hlen : len < 2 ^ 31) :
    (padding num len).flatten = List.replicate (num.toInt.toNat - len) ' ' := by
  have hlow := Int32.le_iff_toInt_le.mp hnum
  have hhigh := num.toInt_lt
  rw [Int32.toInt_zero] at hlow
  rw [padding, repeatChar_flatten, Int32.toInt_ofInt_of_le (by omega) (by omega)]
  congr 1
  omega

/-! ### The conversion loops -/

/-- The digits a loop writes: none for zero. -/
def loopDigits (base val : Nat) : List Char := if 0 < val then Nat.toDigits base val else []

theorem loopDigits_step {base : Nat} (hbase : 1 < base) (hval : 0 < val) :
    loopDigits base val = loopDigits base (val / base) ++ [Nat.digitChar (val % base)] := by
  unfold loopDigits
  rw [if_pos hval]
  by_cases hlt : val < base
  · rw [Nat.div_eq_of_lt hlt, if_neg (Nat.lt_irrefl 0), Nat.toDigits_of_lt_base hlt,
      Nat.mod_eq_of_lt hlt]
    rfl
  · have hge := Nat.not_lt.mp hlt
    rw [Nat.toDigits_of_base_le hbase hge, if_pos (Nat.div_pos hge (by omega))]

/-- **Either loop** puts the digits of its value in front of the text, as long as they fit. -/
theorem loop_text {loop : Buffer → Nat → Option Buffer} {base : Nat} (hbase : 1 < base)
    (hloop : ∀ b val, loop b val =
      if 0 < val then (b.push (Nat.digitChar (val % base))).bind (loop · (val / base)) else some b)
    {k : Nat} (hval : val < base ^ k) (hroom : b.text.length + k ≤ size) :
    ∃ b', loop b val = some b' ∧ b'.text = loopDigits base val ++ b.text := by
  induction k generalizing b val with
  | zero =>
      have hzero : ¬ 0 < val := by
        rw [Nat.pow_zero] at hval
        omega
      exact ⟨b, by rw [hloop, if_neg hzero], by rw [loopDigits, if_neg hzero, List.nil_append]⟩
  | succ k ih =>
      rw [hloop]
      by_cases hpos : 0 < val
      · obtain ⟨b₁, hpush, htext⟩ := b.push_text (c := Nat.digitChar (val % base)) (by omega)
        have hquot : val / base < base ^ k :=
          Nat.div_lt_of_lt_mul (by rwa [Nat.mul_comm, ← Nat.pow_succ])
        have hroom₁ : b₁.text.length + k ≤ size := by
          rw [htext, List.length_cons]
          omega
        obtain ⟨b₂, hrun, htext₂⟩ := ih hquot hroom₁
        refine ⟨b₂, ?_, ?_⟩
        · rw [if_pos hpos, hpush, Option.bind_some, hrun]
        · rw [htext₂, htext, loopDigits_step hbase hpos, List.append_assoc]
          rfl
      · exact ⟨b, if_neg hpos, by rw [loopDigits, if_neg hpos, List.nil_append]⟩

theorem hexDigit_eq : ∀ d < 16, hexDigit d = Nat.digitChar d := by decide

/-- `'0' + d`. -/
theorem decDigit_eq : ∀ d < 10, Char.ofNat ('0'.toNat + d) = Nat.digitChar d := by decide

theorem decLoop_text (hval : val < 2 ^ 64) (hroom : b.text.length ≤ 100) :
    ∃ b', decLoop b val = some b' ∧ b'.text = loopDigits 10 val ++ b.text := by
  refine loop_text (k := 20) (by decide) (fun b val => ?_) (by omega) (by unfold size; omega)
  rw [decLoop, decDigit_eq _ (Nat.mod_lt _ (by decide))]

theorem hexLoop_text (hval : val < 2 ^ 64) (hroom : b.text.length ≤ 100) :
    ∃ b', hexLoop b val = some b' ∧ b'.text = loopDigits 16 val ++ b.text := by
  refine loop_text (k := 16) (by decide) (fun b val => ?_) (by omega) (by unfold size; omega)
  have hmask : val &&& 0x0f = val % 16 := Nat.and_two_pow_sub_one_eq_mod val 4
  have hshift : val >>> 4 = val / 16 := Nat.shiftRight_eq_div_pow val 4
  rw [hexLoop, hmask, hshift, hexDigit_eq _ (Nat.mod_lt _ (by decide))]

/-- The digits that `convDec` and `convHex` leave for a value of a signed type: none if it is
negative. -/
def convDigits (base : Nat) (val : Int) : List Char :=
  if val < 0 then [] else Nat.toDigits base val.toNat

/-- The test for zero in front of either loop. -/
theorem zeroTest_text {loop : Buffer → Nat → Option Buffer} {base : Nat}
    (hloop : ∀ b val, val < 2 ^ 64 → b.text.length ≤ 100 →
      ∃ b', loop b val = some b' ∧ b'.text = loopDigits base val ++ b.text)
    {val : Int} (hval : val < 2 ^ 64) :
    ∃ b', ((if val = 0 then Buffer.blank.push '0' else some .blank).bind (loop · val.toNat)) =
      some b' ∧ b'.text = convDigits base val := by
  by_cases hzero : val = 0
  · subst hzero
    obtain ⟨b₁, hpush, htext⟩ := Buffer.blank.push_text (c := '0') (by decide)
    obtain ⟨b₂, hrun, htext₂⟩ := hloop b₁ 0 (by decide) (by rw [htext]; decide)
    refine ⟨b₂, ?_, ?_⟩
    · rw [if_pos rfl, hpush, Option.bind_some]
      exact hrun
    · rw [htext₂, htext]
      exact (Nat.toDigits_zero base).symm
  · obtain ⟨b₁, hrun, htext⟩ := hloop .blank val.toNat (by omega) (by decide)
    refine ⟨b₁, ?_, ?_⟩
    · rw [if_neg hzero, Option.bind_some, hrun]
    · rw [htext, Buffer.text_blank, List.append_nil, loopDigits, convDigits]
      by_cases hneg : val < 0
      · rw [if_pos hneg, if_neg (by omega)]
      · rw [if_neg hneg, if_pos (by omega)]

/-- At most 20 digits, whatever the base. -/
theorem length_convDigits (base : Nat) (hbase : 10 ≤ base) {val : Int} (hval : val < 2 ^ 64) :
    (convDigits base val).length ≤ 20 := by
  unfold convDigits
  split
  · exact Nat.zero_le _
  · rw [Nat.length_toDigits_le_iff (by omega) (by decide)]
    calc val.toNat < 10 ^ 20 := by omega
      _ ≤ base ^ 20 := Nat.pow_le_pow_left hbase 20

/-- What `conv` leaves in an empty buffer. -/
def convText (fmt : Char) (val : Int) : List Char :=
  if fmt = 'd' ∨ fmt = 'u' then convDigits 10 val
  else if fmt = 'x' then '0' :: 'x' :: convDigits 16 val
  else []

theorem length_convText (fmt : Char) (val : Int) (hval : val < 2 ^ 64) :
    (convText fmt val).length ≤ 22 := by
  have hdec := length_convDigits 10 (by decide) hval
  have hhex := length_convDigits 16 (by decide) hval
  unfold convText
  split
  · omega
  · split
    · rw [List.length_cons, List.length_cons]
      omega
    · exact Nat.zero_le _

theorem convDec_text {val : Int} (hval : val < 2 ^ 64) :
    ∃ b', convDec .blank val = some b' ∧ b'.text = convDigits 10 val :=
  zeroTest_text (fun _ _ => decLoop_text) hval

/-- The mark goes in front of the digits. -/
theorem convHex_text {val : Int} (hval : val < 2 ^ 64) :
    ∃ b', convHex .blank val = some b' ∧ b'.text = '0' :: 'x' :: convDigits 16 val := by
  obtain ⟨b₁, hrun, htext⟩ := zeroTest_text (fun _ _ => hexLoop_text) hval
  have hlen := length_convDigits 16 (by decide) hval
  obtain ⟨b₂, hx, htext₂⟩ := b₁.push_text (c := 'x') (by rw [htext]; unfold size; omega)
  obtain ⟨b₃, hzero, htext₃⟩ := b₂.push_text (c := '0') (by
    rw [htext₂, htext, List.length_cons]
    unfold size
    omega)
  refine ⟨b₃, ?_, by rw [htext₃, htext₂, htext]⟩
  rw [convHex, ← Option.bind_assoc, hrun, Option.bind_some, hx, Option.bind_some, hzero]

theorem conv_text (fmt : Char) (val : Int) (hval : val < 2 ^ 64) :
    ∃ b', conv fmt .blank val = some b' ∧ b'.text = convText fmt val := by
  unfold conv
  split
  · exact convDec_text hval
  · exact convDec_text hval
  · exact convHex_text hval
  · refine ⟨_, rfl, ?_⟩
    rw [convText, if_neg (by simp_all), if_neg (by simp_all), Buffer.text_blank]

/-! ### Numbers -/

/-- What `mywrite` leaves in the buffer for a number. -/
def numberText (s : Char) : Number → List Char
  | .int x => if x.toInt < 0 then '-' :: convText s (-x).toInt else convText s x.toInt
  | .unsignedInt x => convText s x.toNat
  | .unsignedLong x => convText s x.toNat

theorem mywriteUnsigned_text (s : Char) {x : Nat} (hx : x < 2 ^ 64) (num : Int32) :
    ∃ b, mywriteUnsigned s x num = some (flush num b) ∧ b.text = convText s x := by
  obtain ⟨b, hconv, htext⟩ := conv_text s x (by omega)
  exact ⟨b, by rw [mywriteUnsigned, hconv, Option.map_some], htext⟩

theorem mywriteInt_text (s : Char) (x num : Int32) :
    ∃ b, mywriteInt s x num = some (flush num b) ∧ b.text = numberText s (.int x) := by
  unfold mywriteInt numberText
  dsimp only
  by_cases hneg : x.toInt < 0
  · have hval := (-x).toInt_lt
    obtain ⟨b, hconv, htext⟩ := conv_text s (-x).toInt (by omega)
    have hlen := length_convText s (-x).toInt (by omega)
    obtain ⟨b', hpush, htext'⟩ := b.push_text (c := '-') (by rw [htext]; unfold size; omega)
    refine ⟨b', ?_, by rw [htext', htext, if_pos hneg]⟩
    simp only [hneg, decide_true, if_true]
    rw [hconv, Option.bind_some, hpush, Option.map_some]
  · have hval := x.toInt_lt
    obtain ⟨b, hconv, htext⟩ := conv_text s x.toInt (by omega)
    refine ⟨b, ?_, by rw [htext, if_neg hneg]⟩
    simp only [hneg, decide_false, Bool.false_eq_true, if_false]
    rw [hconv, Option.bind_some, Option.map_some]

/-- **The buffer of a number** is never overrun, and holds `numberText`. -/
theorem mywrite_number (s : Char) (x : Number) (num : Int32) :
    ∃ b, mywrite s (.number x) num = some (flush num b) ∧ b.text = numberText s x := by
  cases x with
  | int x => exact mywriteInt_text s x num
  | unsignedInt x => exact mywriteUnsigned_text s (Nat.lt_trans x.toNat_lt (by decide)) num
  | unsignedLong x => exact mywriteUnsigned_text s x.toNat_lt num

/-- No argument makes `mywrite` leave its buffer. -/
theorem mywrite_isSome (s : Char) (arg : Arg) (num : Int32) :
    ∃ ws, mywrite s arg num = some ws := by
  cases arg with
  | number x =>
      obtain ⟨b, hrun, -⟩ := mywrite_number s x num
      exact ⟨_, hrun⟩
  | unsignedChar x =>
      obtain ⟨b, hrun, -⟩ := mywriteUnsigned_text s (Nat.lt_trans x.toNat_lt (by decide)) num
      exact ⟨_, hrun⟩
  | string x => exact ⟨_, rfl⟩
  | pointer x =>
      have hval : (x.toNat : Int) < 2 ^ 64 := by
        have := x.toNat_lt
        omega
      obtain ⟨b, hconv, -⟩ := convHex_text hval
      exact ⟨_, by rw [mywrite, hconv, Option.map_some]⟩

/-- The conversions of an integer. -/
inductive Conversion
  | d
  | u
  | x
  deriving DecidableEq

namespace Conversion

/-- The character behind the `%`. -/
def char : Conversion → Char
  | d => 'd'
  | u => 'u'
  | x => 'x'

/-- Whether it writes in base 16. -/
def hex : Conversion → Bool
  | d => false
  | u => false
  | x => true

end Conversion

/-- `mywrite` pads a text up to the width, without leaving its buffer, and the text is the
canonical literal of the number. -/
def Renders (x : Number) (k : Conversion) (num : Int32) : Prop :=
  ∃ ws t, mywrite k.char (.number x) num = some ws ∧
    ws.flatten = List.replicate (num.toInt.toNat - t.length) ' ' ++ t ∧
    Canonical k.hex x.value t ∧ Numeral.read t = some x.value

/-- A value that is not negative is converted to mark and digits. -/
theorem convText_conversion (k : Conversion) (val : Int) (hval : 0 ≤ val) :
    convText k.char val =
      Numeral.mark k.hex ++ Nat.toDigits (Numeral.base k.hex) val.natAbs := by
  have hdigits : ∀ base, convDigits base val = Nat.toDigits base val.natAbs := by
    intro base
    have habs : val.toNat = val.natAbs := by omega
    rw [convDigits, if_neg (by omega), habs]
  cases k with
  | d => exact hdigits 10
  | u => exact hdigits 10
  | x => exact congrArg (['0', 'x'] ++ ·) (hdigits 16)

/-- The negation of a negative `int` is its absolute value, unless it is the least one. -/
theorem toInt_neg_of_ne {x : Int32} (hne : x ≠ Int32.minValue) : (-x).toInt = -x.toInt := by
  have hlow := x.le_toInt
  have hhigh := x.toInt_lt
  have hmin : x.toInt ≠ -2 ^ 31 := fun heq =>
    hne (Int32.toInt_inj.mp (heq.trans Int32.toInt_minValue.symm))
  rw [Int32.toInt_neg, Int.bmod_eq_of_le (by omega) (by omega)]

/-- The text of any other number is its canonical literal. -/
theorem numberText_eq {x : Number} (k : Conversion) (hne : x ≠ .int Int32.minValue) :
    numberText k.char x = literal k.hex x.value := by
  have hnonneg : ∀ val : Int, 0 ≤ val → convText k.char val = literal k.hex val := by
    intro val hval
    rw [convText_conversion k val hval, literal, Numeral.sign, if_neg (by omega), List.nil_append]
  cases x with
  | unsignedInt x => exact hnonneg _ (by omega)
  | unsignedLong x => exact hnonneg _ (by omega)
  | int x =>
      have hx : x ≠ Int32.minValue := fun heq => hne (congrArg Number.int heq)
      rw [numberText]
      by_cases hneg : x.toInt < 0
      · -- the sign is handled by negation, which is exact here
        have hmagnitude := convText_conversion k (-x).toInt
          (by rw [toInt_neg_of_ne hx]; omega)
        rw [toInt_neg_of_ne hx, Int.natAbs_neg] at hmagnitude
        rw [if_pos hneg, toInt_neg_of_ne hx, hmagnitude, Number.value, literal, Numeral.sign,
          if_pos hneg]
        rfl
      · rw [if_neg hneg]
        exact hnonneg _ (by omega)

theorem length_numberText (k : Conversion) (x : Number) :
    (numberText k.char x).length < 2 ^ 31 := by
  obtain ⟨b, -, htext⟩ := mywrite_number k.char x 0
  have hle := b.length_text
  have hsize : size = 128 := rfl
  rw [← htext]
  omega

/-- All that is written for a number. -/
theorem mywrite_flatten (k : Conversion) (x : Number) (hnum : 0 ≤ num) :
    ∃ ws, mywrite k.char (.number x) num = some ws ∧ ws.flatten =
      List.replicate (num.toInt.toNat - (numberText k.char x).length) ' ' ++
        numberText k.char x := by
  obtain ⟨b, hrun, htext⟩ := mywrite_number k.char x num
  refine ⟨_, hrun, ?_⟩
  have hlen := length_numberText k x
  rw [flush, List.flatten_append, List.flatten_singleton, htext, padding_flatten hnum hlen]

/-- The least `int` has no digits: its text ends in the sign, or in the mark. -/
theorem getLast_minValue (k : Conversion) : ∃ c, Numeral.digitValue c = none ∧
    (numberText k.char (.int Int32.minValue)).getLast? = some c := by
  cases k with
  | d => exact ⟨'-', by decide, by decide⟩
  | u => exact ⟨'-', by decide, by decide⟩
  | x => exact ⟨'x', by decide, by decide⟩

/-- **Which numbers are rendered.** -/
theorem mywrite_renders_iff (x : Number) (k : Conversion) (hnum : 0 ≤ num) :
    Renders x k num ↔ x ≠ .int Int32.minValue := by
  obtain ⟨ws, hrun, hflat⟩ := mywrite_flatten k x hnum
  constructor
  · rintro ⟨ws', t, hrun', hflat', hcanonical, -⟩ rfl
    obtain rfl := Option.some.inj (hrun.symm.trans hrun')
    -- padding goes in front, so the last character is the text's: no digit, but a literal has one
    obtain ⟨c, hvalue, hlast⟩ := getLast_minValue k
    obtain ⟨c', d, hlast', hvalue'⟩ := hcanonical.getLast
    have hends := congrArg List.getLast? (hflat.symm.trans hflat')
    rw [List.getLast?_append, List.getLast?_append, hlast, hlast', Option.some_or,
      Option.some_or] at hends
    rw [Option.some.inj hends, hvalue'] at hvalue
    exact absurd hvalue (by simp)
  · intro hne
    rw [numberText_eq k hne] at hflat
    exact ⟨ws, _, hrun, hflat, Numeral.literal_canonical _ _, Numeral.read_literal _ _⟩

/-- 255 in base 16 and a width of 6. -/
theorem mywrite_renders_ff : Renders (.unsignedInt 255) .x 6 :=
  (mywrite_renders_iff (.unsignedInt 255) .x (by decide)).mpr (by decide)

/-- The least `int` is written as a lone minus sign. -/
theorem minValue_not_rendered :
    ¬ (∀ (x : Number) (k : Conversion) (num : Int32), 0 ≤ num → Renders x k num) := by
  intro h
  obtain ⟨ws, t, hrun, hflat, -, hread⟩ := h (.int Int32.minValue) .d 0 (by decide)
  have hminus : mywrite 'd' (.number (.int Int32.minValue)) 0 = some [['-']] := by decide +kernel
  obtain rfl := Option.some.inj (hrun.symm.trans hminus)
  have ht : t = ['-'] := by simpa using hflat.symm
  subst ht
  exact absurd hread (by decide)

end Myprintf

end FCMalloc
