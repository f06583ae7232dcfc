import Mathlib.Algebra.Group.Int.Defs
import Mathlib.Algebra.Group.Nat.Defs
import Mathlib.Data.Fin.Basic
import Mathlib.Data.List.TakeWhile

/-!
# Tokens and numbers in C buffers

`strtok` with a single delimiter and `atoi`, over a buffer that is a list of bytes.

`strtok d buf pos` is the call that continues at index `pos` of the buffer. It returns `none`
if it would read past the end of the buffer, and otherwise the token with the index and value
of the last byte it looked at, so that a client can tell how far it scanned. What it finds is
read off the shape of the buffer from `pos` on: a token that ends in the delimiter
(`strtok_token`), the end of the string (`strtok_end`), or neither before the buffer ends
(`strtok_overflow`). A `Numeral` is a decimal integer in range, and `atoi` reads it back
(`atoi_text`).
-/

namespace CString

/-- The result of a call of `strtok`: the token if there was one, the buffer with the token
terminated, the index where the next call goes on, and the last byte looked at. -/
structure Token where
  text : Option (List UInt8)
  buf : List UInt8
  save : Nat
  last : Nat
  seen : UInt8

/-- `strtok(s, "d")` from index `pos` on, or `none` if it runs off the buffer. -/
def strtok (d : UInt8) (buf : List UInt8) (pos : Nat) : Option Token :=
  let start := pos + ((buf.drop pos).takeWhile (· = d)).length
  match (buf.drop pos).dropWhile (· = d) with
  | [] => none
  | b :: rest =>
      if b = 0 then some ⟨none, buf, start, start, 0⟩
      else
        let text := (b :: rest).takeWhile fun x => x ≠ d ∧ x ≠ 0
        let stop := start + text.length
        match (b :: rest).dropWhile fun x => x ≠ d ∧ x ≠ 0 with
        | [] => none
        | e :: _ =>
            if e = 0 then some ⟨some text, buf, stop, stop, 0⟩
            else some ⟨some text, buf.set stop 0, stop + 1, stop, e⟩

/-! ### What a call finds -/

section Strtok

variable {d x : UInt8} {gap w : List UInt8}

/-- A run of delimiters. -/
def IsGap (d : UInt8) (gap : List UInt8) : Prop := ∀ b ∈ gap, b = d

/-- Bytes of one token: neither the delimiter nor zero. -/
def IsWord (d : UInt8) (w : List UInt8) : Prop := ∀ b ∈ w, b ≠ d ∧ b ≠ 0

theorem dropWhile_gap (post : List UInt8) (hgap : IsGap d gap) (hx : x ≠ d) :
    (gap ++ x :: post).dropWhile (· = d) = x :: post ∧
      (gap ++ x :: post).takeWhile (· = d) = gap := by
  have hall : ∀ b ∈ gap, decide (b = d) = true := fun b hb => decide_eq_true (hgap b hb)
  rw [List.dropWhile_append_of_pos hall, List.takeWhile_append_of_pos hall]
  simp [hx]

theorem dropWhile_word (post : List UInt8) (hw : IsWord d w) (hx : x = d ∨ x = 0) :
    ((w ++ x :: post).dropWhile fun b => b ≠ d ∧ b ≠ 0) = x :: post ∧
      ((w ++ x :: post).takeWhile fun b => b ≠ d ∧ b ≠ 0) = w := by
  have hall : ∀ b ∈ w, decide (b ≠ d ∧ b ≠ 0) = true := fun b hb => decide_eq_true (hw b hb)
  have hstop : decide (x ≠ d ∧ x ≠ 0) = false := by
    cases hx with
    | inl hx => simp [hx]
    | inr hx => simp [hx]
  rw [List.dropWhile_append_of_pos hall, List.takeWhile_append_of_pos hall,
    List.dropWhile_cons_of_neg (by simp [hstop]), List.takeWhile_cons_of_neg (by simp [hstop])]
  exact ⟨rfl, List.append_nil w⟩

/-- **A token** behind delimiters is found, and the delimiter behind it overwritten. -/
theorem strtok_token (pre post : List UInt8) (hd : d ≠ 0) (hgap : IsGap d gap) (hw : IsWord d w)
    (hne : w ≠ []) :
    strtok d (pre ++ (gap ++ (w ++ d :: post))) pre.length =
      some ⟨some w, pre ++ (gap ++ (w ++ 0 :: post)),
        pre.length + gap.length + w.length + 1, pre.length + gap.length + w.length, d⟩ := by
  cases w with
  | nil => exact absurd rfl hne
  | cons b w =>
      obtain ⟨hbd, hb0⟩ := hw b List.mem_cons_self
      obtain ⟨hdrop, htake⟩ := dropWhile_gap (w ++ d :: post) hgap hbd
      obtain ⟨hdrop', htake'⟩ := dropWhile_word post hw (Or.inl rfl)
      have hset : (pre ++ (gap ++ (b :: w ++ d :: post))).set
          (pre.length + gap.length + (b :: w).length) 0 =
            pre ++ (gap ++ (b :: w ++ 0 :: post)) := by
        rw [List.set_append_right _ _ (by omega), List.set_append_right _ _ (by omega),
          List.set_append_right _ _ (by omega)]
        simp [Nat.add_assoc]
      rw [strtok, List.drop_left]
      rw [List.cons_append] at *
      rw [hdrop, htake]
      dsimp only
      rw [if_neg hb0, hdrop', htake']
      dsimp only
      rw [if_neg hd, hset]

/-- The end of the string behind delimiters gives no token. -/
theorem strtok_end (pre post : List UInt8) (hd : d ≠ 0) (hgap : IsGap d gap) :
    strtok d (pre ++ (gap ++ 0 :: post)) pre.length =
      some ⟨none, pre ++ (gap ++ 0 :: post), pre.length + gap.length, pre.length + gap.length, 0⟩ := by
  obtain ⟨hdrop, htake⟩ := dropWhile_gap post hgap hd.symm
  rw [strtok, List.drop_left, hdrop, htake]
  rfl

/-- A call looks at least at the first byte that is no delimiter, and behind it unless it is
zero. -/
theorem strtok_last {t : Token} {buf : List UInt8} {pos : Nat} (h : strtok d buf pos = some t) :
    ∃ b rest, (buf.drop pos).dropWhile (· = d) = b :: rest ∧
      pos + ((buf.drop pos).takeWhile (· = d)).length ≤ t.last ∧
      (b ≠ 0 → pos + ((buf.drop pos).takeWhile (· = d)).length < t.last) := by
  rw [strtok] at h
  cases hdrop : (buf.drop pos).dropWhile (· = d) with
  | nil =>
      rw [hdrop] at h
      exact absurd h (by simp)
  | cons b rest =>
      rw [hdrop] at h
      dsimp only at h
      refine ⟨b, rest, rfl, ?_⟩
      by_cases hb : b = 0
      · rw [if_pos hb] at h
        obtain rfl := Option.some.inj h
        exact ⟨Nat.le_refl _, fun hne => absurd hb hne⟩
      · have hbd : b ≠ d := by
          have hhead := List.head?_dropWhile_not (fun x => decide (x = d)) (buf.drop pos)
          rw [hdrop] at hhead
          simpa using hhead
        have hlong : 0 < ((b :: rest).takeWhile fun x => x ≠ d ∧ x ≠ 0).length := by
          rw [List.takeWhile_cons_of_pos (by simp [hbd, hb])]
          exact Nat.succ_pos _
        have hlt : pos + ((buf.drop pos).takeWhile (· = d)).length < t.last := by
          rw [if_neg hb] at h
          split at h
          · exact absurd h (by simp)
          · split at h
            · obtain rfl := Option.some.inj h
              exact Nat.lt_add_of_pos_right hlong
            · obtain rfl := Option.some.inj h
              exact Nat.lt_add_of_pos_right hlong
        exact ⟨Nat.le_of_lt hlt, fun _ => hlt⟩

/-- **A buffer that ends in a token** is left behind. -/
theorem strtok_overflow (pre : List UInt8) (hgap : IsGap d gap) (hw : IsWord d w) :
    strtok d (pre ++ (gap ++ w)) pre.length = none := by
  have hall : ∀ b ∈ gap, decide (b = d) = true := fun b hb => decide_eq_true (hgap b hb)
  have hdrop : (gap ++ w).dropWhile (· = d) = w := by
    rw [List.dropWhile_append_of_pos hall]
    cases w with
    | nil => rfl
    | cons b w => exact List.dropWhile_cons_of_neg (by simp [(hw b List.mem_cons_self).1])
  rw [strtok, List.drop_left, hdrop]
  cases w with
  | nil => rfl
  | cons b w =>
      have hend : ((b :: w).dropWhile fun x => x ≠ d ∧ x ≠ 0) = [] :=
        List.dropWhile_eq_nil_iff.mpr fun x hx => decide_eq_true (hw x hx)
      dsimp only
      rw [if_neg (hw b List.mem_cons_self).2, hend]

end Strtok

/-! ### Numbers -/

/-- `isspace` in the C locale. -/
def isSpace (b : UInt8) : Bool := b = 32 ∨ 9 ≤ b ∧ b ≤ 13

/-- `isdigit`. -/
def isDigit (b : UInt8) : Bool := 48 ≤ b ∧ b ≤ 57

/-- The value of a run of digits. -/
def digitsValue (s : List UInt8) : Nat := s.foldl (fun v b => 10 * v + (b.toNat - 48)) 0

/-- The conversion to `int` of a `long` that `strtol` clamps to its range. -/
def toInt (v : Int) : Int := Int.bmod (max (-2 ^ 63) (min v (2 ^ 63 - 1))) (2 ^ 32)

/-- `atoi`: white space, a sign, and the digits up to the first other byte. -/
def atoi (s : List UInt8) : Int :=
  match s.dropWhile isSpace with
  | 45 :: t => toInt (-(digitsValue (t.takeWhile isDigit)))
  | 43 :: t => toInt (digitsValue (t.takeWhile isDigit))
  | t => toInt (digitsValue (t.takeWhile isDigit))

/-- How a numeral begins. -/
inductive Sign
  | none
  | plus
  | minus
  deriving DecidableEq, Repr

/-- The bytes of a sign. -/
def Sign.text : Sign → List UInt8
  | none => []
  | plus => [43]
  | minus => [45]

/-- The value of digits behind a sign. -/
def Sign.apply : Sign → Nat → Int
  | minus, v => -v
  | _, v => v

/-- The character of a digit. -/
def digitChar (d : Fin 10) : UInt8 := UInt8.ofNat (48 + d.val)

/-- A decimal integer in the range of `int`. -/
structure Numeral where
  sign : Sign
  digits : List (Fin 10)
  nonempty : digits ≠ []
  isInt : -2 ^ 31 ≤ sign.apply (digits.foldl (fun v d => 10 * v + d.val) 0) ∧
    sign.apply (digits.foldl (fun v d => 10 * v + d.val) 0) < 2 ^ 31

namespace Numeral

def value (n : Numeral) : Int := n.sign.apply (n.digits.foldl (fun v d => 10 * v + d.val) 0)

def text (n : Numeral) : List UInt8 := n.sign.text ++ n.digits.map digitChar

end Numeral

theorem digitChar_toNat (d : Fin 10) : (digitChar d).toNat = 48 + d.val := by
  revert d
  decide

theorem isDigit_digitChar (d : Fin 10) : isDigit (digitChar d) = true := by
  revert d
  decide

/-- A digit is no white space and no sign. -/
theorem digitChar_plain (d : Fin 10) :
    isSpace (digitChar d) = false ∧ digitChar d ≠ 45 ∧ digitChar d ≠ 43 := by
  revert d
  decide

/-- Digits are read back by their characters. -/
theorem digitsValue_map (digits : List (Fin 10)) :
    digitsValue (digits.map digitChar) = digits.foldl (fun v d => 10 * v + d.val) 0 := by
  rw [digitsValue, List.foldl_map]
  congr 1
  funext v d
  rw [digitChar_toNat, Nat.add_sub_cancel_left]

theorem takeWhile_digits (digits : List (Fin 10)) :
    (digits.map digitChar).takeWhile isDigit = digits.map digitChar := by
  rw [List.takeWhile_eq_self_iff]
  intro b hb
  obtain ⟨d, -, rfl⟩ := List.mem_map.mp hb
  exact isDigit_digitChar d

/-- A value of type `int` passes the conversion unchanged. -/
theorem toInt_of_isInt {v : Int} (h : -2 ^ 31 ≤ v ∧ v < 2 ^ 31) : toInt v = v := by
  have hclamp : max (-2 ^ 63) (min v (2 ^ 63 - 1)) = v := by omega
  rw [toInt, hclamp, Int.bmod_eq_of_le (by omega) (by omega)]

/-- **`atoi` reads a numeral back.** -/
theorem atoi_text (n : Numeral) : atoi n.text = n.value := by
  obtain ⟨sign, digits, hne, hint⟩ := n
  have hvalue := digitsValue_map digits
  have htake := takeWhile_digits digits
  cases sign with
  | minus =>
      have hdrop : (Sign.minus.text ++ digits.map digitChar).dropWhile isSpace =
          45 :: digits.map digitChar := rfl
      rw [atoi, Numeral.text, hdrop]
      show toInt (-(digitsValue ((digits.map digitChar).takeWhile isDigit))) = _
      rw [htake, hvalue]
      exact toInt_of_isInt hint
  | plus =>
      have hdrop : (Sign.plus.text ++ digits.map digitChar).dropWhile isSpace =
          43 :: digits.map digitChar := rfl
      rw [atoi, Numeral.text, hdrop]
      show toInt (digitsValue ((digits.map digitChar).takeWhile isDigit)) = _
      rw [htake, hvalue]
      exact toInt_of_isInt hint
  | none =>
      cases digits with
      | nil => exact absurd rfl hne
      | cons d digits =>
          obtain ⟨hspace, hminus, hplus⟩ := digitChar_plain d
          have hdrop : (Sign.none.text ++ (d :: digits).map digitChar).dropWhile isSpace =
              (d :: digits).map digitChar := List.dropWhile_cons_of_neg (by simp [hspace])
          rw [atoi, Numeral.text, hdrop]
          split
          · next heq => exact absurd (List.cons.inj heq).1 hminus
          · next heq => exact absurd (List.cons.inj heq).1 hplus
          · rw [htake, hvalue]
            exact toInt_of_isInt hint

/-- The bytes of a numeral are neither zero nor white space. -/
theorem Numeral.text_plain (n : Numeral) : ∀ b ∈ n.text, b ≠ 0 ∧ isSpace b = false := by
  intro b hb
  rcases List.mem_append.mp hb with hb | hb
  · cases hs : n.sign with
    | none =>
        rw [hs] at hb
        exact absurd hb List.not_mem_nil
    | plus =>
        rw [hs] at hb
        obtain rfl : b = 43 := List.mem_singleton.mp hb
        exact ⟨by decide, rfl⟩
    | minus =>
        rw [hs] at hb
        obtain rfl : b = 45 := List.mem_singleton.mp hb
        exact ⟨by decide, rfl⟩
  · obtain ⟨d, -, rfl⟩ := List.mem_map.mp hb
    have hdigit : ∀ d, digitChar d ≠ 0 := by decide
    exact ⟨hdigit d, (digitChar_plain d).1⟩

theorem Numeral.text_ne_nil (n : Numeral) : n.text ≠ [] := by
  intro hnil
  exact n.nonempty (List.map_eq_nil_iff.mp (List.append_eq_nil_iff.mp hnil).2)

end CString
