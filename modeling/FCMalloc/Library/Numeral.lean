import Mathlib.Data.Nat.Notation

/-!
# Integer literals

Signed integers as text: a minus sign, the mark `0x` for base 16, and digits. `read` takes such a
text back to its value, whatever its base, and `Canonical` singles out the texts with no plus sign,
no redundant zero and no minus in front of a number that is not negative. `literal` is the
canonical text of a number (`literal_canonical`), and `read` inverts it (`read_literal`).

The digits themselves are those of `Nat.toDigits`.
-/

namespace Numeral

/-- The value of a digit `0` to `9` or `a` to `f`. -/
def digitValue (c : Char) : Option Nat :=
  if '0' ≤ c ∧ c ≤ '9' then some (c.toNat - 48)
  else if 'a' ≤ c ∧ c ≤ 'f' then some (c.toNat - 87)
  else none

/-- Digits in base `b` behind a number of value `v`. -/
def readDigits (b : Nat) : List Char → Nat → Option Nat
  | [], v => some v
  | c :: s, v => (digitValue c).bind fun d => if d < b then readDigits b s (b * v + d) else none

/-- A number without its sign. -/
def readMagnitude : List Char → Option Nat
  | [] => none
  | '0' :: 'x' :: c :: s => readDigits 16 (c :: s) 0
  | s => readDigits 10 s 0

/-- A literal. -/
def read : List Char → Option Int
  | '-' :: s => (readMagnitude s).map fun n : Nat => -(n : Int)
  | s => (readMagnitude s).map fun n : Nat => (n : Int)

/-- The sign of a canonical literal. -/
def sign (v : Int) : List Char := if v < 0 then ['-'] else []

/-- The base, by whether the literal is hexadecimal. -/
def base (hex : Bool) : Nat := if hex then 16 else 10

/-- The mark of the base. -/
def mark (hex : Bool) : List Char := if hex then ['0', 'x'] else []

/-- Sign, mark and digits, with no zero in front of other digits. -/
def Canonical (hex : Bool) (v : Int) (t : List Char) : Prop :=
  ∃ digits, t = sign v ++ (mark hex ++ digits) ∧ digits ≠ [] ∧
    (∀ c ∈ digits, ∃ d < base hex, digitValue c = some d) ∧
    (digits.head? = some '0' → digits = ['0'])

/-- The canonical literal of `v`. -/
def literal (hex : Bool) (v : Int) : List Char :=
  sign v ++ (mark hex ++ Nat.toDigits (base hex) v.natAbs)

/-! ### Digits -/

variable {b n v : Nat} {c : Char} {s t : List Char}

theorem digitValue_digitChar : ∀ d < 16, digitValue d.digitChar = some d := by decide

theorem readDigits_append (b : Nat) (s t : List Char) (v : Nat) :
    readDigits b (s ++ t) v = (readDigits b s v).bind (readDigits b t) := by
  induction s generalizing v with
  | nil => rfl
  | cons c s ih =>
      rw [List.cons_append, readDigits, readDigits]
      cases digitValue c with
      | none => rfl
      | some d =>
          rw [Option.bind_some, Option.bind_some]
          split
          · exact ih _
          · rfl

theorem readDigits_digit {d : Nat} (hb : b ≤ 16) (hd : d < b) (v : Nat) :
    readDigits b [d.digitChar] v = some (b * v + d) := by
  rw [readDigits, digitValue_digitChar d (by omega), Option.bind_some, if_pos hd]
  rfl

/-- **Digits are read back.** -/
theorem readDigits_toDigits (hb : 1 < b) (hb' : b ≤ 16) (n : Nat) :
    readDigits b (Nat.toDigits b n) 0 = some n := by
  induction n using Nat.base_induction b hb with
  | single m hm =>
      rw [Nat.toDigits_of_lt_base hm, readDigits_digit hb' hm, Nat.mul_zero, Nat.zero_add]
  | digit m k hk hm ih =>
      rw [← Nat.toDigits_append_toDigits hb hm hk, readDigits_append, ih,
        Nat.toDigits_of_lt_base hk, Option.bind_some, readDigits_digit hb' hk]

theorem mem_toDigits (hb : 1 < b) (hc : c ∈ Nat.toDigits b n) : ∃ d < b, c = d.digitChar := by
  induction n using Nat.base_induction b hb with
  | single m hm =>
      rw [Nat.toDigits_of_lt_base hm, List.mem_singleton] at hc
      exact ⟨m, hm, hc⟩
  | digit m k hk hm ih =>
      rw [← Nat.toDigits_append_toDigits hb hm hk, Nat.toDigits_of_lt_base hk] at hc
      rcases List.mem_append.mp hc with hc | hc
      · exact ih hc
      · exact ⟨k, hk, List.mem_singleton.mp hc⟩

/-- Only zero begins with a zero. -/
theorem head_toDigits (hb : 1 < b) (hn : 0 < n) : (Nat.toDigits b n).head? ≠ some '0' := by
  induction n using Nat.base_induction b hb with
  | single m hm =>
      rw [Nat.toDigits_of_lt_base hm, List.head?_cons]
      intro heq
      have := Nat.digitChar_eq_zero.mp (Option.some.inj heq)
      omega
  | digit m k hk hm ih =>
      rw [← Nat.toDigits_append_toDigits hb hm hk, List.head?_append]
      obtain ⟨c, hc⟩ := Option.ne_none_iff_exists'.mp
        fun hnone => Nat.toDigits_ne_nil (List.head?_eq_none_iff.mp hnone)
      rw [hc, Option.some_or, ← hc]
      exact ih hm

/-! ### Literals -/

theorem base_spec (hex : Bool) : 1 < base hex ∧ base hex ≤ 16 := by
  cases hex with
  | false => decide
  | true => decide

theorem literal_canonical (hex : Bool) (v : Int) : Canonical hex v (literal hex v) := by
  obtain ⟨hbase, hbase'⟩ := base_spec hex
  refine ⟨_, rfl, Nat.toDigits_ne_nil, fun c hc => ?_, fun hzero => ?_⟩
  · obtain ⟨d, hd, rfl⟩ := mem_toDigits hbase hc
    exact ⟨d, hd, digitValue_digitChar d (by omega)⟩
  · by_cases hv : 0 < v.natAbs
    · exact absurd hzero (head_toDigits hbase hv)
    · rw [Nat.eq_zero_of_not_pos hv, Nat.toDigits_zero]

/-- The digits of a decimal number are no mark and no sign. -/
theorem readMagnitude_decimal (hne : s ≠ []) (hx : 'x' ∉ s) :
    readMagnitude s = readDigits 10 s 0 := by
  unfold readMagnitude
  split
  · exact absurd rfl hne
  · exact absurd (List.mem_cons_of_mem _ List.mem_cons_self) hx
  · rfl

theorem readMagnitude_hex (hne : s ≠ []) :
    readMagnitude ('0' :: 'x' :: s) = readDigits 16 s 0 := by
  cases s with
  | nil => exact absurd rfl hne
  | cons c s => rfl

theorem readMagnitude_literal (hex : Bool) (n : Nat) :
    readMagnitude (mark hex ++ Nat.toDigits (base hex) n) = some n := by
  obtain ⟨hbase, hbase'⟩ := base_spec hex
  cases hex with
  | false =>
      have hx : 'x' ∉ Nat.toDigits 10 n := by
        intro hmem
        obtain ⟨d, hd, heq⟩ := mem_toDigits (by decide) hmem
        exact Nat.digitChar_ne 'x' (by decide) heq.symm
      exact (readMagnitude_decimal Nat.toDigits_ne_nil hx).trans
        (readDigits_toDigits (by decide) (by decide) n)
  | true =>
      exact (readMagnitude_hex Nat.toDigits_ne_nil).trans
        (readDigits_toDigits (by decide) (by decide) n)

/-- A number without a sign is read as it is. -/
theorem read_of_head_ne (hs : s.head? ≠ some '-') :
    read s = (readMagnitude s).map fun n : Nat => (n : Int) := by
  unfold read
  split
  · exact absurd rfl hs
  · rfl

/-- What follows the sign of a literal is no sign. -/
theorem head_magnitude_ne (hex : Bool) (n : Nat) :
    (mark hex ++ Nat.toDigits (base hex) n).head? ≠ some '-' := by
  cases hex with
  | true => simp [mark]
  | false =>
      intro heq
      have hmem : '-' ∈ Nat.toDigits 10 n := List.mem_of_head? heq
      obtain ⟨d, -, hd⟩ := mem_toDigits (by decide) hmem
      exact Nat.digitChar_ne '-' (by decide) hd.symm

/-- **A literal is read back.** -/
theorem read_literal (hex : Bool) (v : Int) : read (literal hex v) = some v := by
  unfold literal sign
  split
  · rw [List.singleton_append, read, readMagnitude_literal, Option.map_some]
    congr 1
    omega
  · rw [List.nil_append, read_of_head_ne (head_magnitude_ne hex _), readMagnitude_literal,
      Option.map_some]
    congr 1
    omega

/-- A canonical literal ends in a digit. -/
theorem Canonical.getLast {hex : Bool} {v : Int} (h : Canonical hex v t) :
    ∃ c d, t.getLast? = some c ∧ digitValue c = some d := by
  obtain ⟨digits, rfl, hne, hdigits, -⟩ := h
  obtain ⟨d, -, hd⟩ := hdigits _ (List.getLast_mem hne)
  refine ⟨digits.getLast hne, d, ?_, hd⟩
  rw [← List.append_assoc, List.getLast?_append, List.getLast?_eq_some_getLast hne, Option.some_or]

end Numeral
