import FCMalloc.Library.CountedLoop
import Mathlib.Data.Nat.Notation

/-!
# FCMalloc.MyprintfImpl

`myprintf_impl.hpp` and `myprintf_impl.cpp`: the formatter the allocator logs through, which
allocates no memory.

Numbers are converted backwards into a buffer on the stack (`Buffer`), whose `push` is `none` for a
store in front of it. Everything written goes to one descriptor, so a function returns the bytes of
its calls of `write`, in order (`Writes`). An `int` is an `Int32`. Where its arithmetic overflows,
C++ leaves the result undefined; it wraps here, as in the debug build, which alone calls `mywrite`
and is compiled with `-O0`. Optimised code may do otherwise.

A `char *` into the format is the rest of the format's memory from there on, the terminating zero
included: `*ps` is its first element and `++ps` its tail. `[]` is a pointer past the zero, and
reading through it is `none`.
-/

namespace FCMalloc

namespace Myprintf

/-- `size`, the length of the buffers. -/
def size : Nat := 128

/-- `'\0'`. -/
def nul : Char := Char.ofNat 0

/-- The bytes of successive calls of `write`. -/
abbrev Writes := List (List Char)

/-! ### Buffers -/

/-- `buf` and `pbuf` of `mywrite`. -/
structure Buffer where
  cells : Vector Char size
  pbuf : Nat
  pbuf_le : pbuf ≤ size

namespace Buffer

/-- `char buf[size] = { 0 }`, with `pbuf` at its end. -/
def blank : Buffer := ⟨Vector.replicate size nul, size, Nat.le_refl _⟩

/-- `*(--pbuf) = c`, or `none` in front of the buffer. -/
def push (b : Buffer) (c : Char) : Option Buffer :=
  if h : 0 < b.pbuf then
    have hlt : b.pbuf - 1 < size := Nat.lt_of_lt_of_le (Nat.sub_one_lt_of_lt h) b.pbuf_le
    some ⟨b.cells.set (b.pbuf - 1) c hlt, b.pbuf - 1, Nat.le_of_lt hlt⟩
  else none

/-- The bytes from `pbuf` up to `pbuf_end`. -/
def text (b : Buffer) : List Char := b.cells.toList.drop b.pbuf

variable {b b' : Buffer} {c : Char}

@[simp] theorem text_blank : blank.text = [] := rfl

theorem length_text (b : Buffer) : b.text.length = size - b.pbuf := by
  rw [text, List.length_drop, Vector.length_toList]

/-- A store in the buffer puts a byte in front of the text. -/
theorem push_text (hroom : b.text.length < size) :
    ∃ b', b.push c = some b' ∧ b'.text = c :: b.text := by
  rw [length_text] at hroom
  have hpos : 0 < b.pbuf := by omega
  have hle := b.pbuf_le
  have hlt : b.pbuf - 1 < b.cells.toList.length := by
    rw [Vector.length_toList]
    omega
  have hset : (b.cells.toList.set (b.pbuf - 1) c).drop (b.pbuf - 1) =
      c :: b.cells.toList.drop b.pbuf := by
    rw [List.drop_eq_getElem_cons (by rwa [List.length_set]), List.getElem_set_self,
      Nat.sub_add_cancel hpos, List.drop_set_of_lt (Nat.sub_one_lt_of_lt hpos)]
  refine ⟨_, dif_pos hpos, ?_⟩
  rw [text, Vector.toList_set]
  exact hset

end Buffer

/-! ### Conversions -/

/-- The loop of `convDec`. -/
def decLoop (b : Buffer) (val : Nat) : Option Buffer :=
  if 0 < val then (b.push (Char.ofNat ('0'.toNat + val % 10))).bind (decLoop · (val / 10))
  else some b
termination_by val

/-- `convDec`. The loop makes no round for a negative value. -/
def convDec (b : Buffer) (val : Int) : Option Buffer :=
  (if val = 0 then b.push '0' else some b).bind (decLoop · val.toNat)

/-- The digit that `convHex` writes for `v`. -/
def hexDigit (v : Nat) : Char :=
  if v < 10 then Char.ofNat ('0'.toNat + v) else Char.ofNat ('a'.toNat + (v - 10))

/-- The loop of `convHex`. -/
def hexLoop (b : Buffer) (val : Nat) : Option Buffer :=
  if 0 < val then (b.push (hexDigit (val &&& 0x0f))).bind (hexLoop · (val >>> 4))
  else some b
termination_by val
decreasing_by
  rw [Nat.shiftRight_eq_div_pow]
  omega

/-- `convHex`. -/
def convHex (b : Buffer) (val : Int) : Option Buffer :=
  (if val = 0 then b.push '0' else some b).bind fun b =>
    (hexLoop b val.toNat).bind fun b => (b.push 'x').bind (·.push '0')

/-- `conv`. Other formats write nothing. -/
def conv (fmt : Char) (b : Buffer) (val : Int) : Option Buffer :=
  match fmt with
  | 'd' => convDec b val
  | 'u' => convDec b val
  | 'x' => convHex b val
  | _ => some b

/-! ### Writing a value -/

/-- `repeat_char`. -/
def repeatChar (c : Char) (n : Int32) : Writes :=
  if n.toInt ≤ 0 then []
  else
    let s := List.replicate size c
    let n := n.toInt.toNat
    let full := forRange (n / size) (fun _ ws => ws ++ [s]) []
    let remain := n % size
    if 0 < remain then full ++ [s.take remain] else full

/-- The padding in front of `len` bytes. The difference is a `ptrdiff_t` or a `size_t` and becomes
an `int` in the call. -/
def padding (num : Int32) (len : Nat) : Writes := repeatChar ' ' (Int32.ofInt (num.toInt - len))

/-- What the number overloads of `mywrite` do with a converted buffer. -/
def flush (num : Int32) (b : Buffer) : Writes := padding num b.text.length ++ [b.text]

/-- A value of one of the three integer types that are printed as numbers. -/
inductive Number
  | int (x : Int32)
  | unsignedInt (x : UInt32)
  | unsignedLong (x : UInt64)
  deriving DecidableEq

/-- The value. -/
def Number.value : Number → Int
  | int x => x.toInt
  | unsignedInt x => x.toNat
  | unsignedLong x => x.toNat

/-- An argument of `myprintf`, by the overload of `mywrite` that takes it. The bytes of a string
end before its zero. -/
inductive Arg
  | number (x : Number)
  | unsignedChar (x : UInt8)
  | string (x : List Char)
  | pointer (x : UInt64)

/-- `mywrite` of an `int`. -/
def mywriteInt (s : Char) (x : Int32) (num : Int32) : Option Writes :=
  let revFlag := decide (x.toInt < 0)
  let xval := if revFlag then -x else x
  (conv s .blank xval.toInt).bind fun b =>
    (if revFlag then b.push '-' else some b).map (flush num)

/-- `mywrite` of an unsigned type. -/
def mywriteUnsigned (s : Char) (x : Nat) (num : Int32) : Option Writes :=
  (conv s .blank x).map (flush num)

/-- `mywrite(fd, s, x, num)`, with `*s`. The address of a pointer is padded behind. -/
def mywrite (s : Char) (arg : Arg) (num : Int32) : Option Writes :=
  match arg with
  | .number (.int x) => mywriteInt s x num
  | .number (.unsignedInt x) => mywriteUnsigned s x.toNat num
  | .number (.unsignedLong x) => mywriteUnsigned s x.toNat num
  | .unsignedChar x => mywriteUnsigned s x.toNat num
  | .string x => some (padding num x.length ++ [x])
  | .pointer x =>
      (convHex .blank x.toNat).map fun b => [b.text] ++ padding num b.text.length

/-! ### Scanning a format -/

/-- The `ps - ps_begin` bytes from `ps_begin` on. -/
def between (psBegin ps : List Char) : List Char := psBegin.take (psBegin.length - ps.length)

/-- The loop over a width. A pointer past the zero is left to the next test of `*ps`. -/
def scanWidth (num : Int32) : (ps : List Char) → List Char × Int32
  | [] => ([], num)
  | c :: ps =>
      if c.isDigit then scanWidth (num * 10 + Int32.ofNat (c.toNat - '0'.toNat)) ps
      else (c :: ps, num)

/-- `if (*ps == 'l') ++ps`. -/
def skipOneL : (ps : List Char) → List Char
  | [] => []
  | c :: ps => if c = 'l' then ps else c :: ps

/-- Ignore `l` of `%ld`, `%lu`, `%lld` or `%llu`. -/
def skipL : (ps : List Char) → List Char
  | [] => []
  | c :: ps => if c = 'l' then skipOneL ps else c :: ps

theorem scanWidth_length (num : Int32) (ps : List Char) :
    (scanWidth num ps).1.length ≤ ps.length := by
  induction ps generalizing num with
  | nil => exact Nat.le_refl _
  | cons c ps ih =>
      rw [scanWidth]
      split
      · exact Nat.le_succ_of_le (ih _)
      · exact Nat.le_refl _

theorem skipOneL_length (ps : List Char) : (skipOneL ps).length ≤ ps.length := by
  cases ps with
  | nil => exact Nat.le_refl _
  | cons c ps =>
      rw [skipOneL]
      split
      · exact Nat.le_succ _
      · exact Nat.le_refl _

theorem skipL_length (ps : List Char) : (skipL ps).length ≤ ps.length := by
  cases ps with
  | nil => exact Nat.le_refl _
  | cons c ps =>
      rw [skipL]
      split
      · exact Nat.le_succ_of_le (skipOneL_length ps)
      · exact Nat.le_refl _

/-- How the loop of `myprintf` ends: at the zero, or at a conversion `c` with width `num`, in front
of `ps`. -/
inductive Scan
  | finished
  | conversion (c : Char) (num : Int32) (ps : List Char)

/-- The loop of `myprintf` with a value at hand: what it writes, and how it ends. -/
def scanLoop (psBegin ps : List Char) : Option (Writes × Scan) :=
  match ps with
  | [] => none
  | c :: rest =>
      if c = nul then some ([], .finished)
      else if c = '%' then
        let width := scanWidth 0 rest
        match _h : skipL width.1 with
        | [] => none
        | d :: after =>
            if d ≠ '%' then some ([between psBegin (c :: rest)], .conversion d width.2 after)
            else (scanLoop rest after).map fun r => (between psBegin (c :: rest) :: r.1, r.2)
      else scanLoop psBegin rest
termination_by ps.length
decreasing_by
  · have hskip := skipL_length (scanWidth 0 rest).1
    have hwidth := scanWidth_length 0 rest
    rw [_h] at hskip
    simp only [List.length_cons] at hskip ⊢
    omega
  · exact Nat.lt_succ_self _

/-- The loop of `myprintf` without a value: a byte behind a `%` is never looked at. -/
def plainLoop (psBegin ps : List Char) : Option Writes :=
  match ps with
  | [] => none
  | c :: rest =>
      if c = nul then some [between psBegin (c :: rest)]
      else if c = '%' then (plainLoop rest rest.tail).map (between psBegin (c :: rest) :: ·)
      else plainLoop psBegin rest
termination_by ps.length
decreasing_by
  · simp only [List.length_tail, List.length_cons]
    omega
  · exact Nat.lt_succ_self _

/-- `myprintf(fd, s, args...)`, or `none` if it reads past the zero of `s` or stores in front of a
buffer. -/
def myprintf : (s : List Char) → (args : List Arg) → Option Writes
  | s, [] => plainLoop s s
  | s, value :: args =>
      (scanLoop s s).bind fun r =>
        match r.2 with
        | .finished => some r.1
        | .conversion c num ps =>
            (mywrite c value num).bind fun ws =>
              (myprintf ps args).map fun ws' => r.1 ++ ws ++ ws'

end Myprintf

end FCMalloc
