import FCMalloc.NumberRendering
import Mathlib.Data.List.TakeWhile

/-!
# FCMalloc.FormatScanning

The two scanners of `myprintf` against what a format says.

`pieces` reads a format as literal characters, `%%`, conversions, and what is left: a `%` that
begins none of these. `expected` is then what should be written. The scanners keep text back until
the next `%`, so every lemma about them carries the text `p` not written yet: `scanned` and
`plain` are what the scanners write from there on, with one equation for each kind of piece. What is
kept back is written first, or lost (`scanned_head`, `plain_head`), which is how a wrong character
shows.

`myprintf_prints_iff` gives the calls that print what they should. With a value at hand the scanner
returns at the end of the format without writing what it kept back, and a `%` at the very end makes
either scanner step over the terminating zero.
-/

namespace FCMalloc

namespace Myprintf

/-! ### Formats -/

/-- A string without its terminating zero. -/
structure Format where
  chars : List Char
  noNul : nul ∉ chars

/-- The memory of a format, from its first character on. -/
def Format.memory (s : Format) : List Char := s.chars ++ [nul]

/-- What a format consists of. A `%` with digits and up to two `l` behind it is a conversion if a
character other than `%` follows, and `%%` if there is nothing in between. `stray` is any other
`%`, with the characters up to the next `%` or the end. -/
inductive Piece
  | literal (c : Char)
  | percent
  | conversion (c : Char) (num : Int32)
  | stray (text : List Char)
  deriving DecidableEq

namespace Piece

def isConversion : Piece → Bool
  | conversion _ _ => true
  | _ => false

def isStray : Piece → Bool
  | stray _ => true
  | _ => false

end Piece

/-- What follows the digits and the `l` behind a `%`. -/
def afterPrefix (s : List Char) : List Char := skipL (s.dropWhile Char.isDigit)

/-- The width that `s` begins with. -/
def width (s : List Char) : Int32 :=
  (s.takeWhile Char.isDigit).foldl (fun num c => num * 10 + Int32.ofNat (c.toNat - '0'.toNat)) 0

theorem afterPrefix_length (s : List Char) : (afterPrefix s).length ≤ s.length :=
  Nat.le_trans (skipL_length _) (List.dropWhile_suffix _).length_le

/-- The pieces of a format. -/
def pieces (s : List Char) : List Piece :=
  match s with
  | [] => []
  | c :: rest =>
      if c ≠ '%' then .literal c :: pieces rest
      else
        match _h : afterPrefix rest with
        | [] => [.stray (c :: rest)]
        | d :: after =>
            if d ≠ '%' then .conversion d (width rest) :: pieces after
            else if rest = d :: after then .percent :: pieces after
            else .stray (c :: rest.take (rest.length - after.length)) :: pieces after
termination_by s.length
decreasing_by
  · exact Nat.lt_succ_self _
  all_goals
    have hle := afterPrefix_length rest
    rw [_h] at hle
    simp only [List.length_cons] at hle ⊢
    omega

/-- The number of values a format asks for. -/
def conversions (ps : List Piece) : Nat := ps.countP Piece.isConversion

/-- What `mywrite` writes for a conversion. -/
def rendered (c : Char) (arg : Arg) (num : Int32) : List Char :=
  ((mywrite c arg num).getD []).flatten

/-- What should be written: literal text as it stands, one `%` for `%%`, and the values. -/
def expected : List Piece → List Arg → List Char
  | [], _ => []
  | .literal c :: ps, args => c :: expected ps args
  | .percent :: ps, args => '%' :: expected ps args
  | .stray text :: ps, args => text ++ expected ps args
  | .conversion c num :: ps, arg :: args => rendered c arg num ++ expected ps args
  | .conversion _ _ :: _, [] => []

/-- The call reads nothing behind the zero of the format, and writes what it should. -/
def Prints (s : Format) (args : List Arg) : Prop :=
  ∃ ws, myprintf s.memory args = some ws ∧ ws.flatten = expected (pieces s.chars) args

/-- There is no stray `%`, and either a conversion for every value or no text behind the last
conversion. -/
structure Printable (ps : List Piece) (values : Nat) : Prop where
  noStray : ∀ p ∈ ps, p.isStray = false
  tail : values = conversions ps ∨ ∀ p ∈ ps.getLast?, p.isConversion = true

/-! ### Pieces -/

variable {s after p out : List Char} {c d : Char} {value : Arg} {args : List Arg}

theorem pieces_nil : pieces [] = [] := by rw [pieces]

theorem pieces_literal (hc : c ≠ '%') (s : List Char) :
    pieces (c :: s) = .literal c :: pieces s := by
  rw [pieces, if_pos hc]

theorem pieces_end (h : afterPrefix s = []) : pieces ('%' :: s) = [.stray ('%' :: s)] := by
  rw [pieces, if_neg (by simp)]
  split
  · rfl
  · next hd => rw [h] at hd; exact absurd hd (by simp)

theorem pieces_conversion (h : afterPrefix s = d :: after) (hd : d ≠ '%') :
    pieces ('%' :: s) = .conversion d (width s) :: pieces after := by
  rw [pieces, if_neg (by simp)]
  split
  · next heq => exact absurd (h.symm.trans heq) (by simp)
  · next heq =>
      obtain ⟨rfl, rfl⟩ := List.cons.inj (h.symm.trans heq)
      rw [if_pos hd]

theorem pieces_percent (s : List Char) : pieces ('%' :: '%' :: s) = .percent :: pieces s := by
  rw [pieces, if_neg (by simp)]
  split
  · next heq => exact absurd heq (by simp [afterPrefix, skipL])
  · next d after heq =>
      have hsame : afterPrefix ('%' :: s) = '%' :: s := rfl
      obtain ⟨rfl, rfl⟩ := List.cons.inj (hsame.symm.trans heq)
      rw [if_neg (by simp), if_pos rfl]

theorem pieces_stray {w : List Char} (h : afterPrefix (w ++ '%' :: after) = '%' :: after)
    (hw : w ≠ []) : pieces ('%' :: (w ++ '%' :: after)) =
      .stray ('%' :: (w ++ ['%'])) :: pieces after := by
  have hsplit : w ++ '%' :: after = (w ++ ['%']) ++ after := by simp
  have htake : (w ++ '%' :: after).take ((w ++ '%' :: after).length - after.length) =
      w ++ ['%'] := by
    rw [hsplit, List.length_append, Nat.add_sub_cancel, List.take_left]
  have hne : w ++ '%' :: after ≠ '%' :: after := fun heq =>
    hw (List.append_left_eq_self.mp heq)
  rw [pieces, if_neg (by simp)]
  split
  · next heq => exact absurd (h.symm.trans heq) (by simp)
  · next heq =>
      obtain ⟨rfl, rfl⟩ := List.cons.inj (h.symm.trans heq)
      rw [if_neg (by simp), if_neg hne, htake]

theorem skipOneL_split (s : List Char) : ∃ u, s = u ++ skipOneL s ∧ '%' ∉ u := by
  cases s with
  | nil => exact ⟨[], rfl, List.not_mem_nil⟩
  | cons c s =>
      rw [skipOneL]
      split
      case isTrue hc => exact ⟨[c], rfl, by simp [hc]⟩
      case isFalse => exact ⟨[], rfl, List.not_mem_nil⟩

theorem skipL_split (s : List Char) : ∃ u, s = u ++ skipL s ∧ '%' ∉ u := by
  cases s with
  | nil => exact ⟨[], rfl, List.not_mem_nil⟩
  | cons c s =>
      rw [skipL]
      split
      case isTrue hc =>
        obtain ⟨u, hu, hpercent⟩ := skipOneL_split s
        exact ⟨c :: u, congrArg (c :: ·) hu, by simp [hc, hpercent]⟩
      case isFalse => exact ⟨[], rfl, List.not_mem_nil⟩

/-- Digits and `l` are no `%`. -/
theorem afterPrefix_split (s : List Char) : ∃ w, s = w ++ afterPrefix s ∧ '%' ∉ w := by
  have hdigits : '%' ∉ s.takeWhile Char.isDigit := fun hmem =>
    absurd (List.mem_takeWhile_imp hmem) (by decide)
  obtain ⟨u, hu, hpercent⟩ := skipL_split (s.dropWhile Char.isDigit)
  refine ⟨s.takeWhile Char.isDigit ++ u, ?_, ?_⟩
  · rw [List.append_assoc, afterPrefix, ← hu, List.takeWhile_append_dropWhile]
  · intro hmem
    exact (List.mem_append.mp hmem).elim hdigits hpercent

theorem mem_of_mem_afterPrefix {x : Char} (h : x ∈ afterPrefix s) : x ∈ s := by
  obtain ⟨w, hs, -⟩ := afterPrefix_split s
  rw [hs]
  exact List.mem_append_right w h

/-- **Induction on a format**, piece by piece: what follows a `%` is digits and `l`, and then
nothing, a character, or the next `%`. -/
theorem format_induction {motive : List Char → Prop} (nil : motive [])
    (literal : ∀ c s, c ≠ '%' → motive s → motive (c :: s))
    (incomplete : ∀ s, afterPrefix s = [] → motive ('%' :: s))
    (conversion : ∀ s d after, d ≠ '%' → afterPrefix s = d :: after → motive after →
      motive ('%' :: s))
    (percent : ∀ w after, '%' ∉ w → afterPrefix (w ++ '%' :: after) = '%' :: after →
      motive after → motive ('%' :: (w ++ '%' :: after)))
    (s : List Char) : motive s := by
  induction hlen : s.length using Nat.strong_induction_on generalizing s with
  | _ n ih =>
      subst hlen
      cases s with
      | nil => exact nil
      | cons c s =>
          by_cases hc : c = '%'
          · subst hc
            have hle := afterPrefix_length s
            obtain ⟨w, hs, hw⟩ := afterPrefix_split s
            cases hafter : afterPrefix s with
            | nil => exact incomplete s hafter
            | cons d after =>
                rw [hafter] at hs hle
                have hrest : motive after :=
                  ih after.length (by simp only [List.length_cons] at hle ⊢; omega) after rfl
                by_cases hd : d = '%'
                · subst hd
                  rw [hs] at hafter ⊢
                  exact percent w after hw hafter hrest
                · exact conversion s d after hd hafter hrest
          · exact literal c s hc (ih s.length (Nat.lt_succ_self _) s rfl)

/-- An incomplete directive does not begin with a second `%`. -/
theorem head_of_incomplete (h : afterPrefix (c :: s) = []) : c ≠ '%' := by
  rintro rfl
  exact absurd h (by simp [afterPrefix, skipL])

/-! ### What the scanners read -/

theorem between_append (p ps : List Char) : between (p ++ ps) ps = p := by
  rw [between, List.length_append, Nat.add_sub_cancel, List.take_left]

/-- The loop over a width ends in front of the zero at the latest. -/
theorem scanWidth_memory (num : Int32) (s : List Char) :
    scanWidth num (s ++ [nul]) = (s.dropWhile Char.isDigit ++ [nul],
      (s.takeWhile Char.isDigit).foldl
        (fun num c => num * 10 + Int32.ofNat (c.toNat - '0'.toNat)) num) := by
  induction s generalizing num with
  | nil => rfl
  | cons c s ih =>
      rw [List.cons_append, scanWidth]
      by_cases hc : c.isDigit = true
      · rw [if_pos hc, ih, List.dropWhile_cons_of_pos hc, List.takeWhile_cons_of_pos hc,
          List.foldl_cons]
      · rw [if_neg hc, List.dropWhile_cons_of_neg hc, List.takeWhile_cons_of_neg hc,
          List.cons_append, List.foldl_nil]

theorem skipOneL_memory (s : List Char) : skipOneL (s ++ [nul]) = skipOneL s ++ [nul] := by
  cases s with
  | nil => rfl
  | cons c s =>
      rw [List.cons_append, skipOneL, skipOneL]
      split <;> rfl

theorem skipL_memory (s : List Char) : skipL (s ++ [nul]) = skipL s ++ [nul] := by
  cases s with
  | nil => rfl
  | cons c s =>
      rw [List.cons_append, skipL, skipL]
      split
      · exact skipOneL_memory s
      · rfl

/-- Behind a `%` the loops stop where the pieces say. -/
theorem skipL_scanWidth (s : List Char) :
    skipL (scanWidth 0 (s ++ [nul])).1 = afterPrefix s ++ [nul] := by
  rw [scanWidth_memory, skipL_memory, afterPrefix]

theorem scanWidth_width (s : List Char) : (scanWidth 0 (s ++ [nul])).2 = width s := by
  rw [scanWidth_memory, width]

/-- With a value at hand the scanner stops at a conversion, for which it also takes the zero. -/
theorem scanLoop_conversion (p : List Char) (h : afterPrefix s ++ [nul] = d :: after)
    (hd : d ≠ '%') : scanLoop (p ++ '%' :: (s ++ [nul])) ('%' :: (s ++ [nul])) =
      some ([p], .conversion d (width s) after) := by
  rw [scanLoop, if_neg (by decide), if_pos rfl]
  dsimp only
  split
  · next heq => exact absurd ((skipL_scanWidth s).symm.trans heq) (by simp)
  · next heq =>
      obtain ⟨rfl, rfl⟩ := List.cons.inj (h.symm.trans ((skipL_scanWidth s).symm.trans heq))
      rw [if_pos hd, between_append, scanWidth_width]

theorem scanLoop_percent (p : List Char) (h : afterPrefix s = '%' :: after) :
    scanLoop (p ++ '%' :: (s ++ [nul])) ('%' :: (s ++ [nul])) =
      (scanLoop (s ++ [nul]) (after ++ [nul])).map fun r => (p :: r.1, r.2) := by
  rw [scanLoop, if_neg (by decide), if_pos rfl]
  have hstop : skipL (scanWidth 0 (s ++ [nul])).1 = '%' :: (after ++ [nul]) := by
    rw [skipL_scanWidth, h]
    rfl
  dsimp only
  split
  · next heq => exact absurd (hstop.symm.trans heq) (by simp)
  · next heq =>
      obtain ⟨rfl, rfl⟩ := List.cons.inj (hstop.symm.trans heq)
      rw [if_neg (by simp), between_append]

/-! ### What the scanners write -/

/-- What `myprintf` does where its loop ends. -/
def resume (value : Arg) (args : List Arg) (r : Writes × Scan) : Option Writes :=
  match r.2 with
  | .finished => some r.1
  | .conversion c num ps =>
      (mywrite c value num).bind fun ws => (myprintf ps args).map fun ws' => r.1 ++ ws ++ ws'

theorem myprintf_cons (s : List Char) (value : Arg) (args : List Arg) :
    myprintf s (value :: args) = (scanLoop s s).bind (resume value args) := rfl

/-- All that is written, with a value at hand, from the point where `p` is kept back and `s` is
still to be read. -/
def scanned (p s : List Char) (value : Arg) (args : List Arg) : Option (List Char) :=
  ((scanLoop (p ++ (s ++ [nul])) (s ++ [nul])).bind (resume value args)).map List.flatten

/-- The same without a value. -/
def plain (p s : List Char) : Option (List Char) :=
  (plainLoop (p ++ (s ++ [nul])) (s ++ [nul])).map List.flatten

/-- The bytes a call writes. -/
def printed (s : List Char) (args : List Arg) : Option (List Char) :=
  (myprintf (s ++ [nul]) args).map List.flatten

theorem printed_nil (s : List Char) : printed s [] = plain [] s := rfl

theorem printed_cons (s : List Char) (value : Arg) (args : List Arg) :
    printed s (value :: args) = scanned [] s value args := rfl

/-- At the end of the format the text kept back is lost. -/
theorem scanned_nil (p : List Char) : scanned p [] value args = some [] := by
  rw [scanned, List.nil_append, scanLoop, if_pos rfl]
  rfl

theorem append_cons_memory (p s : List Char) (c : Char) :
    p ++ ((c :: s) ++ [nul]) = (p ++ [c]) ++ (s ++ [nul]) := by
  rw [List.append_assoc]
  rfl

theorem scanned_literal (p s : List Char) (hnul : c ≠ nul) (hc : c ≠ '%') :
    scanned p (c :: s) value args = scanned (p ++ [c]) s value args := by
  rw [scanned, scanned, append_cons_memory, List.cons_append, scanLoop, if_neg hnul, if_neg hc]

/-- Past the zero there is nothing to read. -/
theorem myprintf_past (args : List Arg) : myprintf [] args = none := by
  cases args with
  | nil => rw [myprintf, plainLoop]
  | cons value args =>
      rw [myprintf_cons, scanLoop]
      rfl

theorem scanned_incomplete (p : List Char) (h : afterPrefix s = []) :
    scanned p ('%' :: s) value args = none := by
  have hend : afterPrefix s ++ [nul] = nul :: [] := by rw [h]; rfl
  have hloop := scanLoop_conversion p hend (by decide)
  rw [scanned, List.cons_append, hloop, Option.bind_some, resume]
  dsimp only
  rw [myprintf_past]
  cases mywrite nul value (width s) <;> rfl

theorem scanned_conversion (p : List Char) (h : afterPrefix s = d :: after) (hd : d ≠ '%') :
    scanned p ('%' :: s) value args =
      (printed after args).map (p ++ rendered d value (width s) ++ ·) := by
  obtain ⟨ws, hws⟩ := mywrite_isSome d value (width s)
  have hrest : afterPrefix s ++ [nul] = d :: (after ++ [nul]) := by rw [h]; rfl
  have hloop := scanLoop_conversion p hrest hd
  rw [scanned, List.cons_append, hloop, Option.bind_some, resume, printed, rendered]
  dsimp only
  rw [hws, Option.bind_some, Option.map_map, Option.map_map]
  congr 1
  funext out
  simp

/-- What was written before stays in front. -/
theorem resume_cons (t : List Char) (r : Writes × Scan) :
    resume value args (t :: r.1, r.2) = (resume value args r).map (t :: ·) := by
  obtain ⟨ws, stop⟩ := r
  cases stop with
  | finished => rfl
  | conversion c num ps =>
      dsimp only [resume]
      cases mywrite c value num with
      | none => rfl
      | some ws' =>
          rw [Option.bind_some, Option.bind_some, Option.map_map]
          rfl

/-- Behind a `%` that is no conversion, the text up to the next one is kept back. -/
theorem scanned_percent (p : List Char) {w : List Char}
    (h : afterPrefix (w ++ '%' :: after) = '%' :: after) :
    scanned p ('%' :: (w ++ '%' :: after)) value args =
      (scanned (w ++ ['%']) after value args).map (p ++ ·) := by
  have hmemory : (w ++ '%' :: after) ++ [nul] = (w ++ ['%']) ++ (after ++ [nul]) := by simp
  rw [scanned, List.cons_append, scanLoop_percent p h, hmemory, scanned]
  cases scanLoop ((w ++ ['%']) ++ (after ++ [nul])) (after ++ [nul]) with
  | none => rfl
  | some r =>
      rw [Option.map_some, Option.bind_some, Option.bind_some, resume_cons, Option.map_map,
        Option.map_map]
      rfl

/-- **Text kept back comes first**, unless nothing is written at all. -/
theorem scanned_head (hs : nul ∉ s) (h : scanned p s value args = some out) :
    out = [] ∨ p <+: out := by
  induction s using format_induction generalizing p with
  | nil =>
      rw [scanned_nil] at h
      exact Or.inl (Option.some.inj h).symm
  | literal c s hc ih =>
      obtain ⟨hnul, hs⟩ := List.ne_and_not_mem_of_not_mem_cons hs
      rw [scanned_literal p s hnul.symm hc] at h
      exact (ih hs h).imp_right fun hp => (List.prefix_append p [c]).trans hp
  | incomplete s hdir =>
      rw [scanned_incomplete p hdir] at h
      exact absurd h (by simp)
  | conversion s d after hd hdir _ =>
      rw [scanned_conversion p hdir hd] at h
      obtain ⟨rest, -, rfl⟩ := Option.map_eq_some_iff.mp h
      exact Or.inr ((List.prefix_append p _).trans (List.prefix_append _ _))
  | percent w after _ hdir _ =>
      rw [scanned_percent p hdir] at h
      obtain ⟨rest, -, rfl⟩ := Option.map_eq_some_iff.mp h
      exact Or.inr (List.prefix_append _ _)

/-! ### Without a value -/

theorem plain_nil (p : List Char) : plain p [] = some p := by
  rw [plain, List.nil_append, plainLoop, if_pos rfl, between_append]
  simp

theorem plain_literal (p s : List Char) (hnul : c ≠ nul) (hc : c ≠ '%') :
    plain p (c :: s) = plain (p ++ [c]) s := by
  rw [plain, plain, append_cons_memory, List.cons_append, plainLoop, if_neg hnul, if_neg hc]

/-- A `%` at the very end makes the scanner step over the zero. -/
theorem plain_end (p : List Char) : plain p ['%'] = none := by
  rw [plain, List.singleton_append, plainLoop, if_neg (by decide), if_pos rfl, List.tail_cons,
    plainLoop]
  rfl

/-- The character behind a `%` is kept back, whatever it is. -/
theorem plain_percent (p s : List Char) (c : Char) :
    plain p ('%' :: c :: s) = (plain [c] s).map (p ++ ·) := by
  rw [plain, List.cons_append, plainLoop, if_neg (by decide), if_pos rfl, between_append, plain,
    Option.map_map, Option.map_map]
  rfl

/-- **Text kept back comes first.** -/
theorem plain_head (hs : nul ∉ s) (h : plain p s = some out) : p <+: out := by
  induction s generalizing p with
  | nil =>
      rw [plain_nil] at h
      exact Option.some.inj h ▸ List.prefix_refl p
  | cons c s ih =>
      obtain ⟨hnul, hs⟩ := List.ne_and_not_mem_of_not_mem_cons hs
      by_cases hc : c = '%'
      · subst hc
        cases s with
        | nil =>
            rw [plain_end] at h
            exact absurd h (by simp)
        | cons d s =>
            rw [plain_percent] at h
            obtain ⟨rest, -, rfl⟩ := Option.map_eq_some_iff.mp h
            exact List.prefix_append _ _
      · rw [plain_literal p s hnul.symm hc] at h
        exact (List.prefix_append p [c]).trans (ih hs h)

/-! ### Which calls print what they should -/

theorem conversions_cons (a : Piece) (ps : List Piece) :
    conversions (a :: ps) = conversions ps + if a.isConversion then 1 else 0 := by
  rw [conversions, List.countP_cons, conversions]

/-- `Printable`, for the pieces still to come while `p` is kept back. -/
structure PrintableFrom (p : List Char) (ps : List Piece) (values : Nat) : Prop where
  noStray : ∀ a ∈ ps, a.isStray = false
  tail : values = conversions ps ∨
    (∀ a ∈ ps.getLast?, a.isConversion = true) ∧ (ps = [] → p = [])

namespace PrintableFrom

variable {ps : List Piece} {a : Piece} {p' : List Char} {values : Nat}

theorem of_stray {text : List Char} (h : PrintableFrom p (.stray text :: ps) values) : False :=
  absurd (h.noStray _ List.mem_cons_self) (by simp [Piece.isStray])

/-- Text in front of other pieces is kept back. -/
theorem text_iff (hstray : a.isStray = false) (hconv : a.isConversion = false) (hp' : p' ≠ []) :
    PrintableFrom p (a :: ps) values ↔ PrintableFrom p' ps values := by
  have hcount : conversions (a :: ps) = conversions ps := by
    rw [conversions_cons, hconv]
    rfl
  have htail : ((∀ b ∈ (a :: ps).getLast?, b.isConversion = true) ∧ (a :: ps = [] → p = [])) ↔
      (∀ b ∈ ps.getLast?, b.isConversion = true) ∧ (ps = [] → p' = []) := by
    cases ps with
    | nil => simp [hconv, hp']
    | cons b ps => simp
  constructor
  · intro h
    exact ⟨fun b hb => h.noStray b (List.mem_cons_of_mem _ hb), hcount ▸ h.tail.imp_right htail.mp⟩
  · intro h
    refine ⟨fun b hb => ?_, hcount ▸ h.tail.imp_right htail.mpr⟩
    rcases List.mem_cons.mp hb with rfl | hb
    · exact hstray
    · exact h.noStray b hb

/-- A conversion takes a value, and nothing is kept back behind it. -/
theorem conversion_iff {num : Int32} : PrintableFrom p (.conversion c num :: ps) (values + 1) ↔
    PrintableFrom [] ps values := by
  have hcount : conversions (.conversion c num :: ps) = conversions ps + 1 := conversions_cons _ _
  have htail : ((∀ b ∈ (Piece.conversion c num :: ps).getLast?, b.isConversion = true) ∧
      (Piece.conversion c num :: ps = [] → p = [])) ↔
      (∀ b ∈ ps.getLast?, b.isConversion = true) ∧ (ps = [] → ([] : List Char) = []) := by
    cases ps with
    | nil => simp [Piece.isConversion]
    | cons b ps => simp
  constructor
  · intro h
    refine ⟨fun b hb => h.noStray b (List.mem_cons_of_mem _ hb), h.tail.imp (fun hn => ?_) htail.mp⟩
    omega
  · intro h
    refine ⟨fun b hb => ?_, h.tail.imp (fun hn => ?_) htail.mpr⟩
    · rcases List.mem_cons.mp hb with rfl | hb
      · rfl
      · exact h.noStray b hb
    · omega

theorem nil_iff : PrintableFrom p [] (values + 1) ↔ p = [] := by
  constructor
  · intro h
    rcases h.tail with hn | ⟨-, hp⟩
    · exact absurd hn (Nat.succ_ne_zero values)
    · exact hp rfl
  · intro hp
    exact ⟨by simp, Or.inr ⟨by simp, fun _ => hp⟩⟩

end PrintableFrom

/-- What comes first can be taken off both sides. -/
theorem map_append_eq_some_iff {o : Option (List Char)} {t : List Char} :
    o.map (p ++ ·) = some (p ++ t) ↔ o = some t := by
  constructor
  · intro h
    obtain ⟨t', rfl, heq⟩ := Option.map_eq_some_iff.mp h
    rw [List.append_cancel_left heq]
  · rintro rfl
    rfl

/-- Behind a `%` without a value, any character but a second `%` is a wrong one. -/
theorem plain_wrong {t : List Char} (hd : d ≠ '%') (hs : nul ∉ s) :
    ¬ plain p ('%' :: d :: s) = some (p ++ '%' :: t) := by
  intro h
  rw [plain_percent, map_append_eq_some_iff] at h
  exact hd (List.cons_prefix_cons.mp (plain_head hs h)).1

/-- **Without a value**, a format with no conversions is printed unless it has a stray `%`. -/
theorem plain_iff (hs : nul ∉ s) (p : List Char) (hcount : conversions (pieces s) = 0) :
    plain p s = some (p ++ expected (pieces s) []) ↔ ∀ a ∈ pieces s, a.isStray = false := by
  induction s using format_induction generalizing p with
  | nil => simp [plain_nil, pieces_nil, expected]
  | literal c s hc ih =>
      obtain ⟨hnul, hs⟩ := List.ne_and_not_mem_of_not_mem_cons hs
      rw [pieces_literal hc] at hcount ⊢
      rw [plain_literal p s hnul.symm hc, expected, List.append_cons p c (expected _ _),
        List.forall_mem_cons]
      exact (ih hs _ hcount).trans (and_iff_right rfl).symm
  | incomplete s hdir =>
      rw [pieces_end hdir]
      refine iff_of_false ?_ (by simp [Piece.isStray])
      cases s with
      | nil => simp [plain_end]
      | cons d s =>
          obtain ⟨-, hs⟩ := List.ne_and_not_mem_of_not_mem_cons hs
          -- the digits or `l` are written, the `%` in front of them is not
          exact plain_wrong (head_of_incomplete hdir) (List.ne_and_not_mem_of_not_mem_cons hs).2
  | conversion s d after hd hdir _ =>
      rw [pieces_conversion hdir hd, conversions_cons] at hcount
      exact absurd hcount (Nat.succ_ne_zero _)
  | percent w after hw hdir ih =>
      obtain ⟨-, hs⟩ := List.ne_and_not_mem_of_not_mem_cons hs
      cases w with
      | nil =>
          obtain ⟨-, hs⟩ := List.ne_and_not_mem_of_not_mem_cons hs
          rw [List.nil_append, pieces_percent] at hcount ⊢
          rw [plain_percent, expected, map_append_eq_some_iff, List.forall_mem_cons]
          exact (ih hs ['%'] hcount).trans (and_iff_right rfl).symm
      | cons d w =>
          have hd : d ≠ '%' := fun heq => hw (heq ▸ List.mem_cons_self)
          rw [pieces_stray hdir (List.cons_ne_nil d w)]
          refine iff_of_false ?_ (by simp [Piece.isStray])
          exact plain_wrong hd (List.ne_and_not_mem_of_not_mem_cons hs).2

/-- A call with some values or none, from what is known of the loop with a value at hand. -/
theorem printed_iff_of (hs : nul ∉ s)
    (hscanned : ∀ value args, conversions (pieces s) ≤ args.length + 1 →
      (scanned [] s value args = some ([] ++ expected (pieces s) (value :: args)) ↔
        PrintableFrom [] (pieces s) (args.length + 1)))
    (hcount : conversions (pieces s) ≤ args.length) :
    printed s args = some (expected (pieces s) args) ↔
      PrintableFrom [] (pieces s) args.length := by
  cases args with
  | nil =>
      have hnone : conversions (pieces s) = 0 := Nat.le_zero.mp hcount
      rw [printed_nil]
      exact (plain_iff hs [] hnone).trans
        ⟨fun h => ⟨h, Or.inl hnone.symm⟩, PrintableFrom.noStray⟩
  | cons value args =>
      rw [printed_cons]
      exact hscanned value args hcount

/-- **With a value**, a format is printed if it has no stray `%`, and a conversion for every value
or nothing behind its last one. -/
theorem scanned_iff (hs : nul ∉ s) (p : List Char) (value : Arg) (args : List Arg)
    (hcount : conversions (pieces s) ≤ args.length + 1) :
    scanned p s value args = some (p ++ expected (pieces s) (value :: args)) ↔
      PrintableFrom p (pieces s) (args.length + 1) := by
  induction s using format_induction generalizing p value args with
  | nil => simp [scanned_nil, pieces_nil, expected, PrintableFrom.nil_iff, eq_comm]
  | literal c s hc ih =>
      obtain ⟨hnul, hs⟩ := List.ne_and_not_mem_of_not_mem_cons hs
      rw [pieces_literal hc] at hcount ⊢
      rw [scanned_literal p s hnul.symm hc, expected, List.append_cons p c (expected _ _)]
      exact (ih hs _ value args hcount).trans (PrintableFrom.text_iff rfl rfl (by simp)).symm
  | incomplete s hdir =>
      rw [pieces_end hdir, scanned_incomplete p hdir]
      exact iff_of_false (by simp) fun h => h.of_stray
  | conversion s d after hd hdir ih =>
      have hafter : nul ∉ after := fun hmem =>
        hs (List.mem_cons_of_mem _ (mem_of_mem_afterPrefix (hdir ▸ List.mem_cons_of_mem d hmem)))
      rw [pieces_conversion hdir hd, conversions_cons] at hcount
      have hrest : conversions (pieces after) ≤ args.length := Nat.le_of_succ_le_succ hcount
      rw [pieces_conversion hdir hd, scanned_conversion p hdir hd, expected, ← List.append_assoc,
        map_append_eq_some_iff, PrintableFrom.conversion_iff]
      exact printed_iff_of hafter (fun value args => ih hafter [] value args) hrest
  | percent w after hw hdir ih =>
      -- `%%` if there is nothing in between, and stray otherwise
      obtain ⟨-, hs⟩ := List.ne_and_not_mem_of_not_mem_cons hs
      have hafter : nul ∉ after := fun hmem => hs (by simp [hmem])
      cases w with
      | nil =>
          rw [List.nil_append, pieces_percent] at hcount ⊢
          have hkept : scanned p ('%' :: '%' :: after) value args =
              (scanned ['%'] after value args).map (p ++ ·) := scanned_percent p hdir
          rw [hkept, expected, map_append_eq_some_iff]
          exact (ih hafter ['%'] value args hcount).trans
            (PrintableFrom.text_iff rfl rfl (by simp)).symm
      | cons d w =>
          have hd : d ≠ '%' := fun heq => hw (heq ▸ List.mem_cons_self)
          rw [pieces_stray hdir (List.cons_ne_nil d w), scanned_percent p hdir, expected,
            List.cons_append, map_append_eq_some_iff]
          -- what comes out begins with a digit or an `l` where a `%` should be
          refine iff_of_false (fun h => ?_) fun h => h.of_stray
          rcases scanned_head hafter h with hnil | hprefix
          · exact List.cons_ne_nil _ _ hnil
          · exact hd (List.cons_prefix_cons.mp hprefix).1

/-- **Which calls print what they should**, of those with enough values. -/
theorem myprintf_prints_iff (s : Format) (args : List Arg)
    (hcount : conversions (pieces s.chars) ≤ args.length) :
    Prints s args ↔ Printable (pieces s.chars) args.length := by
  have hprints : Prints s args ↔ printed s.chars args = some (expected (pieces s.chars) args) :=
    Option.map_eq_some_iff.symm
  have hprintable : PrintableFrom [] (pieces s.chars) args.length ↔
      Printable (pieces s.chars) args.length :=
    ⟨fun h => ⟨h.noStray, h.tail.imp_right And.left⟩,
      fun h => ⟨h.noStray, h.tail.imp_right fun hlast => ⟨hlast, fun _ => rfl⟩⟩⟩
  rw [hprints, ← hprintable]
  exact printed_iff_of s.noNul (fun value args => scanned_iff s.noNul [] value args) hcount

/-- Two conversions, with text in front of, between and behind them. -/
def twoValues : Format := ⟨['n', '=', '%', 'd', ',', '%', '8', 'x', '.'], by decide⟩

/-- It is written as it should be, text and values. -/
theorem myprintf_prints_twoValues : Prints twoValues [.number (.int 7), .number (.unsignedInt 255)] ∧
    expected (pieces twoValues.chars) [.number (.int 7), .number (.unsignedInt 255)] =
      ['n', '=', '7', ',', ' ', ' ', ' ', ' ', '0', 'x', 'f', 'f', '.'] := by
  have hpieces : pieces twoValues.chars = [.literal 'n', .literal '=', .conversion 'd' 0,
      .literal ',', .conversion 'x' 8, .literal '.'] := by decide +kernel
  refine ⟨(myprintf_prints_iff twoValues _ (by rw [hpieces]; decide)).mpr ?_, ?_⟩
  · rw [hpieces]
    exact ⟨by simp [Piece.isStray], Or.inl rfl⟩
  · rw [hpieces]
    decide +kernel

/-- A format that ends in `%` is read past its zero, and one value too many makes the scanner drop
the text behind the last conversion. -/
theorem myprintf_not_prints : ¬ (∀ (s : Format) (args : List Arg),
      conversions (pieces s.chars) ≤ args.length → Prints s args) ∧
    myprintf (['a', '%'] ++ [nul]) [] = none ∧
    myprintf (['a', 'b'] ++ [nul]) [.number (.int 7)] = some [] := by
  have hpast : myprintf (['a', '%'] ++ [nul]) [] = none := by decide +kernel
  refine ⟨fun h => ?_, hpast, by decide +kernel⟩
  obtain ⟨ws, hrun, -⟩ := h ⟨['a', '%'], by decide⟩ [] (by decide +kernel)
  exact absurd (hpast.symm.trans hrun) (by simp)

end Myprintf

end FCMalloc
