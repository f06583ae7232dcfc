import FCMalloc.Config
import FCMalloc.Library.CString
import Mathlib.Data.List.Chain

/-!
# FCMalloc.SizeListFile

`MemorySizeManager::readSizeListFile`: a file read in chunks into one buffer, and `strtok` on
that buffer until the table is full.

A chunk that fills the buffer has no terminating zero, and a shorter one is followed by bytes
of the chunk before it. So the reader works only as long as the tokenizer stops by itself:
`readSizeListFile_parses_iff` gives the files, in terms of where their newlines fall.

The proof follows the file. In the first chunk the tokens are the lines
(`takeTokens_lines`, `takeTokens_overflow`); in each later one the table is full, and a single
call of `strtok` looks for the end of the first token (`readChunk_later`).
-/

namespace FCMalloc

open CString

namespace MemorySizeManager

/-- `'\n'`. -/
def newline : UInt8 := 10

/-- `max_num_digits`. -/
def maxNumDigits : Nat := 5

/-- `sizeof(val)`. -/
def valSize : Nat := numClasses * maxNumDigits + 1

/-- The variables of `readSizeListFile`. `overrun` is history: whether the tokenizer ever looked
at a byte behind those of the latest `read`, a terminating zero next to them apart. -/
structure Reader where
  val : List UInt8
  index : Nat
  nPerSize : SizeClass → Int
  overrun : Bool

namespace Reader

/-- The variables before the loop, in the constructor that cleared `nPerSize_`. -/
def blank : Reader := ⟨List.replicate valSize 0, 0, fun _ => 0, false⟩

/-- `nPerSize_[index++] = v`. -/
def store (s : Reader) (v : Int) : Reader :=
  { s with
    nPerSize := fun i => if i.val = s.index then v else s.nPerSize i
    index := s.index + 1 }

/-- What a call of `strtok` leaves behind when the latest `read` gave `r` bytes. -/
def scan (s : Reader) (r : Nat) (t : Token) : Reader :=
  { s with
    val := t.buf
    overrun := s.overrun || !(decide (t.last < r) || decide (t.last = r ∧ t.seen = 0)) }

variable {s : Reader} {v : Int} {r : Nat} {t : Token} {i : SizeClass}

@[simp] theorem scan_val : (s.scan r t).val = t.buf := rfl
@[simp] theorem scan_index : (s.scan r t).index = s.index := rfl
@[simp] theorem scan_nPerSize : (s.scan r t).nPerSize = s.nPerSize := rfl
@[simp] theorem store_index : (s.store v).index = s.index + 1 := rfl
@[simp] theorem store_overrun : (s.store v).overrun = s.overrun := rfl

theorem store_nPerSize (h : i.val = s.index) : (s.store v).nPerSize i = v := if_pos h

theorem store_nPerSize_of_ne (h : i.val ≠ s.index) : (s.store v).nPerSize i = s.nPerSize i :=
  if_neg h

end Reader

/-- The inner loop, with `left` entries of the table to go: `none` if `strtok` runs off `val`. -/
def takeTokens (r : Nat) : (left : Nat) → Token → Reader → Option Reader
  | 0, _, s => some s
  | left + 1, t, s =>
      match t.text with
      | none => some s
      | some text =>
          (strtok newline t.buf t.save).bind fun t' =>
            takeTokens r left t' ((s.store (atoi text)).scan r t')

/-- One round of the outer loop: `chunk` is what `read` put at the front of `val`. -/
def readChunk (chunk : List UInt8) (s : Reader) : Option Reader :=
  (strtok newline (chunk ++ s.val.drop chunk.length) 0).bind fun t =>
    takeTokens chunk.length (numClasses - s.index) t (s.scan chunk.length t)

/-- The outer loop over what is left of the file. -/
def readLoop (file : List UInt8) (s : Reader) : Option Reader :=
  if file = [] then some s
  else (readChunk (file.take valSize) s).bind fun s => readLoop (file.drop valSize) s
termination_by file.length
decreasing_by
  have hpos := List.length_pos_iff.mpr ‹_›
  rw [List.length_drop]
  have hsize : 0 < valSize := by decide
  omega

/-- `readSizeListFile`, with the content of the file, or `none` if it cannot be opened. -/
def readSizeListFile : (file : Option (List UInt8)) → Option Reader
  | none => some { Reader.blank with nPerSize := setDefault.nPerSize }
  | some file => readLoop file Reader.blank

/-! ### Files -/

/-- The bytes of a file of newline-terminated integers. -/
def linesText (lines : List Numeral) : List UInt8 := lines.flatMap fun n => n.text ++ [newline]

/-- The file is parsed as it should be. -/
def Parses (lines : List Numeral) : Prop :=
  ∃ s, readSizeListFile (some (linesText lines)) = some s ∧ s.overrun = false ∧
    ∀ i : SizeClass, s.nPerSize i = (lines[i.val]?.map Numeral.value).getD 0

/-- What `read` returns for the `k`th time. -/
def chunkAt (file : List UInt8) (k : Nat) : List UInt8 := (file.drop (valSize * k)).take valSize

/-- The first token of chunk `k` ends in the chunk, or the chunk is a lone newline and `strtok`
finds a zero behind it, which it wrote there itself in the chunk before. -/
def ChunkOk (file : List UInt8) (k : Nat) : Prop :=
  newline ∈ (chunkAt file k).dropWhile (· = newline) ∨
    chunkAt file k = [newline] ∧ (chunkAt file (k - 1))[1]? = some newline

theorem linesText_cons (n : Numeral) (lines : List Numeral) :
    linesText (n :: lines) = n.text ++ newline :: linesText lines := by
  simp [linesText]

theorem linesText_ne_nil (n : Numeral) (lines : List Numeral) : linesText (n :: lines) ≠ [] := by
  rw [linesText_cons]
  simp

/-- The text of a line is one token. -/
theorem isWord_text (n : Numeral) : IsWord newline n.text := by
  intro b hb
  obtain ⟨hzero, hspace⟩ := n.text_plain b hb
  refine ⟨fun heq => ?_, hzero⟩
  rw [heq] at hspace
  exact absurd hspace (by decide)

theorem newline_ne_zero : newline ≠ 0 := by decide

theorem isGap_nil : IsGap newline [] := fun _ hb => absurd hb List.not_mem_nil

theorem isGap_lone {gap : List UInt8} (h : gap = [] ∨ gap = [newline]) : IsGap newline gap := by
  cases h with
  | inl hnil =>
      rw [hnil]
      exact isGap_nil
  | inr hone =>
      rw [hone]
      exact fun b hb => List.mem_singleton.mp hb

/-! ### The first chunk -/

section FirstChunk

variable {lines : List Numeral} {part : List UInt8} {r left : Nat} {s : Reader}

/-- The call that finds the next line. -/
theorem strtok_line (pre post : List UInt8) (n : Numeral) (lines : List Numeral) :
    strtok newline (pre ++ (linesText (n :: lines) ++ post)) pre.length =
      some ⟨some n.text, pre ++ n.text ++ [0] ++ (linesText lines ++ post),
        (pre ++ n.text ++ [0]).length, pre.length + n.text.length, newline⟩ := by
  have htoken := strtok_token pre (linesText lines ++ post) newline_ne_zero isGap_nil
    (isWord_text n) n.text_ne_nil
  rw [linesText_cons]
  simp only [List.nil_append, List.append_assoc, List.cons_append, List.length_nil,
    List.length_append, Nat.add_zero, List.length_cons] at htoken ⊢
  exact htoken

/-- A look at a byte that was read. -/
theorem scan_overrun {t : Token} (h : t.last < r ∨ t.last = r ∧ t.seen = 0) :
    (s.scan r t).overrun = s.overrun := by
  have hseen : (decide (t.last < r) || decide (t.last = r ∧ t.seen = 0)) = true := by
    simpa using h
  rw [Reader.scan]
  dsimp only
  rw [hseen]
  simp

/-- The table, `left` entries at most, filled from the lines. -/
structure Filled (s s' : Reader) (lines : List Numeral) (left : Nat) : Prop where
  index : s'.index = s.index + min left lines.length
  before : ∀ i : SizeClass, i.val < s.index → s'.nPerSize i = s.nPerSize i
  entry : ∀ i : SizeClass, s.index ≤ i.val →
    s'.nPerSize i = ((lines.take left)[i.val - s.index]?.map Numeral.value).getD (s.nPerSize i)

theorem Filled.none {s' : Reader} (hindex : s'.index = s.index) (htable : s'.nPerSize = s.nPerSize)
    (hstop : lines.take left = []) : Filled s s' lines left where
  index := by
    have hlen := congrArg List.length hstop
    rw [List.length_take, List.length_nil] at hlen
    rw [hindex, hlen, Nat.add_zero]
  before i _ := by rw [htable]
  entry i _ := by rw [htable, hstop]; rfl

/-- One more line in front. -/
theorem Filled.store {s' : Reader} {n : Numeral} {t : Token}
    (h : Filled ((s.scan r t).store n.value) s' lines left) :
    Filled s s' (n :: lines) (left + 1) where
  index := by
    rw [h.index, Reader.store_index, Reader.scan_index, List.length_cons, Nat.succ_min_succ]
    omega
  before i hi := by
    rw [h.before i (Nat.lt_succ_of_lt hi),
      Reader.store_nPerSize_of_ne (s := s.scan r t) (Nat.ne_of_lt hi), Reader.scan_nPerSize]
  entry i hi := by
    by_cases hthis : i.val = s.index
    · rw [h.before i (Nat.lt_succ_of_le (Nat.le_of_eq hthis)),
        Reader.store_nPerSize (s := s.scan r t) hthis, hthis, Nat.sub_self]
      rfl
    · obtain ⟨d, hd⟩ : ∃ d, i.val - s.index = d + 1 := ⟨i.val - s.index - 1, by omega⟩
      have hd' : i.val - ((s.scan r t).store n.value).index = d := by
        rw [Reader.store_index, Reader.scan_index]
        omega
      have hentry := h.entry i (by rw [Reader.store_index, Reader.scan_index]; omega)
      rw [Reader.store_nPerSize_of_ne (s := s.scan r t) hthis, hd', Reader.scan_nPerSize] at hentry
      rw [hentry, hd, List.take_succ_cons, List.getElem?_cons_succ]

/-- What the call for the first line leaves at the front. -/
def firstToken : List Numeral → List UInt8
  | [] => []
  | n :: _ => n.text ++ [0]

/-- **Lines are taken one by one** until the table is full or the string ends, and nothing
behind them is looked at. -/
theorem takeTokens_lines (pre post : List UInt8) (left : Nat) (s : Reader)
    (hpost : left < lines.length ∨ ∃ rest, post = 0 :: rest)
    (hr : pre.length + (linesText lines).length ≤ r) :
    ∃ t s', strtok newline (pre ++ (linesText lines ++ post)) pre.length = some t ∧
      takeTokens r left t (s.scan r t) = some s' ∧ s'.overrun = s.overrun ∧
      Filled s s' lines left ∧
      s'.val.length = (pre ++ (linesText lines ++ post)).length ∧
      ∀ j < (pre ++ firstToken lines).length, s'.val[j]? = (pre ++ firstToken lines)[j]? := by
  induction lines generalizing left pre s with
  | nil =>
      obtain ⟨rest, rfl⟩ := hpost.resolve_left (Nat.not_lt_zero left)
      have hend := strtok_end pre rest newline_ne_zero isGap_nil
      refine ⟨_, s.scan r ⟨none, pre ++ 0 :: rest, pre.length, pre.length, 0⟩, hend, ?_, ?_,
        Filled.none rfl rfl List.take_nil, ?_, ?_⟩
      · cases left with
        | zero => rfl
        | succ left => rfl
      · refine scan_overrun ?_
        rw [linesText, List.flatMap_nil, List.length_nil] at hr
        exact (Nat.lt_or_eq_of_le hr).imp id fun heq => ⟨heq, rfl⟩
      · rfl
      · intro j hj
        rw [firstToken, List.append_nil] at hj ⊢
        exact List.getElem?_append_left hj
  | cons n lines ih =>
      have htoken := strtok_line pre post n lines
      have hlen : (linesText (n :: lines)).length = n.text.length + 1 + (linesText lines).length := by
        rw [linesText_cons, List.length_append, List.length_cons]
        omega
      have hsame : (pre ++ n.text ++ [0] ++ (linesText lines ++ post)).length =
          (pre ++ (linesText (n :: lines) ++ post)).length := by
        simp only [List.length_append, List.length_singleton, hlen]
        omega
      have hfront : pre ++ firstToken (n :: lines) = pre ++ n.text ++ [0] := by
        rw [firstToken, List.append_assoc]
      have hscan : ∀ s : Reader, (s.scan r ⟨some n.text,
          pre ++ n.text ++ [0] ++ (linesText lines ++ post), (pre ++ n.text ++ [0]).length,
          pre.length + n.text.length, newline⟩).overrun = s.overrun :=
        fun s => scan_overrun (Or.inl (by dsimp only; omega))
      cases left with
      | zero =>
          -- the table is full: the token is dropped
          refine ⟨_, _, htoken, rfl, hscan s, Filled.none rfl rfl List.take_zero, hsame, ?_⟩
          intro j hj
          rw [hfront] at hj ⊢
          exact List.getElem?_append_left hj
      | succ left =>
          obtain ⟨t', s', hcall, hrest, hover, hfilled, hval, hkept⟩ :=
            ih (pre ++ n.text ++ [0]) left
              ((s.scan r ⟨some n.text, pre ++ n.text ++ [0] ++ (linesText lines ++ post),
                (pre ++ n.text ++ [0]).length, pre.length + n.text.length, newline⟩).store n.value)
              (hpost.imp Nat.lt_of_succ_lt_succ id)
              (by simp only [List.length_append, List.length_singleton]; omega)
          refine ⟨_, s', htoken, ?_, hover.trans (hscan s), hfilled.store, hval.trans hsame, ?_⟩
          · rw [takeTokens]
            dsimp only
            rw [hcall, Option.bind_some, atoi_text]
            exact hrest
          · intro j hj
            rw [hfront] at hj ⊢
            rw [hkept j (by rw [List.length_append]; omega), List.getElem?_append_left hj]

/-- **A chunk without enough lines** to fill the table has no end. -/
theorem takeTokens_overflow (pre : List UInt8) (s : Reader) (hpart : IsWord newline part)
    (hleft : lines.length ≤ left) :
    (strtok newline (pre ++ (linesText lines ++ part)) pre.length).bind
      (fun t => takeTokens r left t (s.scan r t)) = none := by
  induction lines generalizing left pre s with
  | nil =>
      have hnone := strtok_overflow pre isGap_nil hpart
      rw [linesText, List.flatMap_nil, hnone]
      rfl
  | cons n lines ih =>
      cases left with
      | zero => exact absurd hleft (Nat.not_succ_le_zero _)
      | succ left =>
          rw [strtok_line, Option.bind_some, takeTokens]
          exact ih _ _ (Nat.le_of_succ_le_succ hleft)

/-- A front piece of a file: whole lines, and part of one. -/
theorem take_linesText (lines : List Numeral) (m : Nat) :
    ∃ k part, (linesText lines).take m = linesText (lines.take k) ++ part ∧
      IsWord newline part ∧ k ≤ lines.length ∧ ((linesText lines).take m).count newline = k := by
  induction lines generalizing m with
  | nil => exact ⟨0, [], by simp [linesText], fun _ hb => absurd hb List.not_mem_nil, by simp,
      by simp [linesText]⟩
  | cons n lines ih =>
      rw [linesText_cons]
      have hnot : newline ∉ n.text := fun hmem => (isWord_text n newline hmem).1 rfl
      by_cases hm : m ≤ n.text.length
      · refine ⟨0, n.text.take m, ?_, ?_, Nat.zero_le _, ?_⟩
        · rw [List.take_append_of_le_length hm]
          rfl
        · exact fun b hb => isWord_text n b (List.mem_of_mem_take hb)
        · rw [List.take_append_of_le_length hm, List.count_eq_zero]
          exact fun hmem => hnot (List.mem_of_mem_take hmem)
      · obtain ⟨m', rfl⟩ : ∃ m', m = n.text.length + (m' + 1) := ⟨m - n.text.length - 1, by omega⟩
        obtain ⟨k, part, htake, hword, hk, hcount⟩ := ih m'
        refine ⟨k + 1, part, ?_, hword, Nat.succ_le_succ hk, ?_⟩
        · rw [List.take_length_add_append, List.take_succ_cons, htake, List.take_succ_cons,
            linesText_cons, List.append_assoc, List.cons_append]
        · rw [List.take_length_add_append, List.take_succ_cons, List.count_append,
            List.count_eq_zero.mpr hnot, List.count_cons_self, hcount, Nat.zero_add]

end FirstChunk

/-! ### Later chunks -/

/-- What is left of a file of lines at any point: no zeros, a newline at the end, and no two in
a row. -/
structure Lined (file : List UInt8) : Prop where
  nonzero : ∀ b ∈ file, b ≠ 0
  ends : ∀ b ∈ file.getLast?, b = newline
  spaced : file.IsChain fun a b => a = newline → b ≠ newline

theorem Lined.drop {file : List UInt8} (h : Lined file) (k : Nat) : Lined (file.drop k) where
  nonzero b hb := h.nonzero b (List.mem_of_mem_drop hb)
  ends b hb := by
    rw [List.getLast?_drop] at hb
    split at hb
    · exact absurd hb (by simp)
    · exact h.ends b hb
  spaced := h.spaced.drop k

theorem lined_linesText (lines : List Numeral) : Lined (linesText lines) := by
  induction lines with
  | nil => exact ⟨fun b hb => absurd hb List.not_mem_nil, fun b hb => absurd hb (by simp [linesText]),
      List.IsChain.nil⟩
  | cons n lines ih =>
      have hword := isWord_text n
      rw [linesText_cons]
      constructor
      case nonzero =>
        intro b hb
        cases List.mem_append.mp hb with
        | inl htext => exact (hword b htext).2
        | inr hrest =>
            cases List.mem_cons.mp hrest with
            | inl heq => rw [heq]; exact newline_ne_zero
            | inr hrest => exact ih.nonzero b hrest
      case ends =>
        intro b hb
        rw [List.getLast?_append_cons, List.getLast?_cons] at hb
        cases hlast : (linesText lines).getLast? with
        | none => rw [hlast] at hb; exact (Option.some.inj hb).symm
        | some x =>
            rw [hlast] at hb
            obtain rfl := Option.some.inj hb
            exact ih.ends _ hlast
      case spaced =>
        refine List.isChain_append.mpr ⟨?_, List.isChain_cons.mpr ⟨?_, ih.spaced⟩, ?_⟩
        · refine List.Pairwise.isChain (List.pairwise_of_forall_mem_list ?_)
          exact fun a ha b _ heq => absurd heq (hword a ha).1
        · -- the next line does not begin with a newline
          intro b hb _
          cases lines with
          | nil => exact absurd hb (by simp [linesText])
          | cons n' lines =>
              rw [linesText_cons, List.head?_append_of_ne_nil _ n'.text_ne_nil] at hb
              exact (isWord_text n' b (List.mem_of_head? hb)).1
        · intro a ha b _ heq
          exact absurd heq (hword a (List.mem_of_getLast? ha)).1

section LaterChunks

variable {file chunk : List UInt8} {k : Nat} {s : Reader} {b : UInt8}

/-- The parts of a chunk that `strtok` sees: at most one newline, a token, and the newline
behind it, if the chunk reaches that far. -/
theorem split_chunk (chunk : List UInt8) (hzero : ∀ b ∈ chunk, b ≠ 0)
    (hspaced : chunk.IsChain fun a b => a = newline → b ≠ newline) :
    ∃ gap w, (gap = [] ∨ gap = [newline]) ∧ IsWord newline w ∧
      (newline ∈ chunk.dropWhile (· = newline) →
        w ≠ [] ∧ ∃ rest, chunk = gap ++ (w ++ newline :: rest)) ∧
      (newline ∉ chunk.dropWhile (· = newline) → chunk = gap ++ w) := by
  have hsplit : chunk.takeWhile (· = newline) ++ chunk.dropWhile (· = newline) = chunk :=
    List.takeWhile_append_dropWhile
  have hgapall : ∀ b ∈ chunk.takeWhile (· = newline), b = newline := fun b hb =>
    by simpa using List.mem_takeWhile_imp hb
  have hgap : chunk.takeWhile (· = newline) = [] ∨ chunk.takeWhile (· = newline) = [newline] := by
    cases hfront : chunk.takeWhile (· = newline) with
    | nil => exact Or.inl rfl
    | cons a front =>
        have ha : a = newline := hgapall a (by rw [hfront]; exact List.mem_cons_self)
        cases front with
        | nil => exact Or.inr (by rw [ha])
        | cons a' front =>
            have ha' : a' = newline := hgapall a' (by rw [hfront]; simp)
            rw [← hsplit, hfront] at hspaced
            exact absurd ha' ((List.isChain_cons_cons.mp hspaced).1 ha)
  have hword : ∀ w, newline ∉ w → (∀ b ∈ w, b ∈ chunk) → IsWord newline w := fun w hw hsub b hb =>
    ⟨fun heq => hw (heq ▸ hb), hzero b (hsub b hb)⟩
  have htail : ∀ b ∈ chunk.dropWhile (· = newline), b ∈ chunk := fun b hb => by
    rw [← hsplit]
    exact List.mem_append_right _ hb
  by_cases hmem : newline ∈ chunk.dropWhile (· = newline)
  · obtain ⟨w, rest, heq, hw⟩ := List.eq_append_cons_of_mem hmem
    refine ⟨_, w, hgap, hword w hw fun b hb => htail b ?_, fun _ => ⟨?_, rest, ?_⟩, fun hnot =>
      absurd hmem hnot⟩
    · rw [heq]
      exact List.mem_append_left _ hb
    · -- what follows the newlines does not begin with one
      rintro rfl
      have hhead := List.head?_dropWhile_not (fun b => decide (b = newline)) chunk
      rw [heq] at hhead
      exact absurd hhead (by simp)
    · rw [← heq, hsplit]
  · exact ⟨_, _, hgap, hword _ hmem htail, fun hyes => absurd hyes hmem, fun _ => hsplit.symm⟩

/-- A zero stands where the token ended, if anywhere. -/
theorem second_byte {gap w : List UInt8} (rest : List UInt8) (hgap : gap = [] ∨ gap = [newline])
    (hw : IsWord newline w) (hne : w ≠ []) :
    (gap ++ (w ++ 0 :: rest))[1]? = some 0 ↔ (gap ++ (w ++ newline :: rest))[1]? = some newline := by
  cases w with
  | nil => exact absurd rfl hne
  | cons a w =>
      obtain ⟨ha, ha0⟩ := hw a List.mem_cons_self
      cases hgap with
      | inr hgap => simp [hgap, ha, ha0]
      | inl hgap =>
          cases w with
          | nil => simp [hgap]
          | cons b w =>
              obtain ⟨hb, hb0⟩ := hw b (by simp)
              simp [hgap, hb, hb0]

/-- Behind a lone newline `strtok` goes on to the next byte, and past it unless it is zero. -/
theorem strtok_beyond {rest : List UInt8} {t : Token} (hb : b ≠ 0)
    (h : strtok newline (newline :: b :: rest) 0 = some t) : 2 ≤ t.last := by
  obtain ⟨x, rest', hdrop, hle, hlt⟩ := strtok_last h
  have htake : ((newline :: b :: rest).takeWhile (· = newline)).length =
      ((b :: rest).takeWhile (· = newline)).length + 1 := rfl
  rw [List.drop_zero] at hdrop hle hlt
  rw [htake] at hle hlt
  by_cases hnl : b = newline
  · have hlong : 1 ≤ ((b :: rest).takeWhile (· = newline)).length := by
      rw [List.takeWhile_cons_of_pos (by simp [hnl])]
      exact Nat.succ_le_succ (Nat.zero_le _)
    omega
  · have hx : (b :: rest).dropWhile (· = newline) = x :: rest' := hdrop
    rw [List.dropWhile_cons_of_neg (by simp [hnl])] at hx
    have hfar := hlt ((List.cons.inj hx).1 ▸ hb)
    omega

/-- The reader before `read` number `k`, with the table full. -/
structure Later (file : List UInt8) (k : Nat) (s : Reader) : Prop where
  full : s.index = numClasses
  size : s.val.length = valSize
  clean : s.overrun = false
  second : s.val[1]? = some 0 ↔ (chunkAt file (k - 1))[1]? = some newline

theorem length_chunkAt (file : List UInt8) (k : Nat) :
    (chunkAt file k).length = min valSize (file.length - valSize * k) := by
  rw [chunkAt, List.length_take, List.length_drop]

/-- With the table full one call of `strtok` is all that is left of a round. -/
theorem readChunk_full (hfull : s.index = numClasses) : readChunk chunk s =
    (strtok newline (chunk ++ s.val.drop chunk.length) 0).map (s.scan chunk.length) := by
  rw [readChunk, hfull, Nat.sub_self, Option.map_eq_bind]
  rfl

/-- **A later chunk that is as it should be** leaves the table alone. -/
theorem readChunk_later (hfile : Lined file) (h : Later file k s) (hok : ChunkOk file k) :
    ∃ s', readChunk (chunkAt file k) s = some s' ∧ s'.nPerSize = s.nPerSize ∧ s'.overrun = false ∧
      (valSize * (k + 1) < file.length → Later file (k + 1) s') := by
  have hlined := hfile.drop (valSize * k)
  have hlen := length_chunkAt file k
  have hbig : valSize = 326 := rfl
  have hsucc : valSize * (k + 1) = valSize * k + valSize := Nat.mul_succ valSize k
  obtain ⟨gap, w, hgap, hw, hfound, -⟩ := split_chunk (chunkAt file k)
    (fun b hb => hlined.nonzero b (List.mem_of_mem_take hb)) (hlined.spaced.take valSize)
  rw [readChunk_full h.full]
  by_cases hmem : newline ∈ (chunkAt file k).dropWhile (· = newline)
  · obtain ⟨hne, rest, hchunk⟩ := hfound hmem
    have hbuf : chunkAt file k ++ s.val.drop (chunkAt file k).length =
        [] ++ (gap ++ (w ++ newline :: (rest ++ s.val.drop (chunkAt file k).length))) := by
      rw [List.nil_append]
      nth_rewrite 1 [hchunk]
      simp only [List.append_assoc, List.cons_append]
    have htoken := strtok_token [] (rest ++ s.val.drop (chunkAt file k).length) newline_ne_zero
      (isGap_lone hgap) hw hne
    have hsum : gap.length + w.length + (rest.length + 1) = (chunkAt file k).length := by
      rw [hchunk]
      simp only [List.length_append, List.length_cons]
      omega
    rw [← hbuf] at htoken
    rw [show (0 : Nat) = ([] : List UInt8).length from rfl, htoken]
    refine ⟨_, rfl, rfl, ?_, fun hnext => ?_⟩
    · rw [scan_overrun (Or.inl (by simp only [List.length_nil]; omega)), h.clean]
    · constructor
      case full => exact h.full
      case size =>
        have hval := h.size
        simp only [Reader.scan_val, List.nil_append, List.length_append, List.length_cons,
          List.length_drop]
        omega
      case clean =>
        rw [scan_overrun (Or.inl (by simp only [List.length_nil]; omega)), h.clean]
      case second =>
        have hbyte := second_byte (rest ++ s.val.drop (chunkAt file k).length) hgap hw hne
        have hfront : (chunkAt file k ++ s.val.drop (chunkAt file k).length)[1]? =
            (chunkAt file k)[1]? := List.getElem?_append_left (by omega)
        rw [List.nil_append] at hbuf
        rw [← hbuf, hfront] at hbyte
        exact hbyte
  · -- a lone newline: `strtok` finds the zero behind it
    obtain ⟨hone, hprev⟩ := hok.resolve_left hmem
    have hzero := h.second.mpr hprev
    obtain ⟨hlt, hget⟩ := List.getElem?_eq_some_iff.mp hzero
    have hdrop : s.val.drop 1 = 0 :: s.val.drop 2 := by
      rw [List.drop_eq_getElem_cons hlt, hget]
    have hend := strtok_end [] (s.val.drop 2) newline_ne_zero (isGap_lone (Or.inr rfl))
    rw [hone, List.length_singleton] at hlen
    rw [hone, List.length_singleton, hdrop]
    rw [show (0 : Nat) = ([] : List UInt8).length from rfl]
    refine ⟨_, congrArg (Option.map _) hend, rfl, ?_, fun hnext => by omega⟩
    exact (scan_overrun (Or.inr ⟨rfl, rfl⟩)).trans h.clean

/-- **Any other later chunk** sends the tokenizer past what was read. -/
theorem readChunk_bad {s' : Reader} (hfile : Lined file) (hk : valSize * k < file.length)
    (h : Later file k s) (hbad : ¬ ChunkOk file k)
    (hread : readChunk (chunkAt file k) s = some s') :
    s'.overrun = true ∧ file.length ≤ valSize * (k + 1) := by
  have hlined := hfile.drop (valSize * k)
  have hlen := length_chunkAt file k
  have hbig : valSize = 326 := rfl
  have hsucc : valSize * (k + 1) = valSize * k + valSize := Nat.mul_succ valSize k
  obtain ⟨hmem, hlone⟩ := not_or.mp hbad
  obtain ⟨gap, w, hgap, hw, -, hchunk⟩ := split_chunk (chunkAt file k)
    (fun b hb => hlined.nonzero b (List.mem_of_mem_take hb)) (hlined.spaced.take valSize)
  replace hchunk := hchunk hmem
  rw [readChunk_full h.full] at hread
  by_cases hfull : (chunkAt file k).length = valSize
  · -- the chunk fills the buffer, and its token has no end
    have hnone := strtok_overflow [] (isGap_lone hgap) hw
    rw [hfull, ← h.size, List.drop_length, List.append_nil, hchunk] at hread
    rw [List.nil_append] at hnone
    rw [show (0 : Nat) = ([] : List UInt8).length from rfl, hnone] at hread
    exact absurd hread (by simp)
  · have hlast : chunkAt file k = file.drop (valSize * k) := by
      rw [chunkAt]
      refine List.take_of_length_le ?_
      rw [List.length_drop]
      omega
    have hw0 : w = [] := by
      by_contra hne
      obtain ⟨b, hb⟩ : ∃ b, w.getLast? = some b := ⟨_, List.getLast?_eq_getLast_of_ne_nil hne⟩
      have hends := hlined.ends b (by rw [← hlast, hchunk, List.getLast?_append, hb]; rfl)
      exact (hw b (List.mem_of_getLast? hb)).1 hends
    have hone : chunkAt file k = [newline] := by
      rw [hchunk, hw0, List.append_nil]
      refine hgap.resolve_left fun hnil => ?_
      rw [hchunk, hw0, hnil] at hlen
      simp only [List.append_nil, List.length_nil] at hlen
      omega
    have hzero : s.val[1]? ≠ some 0 := fun hzero => hlone ⟨hone, h.second.mp hzero⟩
    have hlt : 1 < s.val.length := by
      rw [h.size]
      decide
    have hb : s.val[1] ≠ 0 := fun heq => hzero (by rw [List.getElem?_eq_getElem hlt, heq])
    have hdrop : s.val.drop 1 = s.val[1] :: s.val.drop 2 := List.drop_eq_getElem_cons hlt
    rw [hone, List.length_singleton] at hlen hread
    rw [hdrop, List.singleton_append] at hread
    obtain ⟨t, ht, rfl⟩ := Option.map_eq_some_iff.mp hread
    have hfar := strtok_beyond hb ht
    refine ⟨?_, by omega⟩
    have hpast : (decide (t.last < 1) || decide (t.last = 1 ∧ t.seen = 0)) = false := by
      simp only [Bool.or_eq_false_iff, decide_eq_false_iff_not, not_and]
      omega
    rw [Reader.scan]
    dsimp only
    rw [hpast]
    simp

/-- One round of the outer loop. -/
theorem readLoop_drop (hk : valSize * k < file.length) : readLoop (file.drop (valSize * k)) s =
    (readChunk (chunkAt file k) s).bind fun s => readLoop (file.drop (valSize * (k + 1))) s := by
  have hne : file.drop (valSize * k) ≠ [] := by
    rw [Ne, List.drop_eq_nil_iff]
    omega
  rw [readLoop, if_neg hne, List.drop_drop, Nat.mul_succ]
  rfl

theorem readLoop_first (hne : file ≠ []) : readLoop file s =
    (readChunk (file.take valSize) s).bind fun s => readLoop (file.drop valSize) s := by
  rw [readLoop, if_neg hne]

theorem readLoop_end (hk : file.length ≤ valSize * k) :
    readLoop (file.drop (valSize * k)) s = some s := by
  rw [readLoop, if_pos (List.drop_eq_nil_of_le hk)]

/-- **The rest of the file** is read to its end if every chunk is as it should be. -/
theorem readLoop_later (hfile : Lined file) (h : Later file k s)
    (hok : ∀ j ≥ k, valSize * j < file.length → ChunkOk file j) :
    ∃ s', readLoop (file.drop (valSize * k)) s = some s' ∧ s'.overrun = false ∧
      s'.nPerSize = s.nPerSize := by
  induction hn : file.length - valSize * k using Nat.strong_induction_on generalizing k s with
  | _ n ih =>
      by_cases hk : valSize * k < file.length
      · obtain ⟨s₁, hread, htable, hclean, hnext⟩ := readChunk_later hfile h (hok k (Nat.le_refl k) hk)
        rw [readLoop_drop hk, hread, Option.bind_some]
        by_cases hk' : valSize * (k + 1) < file.length
        · have hless : file.length - valSize * (k + 1) < n := by
            have hpos : 0 < valSize := by decide
            rw [Nat.mul_succ] at hk' ⊢
            omega
          obtain ⟨s', hrest, hclean', htable'⟩ := ih _ hless (hnext hk')
            (fun j hj => hok j (Nat.le_of_succ_le hj)) rfl
          exact ⟨s', hrest, hclean', htable'.trans htable⟩
        · exact ⟨s₁, readLoop_end (Nat.not_lt.mp hk'), hclean, htable⟩
      · exact ⟨s, readLoop_end (Nat.not_lt.mp hk), h.clean, rfl⟩

/-- **Reading it cleanly** takes that every chunk is as it should be. -/
theorem chunkOk_of_readLoop {s' : Reader} (hfile : Lined file) (h : Later file k s)
    (hread : readLoop (file.drop (valSize * k)) s = some s') (hclean : s'.overrun = false) :
    ∀ j ≥ k, valSize * j < file.length → ChunkOk file j := by
  induction hn : file.length - valSize * k using Nat.strong_induction_on generalizing k s with
  | _ n ih =>
      intro j hj hlt
      have hk : valSize * k < file.length := Nat.lt_of_le_of_lt (Nat.mul_le_mul_left valSize hj) hlt
      rw [readLoop_drop hk] at hread
      obtain ⟨s₁, hchunk, hrest⟩ := Option.bind_eq_some_iff.mp hread
      have hok : ChunkOk file k := by
        by_contra hbad
        obtain ⟨hover, hend⟩ := readChunk_bad hfile hk h hbad hchunk
        rw [readLoop_end hend] at hrest
        obtain rfl := Option.some.inj hrest
        rw [hover] at hclean
        exact absurd hclean (by decide)
      cases Nat.lt_or_eq_of_le hj with
      | inr heq => rwa [← heq]
      | inl hgt =>
          have hk' : valSize * (k + 1) < file.length :=
            Nat.lt_of_le_of_lt (Nat.mul_le_mul_left valSize hgt) hlt
          have hless : file.length - valSize * (k + 1) < n := by
            have hpos : 0 < valSize := by decide
            rw [Nat.mul_succ] at hk' ⊢
            omega
          obtain ⟨s₂, hchunk', -, -, hnext⟩ := readChunk_later hfile h hok
          obtain rfl := Option.some.inj (hchunk.symm.trans hchunk')
          exact ih _ hless (hnext hk') hrest rfl j hgt hlt

end LaterChunks

/-! ### Whole files -/

section Files

variable {lines : List Numeral} {s' : Reader}

/-- The table after the first chunk. -/
theorem table_of_filled (h : Filled Reader.blank s' lines numClasses) (i : SizeClass) :
    s'.nPerSize i = (lines[i.val]?.map Numeral.value).getD 0 := by
  have hentry := h.entry i (Nat.zero_le _)
  have htake : (lines.take numClasses)[i.val]? = lines[i.val]? := List.getElem?_take_of_lt i.isLt
  rw [hentry]
  show ((lines.take numClasses)[i.val - 0]?.map Numeral.value).getD 0 = _
  rw [Nat.sub_zero, htake]

/-- **A file that leaves room for a terminating zero** is parsed. -/
theorem parses_of_short (hlen : (linesText lines).length < valSize) : Parses lines := by
  have hzeros : Reader.blank.val.drop (linesText lines).length =
      0 :: List.replicate (valSize - (linesText lines).length - 1) 0 := by
    show (List.replicate valSize 0).drop _ = _
    rw [List.drop_replicate, ← List.replicate_succ]
    congr 1
    omega
  obtain ⟨t, s', hcall, htake, hover, hfilled, -⟩ := takeTokens_lines (r := (linesText lines).length)
    [] (Reader.blank.val.drop (linesText lines).length) numClasses Reader.blank (Or.inr ⟨_, hzeros⟩)
    (by rw [List.length_nil, Nat.zero_add])
  have hrest : (linesText lines).drop valSize = [] := List.drop_eq_nil_of_le (Nat.le_of_lt hlen)
  cases lines with
  | nil => exact ⟨Reader.blank, by rw [readSizeListFile, linesText, List.flatMap_nil, readLoop, if_pos rfl],
      rfl, fun _ => rfl⟩
  | cons n lines =>
      refine ⟨s', ?_, hover, table_of_filled hfilled⟩
      rw [readSizeListFile, readLoop_first (linesText_ne_nil n lines),
        List.take_of_length_le (Nat.le_of_lt hlen), hrest, readChunk]
      rw [List.nil_append] at hcall
      rw [show (0 : Nat) = ([] : List UInt8).length from rfl, hcall, Option.bind_some]
      show (takeTokens _ numClasses t _).bind _ = _
      rw [htake, Option.bind_some, readLoop, if_pos rfl]

/-- **A longer file** is parsed if its first chunk fills the table and every later one is as it
should be, and only then. -/
theorem parses_of_long (hlen : valSize ≤ (linesText lines).length) :
    Parses lines ↔ numClasses + 1 ≤ ((linesText lines).take valSize).count newline ∧
      ∀ k ≥ 1, valSize * k < (linesText lines).length → ChunkOk (linesText lines) k := by
  obtain ⟨k, part, htake, hpart, hk, hcount⟩ := take_linesText lines valSize
  have hlenChunk : ((linesText lines).take valSize).length = valSize := by
    rw [List.length_take]
    omega
  have hne : linesText lines ≠ [] := by
    rw [← List.length_pos_iff]
    have hpos : 0 < valSize := by decide
    omega
  have hdrop : Reader.blank.val.drop ((linesText lines).take valSize).length = [] := by
    rw [hlenChunk]
    exact List.drop_of_length_le (Nat.le_of_eq List.length_replicate)
  -- the first round, on a buffer that the file fills
  have hround : readSizeListFile (some (linesText lines)) =
      ((strtok newline ([] ++ (linesText (lines.take k) ++ part)) ([] : List UInt8).length).bind fun t =>
        takeTokens valSize numClasses t (Reader.blank.scan valSize t)).bind fun s =>
          readLoop ((linesText lines).drop (valSize * 1)) s := by
    rw [readSizeListFile, readLoop_first hne, readChunk, hdrop, List.append_nil, hlenChunk, htake,
      Nat.mul_one]
    rfl
  rw [hcount]
  by_cases hfew : k ≤ numClasses
  · -- too few lines: `strtok` runs off the buffer
    refine iff_of_false ?_ fun hcond => absurd hcond.1 (by omega)
    intro ⟨s, hread, _⟩
    have hcount : (lines.take k).length ≤ numClasses := by
      rw [List.length_take]
      omega
    rw [hround, takeTokens_overflow [] Reader.blank hpart hcount] at hread
    exact absurd hread (by simp)
  · have hmany : numClasses < (lines.take k).length := by
      rw [List.length_take]
      omega
    have hchunk : (linesText (lines.take k)).length + part.length = valSize := by
      rw [← List.length_append, ← htake, hlenChunk]
    obtain ⟨t, s', hcall, htokens, hover, hfilled, hval, hkept⟩ := takeTokens_lines (r := valSize)
      [] part numClasses Reader.blank (Or.inl hmany) (by rw [List.length_nil]; omega)
    rw [hcall, Option.bind_some, htokens, Option.bind_some] at hround
    have hlater : Later (linesText lines) 1 s' := by
      constructor
      case full =>
        rw [hfilled.index, Nat.min_eq_left (Nat.le_of_lt hmany)]
        exact Nat.zero_add _
      case size =>
        rw [hval, List.nil_append, ← htake, hlenChunk]
      case clean => exact hover
      case second =>
        have hzero : chunkAt (linesText lines) (1 - 1) = linesText (lines.take k) ++ part := htake
        rw [hzero]
        cases hlines : lines.take k with
        | nil =>
            rw [hlines] at hmany
            exact absurd hmany (Nat.not_lt_zero _)
        | cons n rest =>
            have hpos := List.length_pos_iff.mpr n.text_ne_nil
            have hfront : s'.val[1]? = (n.text ++ [0])[1]? := by
              rw [hlines] at hkept
              refine hkept 1 ?_
              rw [List.nil_append, firstToken, List.length_append, List.length_singleton]
              omega
            have hbyte := second_byte (linesText rest ++ part) (Or.inl rfl) (isWord_text n)
              n.text_ne_nil
            rw [List.nil_append, List.nil_append] at hbyte
            rw [hfront, linesText_cons, List.append_assoc, List.cons_append, ← hbyte]
            have hsplit : n.text ++ 0 :: (linesText rest ++ part) =
                (n.text ++ [0]) ++ (linesText rest ++ part) := by simp
            have hsame : ((n.text ++ [0]) ++ (linesText rest ++ part))[1]? = (n.text ++ [0])[1]? := by
              refine List.getElem?_append_left ?_
              rw [List.length_append, List.length_singleton]
              omega
            rw [hsplit, hsame]
    constructor
    · intro ⟨s, hread, hclean, _⟩
      rw [hround] at hread
      exact ⟨by omega, chunkOk_of_readLoop (lined_linesText lines) hlater hread hclean⟩
    · intro ⟨_, hok⟩
      obtain ⟨s, hread, hclean, htable⟩ := readLoop_later (lined_linesText lines) hlater hok
      refine ⟨s, hround.trans hread, hclean, fun i => ?_⟩
      have hi : i.val < k := Nat.lt_of_lt_of_le i.isLt (by omega)
      rw [htable, table_of_filled hfilled, List.getElem?_take_of_lt hi]

/-- **`readSizeListFile`** fills the table from the lines, and looks only at bytes it has just
read, exactly for files shorter than the buffer, and for those whose first chunk has a line more
than the table while every later chunk has the end of its first token. -/
theorem readSizeListFile_parses_iff (lines : List Numeral) :
    Parses lines ↔ (linesText lines).length < valSize ∨
      numClasses + 1 ≤ ((linesText lines).take valSize).count newline ∧
        ∀ k ≥ 1, valSize * k < (linesText lines).length → ChunkOk (linesText lines) k := by
  by_cases hlen : (linesText lines).length < valSize
  · exact iff_of_true (parses_of_short hlen) (Or.inl hlen)
  · rw [parses_of_long (Nat.not_lt.mp hlen)]
    exact (or_iff_right hlen).symm

/-- The numeral `10240`. -/
def entry10240 : Numeral := ⟨.none, [1, 0, 2, 4, 0], by decide, by decide⟩

/-- A table of 65 entries of five digits is longer than the buffer. -/
theorem not_parses : ¬ ∀ lines, Parses lines := by
  intro h
  have hlong : valSize ≤ (linesText (List.replicate 65 entry10240)).length := by decide +kernel
  have hlines := ((parses_of_long hlong).mp (h _)).1
  have hfew : ¬ numClasses + 1 ≤
      ((linesText (List.replicate 65 entry10240)).take valSize).count newline := by decide +kernel
  exact hfew hlines

end Files

end MemorySizeManager

end FCMalloc
