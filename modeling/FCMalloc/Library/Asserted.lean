import FCMalloc.Library.CountedLoop

/-!
# Programs with assertions

`check flag rest` is `assert(flag); rest`, where a failed assertion ends the program: a program
with assertions returns an `Option`, and `none` is its end. Taking the assertions out of it
leaves the program that does its work, and what is of interest is when the two agree.

Loops are the one place where that is not a matter of rewriting. `forRangeChecked_eq` and
`foldlM_eq` are the rules: if an invariant makes one round agree with the plain one, and the
plain round keeps it, then the loops agree and the invariant holds at the end.
-/

variable {α β σ : Type}

/-- **The program with assertions against the plain one**, which returns `r`: it ends if
`aborts`, and otherwise returns the same. -/
structure Agrees (d : Option α) (r : α) (aborts : Prop) : Prop where
  ends : aborts → d = none
  goes : ¬ aborts → d = some r

theorem Agrees.of_some {d : Option α} {r : α} {aborts : Prop} (h : d = some r) (hno : ¬ aborts) :
    Agrees d r aborts :=
  ⟨fun hyes => absurd hyes hno, fun _ => h⟩

theorem Agrees.of_none {d : Option α} {r : α} {aborts : Prop} (h : d = none) (hyes : aborts) :
    Agrees d r aborts :=
  ⟨fun _ => h, fun hno => absurd hyes hno⟩

theorem Agrees.congr {d : Option α} {r : α} {aborts aborts' : Prop} (h : Agrees d r aborts)
    (hiff : aborts ↔ aborts') : Agrees d r aborts' :=
  ⟨fun hyes => h.ends (hiff.mpr hyes), fun hno => h.goes (mt hiff.mp hno)⟩

/-- It ends under no other condition. -/
theorem Agrees.none_iff {d : Option α} {r : α} {aborts : Prop} (h : Agrees d r aborts) :
    d = none ↔ aborts :=
  ⟨fun hnone => Classical.byContradiction fun hno =>
    Option.some_ne_none r ((h.goes hno).symm.trans hnone), h.ends⟩

/-- `assert(flag)`, and then `rest`. -/
def check (flag : Prop) [Decidable flag] (rest : Option α) : Option α :=
  if flag then rest else none

@[simp] theorem check_pos {flag : Prop} [Decidable flag] (h : flag) (rest : Option α) :
    check flag rest = rest := if_pos h

@[simp] theorem check_neg {flag : Prop} [Decidable flag] (h : ¬ flag) (rest : Option α) :
    check flag rest = none := if_neg h

/-- `for (i = 0; i < n; ++i)` with a body that may end the program. -/
def forRangeChecked : Nat → (Nat → σ → Option σ) → σ → Option σ
  | 0, _, s => some s
  | n + 1, f, s => (forRangeChecked n f s).bind (f n)

/-- **The rule for counted loops.** -/
theorem forRangeChecked_eq {n : Nat} {f : Nat → σ → Option σ} {g : Nat → σ → σ} {s : σ}
    (P : σ → Prop) (hstart : P s)
    (hround : ∀ i < n, ∀ t, P t → f i t = some (g i t) ∧ P (g i t)) :
    forRangeChecked n f s = some (forRange n g s) ∧ P (forRange n g s) := by
  induction n with
  | zero => exact ⟨rfl, hstart⟩
  | succ n ih =>
      obtain ⟨hrun, hinv⟩ := ih fun i hi => hround i (Nat.lt_succ_of_lt hi)
      obtain ⟨hlast, hkeeps⟩ := hround n (Nat.lt_succ_self n) _ hinv
      refine ⟨?_, hkeeps⟩
      rw [forRangeChecked, hrun, Option.bind_some, hlast, forRange_succ]

/-- **The rule for loops over a list.** -/
theorem foldlM_eq {f : σ → β → Option σ} {g : σ → β → σ} {l : List β} {s : σ} (P : σ → Prop)
    (hstart : P s) (hround : ∀ b ∈ l, ∀ t, P t → f t b = some (g t b) ∧ P (g t b)) :
    l.foldlM f s = some (l.foldl g s) ∧ P (l.foldl g s) := by
  induction l generalizing s with
  | nil => exact ⟨rfl, hstart⟩
  | cons b l ih =>
      obtain ⟨hfirst, hkeeps⟩ := hround b List.mem_cons_self s hstart
      obtain ⟨hrun, hinv⟩ := ih hkeeps fun b' hb' => hround b' (List.mem_cons_of_mem b hb')
      refine ⟨?_, hinv⟩
      rw [List.foldlM_cons, hfirst]
      exact hrun
