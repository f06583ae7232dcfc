import FCMalloc.Library.Extent
import FCMalloc.Library.TransitionSystem
import Mathlib.Data.List.Basic
import Mathlib.Logic.Function.Basic

/-!
# The heap as its client sees it

A `ClientHeap` is what a program owns: blocks, each with the cells in it, no two of which
overlap. `ClientHeap.Step` says what an allocator promises for each `HeapEvent`: a fresh block
of the size asked for, cleared or with the old contents where that is owed, and nothing
else changed. Where blocks come from and go to is not its concern.

The two results are about runs. A block that is not given up has in each cell what was
written there last (`Traced.keeps`, `lastWrite`), and a pointer is handed out exactly as
often as it is given up, and once more while it is held (`Traced.balance`).
-/

/-- What a client does with its heap, and the pointer it gets. -/
inductive HeapEvent (β : Type*)
  | alloc (size p : Nat)
  /-- An allocation of cleared cells. -/
  | zalloc (size p : Nat)
  /-- A block of a larger size at `p` for the one at `old`. -/
  | move (old p size : Nat)
  | free (p : Nat)
  | write (x : Nat) (v : β)
  /-- Nothing the client can see. -/
  | quiet
  deriving DecidableEq, Repr

namespace HeapEvent

variable {β : Type*}

/-- The client gives the block at `p` up. -/
def Gives (p : Nat) : HeapEvent β → Prop
  | free p' => p' = p
  | move old _ _ => old = p
  | _ => False

/-- The client gets a block at `p`. -/
def Gets (p : Nat) : HeapEvent β → Prop
  | alloc _ p' | zalloc _ p' | move _ p' _ => p' = p
  | _ => False

instance (p : Nat) : DecidablePred (Gives (β := β) p)
  | free p' => inferInstanceAs (Decidable (p' = p))
  | move old _ _ => inferInstanceAs (Decidable (old = p))
  | alloc _ _ | zalloc _ _ | write _ _ | quiet => inferInstanceAs (Decidable False)

instance (p : Nat) : DecidablePred (Gets (β := β) p)
  | alloc _ p' | zalloc _ p' | move _ p' _ => inferInstanceAs (Decidable (p' = p))
  | free _ | write _ _ | quiet => inferInstanceAs (Decidable False)

/-- What becomes of the cells `xs` of a block at `p`. -/
def apply (p : Nat) (xs : List β) : HeapEvent β → List β
  | write x v => if p ≤ x then xs.set (x - p) v else xs
  | _ => xs

/-- The value written to cell `x` last. -/
def lastWrite (x : Nat) (es : List (HeapEvent β)) : Option β :=
  es.foldl (fun last e =>
    match e with
    | write y v => if y = x then some v else last
    | _ => last) none

end HeapEvent

/-- The blocks a client holds: where each starts and what is in its cells. -/
structure ClientHeap (β : Type*) where
  block : Nat → Option (List β)
  apart : ∀ p p' xs xs', p ≠ p' → block p = some xs → block p' = some xs' →
    (⟨p, xs.length⟩ : Extent).Apart ⟨p', xs'.length⟩

namespace ClientHeap

variable {β : Type*}

/-- No block is held. -/
def empty : ClientHeap β := ⟨fun _ => none, fun _ _ _ _ _ h => by cases h⟩

variable [OfNat β 0] {h h' : ClientHeap β} {e : HeapEvent β} {es : List (HeapEvent β)} {p : Nat}
  {xs ys : List β}

/-- **What an allocator promises.** -/
inductive Step (h : ClientHeap β) : HeapEvent β → ClientHeap β → Prop
  | alloc {size p : Nat} {xs : List β} {h' : ClientHeap β} : h.block p = none →
      size ≤ xs.length → h'.block = Function.update h.block p (some xs) → Step h (.alloc size p) h'
  | zalloc {size p : Nat} {xs : List β} {h' : ClientHeap β} : h.block p = none →
      size ≤ xs.length → (∀ i < size, xs[i]? = some 0) →
      h'.block = Function.update h.block p (some xs) → Step h (.zalloc size p) h'
  | move {old p size : Nat} {ys xs : List β} {h' : ClientHeap β} : h.block old = some ys →
      h.block p = none → ys.length < size → size ≤ xs.length → ys <+: xs →
      h'.block = Function.update (Function.update h.block old none) p (some xs) →
      Step h (.move old p size) h'
  | free {p : Nat} {ys : List β} {h' : ClientHeap β} : h.block p = some ys →
      h'.block = Function.update h.block p none → Step h (.free p) h'
  | write {x : Nat} {v : β} {h' : ClientHeap β} :
      (∀ p, h'.block p = (h.block p).map fun xs => HeapEvent.apply p xs (.write x v)) →
      Step h (.write x v) h'
  | quiet {h' : ClientHeap β} : h'.block = h.block → Step h .quiet h'

/-- **One step** leaves a block alone that is not given up. -/
theorem Step.keeps (hstep : Step h e h') (hp : h.block p = some xs) (hkeep : ¬ e.Gives p) :
    h'.block p = some (e.apply p xs) := by
  cases hstep with
  | alloc hnone _ hblock | zalloc hnone _ _ hblock =>
      have hne : p ≠ _ := fun heq => by rw [heq, hnone] at hp; cases hp
      rw [hblock, Function.update_of_ne hne, hp]
      rfl
  | move _ hnone _ _ _ hblock =>
      have hne : p ≠ _ := fun heq => by rw [heq, hnone] at hp; cases hp
      rw [hblock, Function.update_of_ne hne, Function.update_of_ne fun heq => hkeep heq.symm, hp]
      rfl
  | free _ hblock =>
      rw [hblock, Function.update_of_ne fun heq => hkeep heq.symm, hp]
      rfl
  | write hblock => rw [hblock, hp, Option.map_some]
  | quiet hblock =>
      rw [hblock, hp]
      rfl

/-- What a step does to whether there is a block at `p`. -/
theorem Step.balance (hstep : Step h e h') (p : Nat) :
    (if e.Gets p then 1 else 0) + (h.block p).elim 0 (fun _ => 1) =
      (if e.Gives p then 1 else 0) + (h'.block p).elim 0 (fun _ => 1) := by
  cases hstep with
  | @alloc size p' xs _ hnone _ hblock | @zalloc size p' xs _ hnone _ _ hblock =>
      by_cases hp : p' = p
      · subst hp
        simp [HeapEvent.Gets, HeapEvent.Gives, hblock, hnone]
      · simp [HeapEvent.Gets, HeapEvent.Gives, hblock, hp, Ne.symm hp]
  | @move old p' size ys xs _ hold hnone _ _ _ hblock =>
      have hne : old ≠ p' := by
        rintro rfl
        rw [hold] at hnone
        cases hnone
      by_cases hp : p' = p
      · subst hp
        simp [HeapEvent.Gets, HeapEvent.Gives, hblock, hnone, hne]
      · by_cases hp' : old = p
        · subst hp'
          simp [HeapEvent.Gets, HeapEvent.Gives, hblock, hold, hp, Ne.symm hp]
        · simp [HeapEvent.Gets, HeapEvent.Gives, hblock, hp, Ne.symm hp, hp', Ne.symm hp']
  | @free p' ys _ hold hblock =>
      by_cases hp : p' = p
      · subst hp
        simp [HeapEvent.Gets, HeapEvent.Gives, hblock, hold]
      · simp [HeapEvent.Gets, HeapEvent.Gives, hblock, hp, Ne.symm hp]
  | write hblock =>
      rw [hblock]
      cases h.block p <;> simp [HeapEvent.Gets, HeapEvent.Gives]
  | quiet hblock => simp [HeapEvent.Gets, HeapEvent.Gives, hblock]

/-! ### Paths -/

/-- **A block that is not given up** has what was written into it, in order. -/
theorem keeps (hpath : Traced Step h es h') (hp : h.block p = some xs)
    (hkeep : ∀ e ∈ es, ¬ e.Gives p) :
    h'.block p = some (es.foldl (fun xs e => e.apply p xs) xs) := by
  induction hpath with
  | nil => exact hp
  | snoc _ hstep ih =>
      have hbefore := ih fun e he => hkeep e (List.mem_append_left _ he)
      rw [hstep.keeps hbefore (hkeep _ (by simp)), List.foldl_append]
      rfl

/-- **A pointer is handed out** as often as it is given up, and once more if it is held. -/
theorem balance (hpath : Traced Step h es h') (p : Nat) :
    es.countP (fun e => e.Gets p) + (h.block p).elim 0 (fun _ => 1) =
      es.countP (fun e => e.Gives p) + (h'.block p).elim 0 (fun _ => 1) := by
  induction hpath with
  | nil => rfl
  | snoc _ hstep ih =>
      have hone := hstep.balance p
      simp only [List.countP_append, List.countP_singleton, decide_eq_true_eq]
      omega

end ClientHeap

namespace HeapEvent

variable {β : Type*} {es : List (HeapEvent β)} {p i : Nat} {xs : List β}

theorem apply_length (p : Nat) (xs : List β) (e : HeapEvent β) :
    (e.apply p xs).length = xs.length := by
  cases e with
  | write x v =>
      dsimp only [apply]
      split
      · exact List.length_set
      · rfl
  | _ => rfl

theorem foldl_apply_length (p : Nat) (xs : List β) (es : List (HeapEvent β)) :
    (es.foldl (fun xs e => e.apply p xs) xs).length = xs.length := by
  induction es generalizing xs with
  | nil => rfl
  | cons e es ih => rw [List.foldl_cons, ih, apply_length]

theorem lastWrite_snoc (x : Nat) (es : List (HeapEvent β)) (e : HeapEvent β) :
    lastWrite x (es ++ [e]) =
      match e with
      | write y v => if y = x then some v else lastWrite x es
      | _ => lastWrite x es := by
  rw [lastWrite, List.foldl_append]
  rfl

/-- Only writes count. -/
theorem lastWrite_snoc_of_ne {e : HeapEvent β} (hne : ∀ y v, e ≠ write y v) (x : Nat)
    (es : List (HeapEvent β)) : lastWrite x (es ++ [e]) = lastWrite x es := by
  rw [lastWrite_snoc]
  cases e with
  | write y v => exact absurd rfl (hne y v)
  | _ => rfl

/-- **Each cell** has the last value written to it, and else the one it had. -/
theorem getElem?_foldl_apply (p i : Nat) (xs : List β) (es : List (HeapEvent β)) :
    (es.foldl (fun xs e => e.apply p xs) xs)[i]? =
      xs[i]?.map fun v => (lastWrite (p + i) es).getD v := by
  induction es using List.reverseRecOn with
  | nil => simp [lastWrite]
  | append_singleton es e ih =>
      rw [List.foldl_append, lastWrite_snoc, List.foldl_cons, List.foldl_nil]
      generalize es.foldl (fun xs e => e.apply p xs) xs = zs at ih
      cases e with
      | write x v =>
          dsimp only [apply]
          by_cases hx : x = p + i
          · subst hx
            rw [if_pos (Nat.le_add_right _ _), if_pos rfl, Nat.add_sub_cancel_left]
            cases hxs : xs[i]? with
            | none =>
                rw [hxs] at ih
                rw [List.getElem?_set]
                simp [List.getElem?_eq_none_iff.mp ih]
            | some y =>
                rw [hxs] at ih
                obtain ⟨hi, -⟩ := List.getElem?_eq_some_iff.mp ih
                simp [hi]
          · rw [if_neg hx, ← ih]
            split
            · exact List.getElem?_set_ne (by omega)
            · rfl
      | _ => exact ih

end HeapEvent
