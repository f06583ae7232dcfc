import Mathlib.Init

/-!
# Counted loops

`forRange n f s` is `for (i = 0; i < n; ++i) s = f(i, s)`. The loop rule is
`forRange_invariant`: a predicate indexed by the number of rounds done, true at
the start and carried by each round, holds at the end. `forRange_map` is the rule
for a loop that another one follows round by round, and `forRange_related` that for two loops
whose variables are related.
-/

variable {σ τ : Type*}

/-- Run `f 0`, `f 1`, …, `f (n - 1)` in this order. -/
def forRange : Nat → (Nat → σ → σ) → σ → σ
  | 0, _, s => s
  | n + 1, f, s => f n (forRange n f s)

@[simp] theorem forRange_zero (f : Nat → σ → σ) (s : σ) : forRange 0 f s = s := rfl

theorem forRange_succ (n : Nat) (f : Nat → σ → σ) (s : σ) :
    forRange (n + 1) f s = f n (forRange n f s) := rfl

/-- The loop rule. -/
theorem forRange_invariant {n : Nat} {f : Nat → σ → σ} {s : σ} (P : Nat → σ → Prop)
    (hstart : P 0 s) (hround : ∀ i < n, ∀ t, P i t → P (i + 1) (f i t)) :
    P n (forRange n f s) := by
  induction n with
  | zero => exact hstart
  | succ n ih =>
      have hprev := ih fun i hi => hround i (Nat.lt_succ_of_lt hi)
      exact hround n (Nat.lt_succ_self n) _ hprev

/-- A loop over richer variables does on their image what the loop over the image does. -/
theorem forRange_map {f : Nat → σ → σ} {g : Nat → τ → τ} (image : σ → τ)
    (hround : ∀ i s, image (f i s) = g i (image s)) (n : Nat) (s : σ) :
    image (forRange n f s) = forRange n g (image s) := by
  induction n with
  | zero => rfl
  | succ n ih => rw [forRange_succ, forRange_succ, hround, ih]

/-- Two loops keep a relation that each of their rounds keeps. -/
theorem forRange_related {n : Nat} {f : Nat → σ → σ} {g : Nat → τ → τ} {s : σ} {t : τ}
    (R : σ → τ → Prop) (hstart : R s t)
    (hround : ∀ i < n, ∀ s t, R s t → R (f i s) (g i t)) : R (forRange n f s) (forRange n g t) := by
  induction n with
  | zero => exact hstart
  | succ n ih =>
      have hprev := ih fun i hi => hround i (Nat.lt_succ_of_lt hi)
      exact hround n (Nat.lt_succ_self n) _ _ hprev
