import Mathlib.Init

/-!
# Transition systems

States, labelled steps, and runs whose steps all meet a condition.

`Run ok s` says that `s` is reached from a start state by steps that meet `ok` in the
state they start from. `Run.invariant` is the rule for safety properties: what holds
at the start and is kept by every step that meets `ok` holds along the run. `PeakRun`
also carries the largest value an observable has had along the run.

`Traced next s es s'` is a run from `s` to `s'` with what is seen of its steps, oldest first.
`Traced.simulate` is the rule for refinements: if every step of one system is answered by a
step of another that shows the same, so is every run. `Traced.relabel` is the rule for what a
run does not depend on.
-/

/-- A labelled transition system. -/
structure TransitionSystem (σ α : Type*) where
  start : σ → Prop
  step : σ → α → σ → Prop

namespace TransitionSystem

variable {σ α : Type*} {S : TransitionSystem σ α} {ok ok' : σ → α → Prop} {s : σ}

/-- The states reached by steps that meet `ok`. -/
inductive Run (S : TransitionSystem σ α) (ok : σ → α → Prop) : σ → Prop
  | start {s : σ} : S.start s → Run S ok s
  | step {s s' : σ} {a : α} : Run S ok s → ok s a → S.step s a s' → Run S ok s'

namespace Run

/-- **The invariant rule.** -/
theorem invariant {motive : σ → Prop} (hstart : ∀ s, S.start s → motive s)
    (hstep : ∀ s a s', motive s → ok s a → S.step s a s' → motive s') (h : S.Run ok s) :
    motive s := by
  induction h with
  | start hs => exact hstart _ hs
  | step _ hok hs ih => exact hstep _ _ _ ih hok hs

/-- A weaker condition allows more runs. -/
theorem mono (h : S.Run ok s) (hok : ∀ s a, ok s a → ok' s a) : S.Run ok' s := by
  induction h with
  | start hs => exact .start hs
  | step _ ha hs ih => exact .step ih (hok _ _ ha) hs

/-- A condition may rely on an invariant. -/
theorem strengthen {motive : σ → Prop} (hstart : ∀ s, S.start s → motive s)
    (hstep : ∀ s a s', motive s → ok s a → S.step s a s' → motive s')
    (hok : ∀ s a, motive s → ok s a → ok' s a) (h : S.Run ok s) : motive s ∧ S.Run ok' s := by
  induction h with
  | start hs => exact ⟨hstart _ hs, .start hs⟩
  | step _ ha hs ih =>
      obtain ⟨hinv, hrun⟩ := ih
      exact ⟨hstep _ _ _ hinv ha hs, .step hrun (hok _ _ hinv ha) hs⟩

end Run

/-- Runs with the largest value of `f` in any of their states. -/
inductive PeakRun (S : TransitionSystem σ α) (ok : σ → α → Prop) (f : σ → Nat) : σ → Nat → Prop
  | start {s : σ} : S.start s → PeakRun S ok f s (f s)
  | step {s s' : σ} {a : α} {p : Nat} :
      PeakRun S ok f s p → ok s a → S.step s a s' → PeakRun S ok f s' (max p (f s'))

namespace PeakRun

variable {f : σ → Nat} {p : Nat}

/-- **The invariant rule**, for states with the peak so far. -/
theorem invariant {motive : σ → Nat → Prop} (hstart : ∀ s, S.start s → motive s (f s))
    (hstep : ∀ s a s' p, motive s p → ok s a → S.step s a s' → motive s' (max p (f s')))
    (h : S.PeakRun ok f s p) : motive s p := by
  induction h with
  | start hs => exact hstart _ hs
  | step _ hok hs ih => exact hstep _ _ _ _ ih hok hs

end PeakRun

/-- Every run has a peak. -/
theorem Run.exists_peak (h : S.Run ok s) (f : σ → Nat) : ∃ p, S.PeakRun ok f s p := by
  induction h with
  | start hs => exact ⟨_, .start hs⟩
  | step _ hok hs ih =>
      obtain ⟨p, hp⟩ := ih
      exact ⟨_, .step hp hok hs⟩

end TransitionSystem

/-! ### Runs with what is seen of them -/

/-- The steps `next` from the first state to the last, with their labels, oldest first. -/
inductive Traced {σ ε : Type*} (next : σ → ε → σ → Prop) (s : σ) : List ε → σ → Prop
  | nil : Traced next s [] s
  | snoc {es : List ε} {e : ε} {s' s'' : σ} :
      Traced next s es s' → next s' e s'' → Traced next s (es ++ [e]) s''

namespace Traced

variable {σ τ ε : Type*} {next : σ → ε → σ → Prop} {next' : τ → ε → τ → Prop} {s s' : σ}
  {es : List ε}

/-- **The invariant rule**, for what is known of a state and the labels before it. -/
theorem invariant {motive : List ε → σ → Prop} (hstart : motive [] s)
    (hstep : ∀ es s₁ e s₂, motive es s₁ → next s₁ e s₂ → motive (es ++ [e]) s₂)
    (h : Traced next s es s') : motive es s' := by
  induction h with
  | nil => exact hstart
  | snoc _ hs ih => exact hstep _ _ _ _ ih hs

/-- **Forward simulation**: where each step is answered by one with the same label, each
run is answered by one with the same labels. -/
theorem simulate {R : σ → τ → Prop} {x : τ}
    (hstep : ∀ s₁ e s₂ x, R s₁ x → next s₁ e s₂ → ∃ x', next' x e x' ∧ R s₂ x')
    (h : Traced next s es s') (hx : R s x) : ∃ x', Traced next' x es x' ∧ R s' x' := by
  induction h with
  | nil => exact ⟨x, .nil, hx⟩
  | snoc _ hs ih =>
      obtain ⟨x₁, hpath, hx₁⟩ := ih
      obtain ⟨x₂, hnext, hx₂⟩ := hstep _ _ _ _ hx₁ hs
      exact ⟨x₂, .snoc hpath hnext, hx₂⟩

/-- Where the step does not depend on more of its label than `f`, the run does not either. -/
theorem relabel {ε' : Type*} {f : ε → ε'} {es' : List ε}
    (h : Traced next s es s') (hstep : ∀ s₁ e s₂ e', f e' = f e → next s₁ e s₂ → next s₁ e' s₂)
    (hes : es'.map f = es.map f) : Traced next s es' s' := by
  induction h generalizing es' with
  | nil =>
      obtain rfl := List.map_eq_nil_iff.mp hes
      exact .nil
  | snoc _ hs ih =>
      rw [List.map_append] at hes
      obtain ⟨es₁, es₂, rfl, hes₁, hes₂⟩ := List.map_eq_append_iff.mp hes
      obtain ⟨e', rfl, he⟩ := List.map_eq_singleton_iff.mp hes₂
      exact .snoc (ih hes₁) (hstep _ _ _ _ he hs)

end Traced

namespace TransitionSystem

variable {σ α ε : Type*} {S : TransitionSystem σ α} {ok : σ → α → Prop} {see : σ → α → σ → ε}
  {s s' : σ} {es : List ε}

/-- A step that meets `ok`, with what `see` shows of it. -/
def Sees (S : TransitionSystem σ α) (ok : σ → α → Prop) (see : σ → α → σ → ε) (s : σ) (e : ε)
    (s' : σ) : Prop :=
  ∃ a, ok s a ∧ S.step s a s' ∧ e = see s a s'

/-- A run goes on. -/
theorem Run.traced (h : S.Run ok s) (hpath : Traced (S.Sees ok see) s es s') : S.Run ok s' := by
  induction hpath with
  | nil => exact h
  | snoc _ hs ih =>
      obtain ⟨a, hok, hstep, -⟩ := hs
      exact .step ih hok hstep

end TransitionSystem
