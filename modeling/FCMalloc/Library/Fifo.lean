import Mathlib.Data.List.Basic

/-!
# First in, first out

`Flows line out arrived line'` relates what waits in a queue before and after some time to
what has left it and what has come: together they are one sequence, of which `out` is cut off
the front. It does not say how the queue is kept, and is closed under composition
(`Flows.trans`), so that it holds of any number of steps if it holds of each.
-/

variable {α : Type*}

/-- From `line`, the elements `out` left at the front and `arrived` came at the back, and `line'`
is what waits now. -/
def Flows (line out arrived line' : List α) : Prop := line ++ arrived = out ++ line'

namespace Flows

variable {line line' line'' out out' arrived arrived' xs : List α} {a : α}

theorem refl (line : List α) : Flows line [] [] line := List.append_nil line

theorem arrive (line xs : List α) : Flows line [] xs (line ++ xs) := rfl

theorem leave (a : α) (line : List α) : Flows (a :: line) [a] [] line := List.append_nil _

/-- **Composition.** -/
theorem trans (h : Flows line out arrived line') (h' : Flows line' out' arrived' line'') :
    Flows line (out ++ out') (arrived ++ arrived') line'' := by
  unfold Flows at *
  rw [← List.append_assoc, h, List.append_assoc, h', List.append_assoc]

end Flows
