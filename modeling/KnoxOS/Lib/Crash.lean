import Mathlib.Init

/-!
# Programs that can be cut off

A program that runs on a device can be cut off by a crash, which leaves the device in some state:
its result is `Except σ α`, where an error is the state at the crash. `Ends r Q C` says that the
program returns something with `Q` or is cut off in a state with `C`, and the rules below take it
through a program one call at a time.
-/

namespace KnoxOS.Lib

universe u

variable {σ : Type*} {α β : Type u}

/-- The program returns a value with `Q`, or is cut off in a state with `C`. -/
def Ends (r : Except σ α) (Q : α → Prop) (C : σ → Prop) : Prop :=
  match r with
  | .ok a => Q a
  | .error s => C s

namespace Ends

variable {r : Except σ α} {Q Q' : α → Prop} {C C' : σ → Prop}

/-- Weaker postconditions. -/
theorem mono (h : Ends r Q C) (hQ : ∀ a, Q a → Q' a) (hC : ∀ s, C s → C' s) : Ends r Q' C' := by
  cases r with
  | ok a => exact hQ a h
  | error s => exact hC s h

/-- A program that goes on with another one. -/
theorem bind {k : α → Except σ β} {R : β → Prop} (h : Ends r Q C)
    (hk : ∀ a, Q a → Ends (k a) R C) : Ends (r >>= k) R C := by
  cases r with
  | ok a => exact hk a h
  | error s => exact h

end Ends

end KnoxOS.Lib
