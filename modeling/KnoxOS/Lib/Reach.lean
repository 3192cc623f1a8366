import Mathlib.Data.List.Basic

/-!
# Reachable states of a step function

`Reach step ok init s` says that `s` is reached from `init` by finitely many calls of
`step`, each taken in a state where `ok` admits it. `Reach.invariant` is the induction every
run theorem uses: an invariant that holds initially and survives each admitted step holds in
every reached state.
-/

namespace KnoxOS.Lib

variable {σ ι : Type*} {step : σ → ι → σ} {ok : σ → ι → Prop} {init s : σ}

/-- The states reached from `init` by admitted steps. -/
inductive Reach (step : σ → ι → σ) (ok : σ → ι → Prop) (init : σ) : σ → Prop where
  | start : Reach step ok init init
  | next {s : σ} (op : ι) : Reach step ok init s → ok s op → Reach step ok init (step s op)

theorem Reach.invariant (Inv : σ → Prop) (h : Reach step ok init s) (hinit : Inv init)
    (hstep : ∀ s op, Inv s → ok s op → Inv (step s op)) : Inv s := by
  induction h with
  | start => exact hinit
  | next op _ hok ih => exact hstep _ op ih hok

/-- The states passed by a list of steps meet `ok` before each of them. -/
def Admitted (step : σ → ι → σ) (ok : σ → ι → Prop) : σ → List ι → Prop
  | _, [] => True
  | s, op :: ops => ok s op ∧ Admitted step ok (step s op) ops

/-- Admissibility of a list of steps is decided step by step. -/
instance decidableAdmitted [∀ s op, Decidable (ok s op)] : ∀ (s : σ) (ops : List ι),
    Decidable (Admitted step ok s ops)
  | _, [] => inferInstanceAs (Decidable True)
  | s, op :: ops =>
    have := decidableAdmitted (step s op) ops
    inferInstanceAs (Decidable (ok s op ∧ Admitted step ok (step s op) ops))

/-- A list of admitted steps reaches the state it folds to. -/
theorem Reach.foldl {ops : List ι} (h : Reach step ok init s) (hops : Admitted step ok s ops) :
    Reach step ok init (ops.foldl step s) := by
  induction ops generalizing s with
  | nil => exact h
  | cons op ops ih => exact ih (h.next op hops.1) hops.2

/-- Where every step is admitted, a list of steps reaches the state it folds to. -/
theorem Reach.free (ops : List ι) : Reach step (fun _ _ => True) init (ops.foldl step init) := by
  have hall : ∀ (ops : List ι) (s : σ), Admitted step (fun _ _ => True) s ops := by
    intro ops
    induction ops with
    | nil => exact fun _ => trivial
    | cons op ops ih => exact fun s => ⟨trivial, ih _⟩
  exact Reach.start.foldl (hall ops init)

end KnoxOS.Lib
