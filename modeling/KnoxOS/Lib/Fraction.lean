import Mathlib.Data.Nat.Cast.Order.Field
import Mathlib.Tactic.FieldSimp
import Mathlib.Tactic.Positivity
import Mathlib.Tactic.Ring

/-!
# Sums of fractions over one denominator

A fraction is a pair of a numerator and a denominator that nobody reduces, and `crossAdd` adds
two of them by cross multiplication. `value_sum` says that the accumulated pair stands for the
exact sum. `crossAddMod` is the same addition on machine words; `sumMod_eq` says that it is exact
as long as the accumulated pair fits into a word.
-/

namespace KnoxOS.Lib.Fraction

/-- Add a fraction to an accumulated one. -/
def crossAdd (acc part : Nat × Nat) : Nat × Nat :=
  (acc.1 * part.2 + part.1 * acc.2, acc.2 * part.2)

/-- Add a fraction to an accumulated one, on words below `m`. -/
def crossAddMod (m : Nat) (acc part : Nat × Nat) : Nat × Nat :=
  ((crossAdd acc part).1 % m, (crossAdd acc part).2 % m)

/-- The number a fraction stands for. -/
def value (f : Nat × Nat) : ℚ := (f.1 : ℚ) / f.2

theorem value_nonneg (f : Nat × Nat) : 0 ≤ value f := by
  unfold value
  positivity

variable {acc : Nat × Nat} {parts : List (Nat × Nat)} {part : Nat × Nat}

theorem value_crossAdd (hacc : 0 < acc.2) (hpart : 0 < part.2) :
    value (crossAdd acc part) = value acc + value part := by
  simp only [value, crossAdd]
  push_cast
  field_simp

theorem crossAdd_den_pos (hacc : 0 < acc.2) (hpart : 0 < part.2) :
    0 < (crossAdd acc part).2 := Nat.mul_pos hacc hpart

/-- A sum of fractions has a positive denominator and stands for the sum of their numbers. -/
theorem value_sum (acc : Nat × Nat) (hacc : 0 < acc.2) (hparts : ∀ part ∈ parts, 0 < part.2) :
    0 < (parts.foldl crossAdd acc).2 ∧
      value (parts.foldl crossAdd acc) = value acc + (parts.map value).sum := by
  induction parts generalizing acc with
  | nil => exact ⟨hacc, (add_zero _).symm⟩
  | cons part parts ih =>
    have hpart := hparts part List.mem_cons_self
    obtain ⟨hpos, hval⟩ := ih (crossAdd acc part) (crossAdd_den_pos hacc hpart)
      fun p hp => hparts p (List.mem_cons_of_mem part hp)
    refine ⟨hpos, ?_⟩
    rw [List.foldl_cons, hval, value_crossAdd hacc hpart, List.map_cons, List.sum_cons, add_assoc]

/-- A fraction is more than one when its numerator is more than its denominator. -/
theorem one_lt_value {f : Nat × Nat} (hf : 0 < f.2) : 1 < value f ↔ f.2 < f.1 := by
  have hf' : (0 : ℚ) < f.2 := by exact_mod_cast hf
  unfold value
  rw [one_lt_div hf']
  exact Nat.cast_lt

/-- Accumulating makes neither part smaller. -/
theorem le_sum (acc : Nat × Nat) (hparts : ∀ part ∈ parts, 0 < part.2) :
    acc.1 ≤ (parts.foldl crossAdd acc).1 ∧ acc.2 ≤ (parts.foldl crossAdd acc).2 := by
  induction parts generalizing acc with
  | nil => exact ⟨le_refl _, le_refl _⟩
  | cons part parts ih =>
    have hpart := hparts part List.mem_cons_self
    obtain ⟨hnum, hden⟩ := ih (crossAdd acc part)
      fun p hp => hparts p (List.mem_cons_of_mem part hp)
    have hnum' : acc.1 ≤ (crossAdd acc part).1 :=
      (Nat.le_mul_of_pos_right acc.1 hpart).trans (Nat.le_add_right _ _)
    have hden' : acc.2 ≤ (crossAdd acc part).2 := Nat.le_mul_of_pos_right acc.2 hpart
    exact ⟨hnum'.trans hnum, hden'.trans hden⟩

/-- On words the sum is exact when the whole of it fits. -/
theorem sumMod_eq {m : Nat} (hparts : ∀ part ∈ parts, 0 < part.2)
    (hnum : (parts.foldl crossAdd acc).1 < m) (hden : (parts.foldl crossAdd acc).2 < m) :
    parts.foldl (crossAddMod m) acc = parts.foldl crossAdd acc := by
  induction parts generalizing acc with
  | nil => rfl
  | cons part parts ih =>
    have hrest : ∀ p ∈ parts, 0 < p.2 := fun p hp => hparts p (List.mem_cons_of_mem part hp)
    -- what is accumulated so far is at most the whole sum, so it fits as well
    obtain ⟨hle, hle'⟩ := le_sum (crossAdd acc part) hrest
    have hstep : crossAddMod m acc part = crossAdd acc part := by
      unfold crossAddMod
      rw [Nat.mod_eq_of_lt (hle.trans_lt hnum), Nat.mod_eq_of_lt (hle'.trans_lt hden)]
    rw [List.foldl_cons, hstep]
    exact ih hrest hnum hden

end KnoxOS.Lib.Fraction
