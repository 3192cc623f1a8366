import Mathlib.Algebra.Group.Int.Defs
import Mathlib.Algebra.Group.Nat.Defs
import Mathlib.Data.List.Basic

/-!
# Tagged decimal names

Names such as `pipe:7`, a tag followed by a number, with the conversions of the source: stripping
the tag and parsing the rest as a 32-bit integer. `parseU32_afterTag` is the round trip.
-/

namespace KnoxOS.Lib

/-- The rest of a name after a tag. -/
def afterTag (tag name : String) : Option (List Char) :=
  if tag.toList.isPrefixOf name.toList then some (name.toList.drop tag.toList.length) else none

/-- A nonempty run of decimal digits. -/
def parseDigits (cs : List Char) : Option Nat :=
  if cs ≠ [] ∧ cs.all Char.isDigit then some (Nat.ofDigitChars 10 cs 0) else none

/-- `parse::<u32>()`: a sign `+` is accepted. -/
def parseU32 (cs : List Char) : Option Nat :=
  let digits := match cs with
    | '+' :: rest => parseDigits rest
    | _ => parseDigits cs
  digits.filter (· < 2 ^ 32)

/-- `parse::<i32>()`. -/
def parseI32 (cs : List Char) : Option Int :=
  let value : Option Int := match cs with
    | '+' :: rest => (parseDigits rest).map (fun n => (n : Int))
    | '-' :: rest => (parseDigits rest).map (fun n => -(n : Int))
    | _ => (parseDigits cs).map (fun n => (n : Int))
  value.filter fun v => -2 ^ 31 ≤ v ∧ v < 2 ^ 31

theorem afterTag_append (tag name : String) : afterTag tag (tag ++ name) = some name.toList := by
  unfold afterTag
  rw [String.toList_append, List.drop_left, if_pos]
  exact List.isPrefixOf_iff_prefix.mpr (List.prefix_append _ _)

theorem parseDigits_toDigits (n : Nat) : parseDigits (Nat.toDigits 10 n) = some n := by
  unfold parseDigits
  rw [Nat.ofDigitChars_ten_toDigits, if_pos]
  refine ⟨Nat.toDigits_ne_nil, ?_⟩
  rw [List.all_eq_true]
  exact fun c hc => Nat.isDigit_of_mem_toDigits (by decide) (by decide) hc

/-- The digits of a number start with no sign. -/
theorem parseU32_toDigits {n : Nat} (h : n < 2 ^ 32) : parseU32 (Nat.toDigits 10 n) = some n := by
  have hsign : ∀ rest, Nat.toDigits 10 n ≠ '+' :: rest := by
    intro rest heq
    have hdigit : Char.isDigit '+' = true :=
      Nat.isDigit_of_mem_toDigits (b := 10) (n := n) (by decide) (by decide)
        (heq ▸ List.mem_cons_self)
    exact absurd hdigit (by decide)
  unfold parseU32
  split
  next rest heq => exact absurd heq (hsign rest)
  next =>
      rw [parseDigits_toDigits]
      exact if_pos (decide_eq_true h)

/-- Writing a number after a tag and parsing it back. -/
theorem parseU32_afterTag (tag : String) {n : Nat} (h : n < 2 ^ 32) :
    (afterTag tag (tag ++ toString n)).bind parseU32 = some n := by
  rw [afterTag_append, Nat.toString_eq_ofList_toDigits, String.toList_ofList]
  exact parseU32_toDigits h

end KnoxOS.Lib
