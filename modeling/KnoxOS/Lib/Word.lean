import Mathlib.Algebra.Group.Nat.Defs
import Mathlib.Data.Nat.Basic

/-!
# Machine words

A 64-bit value is a natural number below `2 ^ 64`. Where the source computes in a `u64` register
without overflow checks, the model reduces with `u64`. In memory a word is eight bytes, the least
significant first.
-/

namespace KnoxOS.Lib

/-- The value kept in a 64-bit register. -/
def u64 (n : Nat) : Nat := n % 2 ^ 64

/-- Wrapping subtraction of 64-bit values. -/
def subU64 (a b : Nat) : Nat := u64 (a + 2 ^ 64 - b)

theorem u64_of_lt {n : Nat} (h : n < 2 ^ 64) : u64 n = n := Nat.mod_eq_of_lt h

/-- The word whose eight bytes are `b 0`, …, `b 7`. -/
def leWord (b : Nat → UInt8) : Nat :=
  (b 0).toNat + 256 * ((b 1).toNat + 256 * ((b 2).toNat + 256 * ((b 3).toNat +
    256 * ((b 4).toNat + 256 * ((b 5).toNat + 256 * ((b 6).toNat + 256 * (b 7).toNat))))))

/-- Byte `k` of a word. -/
def wordByte (w k : Nat) : UInt8 := UInt8.ofNat (w / 256 ^ k)

/-- A word is read back from its bytes. -/
theorem leWord_wordByte {w : Nat} (h : w < 2 ^ 64) : leWord (wordByte w) = w := by
  simp only [leWord, wordByte, UInt8.toNat_ofNat', Nat.reducePow]
  omega

theorem leWord_congr {a b : Nat → UInt8} (h : ∀ k < 8, a k = b k) : leWord a = leWord b := by
  simp only [leWord, h 0 (by decide), h 1 (by decide), h 2 (by decide), h 3 (by decide),
    h 4 (by decide), h 5 (by decide), h 6 (by decide), h 7 (by decide)]

@[simp] theorem leWord_zero : leWord (fun _ => 0) = 0 := by decide

/-! ## Numbers of any width -/

/-- The `n` bytes of a number, the least significant first. -/
def leBytes : Nat → Nat → List UInt8
  | 0, _ => []
  | n + 1, v => UInt8.ofNat v :: leBytes n (v / 256)

/-- The number that bytes stand for, the least significant first. -/
def leNat : List UInt8 → Nat
  | [] => 0
  | b :: bs => b.toNat + 256 * leNat bs

@[simp] theorem length_leBytes (n v : Nat) : (leBytes n v).length = n := by
  induction n generalizing v with
  | zero => rfl
  | succ n ih => exact congrArg (· + 1) (ih (v / 256))

/-- What does not fit into the bytes is cut off. -/
theorem leNat_leBytes (n v : Nat) : leNat (leBytes n v) = v % 256 ^ n := by
  induction n generalizing v with
  | zero => exact (Nat.mod_one v).symm
  | succ n ih =>
    show (UInt8.ofNat v).toNat + 256 * leNat (leBytes n (v / 256)) = v % 256 ^ (n + 1)
    rw [ih, Nat.pow_succ', Nat.mod_mul, UInt8.toNat_ofNat']

/-- A number comes back from its bytes. -/
theorem leNat_leBytes_of_lt {n v : Nat} (h : v < 256 ^ n) : leNat (leBytes n v) = v := by
  rw [leNat_leBytes, Nat.mod_eq_of_lt h]

end KnoxOS.Lib
