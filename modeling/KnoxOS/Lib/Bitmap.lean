import Mathlib.Order.Interval.Finset.Nat

/-!
# Bitmaps over bytes

A bitmap is a list of bytes; bit `i` is bit `i % 8` of byte `i / 8`. Setting a clear bit adds one
to the number of set bits and clearing a set bit takes one away.
-/

namespace KnoxOS.Lib.Bitmap

/-- Bit `i` of the bitmap; bits past its end read as clear. -/
def test (map : List (BitVec 8)) (i : Nat) : Bool := (map.getD (i / 8) 0).getLsbD (i % 8)

def set (map : List (BitVec 8)) (i : Nat) : List (BitVec 8) :=
  map.set (i / 8) (map.getD (i / 8) 0 ||| 1#8 <<< (i % 8))

def clear (map : List (BitVec 8)) (i : Nat) : List (BitVec 8) :=
  map.set (i / 8) (map.getD (i / 8) 0 &&& ~~~(1#8 <<< (i % 8)))

/-- The number of set bits. -/
def count (map : List (BitVec 8)) : Nat :=
  ((Finset.range (8 * map.length)).filter fun i => test map i).card

@[simp] theorem length_set (map : List (BitVec 8)) (i : Nat) : (set map i).length = map.length := by
  simp [set]

@[simp] theorem length_clear (map : List (BitVec 8)) (i : Nat) :
    (clear map i).length = map.length := by
  simp [clear]

@[simp] theorem test_replicate_zero (n i : Nat) : test (List.replicate n 0#8) i = false := by
  simp only [test, List.getD_eq_getElem?_getD, List.getElem?_replicate]
  split <;> simp

@[simp] theorem count_replicate_zero (n : Nat) : count (List.replicate n 0#8) = 0 := by
  simp [count]

/-- The mask of one bit. -/
theorem getLsbD_one_shiftLeft {bit j : Nat} (hj : j < 8) :
    (1#8 <<< bit).getLsbD j = decide (j = bit) := by
  rw [Bool.eq_iff_iff]
  simp
  omega

/-- The mask test of the code reads one bit. -/
theorem and_shift_eq_zero_iff {byte : BitVec 8} {bit : Nat} (h : bit < 8) :
    byte &&& (1#8 <<< bit) = 0 ↔ byte.getLsbD bit = false := by
  constructor
  · intro hzero
    have := congrArg (·.getLsbD bit) hzero
    simpa [getLsbD_one_shiftLeft h] using this
  · intro hbit
    refine BitVec.eq_of_getLsbD_eq fun j hj => ?_
    by_cases hjb : j = bit
    · simp [hjb, hbit]
    · simp [getLsbD_one_shiftLeft hj, hjb]

variable {i : Nat} {map : List (BitVec 8)}

section

variable (h : i < 8 * map.length)
include h

/-- Replacing the byte of bit `i` changes no bit of another byte. -/
theorem test_setByte (byte : BitVec 8) (j : Nat) :
    test (map.set (i / 8) byte) j = if j / 8 = i / 8 then byte.getLsbD (j % 8) else test map j := by
  have hlen : i / 8 < map.length := by omega
  split
  next hdiv =>
    simp [test, List.getD_eq_getElem?_getD, hdiv, List.getElem?_set_self hlen]
  next hdiv =>
    simp [test, List.getD_eq_getElem?_getD, List.getElem?_set_ne (Ne.symm hdiv)]

theorem test_set (j : Nat) : test (set map i) j = (decide (j = i) || test map j) := by
  rw [set, test_setByte h]
  have hbit : j % 8 < 8 := Nat.mod_lt _ (by decide)
  split
  next hdiv =>
    have hji : j = i ↔ j % 8 = i % 8 := by omega
    rw [BitVec.getLsbD_or, getLsbD_one_shiftLeft hbit, test, hdiv, Bool.or_comm]
    simp [hji]
  next hdiv =>
    have hji : j ≠ i := by omega
    simp [hji]

theorem test_clear (j : Nat) : test (clear map i) j = (decide (j ≠ i) && test map j) := by
  rw [clear, test_setByte h]
  have hbit : j % 8 < 8 := Nat.mod_lt _ (by decide)
  split
  next hdiv =>
    have hji : j = i ↔ j % 8 = i % 8 := by omega
    rw [BitVec.getLsbD_and, BitVec.getLsbD_not, getLsbD_one_shiftLeft hbit, test, hdiv,
      Bool.and_comm]
    simp [hji, hbit]
  next hdiv =>
    have hji : j ≠ i := by omega
    simp [hji]

end

theorem lt_of_test (h : test map i = true) : i < 8 * map.length := by
  by_contra hlt
  have : map.length ≤ i / 8 := by omega
  simp [test, List.getD_eq_getElem?_getD, List.getElem?_eq_none this] at h

/-- Setting a clear bit adds one set bit. -/
theorem count_set (h : i < 8 * map.length) (hclear : test map i = false) :
    count (set map i) = count map + 1 := by
  have hinsert : (Finset.range (8 * map.length)).filter (fun j => test (set map i) j) =
      insert i ((Finset.range (8 * map.length)).filter fun j => test map j) := by
    ext j
    simp only [Finset.mem_filter, Finset.mem_range, Finset.mem_insert, test_set h, Bool.or_eq_true,
      decide_eq_true_eq]
    constructor
    · rintro ⟨hj, rfl | ht⟩
      · exact .inl rfl
      · exact .inr ⟨hj, ht⟩
    · rintro (rfl | ⟨hj, ht⟩)
      · exact ⟨h, .inl rfl⟩
      · exact ⟨hj, .inr ht⟩
  rw [count, length_set, hinsert, Finset.card_insert_of_notMem (by simp [hclear]), count]

/-- Clearing a set bit takes one set bit away. -/
theorem count_clear (hset : test map i = true) : count (clear map i) + 1 = count map := by
  have h := lt_of_test hset
  have herase : (Finset.range (8 * map.length)).filter (fun j => test (clear map i) j) =
      ((Finset.range (8 * map.length)).filter fun j => test map j).erase i := by
    ext j
    simp only [Finset.mem_filter, Finset.mem_range, Finset.mem_erase, test_clear h,
      Bool.and_eq_true, decide_eq_true_eq]
    exact ⟨fun ⟨hj, hne, ht⟩ => ⟨hne, hj, ht⟩, fun ⟨hne, hj, ht⟩ => ⟨hj, hne, ht⟩⟩
  rw [count, length_clear, herase, Finset.card_erase_add_one (by simp [h, hset]), count]

end KnoxOS.Lib.Bitmap
