import Mathlib.Data.List.Basic

/-!
# Byte strings

Byte strings are lists, compared byte by byte: `byteAt` reads past the end as zero, and every
operation has a lemma that says what each byte of its result is.
-/

namespace KnoxOS.Lib

open List

/-- Byte `i`; bytes past the end read as zero. -/
def byteAt (data : List UInt8) (i : Nat) : UInt8 := data.getD i 0

/-- The `n` bytes from `start` on, as far as there are that many. -/
def slice (data : List UInt8) (start n : Nat) : List UInt8 := (data.drop start).take n

/-- A copy of `data` in a zeroed buffer of `n` bytes. -/
def padTo (n : Nat) (data : List UInt8) : List UInt8 :=
  data.take n ++ List.replicate (n - data.length) 0

/-- `data` lengthened with zeros to at least `n` bytes. -/
def extendTo (n : Nat) (data : List UInt8) : List UInt8 :=
  data ++ List.replicate (n - data.length) 0

/-- `base` with `data` copied over it from `start` on. -/
def overlay (base : List UInt8) (start : Nat) (data : List UInt8) : List UInt8 :=
  base.take start ++ data ++ base.drop (start + data.length)

/-- The 16-bit number in network order at offset `i`. -/
def be16 (data : List UInt8) (i : Nat) : UInt16 :=
  (byteAt data i).toUInt16 <<< 8 ||| (byteAt data (i + 1)).toUInt16

/-- The 32-bit number in network order at offset `i`. -/
def be32 (data : List UInt8) (i : Nat) : UInt32 :=
  (byteAt data i).toUInt32 <<< 24 ||| (byteAt data (i + 1)).toUInt32 <<< 16 |||
    (byteAt data (i + 2)).toUInt32 <<< 8 ||| (byteAt data (i + 3)).toUInt32

variable {data : List UInt8} {start n : Nat} {a b : List UInt8}

theorem byteAt_of_length_le {i : Nat} (h : data.length ≤ i) : byteAt data i = 0 := by
  simp [byteAt, getD_eq_getElem?_getD, getElem?_eq_none h]

/-- The bytes of two lists behind each other. -/
theorem byteAt_append (a b : List UInt8) (i : Nat) :
    byteAt (a ++ b) i = if i < a.length then byteAt a i else byteAt b (i - a.length) := by
  unfold byteAt
  rw [getD_eq_getElem?_getD, getElem?_append]
  split <;> rw [getD_eq_getElem?_getD]

/-- The bytes of a list that is cut. -/
theorem byteAt_take (data : List UInt8) (n i : Nat) :
    byteAt (data.take n) i = if i < n then byteAt data i else 0 := by
  unfold byteAt
  rw [getD_eq_getElem?_getD, getElem?_take]
  split
  · rw [getD_eq_getElem?_getD]
  · rfl

theorem byteAt_drop (data : List UInt8) (n i : Nat) :
    byteAt (data.drop n) i = byteAt data (n + i) := by
  simp [byteAt, getD_eq_getElem?_getD]

/-- A list of zeros has only zeros. -/
@[simp] theorem byteAt_zeros (n i : Nat) : byteAt (replicate n 0) i = 0 := by
  unfold byteAt
  rw [getD_eq_getElem?_getD, getElem?_replicate]
  split <;> rfl

@[simp] theorem length_padTo (n : Nat) (data : List UInt8) : (padTo n data).length = n := by
  simp [padTo]
  omega

/-- Padding adds zeros and cuts what is too long. -/
theorem byteAt_padTo (n : Nat) (data : List UInt8) (i : Nat) :
    byteAt (padTo n data) i = if i < n then byteAt data i else 0 := by
  rw [padTo, byteAt_append, byteAt_take, length_take]
  by_cases hi : i < data.length
  · simp only [Nat.lt_min, hi, and_true]
    split <;> simp_all
  · rw [byteAt_of_length_le (Nat.le_of_not_lt hi)]
    simp

/-- The bytes of a slice. -/
theorem byteAt_slice (data : List UInt8) (start n i : Nat) :
    byteAt (slice data start n) i = if i < n then byteAt data (start + i) else 0 := by
  rw [slice, byteAt_take, byteAt_drop]

/-- Extending changes no byte. -/
@[simp] theorem byteAt_extendTo (n : Nat) (data : List UInt8) (i : Nat) :
    byteAt (extendTo n data) i = byteAt data i := by
  rw [extendTo, byteAt_append, byteAt_zeros]
  split
  · rfl
  next hi => rw [byteAt_of_length_le (Nat.le_of_not_lt hi)]

theorem length_extendTo (n : Nat) (data : List UInt8) :
    (extendTo n data).length = max data.length n := by
  simp [extendTo]
  omega

/-- The copied bytes come from `data`, all others from `base`. -/
theorem byteAt_overlay {base : List UInt8} (h : start + data.length ≤ base.length) (i : Nat) :
    byteAt (overlay base start data) i =
      if start ≤ i ∧ i < start + data.length then byteAt data (i - start) else byteAt base i := by
  have hstart : (base.take start).length = start := by
    rw [length_take]
    omega
  rw [overlay, append_assoc, byteAt_append, byteAt_append, byteAt_drop, byteAt_take, hstart]
  by_cases hlow : i < start
  · simp [hlow, Nat.not_le.mpr hlow]
  · by_cases hhigh : i - start < data.length
    · have hin : start ≤ i ∧ i < start + data.length := by omega
      simp [hlow, hhigh, hin]
    · have hout : ¬ (start ≤ i ∧ i < start + data.length) := by omega
      rw [if_neg hlow, if_neg hhigh, if_neg hout]
      congr 1
      omega

/-- The bytes `f start, …, f (start + n - 1)`. -/
def bytesFrom (f : Nat → UInt8) (start n : Nat) : List UInt8 :=
  (List.range n).map fun i => f (start + i)

/-- Two ranges next to each other. -/
theorem bytesFrom_add (f : Nat → UInt8) (start m n : Nat) :
    bytesFrom f start (m + n) = bytesFrom f start m ++ bytesFrom f (start + m) n := by
  simp [bytesFrom, range_add, Nat.add_assoc, Function.comp_def]

/-- Ranges with the same bytes are equal. -/
theorem bytesFrom_congr {f g : Nat → UInt8} {a b : Nat} (h : ∀ i < n, f (a + i) = g (b + i)) :
    bytesFrom f a n = bytesFrom g b n :=
  map_congr_left fun i hi => h i (mem_range.mp hi)

/-- A slice behind the first part of a string. -/
theorem slice_append_right (h : a.length ≤ start) (n : Nat) :
    slice (a ++ b) start n = slice b (start - a.length) n := by
  unfold slice
  rw [drop_append, drop_eq_nil_of_le h, nil_append]

theorem slice_append_left (h : a.length = n) : slice (a ++ b) 0 n = a := by
  unfold slice
  rw [drop_zero, ← h, take_left]

theorem padTo_eq_append (h : data.length ≤ n) :
    padTo n data = data ++ replicate (n - data.length) 0 := by
  unfold padTo
  rw [take_of_length_le h]

@[simp] theorem length_bytesFrom (f : Nat → UInt8) (start n : Nat) :
    (bytesFrom f start n).length = n := by
  simp [bytesFrom]

/-- A slice of a range is a range. -/
theorem slice_bytesFrom {m : Nat} (f : Nat → UInt8) (base : Nat) (h : start + n ≤ m) :
    slice (bytesFrom f base m) start n = bytesFrom f (base + start) n := by
  have hm : m = start + (n + (m - start - n)) := by omega
  have hlen := length_bytesFrom f base start
  rw [hm, bytesFrom_add, bytesFrom_add, slice_append_right (Nat.le_of_eq hlen), hlen, Nat.sub_self]
  exact slice_append_left (length_bytesFrom f _ n)

/-- A slice is the list of its bytes. -/
theorem slice_eq_bytesFrom (h : start + n ≤ data.length) :
    slice data start n = bytesFrom (byteAt data) start n := by
  refine ext_getElem? fun i => ?_
  simp only [slice, bytesFrom, getElem?_take, getElem?_drop, getElem?_map]
  split
  next hi =>
    have hlt : start + i < data.length := by omega
    simp [hi, byteAt, hlt]
  next hi => simp [hi]

end KnoxOS.Lib
