import Mathlib.Data.List.Basic
import Mathlib.Data.Nat.ModEq

/-!
# Ring buffers

A ring buffer is a list of `cap` cells used round and round. `window` lists the cells met when
one walks `n` steps from a position, `get` is the loop that reads them and `put` the loop that
overwrites them; both stop with `none` at a position outside the list. `get_eq_window` and
`put_spec` say that the two loops never stop from a position inside, and that writing behind a
window of free room lengthens the window by exactly what was written.
-/

namespace KnoxOS.Lib.Ring

open List

variable {α : Type*}

/-- The `n` cells from `pos` on, walking round at `cap`. -/
def window [Inhabited α] (cap : Nat) (cells : List α) : Nat → Nat → List α
  | _, 0 => []
  | pos, n + 1 => cells.getD pos default :: window cap cells ((pos + 1) % cap) n

/-- Read `n` cells from `pos` on, and the position after them. -/
def get (cap : Nat) (cells : List α) : Nat → Nat → Option (List α × Nat)
  | pos, 0 => some ([], pos)
  | pos, n + 1 => do
    let a ← cells[pos]?
    let (rest, last) ← get cap cells ((pos + 1) % cap) n
    return (a :: rest, last)

/-- Overwrite the cells from `pos` on with `data`. -/
def put (cap : Nat) : List α → Nat → List α → Option (List α × Nat)
  | cells, pos, [] => some (cells, pos)
  | cells, pos, a :: data =>
    if pos < cells.length then put cap (cells.set pos a) ((pos + 1) % cap) data else none

section Window

variable [Inhabited α] {cap : Nat}

section

variable (cells : List α) (pos : Nat)

@[simp] theorem window_zero : window cap cells pos 0 = [] := rfl

@[simp] theorem length_window (n : Nat) : (window cap cells pos n).length = n := by
  induction n generalizing pos with
  | zero => rfl
  | succ n ih => simp [window, ih]

/-- A walk of `m + n` steps is a walk of `m` steps and then one of `n` steps. -/
theorem window_add (m n : Nat) (hpos : pos < cap) :
    window cap cells pos (m + n) =
      window cap cells pos m ++ window cap cells ((pos + m) % cap) n := by
  induction m generalizing pos with
  | zero => simp [Nat.mod_eq_of_lt hpos]
  | succ m ih =>
    have hnext : ((pos + 1) % cap + m) % cap = (pos + (m + 1)) % cap := by
      rw [Nat.mod_add_mod]
      congr 1
      omega
    rw [Nat.succ_add, window, ih _ (Nat.mod_lt _ (by omega)), hnext]
    rfl

theorem take_window {m n : Nat} (hpos : pos < cap) (hn : n ≤ m) :
    (window cap cells pos m).take n = window cap cells pos n := by
  obtain ⟨k, rfl⟩ := Nat.exists_eq_add_of_le hn
  rw [window_add cells pos n k hpos, take_append_of_le_length (by simp)]
  exact take_of_length_le (by simp)

/-- Without its first `n` cells a walk starts `n` steps later. -/
theorem drop_window {m n : Nat} (hpos : pos < cap) (hn : n ≤ m) :
    (window cap cells pos m).drop n = window cap cells ((pos + n) % cap) (m - n) := by
  obtain ⟨k, rfl⟩ := Nat.exists_eq_add_of_le hn
  rw [window_add cells pos n k hpos, drop_append_of_le_length (by simp),
    drop_of_length_le (by simp), Nat.add_sub_cancel_left]
  rfl

end

/-- A walk over cells that lie in a row before the end lists them. -/
theorem window_middle (front cells back : List α) (hend : front.length + cells.length ≤ cap) :
    window cap (front ++ cells ++ back) front.length cells.length = cells := by
  induction cells generalizing front with
  | nil => rfl
  | cons a cells ih =>
    have hfirst : (front ++ a :: cells ++ back).getD front.length default = a := by
      simp [getD_eq_getElem?_getD]
    rw [length_cons, window, hfirst]
    cases cells with
    | nil => rfl
    | cons b cells =>
      rw [length_cons, length_cons] at hend
      have hnext : (front.length + 1) % cap = (front ++ [a]).length := by
        rw [Nat.mod_eq_of_lt (by omega), length_append]
        rfl
      have hrow : front ++ a :: b :: cells ++ back =
          front ++ [a] ++ b :: cells ++ back := by simp
      rw [hnext, hrow, ih (front ++ [a]) (by simp; omega)]

theorem step_ne {pos m n : Nat} (hm : m < n) (hn : n < cap) :
    (pos + m) % cap ≠ (pos + n) % cap := by
  intro heq
  have hmod : Nat.ModEq cap m n := Nat.ModEq.add_left_cancel' pos heq
  have : m = n := hmod.eq_of_lt_of_lt (by omega) hn
  omega

section

variable (cells : List α)

/-- A cell that the walk does not meet may be overwritten. -/
theorem window_set_of_ne (pos n i : Nat) (a : α) (hpos : pos < cap)
    (h : ∀ k < n, (pos + k) % cap ≠ i) :
    window cap (cells.set i a) pos n = window cap cells pos n := by
  induction n generalizing pos with
  | zero => rfl
  | succ n ih =>
    have hfirst : pos ≠ i := by
      have := h 0 (by omega)
      rwa [Nat.add_zero, Nat.mod_eq_of_lt hpos] at this
    have hrest : ∀ k < n, ((pos + 1) % cap + k) % cap ≠ i := by
      intro k hk
      have := h (k + 1) (by omega)
      rwa [Nat.mod_add_mod, Nat.add_assoc, Nat.add_comm 1 k]
    rw [window, window, ih _ (Nat.mod_lt _ (by omega)) hrest]
    simp [getD_eq_getElem?_getD, getElem?_set_ne (Ne.symm hfirst)]

/-- Overwriting the cell behind a walk with room left adds it to the walk. -/
theorem window_set_end (pos n : Nat) (a : α) (hlen : cells.length = cap) (hpos : pos < cap)
    (hn : n < cap) :
    window cap (cells.set ((pos + n) % cap) a) pos (n + 1) = window cap cells pos n ++ [a] := by
  have hend : (pos + n) % cap < cells.length := by
    rw [hlen]
    exact Nat.mod_lt _ (by omega)
  rw [window_add _ _ _ _ hpos, window_set_of_ne cells pos n _ a hpos fun k hk => step_ne hk hn]
  simp [window, getD_eq_getElem?_getD, hend]

/-- Reading from a position inside never fails and yields the cells of the walk. -/
theorem get_eq_window (pos n : Nat) (hlen : cells.length = cap) (hpos : pos < cap) :
    get cap cells pos n = some (window cap cells pos n, (pos + n) % cap) := by
  induction n generalizing pos with
  | zero => simp [get, Nat.mod_eq_of_lt hpos]
  | succ n ih =>
    have hin : pos < cells.length := by omega
    have hnext : ((pos + 1) % cap + n) % cap = (pos + (n + 1)) % cap := by
      rw [Nat.mod_add_mod]
      congr 1
      omega
    rw [get, ih _ (Nat.mod_lt _ (by omega)), hnext]
    simp [window, getD_eq_getElem?_getD, hin]

/-- Writing behind a walk of `n` cells with room for the data never fails, and appends the data to
it. -/
theorem put_spec (data : List α) (pos n : Nat) (hlen : cells.length = cap) (hpos : pos < cap)
    (hroom : n + data.length ≤ cap) (hend : n < cap) :
    ∃ cells', put cap cells ((pos + n) % cap) data =
        some (cells', (pos + (n + data.length)) % cap) ∧
      cells'.length = cap ∧
      window cap cells' pos (n + data.length) = window cap cells pos n ++ data := by
  -- every written cell moves the free end one step on, so the walk grows with the data
  induction data generalizing cells n with
  | nil => exact ⟨cells, by simp [put], hlen, by simp⟩
  | cons a data ih =>
    have hin : (pos + n) % cap < cells.length := by
      rw [hlen]
      exact Nat.mod_lt _ (by omega)
    have hnext : ((pos + n) % cap + 1) % cap = (pos + (n + 1)) % cap := by
      rw [Nat.mod_add_mod, Nat.add_assoc]
    rw [put, if_pos hin, hnext]
    rw [length_cons] at hroom ⊢
    cases data with
    | nil =>
      refine ⟨cells.set ((pos + n) % cap) a, rfl, by simpa using hlen, ?_⟩
      exact window_set_end cells pos n a hlen hpos hend
    | cons b data =>
      rw [length_cons] at hroom
      obtain ⟨cells', hput, hlen', hwin⟩ :=
        ih (cells.set ((pos + n) % cap) a) (n + 1) (by simpa using hlen)
          (by rw [length_cons]; omega) (by omega)
      have hsum : n + 1 + (b :: data).length = n + ((b :: data).length + 1) := by omega
      rw [hsum] at hput hwin
      refine ⟨cells', hput, hlen', ?_⟩
      rw [hwin, window_set_end cells pos n a hlen hpos hend, append_assoc]
      rfl

end

end Window

theorem put_outside {cap pos : Nat} {cells : List α} (a : α) (data : List α)
    (h : cells.length ≤ pos) : put cap cells pos (a :: data) = none := by
  rw [put, if_neg (by omega)]

end KnoxOS.Lib.Ring
