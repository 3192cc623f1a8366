import Mathlib.Order.Lattice
import Mathlib.Data.List.Induction
import Mathlib.Data.List.Perm.Basic

/-!
# Growable arrays

Lists in the order of a vector's indices, with the two operations that move the last element:
`pop` removes it, and `swapRemove` puts it in the place of the element it removes. Both are
described up to permutation. `countP_eraseIdx` and `countP_update` count the elements with a
property after one is removed, and the indices whose element has it after one is replaced;
`mem_take_iff_rank` says which elements of a sorted list are among the first ones.
-/

namespace KnoxOS.Lib

open List Function

variable {α : Type*} {i : Nat}

/-- Remove the last element. -/
def pop (l : List α) : Option (α × List α) :=
  match l.getLast? with
  | none => none
  | some a => some (a, l.dropLast)

/-- Remove the element at `i` by moving the last one into its place. -/
def swapRemove (l : List α) (i : Nat) : List α :=
  match l.getLast? with
  | none => l
  | some a => (l.set i a).dropLast

/-- Change the first element with a property. -/
def modifyFirst (p : α → Bool) (f : α → α) : List α → List α
  | [] => []
  | a :: l => if p a then f a :: l else a :: modifyFirst p f l

@[simp] theorem pop_nil : pop ([] : List α) = none := rfl

@[simp] theorem pop_append_singleton (l : List α) (a : α) : pop (l ++ [a]) = some (a, l) := by
  simp [pop]

variable {a : α} {l : List α} {p : α → Bool}

theorem pop_eq_some {l' : List α} (h : pop l = some (a, l')) : l = l' ++ [a] := by
  cases l using reverseRecOn with
  | nil => simp at h
  | append_singleton l b => simp_all

theorem pop_eq_none (h : pop l = none) : l = [] := by
  cases l using reverseRecOn with
  | nil => rfl
  | append_singleton l b => simp at h

/-- `swapRemove` removes exactly the element at the index. -/
theorem perm_swapRemove (h : l[i]? = some a) : l.Perm (a :: swapRemove l i) := by
  cases l using reverseRecOn with
  | nil => simp at h
  | append_singleton l b =>
    by_cases hi : i < l.length
    · have hset : (l ++ [b]).set i b = l.set i b ++ [b] := set_append_left _ _ hi
      have ha : l[i] = a := by
        rw [getElem?_append_left hi, getElem?_eq_getElem hi] at h
        exact Option.some.inj h
      simp only [swapRemove, getLast?_concat, hset, dropLast_concat]
      have hset' := set_perm_cons_eraseIdx hi b
      have hget := List.getElem_cons_eraseIdx_perm hi
      rw [ha] at hget
      calc l ++ [b] |>.Perm (b :: l) := perm_append_singleton b l
        _ |>.Perm (b :: a :: l.eraseIdx i) := hget.symm.cons b
        _ |>.Perm (a :: b :: l.eraseIdx i) := .swap ..
        _ |>.Perm (a :: l.set i b) := hset'.symm.cons a
    · have hlen : i < (l ++ [b]).length := (List.getElem?_eq_some_iff.mp h).1
      have hlast : i = l.length := by simp at hlen; omega
      subst hlast
      have hb : a = b := by simpa using h.symm
      subst hb
      simp [swapRemove]

theorem perm_swapRemove_idxOf [BEq α] [LawfulBEq α] (h : l.idxOf? a = some i) :
    l.Perm (a :: swapRemove l i) := by
  obtain ⟨hi, ha, -⟩ := idxOf?_eq_some_iff.mp h
  exact perm_swapRemove (List.getElem?_eq_some_iff.mpr ⟨hi, by simpa using ha⟩)

/-- Removing the first element with a property removes exactly that element. -/
theorem perm_eraseP {q : α → Bool} (h : l.find? q = some a) : l.Perm (a :: l.eraseP q) := by
  obtain ⟨ha, front, back, rfl, hfront⟩ := find?_eq_some_iff_append.mp h
  rw [eraseP_append_right _ (by simpa using hfront), eraseP_cons_of_pos ha]
  exact perm_middle

/-- Removing the first element with a property takes it out of every count. -/
theorem countP_eraseP {q : α → Bool} (h : l.find? q = some a) :
    l.countP p = (l.eraseP q).countP p + if p a then 1 else 0 := by
  rw [(perm_eraseP h).countP_eq, List.countP_cons]

/-- The first element with a property after it was changed into one that has it too. -/
theorem find?_modifyFirst {f : α → α} (hf : ∀ a, p a → p (f a)) (l : List α) :
    (modifyFirst p f l).find? p = (l.find? p).map f := by
  induction l with
  | nil => rfl
  | cons a l ih =>
    unfold modifyFirst
    by_cases ha : p a = true
    · simp [ha, hf a ha]
    · simp [ha, ih]

/-- A property that one element can have is counted at most once. -/
theorem countP_le_one (hnodup : l.Nodup) (huniq : ∀ a ∈ l, ∀ b ∈ l, p a → p b → a = b) :
    l.countP p ≤ 1 := by
  induction l with
  | nil => exact Nat.zero_le 1
  | cons a l ih =>
    obtain ⟨ha, hl⟩ := nodup_cons.mp hnodup
    have hrest := ih hl fun b hb c hc =>
      huniq b (mem_cons_of_mem a hb) c (mem_cons_of_mem a hc)
    rw [List.countP_cons]
    split_ifs with hpa
    · have hnone : l.countP p = 0 := by
        refine countP_eq_zero.mpr fun b hb hpb => ha ?_
        rw [huniq a mem_cons_self b (mem_cons_of_mem a hb) hpa hpb]
        exact hb
      omega
    · omega

/-- Replacing the value at one index changes the count of the indices by that one. -/
theorem countP_update {ι : Type*} [DecidableEq ι] (f : ι → α) (i : ι) (a : α) (p : α → Bool)
    {l : List ι} (hnodup : l.Nodup) (hi : i ∈ l) :
    (l.countP fun j => p (update f i a j)) + (if p (f i) then 1 else 0) =
      (l.countP fun j => p (f j)) + if p a then 1 else 0 := by
  induction l with
  | nil => cases hi
  | cons j l ih =>
    obtain ⟨hj, hl⟩ := nodup_cons.mp hnodup
    rw [List.countP_cons, List.countP_cons]
    by_cases hij : j = i
    · subst hij
      have hsame : (l.countP fun k => p (update f j a k)) =
          l.countP fun k => p (f k) := by
        refine countP_congr fun k hk => ?_
        have hne : k ≠ j := fun heq => hj (by rwa [← heq])
        rw [update_of_ne hne]
      rw [update_self]
      omega
    · have hmem : i ∈ l := (mem_cons.mp hi).resolve_left (Ne.symm hij)
      have hrec := ih hl hmem
      rw [update_of_ne hij]
      omega

/-- An element of a sorted list is among the first `n` if fewer than `n` come before it. -/
theorem mem_take_iff_rank {κ : Type*} [LinearOrder κ] (key : α → κ)
    (hsorted : l.Pairwise fun x y => key x < key y) {x : α} (hx : x ∈ l) (n : Nat) :
    x ∈ l.take n ↔ l.countP (fun y => key y < key x) < n := by
  induction l generalizing n with
  | nil => cases hx
  | cons y l ih =>
    obtain ⟨hfirst, hsorted⟩ := pairwise_cons.mp hsorted
    cases n with
    | zero => simp
    | succ n =>
      rw [take_succ_cons, mem_cons, List.countP_cons]
      rcases mem_cons.mp hx with rfl | hx
      · have hnone : l.countP (fun z => key z < key x) = 0 := by
          refine countP_eq_zero.mpr fun z hz => ?_
          simpa using (hfirst z hz).le
        simp [hnone]
      · have hlt := hfirst x hx
        have hne : x ≠ y := by
          rintro rfl
          exact lt_irrefl _ hlt
        rw [or_iff_right hne, ih hsorted hx, if_pos (by simpa using hlt)]
        omega

end KnoxOS.Lib
