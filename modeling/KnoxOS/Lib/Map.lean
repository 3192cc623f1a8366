import Mathlib.Algebra.GroupWithZero.Nat
import Mathlib.Data.List.Perm.Subperm

/-!
# Ordered maps

`Std.TreeMap` stands for the ordered maps of the source. Lookups after an update are stated with
equality of keys, and a map whose keys all lie in a list is no larger than that list.
-/

namespace KnoxOS.Lib

open Std List Function

/-- Maps keyed by pairs compare the first component first. -/
instance natPairOrd : Ord (Nat × Nat) := lexOrd

variable {α β : Type*} [Ord α] [TransOrd α] [LawfulEqOrd α] {f : β → Nat}

section

variable (m : TreeMap α β) (k a : α)

theorem lookup_insert [DecidableEq α] (v : β) :
    (m.insert k v)[a]? = if k = a then some v else m[a]? := by
  simp [TreeMap.getElem?_insert]

theorem lookup_erase [DecidableEq α] : (m.erase k)[a]? = if k = a then none else m[a]? := by
  simp [TreeMap.getElem?_erase]

theorem lookup_modify [DecidableEq α] (f : β → β) :
    (m.modify k f)[a]? = if k = a then m[k]?.map f else m[a]? := by
  simp [TreeMap.getElem?_modify]

end

section

variable [DecidableEq α] {m : TreeMap α β} {k a : α} {v w : β}

/-- What is found after an insertion was inserted or was found before. -/
theorem lookup_insert_some (h : (m.insert k v)[a]? = some w) :
    k = a ∧ v = w ∨ k ≠ a ∧ m[a]? = some w := by
  rw [lookup_insert] at h
  split_ifs at h with hk
  · exact .inl ⟨hk, Option.some.inj h⟩
  · exact .inr ⟨hk, h⟩

theorem lookup_erase_some (h : (m.erase k)[a]? = some w) : k ≠ a ∧ m[a]? = some w := by
  rw [lookup_erase] at h
  split_ifs at h with hk
  exact ⟨hk, h⟩

end

section

variable {γ δ : Type*} [DecidableEq γ] {f : γ → δ} {k a : γ} {v w : δ}

theorem update_cases (h : update f k v a = w) : a = k ∧ v = w ∨ a ≠ k ∧ f a = w := by
  by_cases ha : a = k
  · rw [ha, update_self] at h
    exact .inl ⟨ha, h⟩
  · rw [update_of_ne ha] at h
    exact .inr ⟨ha, h⟩

end

variable {k : α} {m : TreeMap α β} {v : β} {entries : List (α × β)}

theorem mem_toList_iff : (k, v) ∈ m.toList ↔ m[k]? = some v :=
  TreeMap.mem_toList_iff_getElem?_eq_some

/-- Insertions under other keys leave a lookup as it is. -/
theorem lookup_foldl_insert_of_notMem [DecidableEq α] (f : β → β) (hnot : ∀ v, (k, v) ∉ entries)
    (m : TreeMap α β) : (entries.foldl (fun m e => m.insert e.1 (f e.2)) m)[k]? = m[k]? := by
  induction entries generalizing m with
  | nil => rfl
  | cons e entries ih =>
    rw [foldl_cons, ih (fun v hv => hnot v (mem_cons_of_mem _ hv)), lookup_insert, if_neg]
    rintro rfl
    exact hnot e.2 (mem_cons_self ..)

/-- Inserting entries under distinct keys leaves each of them in the map. -/
theorem lookup_foldl_insert_of_mem [DecidableEq α] (f : β → β) (hmem : (k, v) ∈ entries)
    (huniq : ∀ w, (k, w) ∈ entries → w = v) (m : TreeMap α β) :
    (entries.foldl (fun m e => m.insert e.1 (f e.2)) m)[k]? = some (f v) := by
  induction entries generalizing m with
  | nil => cases hmem
  | cons e entries ih =>
    rw [foldl_cons]
    by_cases hlater : (k, v) ∈ entries
    · exact ih hlater (fun w hw => huniq w (mem_cons_of_mem _ hw)) _
    · have hfirst : (k, v) = e := (mem_cons.mp hmem).resolve_right hlater
      rw [lookup_foldl_insert_of_notMem f, lookup_insert, ← hfirst, if_pos rfl]
      intro w hw
      rw [huniq w (mem_cons_of_mem _ hw)] at hw
      exact hlater hw

/-- Inserting the entries of a map into another one. -/
theorem lookup_foldl_insert_toList [DecidableEq α] (f : β → β) (m' m : TreeMap α β) (k : α) :
    (m'.toList.foldl (fun m e => m.insert e.1 (f e.2)) m)[k]? = (m'[k]?.map f).or m[k]? := by
  cases hget : m'[k]? with
  | none =>
    refine lookup_foldl_insert_of_notMem f (fun v hv => ?_) m
    cases hget.symm.trans (mem_toList_iff.mp hv)
  | some v =>
    exact lookup_foldl_insert_of_mem f (mem_toList_iff.mpr hget)
      (fun w hw => Option.some.inj ((mem_toList_iff.mp hw).symm.trans hget)) m

/-- Changing the values of some keys in turn, where a second change does nothing. -/
theorem lookup_foldl_modify [DecidableEq α] {f : β → β} (hf : ∀ v, f (f v) = f v) (keys : List α)
    (m : TreeMap α β) (k : α) :
    (keys.foldl (fun m k => m.modify k f) m)[k]? = if k ∈ keys then m[k]?.map f else m[k]? := by
  induction keys generalizing m with
  | nil => simp
  | cons a keys ih =>
    rw [foldl_cons, ih, lookup_modify]
    by_cases ha : a = k
    · subst ha
      have hcomp : f ∘ f = f := funext hf
      simp [hcomp]
    · simp [ha, Ne.symm ha]

/-- A map is no larger than a list that holds all its keys. -/
theorem size_le_length (keys : List α) (h : ∀ (k : α) (v : β), m[k]? = some v → k ∈ keys) :
    m.size ≤ keys.length := by
  rw [← TreeMap.length_keys]
  refine Subperm.length_le (Nodup.subperm ?_ ?_)
  · exact TreeMap.distinct_keys.imp fun hne heq => hne (by simp [heq])
  · intro k hk
    obtain ⟨v, hv⟩ := Option.isSome_iff_exists.mp
      (TreeMap.isSome_getElem?_iff_mem.mpr (TreeMap.mem_keys.mp hk))
    exact h k v hv

/-! ## Sums over the values -/

theorem nodup_toList (m : TreeMap α β) : m.toList.Nodup :=
  TreeMap.distinct_keys_toList.imp fun hne heq => hne (by simp [heq])

/-- The entries of a map are one entry and those of the map without it. -/
theorem perm_toList_of_lookup [DecidableEq α] (h : m[k]? = some v) :
    m.toList.Perm ((k, v) :: (m.erase k).toList) := by
  have hnot : (k, v) ∉ (m.erase k).toList := by
    rw [mem_toList_iff, lookup_erase, if_pos rfl]
    exact fun hnone => nomatch hnone
  rw [perm_ext_iff_of_nodup (nodup_toList m) (nodup_cons.mpr ⟨hnot, nodup_toList _⟩)]
  rintro ⟨a, w⟩
  rw [mem_cons, mem_toList_iff, mem_toList_iff, lookup_erase]
  by_cases ha : k = a
  · subst ha
    simp [h, eq_comm]
  · simp [ha, Ne.symm ha]

/-- Removing a key that is absent keeps the entries. -/
theorem perm_toList_erase [DecidableEq α] (h : m[k]? = none) :
    (m.erase k).toList.Perm m.toList := by
  rw [perm_ext_iff_of_nodup (nodup_toList _) (nodup_toList _)]
  rintro ⟨a, w⟩
  rw [mem_toList_iff, lookup_erase]
  by_cases ha : k = a
  · subst ha
    simp [h]
  · simp [ha]

/-- An insertion puts its entry in the place of the old one. -/
theorem perm_toList_insert [DecidableEq α] (m : TreeMap α β) (k : α) (v : β) :
    (m.insert k v).toList.Perm ((k, v) :: (m.erase k).toList) := by
  have hself : (m.insert k v)[k]? = some v := by rw [lookup_insert, if_pos rfl]
  refine (perm_toList_of_lookup hself).trans (Perm.cons _ ?_)
  rw [perm_ext_iff_of_nodup (nodup_toList _) (nodup_toList _)]
  rintro ⟨a, w⟩
  rw [mem_toList_iff, mem_toList_iff, lookup_erase, lookup_erase, lookup_insert]
  split_ifs <;> rfl

/-- The sum of `f` over the values of a map. -/
def sumBy (f : β → Nat) (m : TreeMap α β) : Nat := (m.toList.map fun e => f e.2).sum

omit [TransOrd α] [LawfulEqOrd α] in
theorem sumBy_of_perm {l : List (α × β)} (h : m.toList.Perm l) :
    sumBy f m = (l.map fun e => f e.2).sum :=
  (h.map _).sum_nat

/-- A removal takes the value of its entry from the sum. -/
theorem sumBy_erase [DecidableEq α] (f : β → Nat) (m : TreeMap α β) (k : α) :
    sumBy f (m.erase k) + m[k]?.elim 0 f = sumBy f m := by
  cases h : m[k]? with
  | none =>
    rw [sumBy_of_perm (perm_toList_erase h)]
    rfl
  | some v =>
    rw [sumBy_of_perm (perm_toList_of_lookup h), Nat.add_comm]
    rfl

theorem elim_eq_zero {o : Option β} (h : ∀ v ∈ o, f v = 0) : o.elim 0 f = 0 := by
  cases o with
  | none => rfl
  | some v => exact h v rfl

/-- An insertion adds its value and takes that of the old entry. -/
theorem sumBy_insert [DecidableEq α] (f : β → Nat) (m : TreeMap α β) (k : α) (v : β) :
    sumBy f (m.insert k v) + m[k]?.elim 0 f = sumBy f m + f v := by
  rw [sumBy_of_perm (perm_toList_insert m k v), map_cons, sum_cons, ← sumBy_erase f m k]
  show f v + sumBy f (m.erase k) + _ = _
  omega

theorem sumBy_congr_lookup {m' : TreeMap α β} (h : ∀ k : α, m[k]? = m'[k]?) :
    sumBy f m = sumBy f m' := by
  unfold sumBy
  rw [(TreeMap.Equiv.of_forall_constGet?_eq h).toList_eq]

/-- A change of one entry exchanges its value in the sum. -/
theorem sumBy_modify [DecidableEq α] (f : β → Nat) (m : TreeMap α β) (k : α) (g : β → β) :
    sumBy f (m.modify k g) + m[k]?.elim 0 f = sumBy f m + m[k]?.elim 0 fun v => f (g v) := by
  cases h : m[k]? with
  | none =>
    have hsame : sumBy f (m.modify k g) = sumBy f m := by
      refine sumBy_congr_lookup fun a => ?_
      rw [lookup_modify]
      split_ifs with ha
      · rw [← ha, h]
        rfl
      · rfl
    exact hsame
  | some v =>
    have hsame : sumBy f (m.modify k g) = sumBy f (m.insert k (g v)) := by
      refine sumBy_congr_lookup fun a => ?_
      rw [lookup_modify, lookup_insert, h]
      rfl
    have hinsert := sumBy_insert f m k (g v)
    rw [h] at hinsert
    rw [hsame]
    exact hinsert

/-- A sum of zeros is zero. -/
theorem sumBy_eq_zero (h : ∀ (k : α) (v : β), m[k]? = some v → f v = 0) : sumBy f m = 0 := by
  refine List.sum_eq_zero_iff_forall_eq_nat.mpr fun n hn => ?_
  obtain ⟨⟨k, v⟩, hmem, rfl⟩ := List.mem_map.mp hn
  exact h k v (mem_toList_iff.mp hmem)

/-! ## Predecessors -/

/-- The entry of the largest key at or below `a`. -/
def lastLE {β : Type*} (m : TreeMap Nat β) (a : Nat) : Option (Nat × β) :=
  (m.toList.filter fun e => e.1 ≤ a).getLast?

theorem pairwise_toList (m : TreeMap Nat β) : m.toList.Pairwise fun x y => x.1 < y.1 :=
  TreeMap.ordered_keys_toList.imp fun h => Nat.compare_eq_lt.mp h

section

variable {m : TreeMap Nat β}

/-- The last key up to a bound is found, and no later one is below the bound. -/
theorem lastLE_eq_some {a k : Nat} (h : lastLE m a = some (k, v)) :
    m[k]? = some v ∧ k ≤ a ∧ ∀ (k' : Nat) (v' : β), m[k']? = some v' → k' ≤ a → k' ≤ k := by
  obtain ⟨before, hsplit⟩ : ∃ before, (m.toList.filter fun e => e.1 ≤ a) = before ++ [(k, v)] :=
    getLast?_eq_some_iff.mp h
  have hmem : (k, v) ∈ m.toList.filter fun e => e.1 ≤ a := hsplit ▸ by simp
  obtain ⟨hin, hle⟩ := mem_filter.mp hmem
  refine ⟨mem_toList_iff.mp hin, by simpa using hle, fun k' v' hk' hle' => ?_⟩
  have hmem' : (k', v') ∈ before ++ [(k, v)] :=
    hsplit ▸ mem_filter.mpr ⟨mem_toList_iff.mpr hk', by simpa using hle'⟩
  rcases mem_append.mp hmem' with hbefore | hlast
  · have hsorted := (pairwise_toList m).filter fun e => e.1 ≤ a
    rw [hsplit, pairwise_append] at hsorted
    exact Nat.le_of_lt (hsorted.2.2 _ hbefore _ (mem_singleton_self _))
  · cases mem_singleton.mp hlast
    exact Nat.le_refl _

/-- Where no key is found, all are above the bound. -/
theorem lastLE_eq_none {a : Nat} (h : lastLE m a = none) (k : Nat) (v : β) (hk : m[k]? = some v) :
    a < k := by
  have hnil : (m.toList.filter fun e => e.1 ≤ a) = [] := getLast?_eq_none_iff.mp h
  by_contra hle
  have hmem : (k, v) ∈ m.toList.filter fun e => e.1 ≤ a :=
    mem_filter.mpr ⟨mem_toList_iff.mpr hk, by simpa using hle⟩
  rw [hnil] at hmem
  cases hmem

/-- A key is its own predecessor. -/
theorem lastLE_self {k : Nat} (h : m[k]? = some v) : lastLE m k = some (k, v) := by
  cases hlast : lastLE m k with
  | none => exact absurd (lastLE_eq_none hlast k v h) (Nat.lt_irrefl k)
  | some e =>
    obtain ⟨hlook, hle, hmax⟩ := lastLE_eq_some hlast
    have hkey : e.1 = k := Nat.le_antisymm hle (hmax k v h (Nat.le_refl k))
    rw [hkey, h] at hlook
    cases hlook
    rw [← hkey]

end

end KnoxOS.Lib
