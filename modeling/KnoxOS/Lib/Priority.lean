import Mathlib.Data.List.Perm.Basic
import Mathlib.Data.List.TakeWhile

/-!
# Stable priority queues

A list kept in the order of falling keys by inserting each new element before the first one with
a lower key. `Stable queue sent` says that `queue` holds the elements of `sent` in that order,
and those of one key in the order in which they were sent; `Stable.place` and `Stable.pop` say
that inserting and taking the head keep it.
-/

namespace KnoxOS.Lib.Priority

open List

variable {α : Type*} (key : α → Nat)

/-- Insert before the first element with a lower key. -/
def place (queue : List α) (a : α) : List α :=
  match queue.findIdx? fun b => key b < key a with
  | some i => queue.insertIdx i a
  | none => queue ++ [a]

/-- No element of the list has a higher key. -/
def Highest (l : List α) (a : α) : Bool := l.all fun b => key b ≤ key a

/-- The first element that no other exceeds. -/
def first (sent : List α) : Option α := sent.find? (Highest key sent)

/-- The list without the first element that no other exceeds. -/
def rest (sent : List α) : List α := sent.eraseP (Highest key sent)

/-- `queue` holds `sent` in the order of falling keys, equal keys in the order of `sent`. -/
structure Stable (queue sent : List α) : Prop where
  falling : queue.Pairwise fun a b => key b ≤ key a
  same : ∀ k, queue.filter (key · = k) = sent.filter (key · = k)

variable {key} {queue sent : List α} {a : α}

/-- Inserting splits the queue at the first lower key. -/
theorem place_eq (key : α → Nat) (queue : List α) (a : α) :
    ∃ front back, queue = front ++ back ∧ place key queue a = front ++ a :: back ∧
      (∀ b ∈ front, key a ≤ key b) ∧ ∀ b ∈ back.head?, key b < key a := by
  unfold place
  induction queue with
  | nil => exact ⟨[], [], rfl, rfl, by simp, by simp⟩
  | cons c queue ih =>
    by_cases hc : key c < key a
    · refine ⟨[], c :: queue, rfl, ?_, by simp, by simpa using hc⟩
      simp [findIdx?_cons, hc]
    · obtain ⟨front, back, hsplit, hplace, hfront, hback⟩ := ih
      refine ⟨c :: front, back, by rw [hsplit]; rfl, ?_, ?_, hback⟩
      · show _ = c :: (front ++ a :: back)
        rw [← hplace]
        simp only [findIdx?_cons, hc, decide_false, Bool.false_eq_true, if_false]
        cases queue.findIdx? fun b => key b < key a with
        | none => rfl
        | some i => rfl
      · intro b hb
        rcases mem_cons.mp hb with rfl | hb
        · exact Nat.le_of_not_lt hc
        · exact hfront b hb

/-- Removing the first element with a key takes the first of those with the key, and leaves the
others. -/
theorem filter_eraseP {p : α → Bool} {k : Nat} {l : List α}
    (hp : ∀ b ∈ l, p b = decide (key b = k)) (k' : Nat) :
    (l.eraseP p).filter (key · = k') =
      if k = k' then (l.filter (key · = k')).tail else l.filter (key · = k') := by
  induction l with
  | nil => simp
  | cons b l ih =>
    have hb := hp b (mem_cons_self ..)
    by_cases hk : key b = k
    · rw [eraseP_cons_of_pos (by simp [hb, hk])]
      split_ifs with heq
      · rw [filter_cons_of_pos (by simp [hk, heq])]
        rfl
      · rw [filter_cons_of_neg (by simp [hk, heq])]
    · rw [eraseP_cons_of_neg (by simp [hb, hk]), filter_cons, filter_cons,
        ih fun c hc => hp c (mem_cons_of_mem _ hc)]
      by_cases heq : k = k'
      · simp [← heq, hk]
      · simp [heq]

/-- The first of the highest elements and the others are all of the elements. -/
theorem perm_of_first (h : first key sent = some a) : sent.Perm (a :: rest key sent) := by
  obtain ⟨ha, front, back, hsplit, hfront⟩ := find?_eq_some_iff_append.mp h
  have herase : rest key sent = front ++ back := by
    rw [rest]
    generalize Highest key sent = p at ha hfront
    rw [hsplit, eraseP_append_right _ (by simpa using hfront),
      eraseP_cons_of_pos (by simpa using ha)]
  rw [herase, hsplit]
  exact perm_middle

namespace Stable

theorem nil : Stable key [] ([] : List α) := ⟨Pairwise.nil, fun _ => rfl⟩

section

variable (h : Stable key queue sent)
include h

theorem mem_iff : a ∈ queue ↔ a ∈ sent := by
  have hqueue : a ∈ queue.filter (key · = key a) ↔ a ∈ queue := by simp
  have hsent : a ∈ sent.filter (key · = key a) ↔ a ∈ sent := by simp
  rw [← hqueue, ← hsent, h.same]

theorem perm [DecidableEq α] : queue.Perm sent := by
  rw [perm_iff_count]
  intro a
  have hcount : ∀ l : List α, (l.filter (key · = key a)).count a = l.count a :=
    fun l => count_filter (by simp)
  rw [← hcount queue, ← hcount sent, h.same]

/-- Inserting an element is sending it last. -/
theorem place (a : α) : Stable key (place key queue a) (sent ++ [a]) := by
  obtain ⟨front, back, hsplit, hplace, hfront, hback⟩ := place_eq key queue a
  have hfalling := h.falling
  rw [hsplit, pairwise_append] at hfalling
  obtain ⟨hff, hbb, hfb⟩ := hfalling
  -- the elements behind the new one are all lower, since the first of them is
  have hlower : ∀ b ∈ back, key b < key a := by
    cases back with
    | nil => simp
    | cons c back =>
      have hc : key c < key a := hback c rfl
      intro b hb
      rcases mem_cons.mp hb with rfl | hb
      · exact hc
      · exact Nat.lt_of_le_of_lt ((pairwise_cons.mp hbb).1 b hb) hc
  rw [hplace]
  constructor
  · refine pairwise_append.mpr ⟨hff, pairwise_cons.mpr ⟨fun b hb => ?_, hbb⟩, ?_⟩
    · exact Nat.le_of_lt (hlower b hb)
    · intro b hb c hc
      rcases mem_cons.mp hc with rfl | hc
      · exact hfront b hb
      · exact hfb b hb c hc
  · intro k
    have hsame := h.same k
    rw [hsplit, filter_append] at hsame
    rw [filter_append, filter_append, ← hsame]
    by_cases hk : key a = k
    · have hnone : back.filter (key · = k) = [] := by
        rw [filter_eq_nil_iff]
        intro b hb hkey
        have := hlower b hb
        have hkey' : key b = k := by simpa using hkey
        omega
      simp [hk, hnone]
    · simp [hk]

end

section

variable (h : Stable key (a :: queue) sent)
include h

/-- The elements sent that no other exceeds are those with the key of the head. -/
theorem highest_iff : ∀ b ∈ sent, Highest key sent b = decide (key b = key a) := by
  have hhead : ∀ b ∈ sent, key b ≤ key a := by
    intro b hb
    rcases mem_cons.mp (h.mem_iff.mpr hb) with rfl | hb
    · exact Nat.le_refl _
    · exact (pairwise_cons.mp h.falling).1 b hb
  intro b hb
  rw [Bool.eq_iff_iff, Highest, all_eq_true, decide_eq_true_eq]
  constructor
  · intro hall
    have hle := hhead b hb
    have hge : key a ≤ key b := by
      simpa using hall a (h.mem_iff.mp (mem_cons_self ..))
    omega
  · intro heq c hc
    simpa [heq] using hhead c hc

theorem first_eq : first key sent = some a := by
  have hsame := h.same (key a)
  rw [filter_cons_of_pos (by simp)] at hsame
  rw [first, ← head?_filter, filter_congr h.highest_iff, ← hsame]
  rfl

/-- Taking the head out of the queue takes it out of what was sent. -/
theorem pop : Stable key queue (rest key sent) := by
  refine ⟨(pairwise_cons.mp h.falling).2, fun k => ?_⟩
  have hsame := h.same k
  by_cases hk : key a = k
  · rw [filter_cons_of_pos (by simpa using hk)] at hsame
    rw [rest, filter_eraseP (hk ▸ h.highest_iff), if_pos rfl, ← hsame]
    rfl
  · rw [filter_cons_of_neg (by simpa using hk)] at hsame
    rw [rest, filter_eraseP h.highest_iff, if_neg hk, hsame]

end

end Stable

end KnoxOS.Lib.Priority
