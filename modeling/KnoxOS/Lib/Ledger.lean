import Mathlib.Data.List.Induction

/-!
# Logs with one pending record

A store that appends entries to a log, the last entry of a key counting, and keeps at most one
record beside the log that a recovery may append. What was asked of it is a history of attempts,
each acknowledged or not. `Ledger` says that for every key acknowledged the log has the entry of the
last acknowledged attempt or of a later one, and that the pending record is not older than that
either; `Ledger.attempt` and `Ledger.replay` say which steps keep it.
-/

namespace KnoxOS.Lib

open List

variable {ε κ : Type*}

/-- An entry that was to be stored, and whether the store said that it is. -/
structure Attempt (ε : Type*) where
  entry : ε
  acknowledged : Bool
deriving DecidableEq, Repr

section

variable [DecidableEq κ] (key : ε → κ)

/-- The last entry of a key. -/
def lastWith (log : List ε) (k : κ) : Option ε :=
  log.foldl (fun last e => if key e = k then some e else last) none

/-- The entries of a key from its last acknowledged attempt on. -/
def since (history : List (Attempt ε)) (k : κ) : List ε :=
  history.foldl (fun entries a =>
    if key a.entry = k then if a.acknowledged then [a.entry] else entries ++ [a.entry]
    else entries) []

theorem lastWith_concat (log : List ε) (e : ε) (k : κ) :
    lastWith key (log ++ [e]) k = if key e = k then some e else lastWith key log k := by
  unfold lastWith
  rw [foldl_append]
  rfl

theorem since_concat (history : List (Attempt ε)) (a : Attempt ε) (k : κ) :
    since key (history ++ [a]) k =
      if key a.entry = k then if a.acknowledged then [a.entry] else since key history k ++ [a.entry]
      else since key history k := by
  unfold since
  rw [foldl_append]
  rfl

/-- What the store and the history have to do with each other. -/
structure Ledger (history : List (Attempt ε)) (log : List ε) (left : Option ε) : Prop where
  known : ∀ e ∈ log, ∃ a ∈ history, a.entry = e
  latest : ∀ a ∈ history, a.acknowledged = true →
    ∃ e ∈ since key history (key a.entry), lastWith key log (key a.entry) = some e
  pending : ∀ x ∈ left, x ∈ since key history (key x)

variable {key} {history : List (Attempt ε)} {log log' : List ε} {left left' : Option ε} {e : ε}

/-- The newest attempt is among those that count. -/
theorem mem_since_self (history : List (Attempt ε)) (a : Attempt ε) :
    a.entry ∈ since key (history ++ [a]) (key a.entry) := by
  rw [since_concat, if_pos rfl]
  split_ifs
  · exact mem_singleton.mpr rfl
  · exact mem_append_right _ (mem_singleton.mpr rfl)

/-- An attempt that is not acknowledged takes none of the others out. -/
theorem mem_since_concat {a : Attempt ε} {k : κ} (h : e ∈ since key history k)
    (ha : a.acknowledged = true → key a.entry ≠ k) : e ∈ since key (history ++ [a]) k := by
  rw [since_concat]
  split_ifs with hk hack
  · exact absurd hk (ha hack)
  · exact mem_append_left _ h
  · exact h

/-- What was stored since is in the history. -/
theorem exists_of_mem_since {k : κ} (h : e ∈ since key history k) : ∃ a ∈ history, a.entry = e := by
  induction history using reverseRecOn with
  | nil => cases h
  | append_singleton history a ih =>
    have hold : e ∈ since key history k → ∃ a' ∈ history ++ [a], a'.entry = e := by
      intro h
      obtain ⟨a', ha', heq⟩ := ih h
      exact ⟨a', mem_append_left _ ha', heq⟩
    have hnew : e = a.entry → ∃ a' ∈ history ++ [a], a'.entry = e := fun heq =>
      ⟨a, mem_append_right _ (mem_singleton.mpr rfl), heq.symm⟩
    rw [since_concat] at h
    split_ifs at h with hk hack
    · exact hnew (mem_singleton.mp h)
    · rcases mem_append.mp h with h | h
      · exact hold h
      · exact hnew (mem_singleton.mp h)
    · exact hold h

namespace Ledger

theorem empty : Ledger key [] [] none :=
  ⟨fun _ he => absurd he not_mem_nil, fun _ ha => absurd ha not_mem_nil, nofun⟩

/-- A step stores an entry. It may append it to the log, and must if it is acknowledged; the pending
record becomes the entry or nothing, or stays if no older one of the key is acknowledged over it. -/
theorem attempt (h : Ledger key history log left) {acknowledged : Bool}
    (hlog : log' = log ∨ log' = log ++ [e]) (hack : acknowledged = true → log' = log ++ [e])
    (hleft : left' = none ∨ left' = some e ∨
      left' = left ∧ (acknowledged = true → ∀ x ∈ left, key x ≠ key e)) :
    Ledger key (history ++ [⟨e, acknowledged⟩]) log' left' where
  known := by
    intro e' he'
    have hcases : e' ∈ log ∨ e' = e := by
      rcases hlog with rfl | rfl
      · exact .inl he'
      · rcases mem_append.mp he' with he' | he'
        · exact .inl he'
        · exact .inr (mem_singleton.mp he')
    rcases hcases with hold | rfl
    · obtain ⟨a, ha, heq⟩ := h.known e' hold
      exact ⟨a, mem_append_left _ ha, heq⟩
    · exact ⟨⟨e', acknowledged⟩, mem_append_right _ (mem_singleton.mpr rfl), rfl⟩
  latest := by
    intro a ha hacked
    by_cases hkey : key e = key a.entry
    · by_cases hgrown : log' = log ++ [e]
      · refine ⟨e, hkey ▸ mem_since_self history ⟨e, acknowledged⟩, ?_⟩
        rw [hgrown, lastWith_concat, if_pos hkey]
      · -- the new attempt is not acknowledged, so an old one is
        have hnot : acknowledged ≠ true := fun htrue => hgrown (hack htrue)
        obtain rfl := hlog.resolve_right hgrown
        rcases mem_append.mp ha with ha | ha
        · obtain ⟨e', he', hlast⟩ := h.latest a ha hacked
          exact ⟨e', mem_since_concat he' fun htrue => absurd htrue hnot, hlast⟩
        · rw [mem_singleton.mp ha] at hacked
          exact absurd hacked hnot
    · rcases mem_append.mp ha with ha | ha
      · obtain ⟨e', he', hlast⟩ := h.latest a ha hacked
        refine ⟨e', mem_since_concat he' fun _ => hkey, ?_⟩
        rcases hlog with rfl | rfl
        · exact hlast
        · rw [lastWith_concat, if_neg hkey]
          exact hlast
      · rw [mem_singleton.mp ha] at hkey
        exact absurd rfl hkey
  pending := by
    intro x hx
    rcases hleft with rfl | rfl | ⟨rfl, hkeep⟩
    · cases hx
    · obtain rfl := Option.some.inj hx
      exact mem_since_self history ⟨e, acknowledged⟩
    · exact mem_since_concat (h.pending x hx) fun htrue => (hkeep htrue x hx).symm

/-- A recovery, which may append the pending record and may clear it. -/
theorem replay (h : Ledger key history log left)
    (hlog : log' = log ∨ ∃ x ∈ left, log' = log ++ [x]) (hleft : left' = none ∨ left' = left) :
    Ledger key history log' left' where
  known := by
    intro e he
    rcases hlog with rfl | ⟨x, hx, rfl⟩
    · exact h.known e he
    · rcases mem_append.mp he with he | he
      · exact h.known e he
      · rw [mem_singleton.mp he]
        exact exists_of_mem_since (h.pending x hx)
  latest := by
    intro a ha hacked
    obtain ⟨e, he, hlast⟩ := h.latest a ha hacked
    rcases hlog with rfl | ⟨x, hx, rfl⟩
    · exact ⟨e, he, hlast⟩
    · rw [lastWith_concat]
      split_ifs with hkey
      · exact ⟨x, hkey ▸ h.pending x hx, rfl⟩
      · exact ⟨e, he, hlast⟩
  pending := by
    intro x hx
    rcases hleft with rfl | rfl
    · cases hx
    · exact h.pending x hx

end Ledger

end

end KnoxOS.Lib
