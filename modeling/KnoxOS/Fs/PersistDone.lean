import KnoxOS.Fs.CompactWalk

/-!
# The persistent store without faults

If no write fails and the machine does not stop, every call returns, an acknowledged entry leaves
the slot empty (`Holds.commit_done`), and so does a restore that finds room for the record that was
left (`StoreOk.restore`). A record that is written is read back unless its path is too long
(`journal_round_trip_iff`).
-/

namespace KnoxOS.Fs.Persist

open Lib Vfs List

variable {d d' : Disk} {v v' : VirtualFS} {log : List Entry} {left : Option Entry} {e : Entry}
  {outcome : Outcome}

/-- The call returns. -/
def Returns {α : Type} (r : Except Disk α) : Prop := Ends r (fun _ => True) (fun _ => False)

theorem Returns.bind {α β : Type} {r : Except Disk α} {k : α → Except Disk β} (h : Returns r)
    (hk : ∀ a, Returns (k a)) : Returns (r >>= k) := Ends.bind h fun a _ => hk a

theorem Returns.exists_ok {α : Type} {r : Except Disk α} (h : Returns r) : ∃ a, r = .ok a := by
  cases r with
  | ok a => exact ⟨a, rfl⟩
  | error d' => cases h

theorem returns_write (d : Disk) (start count : Nat) (buf : List UInt8) :
    Returns (d.write .done start count buf) := by
  unfold Disk.write
  split_ifs
  · trivial
  · trivial
  · trivial

theorem returns_applyEntry (d : Disk) (e : Entry) : Returns (applyEntry d {} e) := by
  unfold applyEntry
  cases readStoreHeader d with
  | none => trivial
  | some header =>
    dsimp only
    split_ifs
    · trivial
    · refine (returns_write _ _ _ _).bind ?_
      rintro ⟨written, d₁⟩
      cases written with
      | false => trivial
      | true => exact returns_write _ _ _ _

/-- The entry is appended if there is room for it. -/
theorem Holds.applyEntry_done (h : Holds d log)
    (hroom : 1 + logSectors log + e.sectors ≤ dataLimit d) :
    Ends (Persist.applyEntry d {} e) (fun r => r.1 = true) (fun _ => False) := by
  have hlimit := dataLimit_le d
  unfold Persist.applyEntry
  rw [h.header]
  dsimp only
  rw [if_neg (by omega)]
  unfold Disk.write
  rw [if_neg (by omega), if_neg (by rw [length_padTo]; omega)]
  show Ends (if d.capacity < 0 + 1 then _ else _) _ _
  rw [if_neg (by omega), if_neg (by rw [headerSector, length_padTo]; decide)]
  rfl

section

variable (d : Disk)

/-- The slot is cleared. -/
theorem journalClear_done :
    Ends (journalClear d .done) (fun r => journalRead r.2 = none) (fun _ => False) := by
  unfold journalClear
  cases hbase : journalBase d with
  | none =>
    show journalRead d = none
    unfold journalRead
    rw [hbase]
  | some base =>
    have hadd := journalBase_add hbase
    have hone : 1 ≤ journalSectors := by decide
    unfold Disk.write
    dsimp only
    rw [if_neg (by omega), if_neg (by rw [length_padTo]; omega)]
    exact journalRead_cleared hbase

/-- Where the record is not written, nothing is. -/
theorem journalWrite_done (e : Entry) (state : Nat) :
    Ends (journalWrite d .done e state) (fun r => r.1 = false → r.2 = d) (fun _ => False) := by
  unfold journalWrite
  cases journalBase d with
  | none => exact fun _ => rfl
  | some base =>
    dsimp only
    unfold Disk.write
    split_ifs
    · exact fun _ => rfl
    · exact fun _ => rfl
    · exact fun _ => rfl
    · exact nofun

theorem returns_commitThroughJournal (e : Entry) : Returns (commitThroughJournal d {} e) := by
  refine (journalWrite_done d e _).bind ?_
  rintro ⟨written, d₁⟩ -
  cases written with
  | false => exact returns_applyEntry _ _
  | true =>
    refine (returns_applyEntry _ _).bind ?_
    rintro ⟨applied, d₂⟩
    cases applied with
    | false => trivial
    | true => exact (journalClear_done d₂).bind fun _ _ => trivial

theorem returns_replayJournal : Returns (replayJournal d {}) := by
  unfold replayJournal
  cases journalRead d with
  | none => trivial
  | some record =>
    dsimp only
    split_ifs
    · refine (returns_applyEntry _ _).bind ?_
      rintro ⟨applied, d₁⟩
      cases applied with
      | false => trivial
      | true => exact (journalClear_done d₁).bind fun _ _ => trivial
    · exact (journalClear_done d).bind fun _ _ => trivial

theorem returns_restoreAll (v : VirtualFS) : Returns (restoreAll d {} v) := by
  refine (returns_replayJournal d).bind ?_
  rintro ⟨replayed, d₁⟩
  dsimp only
  cases d₁.read 0 1 with
  | none => trivial
  | some buf =>
    dsimp only
    split_ifs
    · trivial
    · exact (returns_write _ _ _ _).bind fun _ => trivial
    · trivial

end

/-- Without faults all files are written. -/
theorem returns_persistAll (paths : List (Str × List UInt8 × UInt16)) (d : Disk) :
    Returns (persistAll d [] paths) := by
  induction paths generalizing d with
  | nil => trivial
  | cons item paths ih =>
    obtain ⟨path, data, permissions⟩ := item
    have hfile : Returns (persistFile d {} path data permissions) := by
      unfold persistFile
      by_cases hskip : ¬ shouldPersist path
      · rw [if_pos hskip]
        trivial
      · rw [if_neg hskip]
        by_cases hlong : maxPersistSize < data.length
        · rw [if_pos hlong]
          trivial
        · rw [if_neg hlong]
          exact returns_commitThroughJournal _ _
    exact hfile.bind fun r => ih r.2

theorem returns_compact (d : Disk) (v : VirtualFS) : Returns (compact d v .done []) := by
  have hclear : Returns (clear d .done) := by
    exact (returns_write _ _ _ _).bind fun _ => trivial
  exact hclear.bind fun d₁ => returns_persistAll _ _

/-- A record that is written whole has its payload. -/
theorem slotPayload_whole (d : Disk) (base : Nat) (e : Entry) (state : Nat) :
    slotPayload (d.put base e.recordSectors (padTo (e.recordSectors * sectorSize)
      (e.record state))) base e.payload.length = e.payload := by
  have hlen := le_divCeil (jrnlHeaderSize + e.payload.length)
  have hrecord := e.length_record state
  unfold slotPayload
  rw [Disk.bytesFrom_put (by rw [Nat.mul_comm]; exact hlen),
    ← slice_eq_bytesFrom (by rw [length_padTo]; exact hlen), padTo_eq_append (e.length_record_le _)]
  unfold Entry.record at *
  rw [length_append] at hrecord
  rw [append_assoc, ← Nat.zero_add jrnlHeaderSize,
    slice_skip (Nat.add_right_cancel hrecord), slice_append_left rfl]

/-- No payload is torn where a record is written whole or not at all. -/
theorem tornDetected_whole
    (h : 0 < outcome.reached e.recordSectors → outcome.reached e.recordSectors = e.recordSectors) :
    TornDetected d outcome e := by
  intro base _ hpos _
  rw [h hpos]
  exact slotPayload_whole d base e jrnlCommitted

/-- A record that was written whole is read back, unless it is empty or its path too long. -/
theorem journalRead_whole {base state : Nat} (hbase : journalBase d = some base)
    (hfits : e.recordSectors ≤ journalSectors) (hstate : state < 2 ^ 32) :
    journalRead (d.put base e.recordSectors (padTo (e.recordSectors * sectorSize)
      (e.record state))) =
      if state = jrnlEmpty ∨ 4096 < (asBytes e.path).length then none else some (state, e) := by
  have hpayload := slotPayload_whole d base e state
  have hput := @RecordFields.put d e base _ _ _ ((Entry.Sized.of_fits hfits).recordFields hstate)
    (sectorSize_le_recordBuf e _) e.recordSectors_pos
  rw [hput.journalRead hbase hfits fun _ => hpayload]
  simp only [hpayload, ne_eq, not_true_eq_false, or_false]

/-- What a successful `journal_write` leaves. -/
theorem journalWrite_true_iff {state : Nat} : journalWrite d outcome e state = .ok (true, d') ↔
      outcome = .done ∧ e.recordSectors ≤ journalSectors ∧ ∃ base, journalBase d = some base ∧
        d' = d.put base e.recordSectors (padTo (e.recordSectors * sectorSize)
          (e.record state)) := by
  unfold journalWrite
  cases hbase : journalBase d with
  | none => simp
  | some base =>
    have hadd := journalBase_add hbase
    have hpos := e.recordSectors_pos
    dsimp only
    by_cases hfits : e.recordSectors ≤ journalSectors
    · unfold Disk.write
      rw [if_neg (by omega), if_neg (by omega), if_neg (by rw [length_padTo]; omega)]
      cases outcome <;> simp [hfits, eq_comm]
    · rw [if_pos (by omega)]
      simp [hfits]

/-- A record that `journal_write` reports as written is read back if and only if the reader takes
its state and its path, which only the reader limits. Nothing that misses its checksum is read, and
nothing but the slot is. -/
theorem journal_round_trip_iff (d : Disk) :
    (∀ outcome e state d', state < 2 ^ 32 → journalWrite d outcome e state = .ok (true, d') →
      (journalRead d' = some (state, e) ↔
        state ≠ jrnlEmpty ∧ (asBytes e.path).length ≤ 4096)) ∧
    (∀ base ∈ journalBase d, Mismatched d base → journalRead d = none) ∧
    ∀ d', SlotSame d d' → journalRead d' = journalRead d := by
  refine ⟨fun outcome e state d' hstate hwrite => ?_, fun base hbase => ?_, fun d' h => ?_⟩
  · obtain ⟨-, hfits, base, hbase, rfl⟩ := journalWrite_true_iff.mp hwrite
    rw [journalRead_whole hbase hfits hstate]
    simp
  · exact journalRead_of_mismatch hbase
  · exact h.journalRead

/-- A committed record with a path of 4097 bytes cannot be replayed. -/
theorem long_path_not_read_back :
    let d : Disk := ⟨300, fun _ => 0, by decide⟩
    ∃ d', journalWrite d .done ⟨replicate 4097 'a', [], 0o644, 0⟩ jrnlCommitted =
      .ok (true, d') ∧ journalRead d' = none := by
  have hlen : (asBytes (replicate 4097 'a')).length = 4097 := by decide +kernel
  have hfits : Entry.recordSectors ⟨replicate 4097 'a', [], 0o644, 0⟩ ≤ journalSectors := by
    rw [Entry.recordSectors, Entry.payload, append_nil, hlen]
    decide
  refine ⟨_, journalWrite_true_iff.mpr ⟨rfl, hfits, 44, rfl, rfl⟩, ?_⟩
  rw [journalRead_whole rfl hfits (by decide), if_pos (.inr (by rw [hlen]; decide))]

/-- An entry that is acknowledged leaves the slot empty. -/
theorem Holds.commit_done (h : Holds d log) (hslot : journalRead d = none) (hsized : e.Sized)
    (hcount : log.length + 1 < 2 ^ 32) {d' : Disk}
    (hcommit : Persist.commitThroughJournal d {} e = .ok (true, d')) :
    Holds d' (log ++ [e]) ∧ journalRead d' = none := by
  have hends := h.commitThroughJournal {} hsized hcount (tornDetected_whole fun _ => rfl)
  have hclear : Ends (Persist.commitThroughJournal d {} e)
      (fun r => r.1 = true → journalRead r.2 = none) (fun _ => True) := by
    refine ((journalWrite_done d e jrnlCommitted).mono (fun _ hr => hr) nofun).bind ?_
    rintro ⟨written, d₁⟩ hsame
    cases written with
    | false =>
      obtain rfl : d₁ = d := hsame rfl
      refine (h.applyEntry {} hsized hcount).mono ?_ fun _ _ => trivial
      exact fun r hr _ => hr.1.journalRead.trans hslot
    | true =>
      refine ((returns_applyEntry d₁ e).mono (fun _ hr => hr) nofun).bind ?_
      rintro ⟨applied, d₂⟩ -
      cases applied with
      | false => exact nofun
      | true =>
        refine ((journalClear_done d₂).mono (fun _ hr => hr) nofun).bind ?_
        exact fun r hr _ => hr
  rw [hcommit] at hends hclear
  exact ⟨hends.2.1 rfl, hclear rfl⟩

/-- The disk holds a log and perhaps a record, which fit the tree at boot one after the other, and
the log has room for the record. -/
structure StoreOk (d : Disk) (log : List Entry) (left : Option Entry) : Prop where
  holds : Holds d log
  slot : Slot d left
  sized : ∀ x ∈ left, x.Sized
  count : log.length + 1 < 2 ^ 32
  fits : FitsAll VirtualFS.new.tree (log ++ left.toList)
  room : ∀ x ∈ left, 1 + logSectors log + x.sectors ≤ dataLimit d

/-- The record is applied and cleared. -/
theorem StoreOk.replay (h : StoreOk d log left) {r : Nat × Disk}
    (hreplay : replayJournal d {} = .ok r) :
    (∃ log', Replayed log left log' ∧ Holds r.2 log') ∧ journalRead r.2 = none := by
  have hends := h.holds.replayJournal {} h.slot h.sized fun _ => h.count
  have hclear : Ends (replayJournal d {}) (fun r => journalRead r.2 = none) (fun _ => True) := by
    unfold replayJournal
    rw [h.slot]
    cases left with
    | none => exact h.slot
    | some x =>
      refine ((h.holds.applyEntry_done (h.room x rfl)).mono (fun _ hr => hr) nofun).bind ?_
      rintro ⟨applied, d₁⟩ rfl
      exact ((journalClear_done d₁).mono (fun _ hr => hr) nofun).bind fun _ hr => hr
  rw [hreplay] at hends hclear
  exact ⟨hends.1, hclear⟩

/-- What a restore ends with, if nothing fails. -/
theorem StoreOk.restore (h : StoreOk d log left)
    (hrestore : restoreAll d {} v = .ok (d', v')) :
    ∃ log', Replayed log left log' ∧ Holds d' log' ∧ journalRead d' = none ∧
      v' = log'.foldl restoreEntry v := by
  obtain ⟨⟨replayed, d₁⟩, hreplay⟩ := (returns_replayJournal d).exists_ok
  obtain ⟨⟨log', hlog', hholds⟩, hslot⟩ := h.replay hreplay
  -- from there on it is a restore that finds no record
  have hagain : restoreAll d₁ {} v = .ok (d', v') := by
    rw [← hrestore]
    unfold restoreAll
    rw [hreplay, show replayJournal d₁ {} = .ok (0, d₁) by unfold replayJournal; rw [hslot]]
    rfl
  have hnone : Slot d₁ none := hslot
  have hends := hholds.restoreAll {} hnone nofun (fun h => absurd rfl h) v
  rw [hagain] at hends
  obtain ⟨⟨log'', hlog'', hholds', hv'⟩, hslot'⟩ := hends
  obtain rfl : log'' = log' := hlog''.resolve_right nofun
  exact ⟨log'', hlog', hholds', hslot'.elim id id, hv'⟩

end KnoxOS.Fs.Persist
