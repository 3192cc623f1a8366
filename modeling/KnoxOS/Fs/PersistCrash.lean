import KnoxOS.Fs.PersistTree

/-!
# Crash consistency of the persistent store

Runs of `persist_file`, `persist_directory` and `restore_all` in which every write may fail and the
machine may stop at any of them. `restore_consistent` says that after a restore every path shows its
last acknowledged contents or later ones, if no entry is written to the log directly while the slot
still holds a committed record of its path. The result of `journal_clear` is ignored, so such a
record can stay for long, and `stale_record_wins` is a run where it comes back over newer contents.
-/

namespace KnoxOS.Fs.Persist

open Lib Vfs List Option

/-- The disk, what was persisted, and the file system if the last call restored it. -/
structure Machine where
  disk : Disk
  history : List (Attempt Entry)
  restored : Option VirtualFS

inductive Op where
  | file (path : Str) (data : List UInt8) (permissions : UInt16) (f : Faults)
  | directory (path : Str) (permissions : UInt16) (f : Faults)
  | restore (f : Faults)

namespace Op

/-- The entry that the call persists; some paths and sizes are skipped. -/
def entry? : Op → Option Entry
  | .file path data permissions _ =>
    if shouldPersist path ∧ data.length ≤ maxPersistSize then
      some (fileEntry path data permissions)
    else none
  | .directory path permissions _ =>
    if shouldPersistEntry path true then some (directoryEntry path permissions) else none
  | .restore _ => none

def faults : Op → Faults
  | .file _ _ _ f => f
  | .directory _ _ f => f
  | .restore f => f

/-- What the call does to the disk, and whether the entry is acknowledged. -/
def persist (d : Disk) : Op → Except Disk (Bool × Disk)
  | .file path data permissions f => persistFile d f path data permissions
  | .directory path permissions f => persistDirectory d f path permissions
  | .restore _ => .ok (false, d)

end Op

/-- The machine after a call that persists something. -/
def Machine.persisted (m : Machine) (op : Op) : Except Disk (Bool × Disk) → Machine
  | .ok (acknowledged, d) =>
    ⟨d, m.history ++ op.entry?.toList.map fun e => ⟨e, acknowledged⟩, none⟩
  | .error d => ⟨d, m.history ++ op.entry?.toList.map fun e => ⟨e, false⟩, none⟩

/-- The machine after a boot. -/
def Machine.booted (m : Machine) : Except Disk (Disk × VirtualFS) → Machine
  | .ok (d, v) => ⟨d, m.history, some v⟩
  | .error d => ⟨d, m.history, none⟩

def step (m : Machine) : Op → Machine
  | .restore f => m.booted (restoreAll m.disk f VirtualFS.new)
  | op => m.persisted op (op.persist m.disk)

/-- A disk without entries and without a record. -/
structure Fresh (d : Disk) : Prop where
  header : readStoreHeader d = some (0, 1)
  slot : journalRead d = none

/-- The file system shows the entry under the path. -/
def ShowsAt (v : VirtualFS) (path : Str) (e : Entry) : Prop :=
  if e.IsDir then ∃ ino ∈ v.resolvePath path, v.isDirectory ino else v.readFile path = some e.data

/-- Every acknowledged path shows its last acknowledged entry or a later one, and no path has
contents not persisted to it. -/
structure Consistent (history : List (Attempt Entry)) (v : VirtualFS) : Prop where
  latest : ∀ a ∈ history, a.acknowledged = true →
    ∃ e ∈ since Entry.names history a.entry.names, ShowsAt v a.entry.path e
  origin : ∀ path c, v.readFile path = some c →
    VirtualFS.new.readFile path = some c ∨
      ∃ a ∈ history, ¬ a.entry.IsDir ∧ a.entry.names = components path ∧ a.entry.data = c

/-! ## The condition -/

/-- The number of entries has room for one more. -/
def CountFits (d : Disk) : Prop := ∀ header ∈ readStoreHeader d, header.1 + 1 < 2 ^ 32

/-- When an entry may be persisted. The code misses the last condition: an entry that goes to the
log directly finds no committed record of its path in the slot. -/
structure PersistOk (m : Machine) (f : Faults) (e : Entry) : Prop where
  length : (asBytes e.path).length < 2 ^ 30
  count : CountFits m.disk
  fits : Fits VirtualFS.new.tree e
  compatible : ∀ a ∈ m.history, Compatible a.entry e
  torn : TornDetected m.disk f.journal e
  current : Unjournaled m.disk f.journal e →
    ∀ record ∈ journalRead m.disk, record.1 = jrnlCommitted → record.2.names ≠ e.names

def Ok (m : Machine) (op : Op) : Prop :=
  (∀ e ∈ op.entry?, PersistOk m op.faults e) ∧ CountFits m.disk

instance decidableFits (t : Tree) (e : Entry) : Decidable (Fits t e) :=
  decidable_of_iff ((∀ ms ∈ e.names.inits, ∀ node ∈ t ms, e.DirOf ms → node.1 = .directory) ∧
      (∀ node ∈ t e.names, ¬ e.IsDir → node.1 = .regular ∨ node.1 = .charDevice) ∧
      (¬ e.IsDir → lastPart (splitPath e.path) ≠ []))
    ⟨fun h => ⟨h.1, h.2.1, h.2.2⟩, fun h => ⟨h.dirs, h.file, h.ending⟩⟩

instance decidableCountFits (d : Disk) : Decidable (CountFits d) :=
  inferInstanceAs (Decidable (∀ header ∈ readStoreHeader d, header.1 + 1 < 2 ^ 32))

instance decidableTornDetected (d : Disk) (outcome : Outcome) (e : Entry) :
    Decidable (TornDetected d outcome e) :=
  inferInstanceAs (Decidable (∀ base ∈ journalBase d, _ < _ → _ = _ → _ = _))

instance decidableUnjournaled (d : Disk) (outcome : Outcome) (e : Entry) :
    Decidable (Unjournaled d outcome e) :=
  inferInstanceAs (Decidable (journalBase d = none ∨ journalSectors < e.recordSectors ∨
    outcome = .failed 0))

instance decidablePersistOk (m : Machine) (f : Faults) (e : Entry) : Decidable (PersistOk m f e) :=
  decidable_of_iff ((asBytes e.path).length < 2 ^ 30 ∧ CountFits m.disk ∧
      Fits VirtualFS.new.tree e ∧ (∀ a ∈ m.history, Compatible a.entry e) ∧
      TornDetected m.disk f.journal e ∧ (Unjournaled m.disk f.journal e →
        ∀ record ∈ journalRead m.disk, record.1 = jrnlCommitted → record.2.names ≠ e.names))
    ⟨fun h => ⟨h.1, h.2.1, h.2.2.1, h.2.2.2.1, h.2.2.2.2.1, h.2.2.2.2.2⟩,
      fun h => ⟨h.length, h.count, h.fits, h.compatible, h.torn, h.current⟩⟩

instance decidableOk (m : Machine) (op : Op) : Decidable (Ok m op) :=
  inferInstanceAs (Decidable ((∀ e ∈ op.entry?, PersistOk m op.faults e) ∧ CountFits m.disk))

/-! ## The invariant -/

/-- The log and the record on the disk, and what they have to do with the history. -/
structure Sound (d : Disk) (history : List (Attempt Entry)) (log : List Entry)
    (left : Option Entry) : Prop where
  holds : Holds d log
  slot : Slot d left
  ledger : Ledger Entry.names history log left
  sized : ∀ a ∈ history, a.entry.Sized
  fits : ∀ a ∈ history, Fits VirtualFS.new.tree a.entry
  compatible : ∀ a ∈ history, ∀ a' ∈ history, Compatible a.entry a'.entry

variable {d d' : Disk} {m : Machine} {history : List (Attempt Entry)} {log log' : List Entry}
  {left left' : Option Entry} {e : Entry} {f : Faults} {op : Op}

/-- A fresh store holds the empty log. -/
theorem Fresh.holds (h : Fresh d) : Holds d [] where
  header := h.header
  room := by
    have hcap : 1 ≤ d.capacity := by
      by_contra hzero
      have hheader := h.header
      unfold readStoreHeader Disk.read at hheader
      rw [if_pos (by omega)] at hheader
      cases hheader
    unfold dataLimit journalBase journalSectors
    split_ifs with hsmall
    · exact hcap
    · show 1 ≤ d.capacity - 256
      omega
  stored := trivial
  sized := fun _ he => absurd he not_mem_nil
  count := by decide

theorem Fresh.sound (h : Fresh d) : Sound d [] [] none where
  holds := h.holds
  slot := h.slot
  ledger := Ledger.empty
  sized := fun _ ha => absurd ha not_mem_nil
  fits := fun _ ha => absurd ha not_mem_nil
  compatible := fun _ ha => absurd ha not_mem_nil

theorem compatible_self (e : Entry) : Compatible e e := by
  have hno : ¬ Conflict e e := fun h => (h.2.2.resolve_left h.1) rfl
  exact ⟨hno, hno⟩

section

variable (h : Sound d history log left)
include h

theorem Sound.count (hcount : CountFits d) : log.length + 1 < 2 ^ 32 := hcount _ h.holds.header

theorem Sound.sized_left : ∀ x ∈ left, x.Sized := by
  intro x hx
  obtain ⟨a, ha, rfl⟩ := exists_of_mem_since (h.ledger.pending x hx)
  exact h.sized a ha

/-- One more attempt. -/
theorem Sound.attempt {acknowledged : Bool} (hholds : Holds d' log') (hslot : Slot d' left')
    (hsized : e.Sized) (hfits : Fits VirtualFS.new.tree e)
    (hcompat : ∀ a ∈ history, Compatible a.entry e) (hlog : log' = log ∨ log' = log ++ [e])
    (hack : acknowledged = true → log' = log ++ [e])
    (hleft : left' = none ∨ left' = some e ∨
      left' = left ∧ (acknowledged = true → ∀ x ∈ left, x.names ≠ e.names)) :
    Sound d' (history ++ [⟨e, acknowledged⟩]) log' left' := by
  have hcases : ∀ {P : Entry → Prop}, (∀ a ∈ history, P a.entry) → P e →
      ∀ a ∈ history ++ [⟨e, acknowledged⟩], P a.entry := by
    intro P hold hnew a ha
    rcases mem_append.mp ha with ha | ha
    · exact hold a ha
    · rw [mem_singleton.mp ha]
      exact hnew
  refine ⟨hholds, hslot, h.ledger.attempt hlog hack hleft, hcases h.sized hsized,
    hcases h.fits hfits, ?_⟩
  refine hcases (P := fun x => ∀ a' ∈ history ++ [⟨e, acknowledged⟩], Compatible x a'.entry) ?_ ?_
  · exact fun a ha => hcases (h.compatible a ha) (hcompat a ha)
  · exact hcases (fun a ha => (hcompat a ha).symm) (compatible_self e)

end

/-- Some log and record go with the disk and the history. -/
def Kept (d : Disk) (history : List (Attempt Entry)) : Prop := ∃ log left, Sound d history log left

/-- Committing an entry keeps the store sound, also across a crash. -/
theorem Sound.commit (h : Sound m.disk m.history log left) (hok : PersistOk m f e)
    (hdata : e.data.length < 2 ^ 32) : Ends (commitThroughJournal m.disk f e)
      (fun r => Kept r.2 (m.history ++ [⟨e, r.1⟩]))
      (fun d' => Kept d' (m.history ++ [⟨e, false⟩])) := by
  have hsized : e.Sized := ⟨hok.length, hdata⟩
  have hattempt : ∀ {d' log' acknowledged}, Holds d' log' → (log' = log ∨ log' = log ++ [e]) →
      (acknowledged = true → log' = log ++ [e]) →
      (NewSlot d' e ∨ journalRead d' = journalRead m.disk ∧
        (acknowledged = true → ∀ x ∈ left, x.names ≠ e.names)) →
      Kept d' (m.history ++ [⟨e, acknowledged⟩]) := by
    intro d' log' acknowledged hholds hlog hack hslot
    have hput : ∀ {left'}, Slot d' left' → _ → Sound d' _ log' left' := fun hslot' =>
      h.attempt hholds hslot' hsized hok.fits hok.compatible hlog hack
    rcases hslot with (hnone | hnew) | ⟨hsame, hkeep⟩
    · exact ⟨log', none, hput hnone (.inl rfl)⟩
    · exact ⟨log', some e, hput hnew (.inr (.inl rfl))⟩
    · exact ⟨log', left, hput (hsame.trans h.slot) (.inr (.inr ⟨rfl, hkeep⟩))⟩
  -- the record that an entry written directly may find
  have hcurrent : Unjournaled m.disk f.journal e → ∀ x ∈ left, x.names ≠ e.names := by
    intro hun x hx
    refine hok.current hun (jrnlCommitted, x) ?_ rfl
    rw [h.slot, hx]
    rfl
  refine (h.holds.commitThroughJournal f hsized (h.count hok.count) hok.torn).mono ?_ ?_
  · rintro ⟨acknowledged, d'⟩ ⟨happended, hdone, hslot⟩
    have hslot' := hslot.imp id fun hsame => And.intro hsame.1 fun _ : acknowledged = true =>
      hcurrent hsame.2
    cases acknowledged with
    | true => exact hattempt (hdone rfl) (.inr rfl) (fun _ => rfl) hslot'
    | false =>
      rcases happended with hd' | hd'
      · exact hattempt hd' (.inl rfl) nofun hslot'
      · exact hattempt hd' (.inr rfl) nofun hslot'
  · rintro d' ⟨happended, hslot⟩
    have hslot' := hslot.imp id fun hsame => And.intro hsame
      (nofun : false = true → ∀ x ∈ left, x.names ≠ e.names)
    rcases happended with hd' | hd'
    · exact hattempt hd' (.inl rfl) nofun hslot'
    · exact hattempt hd' (.inr rfl) nofun hslot'

/-- Every persisting call commits its entry. -/
theorem persist_of_entry (h : op.entry? = some e) (d : Disk) :
    op.persist d = commitThroughJournal d op.faults e ∧ e.data.length < 2 ^ 32 := by
  cases op with
  | file path data permissions f =>
    simp only [Op.entry?] at h
    split_ifs at h with hskip
    obtain rfl := some.inj h
    obtain ⟨hshould, hsize⟩ := hskip
    refine ⟨?_, Nat.lt_of_le_of_lt hsize (by decide)⟩
    show persistFile d f path data permissions = _
    unfold persistFile
    rw [if_neg (not_not.mpr hshould), if_neg (Nat.not_lt.mpr hsize)]
    rfl
  | directory path permissions f =>
    simp only [Op.entry?] at h
    split_ifs at h with hshould
    obtain rfl := some.inj h
    refine ⟨?_, show 0 < 2 ^ 32 by decide⟩
    show persistDirectory d f path permissions = _
    unfold persistDirectory
    rw [if_neg (not_not.mpr hshould)]
    rfl
  | restore f => cases h

/-- A call without an entry does nothing. -/
theorem persist_of_none (h : op.entry? = none) (d : Disk) : op.persist d = .ok (false, d) := by
  cases op with
  | file path data permissions f =>
    simp only [Op.entry?] at h
    split_ifs at h with hskip
    show persistFile d f path data permissions = _
    unfold persistFile
    by_cases hshould : shouldPersist path = true
    · rw [if_neg (not_not.mpr hshould), if_pos]
      exact Nat.lt_of_not_le fun hsize => hskip ⟨hshould, hsize⟩
    · rw [if_pos hshould]
  | directory path permissions f =>
    simp only [Op.entry?] at h
    split_ifs at h with hshould
    show persistDirectory d f path permissions = _
    unfold persistDirectory
    rw [if_pos hshould]
  | restore f => rfl

/-- A call that persists something keeps the store sound. -/
theorem Kept.persisted (h : Kept m.disk m.history) (hok : Ok m op) :
    Kept (m.persisted op (op.persist m.disk)).disk
        (m.persisted op (op.persist m.disk)).history ∧
      (m.persisted op (op.persist m.disk)).restored = none := by
  obtain ⟨log, left, h⟩ := h
  cases hentry : op.entry? with
  | none =>
    rw [persist_of_none hentry]
    simp only [Machine.persisted, hentry]
    refine ⟨⟨log, left, ?_⟩, trivial⟩
    simpa using h
  | some e =>
    obtain ⟨hcall, hdata⟩ := persist_of_entry hentry m.disk
    have hends := h.commit (hok.1 e hentry) hdata
    rw [hcall]
    cases hr : commitThroughJournal m.disk op.faults e with
    | ok r =>
      rw [hr] at hends
      simp only [Machine.persisted, hentry]
      exact ⟨hends, trivial⟩
    | error d' =>
      rw [hr] at hends
      simp only [Machine.persisted, hentry]
      exact ⟨hends, trivial⟩

/-! ## Restoring -/

/-- What a path shows is read from the tree. -/
theorem showsAt_of_shows {v : VirtualFS} (h : v.WF) {path : Str} (hpath : components path = e.names)
    (hshows : Shows v.tree e) : ShowsAt v path e := by
  unfold Shows at hshows
  unfold ShowsAt
  split_ifs at hshows ⊢ with hdir
  · obtain ⟨data, hdata⟩ := hshows
    obtain ⟨ino, hfind, hino⟩ := h.dir_of_tree hdata
    refine ⟨ino, ?_, VirtualFS.dir_iff.mp hino⟩
    rw [h.resolvePath, hpath]
    exact hfind
  · rw [h.readFile_eq, hpath]
    exact hshows

section

variable (h : Sound d history log left)
include h

theorem Sound.fitsAll : FitsAll VirtualFS.new.tree log := by
  refine Restorable.fitsAll ⟨?_, ?_⟩
  · intro e he
    obtain ⟨a, ha, rfl⟩ := h.ledger.known e he
    exact h.fits a ha
  · intro e he e' he'
    obtain ⟨a, ha, rfl⟩ := h.ledger.known e he
    obtain ⟨a', ha', rfl⟩ := h.ledger.known e' he'
    exact h.compatible a ha a' ha'

/-- The file system that the log of a sound store stands for. -/
theorem Sound.consistent : Consistent history (log.foldl restoreEntry VirtualFS.new) := by
  have hlog := h.fitsAll
  obtain ⟨hplain, -, htree⟩ := hlog.restore plain_new h.holds.sized (room_new h.holds.count)
  constructor
  · intro a ha hacked
    obtain ⟨e, he, hlast⟩ := h.ledger.latest a ha hacked
    obtain ⟨hnames, -, hshows⟩ := hlog.shows_last hlast
    rw [← htree] at hshows
    exact ⟨e, he, showsAt_of_shows hplain.wf hnames.symm hshows⟩
  · intro path c hread
    rw [hplain.wf.readFile_eq, htree] at hread
    rcases readAt_foldl_place hread with hbase | ⟨e, he, hfile, hnames, hdata⟩
    · rw [VirtualFS.wf_new.readFile_eq]
      exact .inl hbase
    · obtain ⟨a, ha, rfl⟩ := h.ledger.known e he
      exact .inr ⟨a, ha, hfile, hnames, hdata⟩

/-- Replaying the slot keeps the store sound. -/
theorem Sound.replay (hholds : Holds d' log') (hslot : Slot d' none ∨ Slot d' left)
    (hlog : Replayed log left log') : ∃ left', Sound d' history log' left' := by
  rcases hslot with hslot | hslot
  · exact ⟨none, hholds, hslot, h.ledger.replay hlog (.inl rfl), h.sized, h.fits, h.compatible⟩
  · exact ⟨left, hholds, hslot, h.ledger.replay hlog (.inr rfl), h.sized, h.fits, h.compatible⟩

end

/-- A boot keeps the store and restores what the history says. -/
theorem Kept.booted (h : Kept m.disk m.history) (hcount : CountFits m.disk) (f : Faults) :
    Kept (m.booted (restoreAll m.disk f VirtualFS.new)).disk m.history ∧
      ∀ v ∈ (m.booted (restoreAll m.disk f VirtualFS.new)).restored, Consistent m.history v := by
  obtain ⟨log, left, h⟩ := h
  have hends := h.holds.restoreAll f h.slot h.sized_left (fun _ => h.count hcount) VirtualFS.new
  cases hr : restoreAll m.disk f VirtualFS.new with
  | ok r =>
    rw [hr] at hends
    obtain ⟨⟨log', hreplayed, hholds, hv⟩, hslot⟩ := hends
    obtain ⟨left', hsound⟩ := h.replay hholds hslot hreplayed
    refine ⟨⟨log', left', hsound⟩, ?_⟩
    rintro v hv'
    obtain rfl := some.inj hv'
    rw [hv]
    exact hsound.consistent
  | error d' =>
    rw [hr] at hends
    obtain ⟨⟨log', hreplayed, hholds⟩, hslot⟩ := hends
    exact ⟨⟨log', h.replay hholds hslot hreplayed⟩, nofun⟩

/-! ## Runs -/

/-- The store is sound, and a file system just restored consistent with what was persisted. -/
def Inv (m : Machine) : Prop :=
  Kept m.disk m.history ∧ ∀ v ∈ m.restored, Consistent m.history v

/-- Every operation keeps the invariant. -/
theorem Inv.step (h : Inv m) (hok : Ok m op) : Inv (step m op) := by
  cases op with
  | restore f =>
    have hbooted := h.1.booted hok.2 f
    have hhistory : (Persist.step m (.restore f)).history = m.history := by
      show (m.booted _).history = _
      cases restoreAll m.disk f VirtualFS.new with
      | ok r => rfl
      | error d' => rfl
    unfold Inv
    rw [hhistory]
    exact hbooted
  | file path data permissions f =>
    obtain ⟨hkept, hnone⟩ := h.1.persisted hok
    refine ⟨hkept, fun v hv => ?_⟩
    rw [show (Persist.step m (.file path data permissions f)).restored = none from hnone] at hv
    cases hv
  | directory path permissions f =>
    obtain ⟨hkept, hnone⟩ := h.1.persisted hok
    refine ⟨hkept, fun v hv => ?_⟩
    rw [show (Persist.step m (.directory path permissions f)).restored = none from hnone] at hv
    cases hv

/-- Whatever writes fail and wherever the machine stops, a restored file system is consistent with
what was persisted. -/
theorem restore_consistent (hfresh : Fresh d) (hrun : Reach step Ok ⟨d, [], none⟩ m)
    {v : VirtualFS} (hv : v ∈ m.restored) : Consistent m.history v := by
  refine (hrun.invariant Inv ?_ fun m op h hok => h.step hok).2 v hv
  exact ⟨⟨[], none, hfresh.sound⟩, nofun⟩

/-- A disk of 300 sectors. -/
def blankDisk : Disk := ⟨300, fun _ => 0, by decide⟩

theorem fresh_blankDisk : Fresh blankDisk := by
  constructor <;> decide +kernel

/-- The record of the first call stays; the machine stops before the second counts its entry. -/
def crashRun : List Op :=
  [.file "/a".toList [1] 0o644 { clear := .failed 0 },
    .file "/a".toList [2] 0o644 { header := .crashed 0 }, .restore {}]

theorem restore_consistent_crash : ∃ v ∈ (crashRun.foldl step ⟨blankDisk, [], none⟩).restored,
    Consistent (crashRun.foldl step ⟨blankDisk, [], none⟩).history v ∧
      v.readFile "/a".toList = some [2] := by
  have hadmitted : Admitted step Ok ⟨blankDisk, [], none⟩ crashRun := by decide +kernel
  have hread : (crashRun.foldl step ⟨blankDisk, [], none⟩).restored.bind
      (·.readFile "/a".toList) = some [2] := by decide +kernel
  obtain ⟨v, hv, hread⟩ := bind_eq_some_iff.mp hread
  exact ⟨v, hv, restore_consistent fresh_blankDisk (Reach.start.foldl hadmitted) hv, hread⟩

/-- The record of the first call stays, and the second call goes to the log directly. -/
def staleRun : List Op :=
  [.file "/a".toList [1] 0o644 { clear := .failed 0 },
    .file "/a".toList [2] 0o644 { journal := .failed 0 }, .restore {}]

/-- The record that was left is replayed over the newer contents, which were acknowledged. -/
theorem stale_record_wins : Fresh blankDisk ∧ ∃ m v,
    Reach step (fun _ _ => True) ⟨blankDisk, [], none⟩ m ∧ v ∈ m.restored ∧
      ¬ Consistent m.history v := by
  have hhistory : (staleRun.foldl step ⟨blankDisk, [], none⟩).history =
      [⟨fileEntry "/a".toList [1] 0o644, true⟩, ⟨fileEntry "/a".toList [2] 0o644, true⟩] := by
    decide +kernel
  have hread : (staleRun.foldl step ⟨blankDisk, [], none⟩).restored.bind
      (·.readFile "/a".toList) = some [1] := by decide +kernel
  obtain ⟨v, hv, hread⟩ := bind_eq_some_iff.mp hread
  refine ⟨fresh_blankDisk, _, v, Reach.free staleRun, hv, fun hconsistent => ?_⟩
  have hmem : ⟨fileEntry "/a".toList [2] 0o644, true⟩ ∈
      (staleRun.foldl step ⟨blankDisk, [], none⟩).history := by
    rw [hhistory]
    exact mem_cons_of_mem _ mem_cons_self
  obtain ⟨e, he, hshows⟩ := hconsistent.latest _ hmem rfl
  have hsince : since Entry.names (staleRun.foldl step ⟨blankDisk, [], none⟩).history
      (fileEntry "/a".toList [2] 0o644).names = [fileEntry "/a".toList [2] 0o644] := by
    decide +kernel
  rw [hsince] at he
  obtain rfl := mem_singleton.mp he
  have hshown : v.readFile "/a".toList = some [2] := hshows
  rw [hread] at hshown
  exact absurd hshown (by decide)

end KnoxOS.Fs.Persist
