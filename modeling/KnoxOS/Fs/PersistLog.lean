import KnoxOS.Fs.PersistFormat

/-!
# The log and the record on the disk

`Holds d log` says that the disk holds a log of entries. The theorems say how each call can end,
with every write done, failed or cut off: `Holds.applyEntry`, `Holds.journalWrite` and
`Holds.journalClear`, and from them `Holds.commitThroughJournal` and `Holds.replayJournal`. In
terms of the log and the record, no call does more than append the entry to the log and replace
the record by the entry or by nothing. `Holds.restoreLoop` is the meaning of a log.
-/

namespace KnoxOS.Fs.Persist

open Lib Vfs Disk List

variable {d d' : Disk} {e : Entry} {log : List Entry} {start : Nat} {left : Option Entry}

/-- The sectors of a log. -/
def logSectors (log : List Entry) : Nat := (log.map Entry.sectors).sum

theorem logSectors_cons (e : Entry) (log : List Entry) :
    logSectors (e :: log) = e.sectors + logSectors log := by
  simp [logSectors]

theorem logSectors_concat (log : List Entry) (e : Entry) :
    logSectors (log ++ [e]) = logSectors log + e.sectors := by
  simp [logSectors]

/-- The entries stand one after the other from a sector on. -/
def StoredFrom (d : Disk) : Nat → List Entry → Prop
  | _, [] => True
  | start, e :: log => StoredAt d start e ∧ StoredFrom d (start + e.sectors) log

/-- A log that is stored grows by an entry stored behind it. -/
theorem StoredFrom.concat (h : StoredFrom d start log)
    (he : StoredAt d (start + logSectors log) e) : StoredFrom d start (log ++ [e]) := by
  induction log generalizing start with
  | nil => exact ⟨he, trivial⟩
  | cons e' log ih =>
    rw [logSectors_cons, ← Nat.add_assoc] at he
    exact ⟨h.1, ih h.2 he⟩

/-- A log is stored wherever its sectors are the same. -/
theorem StoredFrom.agree (h : StoredFrom d start log) {hi : Nat} (hagree : d.AgreeOn start hi d')
    (hhi : start + logSectors log ≤ hi) : StoredFrom d' start log := by
  induction log generalizing start with
  | nil => trivial
  | cons e log ih =>
    rw [logSectors_cons] at hhi
    refine ⟨?_, ih h.2 (hagree.mono (Nat.le_add_right _ _) (Nat.le_refl _)) (by omega)⟩
    unfold StoredAt
    rw [bytesFrom_of_agreeOn hagree (Nat.le_refl _)]
    · exact h.1
    · rw [← Nat.mul_add]
      exact Nat.mul_le_mul_left _ (by omega)

/-- The disk holds this log. -/
structure Holds (d : Disk) (log : List Entry) : Prop where
  header : readStoreHeader d = some (log.length, 1 + logSectors log)
  room : 1 + logSectors log ≤ dataLimit d
  stored : StoredFrom d 1 log
  sized : ∀ e ∈ log, e.Sized
  count : log.length < 2 ^ 32

/-! ## Where things are -/

theorem dataLimit_le (d : Disk) : dataLimit d ≤ d.capacity := by
  unfold dataLimit journalBase
  split_ifs
  · exact Nat.le_refl _
  · exact Nat.sub_le _ _

theorem dataLimit_eq {base : Nat} (h : journalBase d = some base) : dataLimit d = base := by
  unfold dataLimit
  rw [h]
  rfl

/-- The sectors behind the log are the same. -/
def SlotSame (d d' : Disk) : Prop := d.AgreeOn (dataLimit d) d.capacity d'

theorem SlotSame.refl (d : Disk) : SlotSame d d := AgreeOn.refl _ _ d

theorem journalBase_agree {lo hi : Nat} (h : d.AgreeOn lo hi d') :
    journalBase d' = journalBase d := by
  unfold journalBase
  rw [h.capacity]

theorem dataLimit_agree {lo hi : Nat} (h : d.AgreeOn lo hi d') : dataLimit d' = dataLimit d := by
  unfold dataLimit
  rw [journalBase_agree h, h.capacity]

theorem SlotSame.trans {d'' : Disk} (h : SlotSame d d') (h' : SlotSame d' d'') :
    SlotSame d d'' := by
  unfold SlotSame at *
  rw [dataLimit_agree h, h.capacity] at h'
  exact AgreeOn.trans h h'

/-- The record is read from the sectors behind the log. -/
theorem SlotSame.journalRead (h : SlotSame d d') : journalRead d' = journalRead d := by
  have hbase : journalBase d' = journalBase d := journalBase_agree h
  unfold Persist.journalRead
  rw [hbase]
  cases hb : journalBase d with
  | none => rfl
  | some base =>
    have hadd := journalBase_add hb
    have hlimit := dataLimit_eq hb
    have hread : ∀ start n, base ≤ start → start + n ≤ d.capacity →
        d'.read start n = d.read start n := fun start n hlo hhi =>
      read_of_agreeOn h (by omega) hhi
    have hrecord : ∀ first, journalRecord d' base first = journalRecord d base first := by
      intro first
      unfold journalRecord
      dsimp only
      split_ifs with hbad hmore
      · rfl
      · rw [hread _ _ (by omega) (by omega)]
      · rfl
    simp only [hread base 1 (Nat.le_refl _) (by unfold journalSectors at hadd; omega), hrecord]

/-- The header is read back. -/
theorem readStoreHeader_put (hcap : 1 ≤ d.capacity) {entryCount nextSector : Nat}
    (hcount : entryCount < 2 ^ 32) (hnext : nextSector < 2 ^ 64) :
    readStoreHeader (d.put 0 1 (headerSector entryCount nextSector)) =
      some (entryCount, nextSector) := by
  have hm : magic.length = 12 := by decide
  have h4 : (leBytes 4 entryCount).length = 4 := length_leBytes _ _
  have h8 : (leBytes 8 nextSector).length = 8 := length_leBytes _ _
  have hlen : (headerSector entryCount nextSector).length = sectorSize * 1 := length_padTo _ _
  unfold readStoreHeader
  rw [read_eq (by exact hcap), bytesFrom_put_self d 0 hlen]
  dsimp only
  unfold headerSector
  rw [padTo_eq_append (by simp [hm, sectorSize]), append_assoc, append_assoc,
    slice_append_left hm, if_pos rfl, slice_skip hm, slice_append_left h4,
    leNat_leBytes_of_lt hcount, slice_skip hm, slice_skip h4, slice_append_left h8,
    leNat_leBytes_of_lt hnext]

/-- The loop reads the entries of the log in their order. -/
theorem restoreLoop_stored (h : StoredFrom d start log) (hsized : ∀ e ∈ log, e.Sized)
    (hcap : start + logSectors log ≤ d.capacity) (v : VirtualFS) :
    restoreLoop d log.length start v = log.foldl restoreEntry v := by
  induction log generalizing start v with
  | nil => rfl
  | cons e log ih =>
    rw [logSectors_cons] at hcap
    have hread := readEntry_of_stored h.1 (hsized e mem_cons_self) (by omega)
    rw [length_cons, restoreLoop, hread]
    exact ih h.2 (fun e he => hsized e (mem_cons_of_mem _ he)) (by omega) _

variable (h : Holds d log)
include h

/-- The log is read from the sectors that it takes. -/
theorem Holds.agree (hagree : d.AgreeOn 0 (1 + logSectors log) d') :
    Holds d' log where
  header := by
    unfold readStoreHeader
    rw [read_of_agreeOn hagree (Nat.zero_le _) (by omega)]
    exact h.header
  room := by
    rw [dataLimit_agree hagree]
    exact h.room
  stored := h.stored.agree (hagree.mono (Nat.zero_le _) (Nat.le_refl _)) (Nat.le_refl _)
  sized := h.sized
  count := h.count

theorem Holds.capacity_pos : 1 ≤ d.capacity :=
  Nat.le_trans (Nat.le_add_right _ _) (Nat.le_trans h.room (dataLimit_le d))

/-! ## The header -/

theorem Holds.written {k : Nat} (buf : List UInt8) : Holds (d.put (1 + logSectors log) k buf) log :=
  h.agree (agreeOn_put buf (.inl (Nat.le_refl _)))

/-- The header counts the entry behind the log. -/
theorem Holds.append (hsized : e.Sized) (hcount : log.length + 1 < 2 ^ 32)
    (hroom : 1 + logSectors log + e.sectors ≤ dataLimit d)
    (hstored : StoredAt d (1 + logSectors log) e) :
    Holds (d.put 0 1 (headerSector (log.length + 1) (1 + logSectors log + e.sectors)))
      (log ++ [e]) := by
  have hagree : d.AgreeOn 1 d.capacity
      (d.put 0 1 (headerSector (log.length + 1) (1 + logSectors log + e.sectors))) :=
    agreeOn_put _ (.inr (Nat.le_refl _))
  have hlimit := dataLimit_le d
  have hsum : 1 + logSectors (log ++ [e]) = 1 + logSectors log + e.sectors := by
    rw [logSectors_concat, Nat.add_assoc]
  have hnext : 1 + logSectors log + e.sectors < 2 ^ 64 := by
    have hsize := d.size_le
    unfold sectorSize at hsize
    omega
  refine ⟨?_, ?_, ?_, ?_, ?_⟩
  · rw [readStoreHeader_put h.capacity_pos hcount hnext, hsum, length_append]
    rfl
  · rw [hsum]
    exact hroom
  · exact (h.stored.concat hstored).agree hagree (by omega)
  · intro e' he'
    rcases mem_append.mp he' with he' | he'
    · exact h.sized e' he'
    · rw [mem_singleton.mp he']
      exact hsized
  · rw [length_append]
    exact hcount

/-! ## How the calls end -/

/-- What a call may have done to the log when it stops. -/
def Appended (d : Disk) (log : List Entry) (e : Entry) : Prop := Holds d log ∨ Holds d (log ++ [e])

/-- The header is written behind an entry. -/
theorem Holds.countEntry (outcome : Outcome) (hsized : e.Sized) (hcount : log.length + 1 < 2 ^ 32)
    (hroom : 1 + logSectors log + e.sectors ≤ dataLimit d)
    (hstored : StoredAt d (1 + logSectors log) e) :
    Ends (writeStoreHeader d outcome (log.length + 1) (1 + logSectors log + e.sectors))
      (fun r => SlotSame d r.2 ∧ Appended r.2 log e ∧ (r.1 = true → Holds r.2 (log ++ [e])))
      (fun d' => SlotSame d d' ∧ Appended d' log e) := by
  have happend := h.append hsized hcount hroom hstored
  refine (write_one_ends (P := fun d' => SlotSame d d' ∧ Appended d' log e)
    ⟨SlotSame.refl d, .inl h⟩ ⟨agreeOn_put _ (.inr (by omega)), .inr happend⟩ outcome).mono ?_
    fun _ hr => hr
  rintro r ⟨⟨hslot, happended⟩, hdone⟩
  exact ⟨hslot, happended, fun htrue => hdone htrue ▸ happend⟩

/-- `apply_entry` appends the entry where it says so; otherwise it may or may not. -/
theorem Holds.applyEntry (f : Faults) (hsized : e.Sized) (hcount : log.length + 1 < 2 ^ 32) :
    Ends (applyEntry d f e)
      (fun r => SlotSame d r.2 ∧ Appended r.2 log e ∧ (r.1 = true → Holds r.2 (log ++ [e])))
      (fun d' => SlotSame d d' ∧ Appended d' log e) := by
  unfold Persist.applyEntry
  rw [h.header]
  dsimp only
  split_ifs with hfull
  · exact ⟨SlotSame.refl d, .inl h, nofun⟩
  · have hroom : 1 + logSectors log + e.sectors ≤ dataLimit d :=
      Nat.le_of_not_lt fun hlt => hfull (.inr hlt)
    have hslot : ∀ k ≤ e.sectors, ∀ buf, SlotSame d (d.put (1 + logSectors log) k buf) :=
      fun k hk buf => agreeOn_put buf (.inr (by omega))
    refine ((d.write_ends _ _ _ _).mono ?_ ?_).bind (fun r hr => hr)
    · rintro ⟨written, d₁⟩ ⟨k, hk, rfl, hdone⟩
      cases written with
      | false => exact ⟨hslot k hk _, .inl (h.written _), nofun⟩
      | true =>
        -- the entry is there; what is left is the header
        obtain ⟨rfl, -⟩ := hdone rfl
        have hstored : StoredAt (d.put (1 + logSectors log) e.sectors
            (padTo (e.sectors * sectorSize) e.bytes)) (1 + logSectors log) e :=
          d.bytesFrom_put_self _ (by rw [length_padTo, Nat.mul_comm])
        have hslot₁ := hslot e.sectors (Nat.le_refl _) (padTo (e.sectors * sectorSize) e.bytes)
        refine ((h.written _).countEntry f.header hsized hcount hroom hstored).mono ?_ ?_
        · rintro r ⟨hsame, hrest⟩
          exact ⟨hslot₁.trans hsame, hrest⟩
        · rintro d₂ ⟨hsame, hrest⟩
          exact ⟨hslot₁.trans hsame, hrest⟩
    · rintro d₁ ⟨k, hk, rfl⟩
      exact ⟨hslot k hk _, .inl (h.written _)⟩

/-- The slot holds the record of this entry, or none. -/
def NewSlot (d : Disk) (e : Entry) : Prop :=
  journalRead d = none ∨ journalRead d = some (jrnlCommitted, e)

/-- The record of the entry does not come to the slot: there is none, the record is too long for it,
or its first sector fails. -/
def Unjournaled (d : Disk) (outcome : Outcome) (e : Entry) : Prop :=
  journalBase d = none ∨ journalSectors < e.recordSectors ∨ outcome = .failed 0

theorem Holds.slot_put {base : Nat} (hbase : journalBase d = some base) (k : Nat)
    (buf : List UInt8) : Holds (d.put base k buf) log := by
  refine h.agree (agreeOn_put buf (.inl ?_))
  rw [← dataLimit_eq hbase]
  exact h.room

/-- Writing the slot keeps the log, also where it is torn. -/
theorem Holds.journalWrite (outcome : Outcome) (hsized : e.Sized)
    (htorn : TornDetected d outcome e) : Ends (journalWrite d outcome e jrnlCommitted)
      (fun r => Holds r.2 log ∧ (NewSlot r.2 e ∨ r = (false, d) ∧ Unjournaled d outcome e))
      (fun d' => Holds d' log ∧ (NewSlot d' e ∨ journalRead d' = journalRead d)) := by
  unfold Persist.journalWrite
  cases hbase : journalBase d with
  | none => exact ⟨h, .inr ⟨rfl, .inl hbase⟩⟩
  | some base =>
    dsimp only
    split_ifs with hlong
    · have hlong := hlong.resolve_left (Nat.ne_of_gt e.recordSectors_pos)
      exact ⟨h, .inr ⟨rfl, .inr (.inl hlong)⟩⟩
    · have hfits : e.recordSectors ≤ journalSectors :=
        Nat.le_of_not_lt fun hlt => hlong (.inr hlt)
      have hadd := journalBase_add hbase
      have hnew : 0 < outcome.reached e.recordSectors →
          NewSlot (d.put base (outcome.reached e.recordSectors) e.recordBuf) e := fun hk =>
        journalRead_put hbase hsized hfits hk (htorn base hbase hk)
      unfold write
      rw [if_neg (by omega), if_neg (by rw [length_padTo]; omega)]
      cases outcome with
      | done => exact ⟨h.slot_put hbase _ _, .inl (hnew e.recordSectors_pos)⟩
      | failed k =>
        refine ⟨h.slot_put hbase _ _, ?_⟩
        by_cases hk : k = 0
        · subst hk
          rw [Nat.zero_min, put_zero]
          exact .inr ⟨rfl, .inr (.inr rfl)⟩
        · exact .inl (hnew (Nat.lt_min.mpr ⟨Nat.pos_of_ne_zero hk, e.recordSectors_pos⟩))
      | crashed k =>
        refine ⟨h.slot_put hbase _ _, ?_⟩
        by_cases hk : k = 0
        · subst hk
          rw [Nat.zero_min, put_zero]
          exact .inr rfl
        · exact .inl (hnew (Nat.lt_min.mpr ⟨Nat.pos_of_ne_zero hk, e.recordSectors_pos⟩))

/-- Clearing the slot keeps the log and brings up no other record. -/
theorem Holds.journalClear (outcome : Outcome) : Ends (journalClear d outcome)
      (fun r => Holds r.2 log ∧ (journalRead r.2 = none ∨ journalRead r.2 = journalRead d))
      (fun d' => Holds d' log ∧ (journalRead d' = none ∨ journalRead d' = journalRead d)) := by
  unfold Persist.journalClear
  cases hbase : journalBase d with
  | none => exact ⟨h, .inr rfl⟩
  | some base =>
    refine (write_one_ends (P := fun d' => Holds d' log ∧
      (journalRead d' = none ∨ journalRead d' = journalRead d)) ⟨h, .inr rfl⟩
      ⟨h.slot_put hbase _ _, .inl (journalRead_cleared hbase)⟩ outcome).mono ?_ fun _ hr => hr
    exact fun _ hr => hr.1

omit h in
theorem NewSlot.of_eq (h : NewSlot d e) (hread : journalRead d' = none ∨
    journalRead d' = journalRead d) : NewSlot d' e := by
  rcases hread with hnone | hsame
  · exact .inl hnone
  · unfold NewSlot
    rw [hsame]
    exact h

/-- `commit_through_journal` acknowledges an entry only with the log grown by it, and leaves the old
record in the slot only where the new one did not come to it. -/
theorem Holds.commitThroughJournal (f : Faults) (hsized : e.Sized)
    (hcount : log.length + 1 < 2 ^ 32) (htorn : TornDetected d f.journal e) :
    Ends (commitThroughJournal d f e)
      (fun r => Appended r.2 log e ∧ (r.1 = true → Holds r.2 (log ++ [e])) ∧
        (NewSlot r.2 e ∨ journalRead r.2 = journalRead d ∧ Unjournaled d f.journal e))
      (fun d' => Appended d' log e ∧ (NewSlot d' e ∨ journalRead d' = journalRead d)) := by
  refine ((h.journalWrite f.journal hsized htorn).mono (fun _ hr => hr)
    (fun _ hr => ⟨.inl hr.1, hr.2⟩)).bind ?_
  rintro ⟨written, d₁⟩ ⟨h₁, hslot⟩
  dsimp only at h₁ hslot ⊢
  have happly := h₁.applyEntry f hsized hcount
  cases written with
  | false =>
    -- the direct write
    refine happly.mono ?_ ?_
    · rintro r ⟨hsame, happended, hdone⟩
      refine ⟨happended, hdone, ?_⟩
      rw [NewSlot, hsame.journalRead]
      rcases hslot with hnew | ⟨heq, hun⟩
      · exact .inl hnew
      · obtain ⟨-, rfl⟩ := Prod.mk.inj heq
        exact .inr ⟨rfl, hun⟩
    · rintro d' ⟨hsame, happended⟩
      refine ⟨happended, ?_⟩
      rw [NewSlot, hsame.journalRead]
      rcases hslot with hnew | ⟨heq, -⟩
      · exact .inl hnew
      · obtain ⟨-, rfl⟩ := Prod.mk.inj heq
        exact .inr rfl
  | true =>
    have hnew : NewSlot d₁ e := by
      rcases hslot with hnew | ⟨heq, -⟩
      · exact hnew
      · cases heq
    have hnew' : ∀ {d'}, SlotSame d₁ d' → NewSlot d' e := fun hsame =>
      hnew.of_eq (.inr hsame.journalRead)
    refine (happly.mono (fun _ hr => hr) (fun d' hr => ⟨hr.2, .inl (hnew' hr.1)⟩)).bind ?_
    rintro ⟨applied, d₂⟩ ⟨hsame, happended, hdone⟩
    cases applied with
    | false => exact ⟨happended, nofun, .inl (hnew' hsame)⟩
    | true =>
      have h₂ := hdone rfl
      refine ((h₂.journalClear f.clear).mono (fun _ hr => hr) ?_).bind ?_
      · exact fun d' hr => ⟨.inr hr.1, .inl ((hnew' hsame).of_eq hr.2)⟩
      · exact fun r hr => ⟨.inr hr.1, fun _ => hr.1, .inl ((hnew' hsame).of_eq hr.2)⟩

/-! ## Restoring -/

/-- The log after a restore: a record that was left may have been applied. -/
def Replayed (log : List Entry) (left : Option Entry) (log' : List Entry) : Prop :=
  log' = log ∨ ∃ x ∈ left, log' = log ++ [x]

/-- The slot holds this committed record, or none. -/
def Slot (d : Disk) (left : Option Entry) : Prop :=
  journalRead d = left.map fun x => (jrnlCommitted, x)

/-- How `replay_journal` can end. -/
theorem Holds.replayJournal (f : Faults) (hslot : Slot d left) (hsized : ∀ x ∈ left, x.Sized)
    (hcount : left ≠ none → log.length + 1 < 2 ^ 32) : Ends (replayJournal d f)
      (fun r => (∃ log', Replayed log left log' ∧ Holds r.2 log') ∧ (Slot r.2 none ∨ Slot r.2 left))
      (fun d' => (∃ log', Replayed log left log' ∧ Holds d' log') ∧
        (Slot d' none ∨ Slot d' left)) := by
  unfold Persist.replayJournal
  rw [hslot]
  cases left with
  | none => exact ⟨⟨log, .inl rfl, h⟩, .inl hslot⟩
  | some x =>
    have hgrown : ∀ {d'}, Appended d' log x →
        ∃ log', Replayed log (some x) log' ∧ Holds d' log' := by
      rintro d' (hd' | hd')
      · exact ⟨log, .inl rfl, hd'⟩
      · exact ⟨log ++ [x], .inr ⟨x, rfl, rfl⟩, hd'⟩
    have hkept : ∀ {d'}, SlotSame d d' → Slot d' (some x) := fun hsame =>
      hsame.journalRead.trans hslot
    have hclear : ∀ {d₁ d'}, SlotSame d d₁ →
        (journalRead d' = none ∨ journalRead d' = journalRead d₁) →
        Slot d' none ∨ Slot d' (some x) := fun hsame hread =>
      hread.imp id fun heq => heq.trans (hkept hsame)
    refine ((h.applyEntry f (hsized x rfl) (hcount nofun)).mono (fun _ hr => hr) ?_).bind ?_
    · exact fun d' hr => ⟨hgrown hr.2, .inr (hkept hr.1)⟩
    · rintro ⟨applied, d₁⟩ ⟨hsame, happended, hdone⟩
      cases applied with
      | false => exact ⟨hgrown happended, .inr (hkept hsame)⟩
      | true =>
        refine (((hdone rfl).journalClear f.clear).mono (fun _ hr => hr) ?_).bind ?_
        · exact fun d' hr => ⟨hgrown (.inr hr.1), hclear hsame hr.2⟩
        · exact fun r hr => ⟨hgrown (.inr hr.1), hclear hsame hr.2⟩

/-- A disk without the magic number holds no entries. -/
theorem Holds.nil_of_no_magic (hmagic : slice (bytesFrom d.bytes 0 sectorSize) 0 12 ≠ magic) :
    log = [] := by
  have hheader := h.header
  unfold readStoreHeader at hheader
  rw [read_eq (by exact h.capacity_pos), Nat.mul_zero, Nat.mul_one] at hheader
  dsimp only at hheader
  rw [if_neg hmagic] at hheader
  have hlen := congrArg Prod.fst (Option.some.inj hheader)
  exact eq_nil_of_length_eq_zero hlen.symm

/-- An empty header makes an empty log of whatever was there. -/
theorem Holds.cleared :
    Holds (d.put 0 1 (headerSector 0 1)) [] ∧ SlotSame d (d.put 0 1 (headerSector 0 1)) := by
  have hlimit : 1 ≤ dataLimit d := Nat.le_trans (Nat.le_add_right _ _) h.room
  have hsame : SlotSame d (d.put 0 1 (headerSector 0 1)) := agreeOn_put _ (.inr hlimit)
  refine ⟨⟨readStoreHeader_put h.capacity_pos (by decide) (by decide), ?_, trivial,
    fun _ he => absurd he not_mem_nil, by decide⟩, hsame⟩
  exact hlimit

omit h in
/-- Formatting an empty store keeps it empty. -/
theorem Holds.format (h : Holds d []) (outcome : Outcome) : Ends (writeStoreHeader d outcome 0 1)
      (fun r => Holds r.2 [] ∧ SlotSame d r.2) (fun d' => Holds d' [] ∧ SlotSame d d') := by
  refine (write_one_ends (P := fun d' => Holds d' [] ∧ SlotSame d d') ⟨h, SlotSame.refl d⟩
    h.cleared outcome).mono ?_ fun _ hr => hr
  exact fun _ hr => hr.1

/-- `restore_all` puts the log into the file system, with a record that was left behind it if this
could be applied. -/
theorem Holds.restoreAll (f : Faults) (hslot : Slot d left) (hsized : ∀ x ∈ left, x.Sized)
    (hcount : left ≠ none → log.length + 1 < 2 ^ 32) (v : VirtualFS) : Ends (restoreAll d f v)
      (fun r => (∃ log', Replayed log left log' ∧ Holds r.1 log' ∧
        r.2 = log'.foldl restoreEntry v) ∧ (Slot r.1 none ∨ Slot r.1 left))
      (fun d' => (∃ log', Replayed log left log' ∧ Holds d' log') ∧
        (Slot d' none ∨ Slot d' left)) := by
  refine (h.replayJournal f hslot hsized hcount).bind ?_
  rintro ⟨replayed, d₁⟩ ⟨⟨log', hreplayed, h₁⟩, hslot₁⟩
  dsimp only at h₁ hslot₁ ⊢
  rw [read_eq (by exact h₁.capacity_pos), Nat.mul_zero, Nat.mul_one]
  dsimp only
  generalize hstart : slice (bytesFrom d₁.bytes 0 sectorSize) 0 12 = found
  by_cases hmagic : found = magic
  · rw [if_neg (not_not.mpr hmagic)]
    refine ⟨⟨log', hreplayed, h₁, ?_⟩, hslot₁⟩
    have hheader := h₁.header
    unfold readStoreHeader at hheader
    rw [read_eq (by exact h₁.capacity_pos), Nat.mul_zero, Nat.mul_one] at hheader
    dsimp only at hheader
    rw [if_pos (hstart.trans hmagic)] at hheader
    have hlen := congrArg Prod.fst (Option.some.inj hheader)
    dsimp only at hlen ⊢
    rw [hlen]
    exact restoreLoop_stored h₁.stored h₁.sized (Nat.le_trans h₁.room (dataLimit_le d₁)) v
  · rw [if_pos hmagic]
    obtain rfl := h₁.nil_of_no_magic (hstart ▸ hmagic)
    by_cases hext4 : virtio0IsExt4 d₁ = true
    · rw [if_pos hext4]
      exact ⟨⟨[], hreplayed, h₁, rfl⟩, hslot₁⟩
    · -- a fresh disk gets an empty header
      rw [if_neg hext4]
      have hkept : ∀ {d'}, SlotSame d₁ d' → Slot d' none ∨ Slot d' left := fun hsame =>
        hslot₁.imp hsame.journalRead.trans hsame.journalRead.trans
      refine ((h₁.format f.format).mono (fun _ hr => hr) ?_).bind ?_
      · exact fun d' hr => ⟨⟨[], hreplayed, hr.1⟩, hkept hr.2⟩
      · exact fun r hr => ⟨⟨[], hreplayed, hr.1, rfl⟩, hkept hr.2⟩

end KnoxOS.Fs.Persist
