import KnoxOS.Fs.PersistCrash
import KnoxOS.Fs.PersistDone

/-!
# Compaction of the persistent store

`compact` clears the log and writes it again from the file system. `compact_safe_iff` says when this
loses nothing: exactly when the file system shows no more than a fresh one does. Anything else is
lost if the machine stops after the log is cleared, and directories and empty files are lost even if
it does not, as they are not collected.
-/

namespace KnoxOS.Fs.Persist

open Lib Vfs List VirtualFS Option

/-! ## The states -/

/-- `write_file_dispatch`, without access checks, mounts and events: the file is written and
persisted with its permissions. -/
def writeFileDispatch (d : Disk) (v : VirtualFS) (path : Str) (data : List UInt8) :
    Except Disk (Bool × Disk) × VirtualFS :=
  let (ok, v) := v.writeFile path data
  let perms := ((v.resolvePath path).bind v.getInode).elim 0o644 fun inode =>
    UInt16.ofNat inode.permissions
  (if ok then persistFile d {} path data perms else .ok (false, d), v)

/-- The states that `restore_all` and persisted operations produce, from a store in `start` and with
entries in `ok`. -/
inductive Produced (start : Disk → Prop) (ok : Disk → VirtualFS → Entry → Prop) :
    Disk → VirtualFS → Prop where
  | restored {d₀ d : Disk} {v : VirtualFS} : start d₀ →
      restoreAll d₀ {} VirtualFS.new = .ok (d, v) → Produced start ok d v
  | file {d d' : Disk} {v v' : VirtualFS} {path : Str} {data : List UInt8} :
      Produced start ok d v → ok d v (fileEntry path data 0o644) →
      writeFileDispatch d v path data = (.ok (true, d'), v') → Produced start ok d' v'
  | directory {d d' : Disk} {v : VirtualFS} {path : Str} {permissions : UInt16} :
      Produced start ok d v → ok d v (directoryEntry path permissions) →
      persistDirectory d {} path permissions = .ok (true, d') →
      Produced start ok d' (v.ensureDirectory path)

/-- When an entry may be persisted. -/
structure EntryOk (d : Disk) (v : VirtualFS) (e : Entry) : Prop where
  count : CountFits d
  length : (asBytes e.path).length < 2 ^ 30
  fits : Fits v.tree e

/-! ## The property -/

/-- A boot on this disk ends with this file system. -/
def Restores (d : Disk) (v : VirtualFS) : Prop :=
  ∃ d', restoreAll d {} VirtualFS.new = .ok (d', v)

def HasDir (v : VirtualFS) (path : Str) : Prop := ∃ ino ∈ v.resolvePath path, v.isDirectory ino

/-- The same files with the same contents, and the same directories. -/
def SameTree (v v' : VirtualFS) : Prop :=
  ∀ path, v.readFile path = v'.readFile path ∧ (HasDir v path ↔ HasDir v' path)

/-- The write does not fail; the machine may stop. -/
def Honest : Outcome → Prop
  | .failed _ => False
  | _ => True

def Faults.Honest (f : Faults) : Prop :=
  Persist.Honest f.journal ∧ Persist.Honest f.entry ∧ Persist.Honest f.header ∧
    Persist.Honest f.clear

/-- Compaction keeps the store, and a crash during it loses no file. -/
structure CompactionSafe (d : Disk) (v : VirtualFS) : Prop where
  same : ∃ d' v₁ v₂, compact d v .done [] = .ok d' ∧ Restores d v₁ ∧ Restores d' v₂ ∧
    SameTree v₁ v₂
  crash : ∀ cleared faults d', Honest cleared → (∀ f ∈ faults, f.Honest) →
    compact d v cleared faults = .error d' → ∃ v₁ v₂, Restores d v₁ ∧ Restores d' v₂ ∧
      ∀ path c, v₁.readFile path = some c → v₂.readFile path = some c

variable {d d' : Disk} {v v' : VirtualFS} {log log' : List Entry} {left : Option Entry} {e : Entry}
  {path : Str} {data : List UInt8} {permissions : UInt16} {t : Tree} {s : Disk × VirtualFS}

/-! ## The log of a produced state -/

/-- The file system and the log show the same tree. -/
structure Synced (d : Disk) (v : VirtualFS) (log : List Entry) : Prop where
  holds : Holds d log
  slot : journalRead d = none
  fits : FitsAll VirtualFS.new.tree log
  plain : v.Plain
  next : v.nextIno ≤ VirtualFS.new.nextIno + 2 ^ 31 * log.length
  tree : v.tree = log.foldl place VirtualFS.new.tree

/-- After a boot the store and the file system agree. -/
theorem StoreOk.synced (h : StoreOk d log left)
    (hrestore : restoreAll d {} VirtualFS.new = .ok (d', v)) : ∃ log', Synced d' v log' := by
  obtain ⟨log', hlog', hholds, hslot, rfl⟩ := h.restore hrestore
  have hfits : FitsAll VirtualFS.new.tree log' := by
    have hall := h.fits
    rcases hlog' with rfl | ⟨x, hx, rfl⟩
    · cases left with
      | none => rwa [toList_none, append_nil] at hall
      | some x => exact (fitsAll_concat.mp hall).1
    · rwa [hx] at hall
  obtain ⟨hplain, hnext, htree⟩ := hfits.restore plain_new hholds.sized (room_new hholds.count)
  exact ⟨log', hholds, hslot, hfits, hplain, hnext, htree⟩

/-- A file that is acknowledged fits and is committed through the journal. -/
theorem commit_of_persistFile (h : persistFile d {} path data permissions = .ok (true, d')) :
    data.length < 2 ^ 32 ∧
      commitThroughJournal d {} (fileEntry path data permissions) = .ok (true, d') := by
  unfold persistFile at h
  split_ifs at h with hskip hlong
  · cases h
  · exact ⟨Nat.lt_of_le_of_lt (Nat.le_of_not_lt hlong) (by decide), h⟩
  · cases h

theorem Fits.withPermissions {p : UInt16} (h : Fits t (fileEntry path data p)) (q : UInt16) :
    Fits t (fileEntry path data q) :=
  ⟨h.dirs, h.file, h.ending⟩

section

variable (h : Synced d v log)
include h

/-- The entry is appended and placed. -/
theorem Synced.append (hcount : CountFits d) (hsized : e.Sized) (hfits : Fits v.tree e)
    (hcommit : commitThroughJournal d {} e = .ok (true, d')) (hplain : v'.Plain)
    (hnext : v'.nextIno ≤ v.nextIno + 2 ^ 31) (htree : v'.tree = place v.tree e) :
    Synced d' v' (log ++ [e]) := by
  obtain ⟨hholds, hslot⟩ := h.holds.commit_done h.slot hsized (hcount _ h.holds.header) hcommit
  rw [h.tree] at hfits htree
  refine ⟨hholds, hslot, fitsAll_concat.mpr ⟨h.fits, hfits⟩, hplain, ?_, ?_⟩
  · have hlen : 2 ^ 31 * (log ++ [e]).length = 2 ^ 31 * log.length + 2 ^ 31 := by
      rw [length_append]
      exact Nat.mul_succ _ _
    rw [hlen, ← Nat.add_assoc]
    exact Nat.le_trans hnext (Nat.add_le_add_right h.next _)
  · rw [foldl_append]
    exact htree

theorem Synced.room (hcount : CountFits d) : v.nextIno + 2 ^ 31 < 2 ^ 64 := by
  have hlen : (log ++ [directoryEntry [] 0]).length < 2 ^ 32 := by
    rw [length_append]
    exact hcount _ h.holds.header
  have hroom := room_new hlen
  rw [length_append, Nat.mul_add, ← Nat.add_assoc] at hroom
  exact Nat.lt_of_le_of_lt (Nat.add_le_add_right h.next _) hroom

/-- The write succeeds, and with the file persisted the store is in step again. -/
theorem Synced.write (hok : EntryOk d v (fileEntry path data 0o644)) :
    ∃ v', v.writeFile path data = (true, v') ∧
      ∀ permissions d', persistFile d {} path data permissions = .ok (true, d') →
        Synced d' v' (log ++ [fileEntry path data permissions]) := by
  have hfile : ∀ permissions, ¬ (fileEntry path data permissions).IsDir := fun _ =>
    show ¬ (0 : UInt16) = 1 by decide
  have hlast : lastPart (splitPath path) ≠ [] := hok.fits.ending (hfile _)
  have hroom := h.room hok.count
  have hsplit : (splitPath path).length ≤ 2 ^ 30 := by
    have hsized : (fileEntry path [] 0o644).Sized := ⟨hok.length, show 0 < 2 ^ 32 by decide⟩
    exact hsized.length_splitPath
  obtain ⟨v', hv', hplain, hnext, htree⟩ := h.plain.writeFile hlast
    (hok.fits.dirsTo_file (hfile _)) data (by omega)
  refine ⟨v', hv', fun permissions d' hpersist => ?_⟩
  obtain ⟨hdata, hcommit⟩ := commit_of_persistFile hpersist
  refine h.append hok.count ⟨hok.length, hdata⟩ (hok.fits.withPermissions permissions) hcommit
    hplain (by omega) ?_
  rw [htree, place_file (hfile _) hlast]
  rfl

/-- An acknowledged write of a file keeps store and file system in step. -/
theorem Synced.file (hok : EntryOk d v (fileEntry path data 0o644))
    (hwrite : writeFileDispatch d v path data = (.ok (true, d'), v')) :
    ∃ log', Synced d' v' log' := by
  unfold writeFileDispatch at hwrite
  obtain ⟨v₁, hv₁, hsynced⟩ := h.write hok
  rw [hv₁] at hwrite
  obtain ⟨hpersist, rfl⟩ := Prod.mk.inj hwrite
  exact ⟨_, hsynced _ _ hpersist⟩

/-- An acknowledged directory keeps store and file system in step. -/
theorem Synced.directory (hok : EntryOk d v (directoryEntry path permissions))
    (hpersist : persistDirectory d {} path permissions = .ok (true, d')) :
    ∃ log', Synced d' (v.ensureDirectory path) log' := by
  have hdir : (directoryEntry path permissions).IsDir := rfl
  have hsized : (directoryEntry path permissions).Sized := ⟨hok.length, show 0 < 2 ^ 32 by decide⟩
  have hroom := h.room hok.count
  have hlen : (components path).length ≤ 2 ^ 30 :=
    Nat.le_trans (length_components_le path) hsized.length_splitPath
  obtain ⟨hplain, hnext, htree⟩ := h.plain.ensureDirectory (hok.fits.dirsTo_dir hdir) (by
    show v.nextIno + (components path).length < 2 ^ 64
    omega)
  have hcommit : commitThroughJournal d {} (directoryEntry path permissions) = .ok (true, d') := by
    unfold persistDirectory at hpersist
    split_ifs at hpersist
    · exact hpersist
    · cases hpersist
  refine ⟨_, h.append hok.count hsized hok.fits hcommit hplain ?_ ?_⟩
  · have hle : (components path).length ≤ 2 ^ 31 := Nat.le_trans hlen (by decide)
    exact Nat.le_trans hnext (Nat.add_le_add_left hle _)
  · rw [place_dir hdir]
    exact htree

end

/-- Along every run store and file system agree. -/
theorem Produced.synced (h : Produced (fun d => ∃ log left, StoreOk d log left) EntryOk d v) :
    ∃ log, Synced d v log := by
  induction h with
  | restored hstore hrestore =>
    obtain ⟨log, left, hstore⟩ := hstore
    exact hstore.synced hrestore
  | file _ hok hwrite ih =>
    obtain ⟨log, h⟩ := ih
    exact h.file hok hwrite
  | directory _ hok hpersist ih =>
    obtain ⟨log, h⟩ := ih
    exact h.directory hok hpersist

/-! ## Files that a fresh file system has -/

/-- The regular files of a fresh file system. -/
def bootFiles : List (List Str) :=
  [["home".toList, "user".toList, "Documents".toList, "Welcome.txt".toList],
    ["etc".toList, "hostname".toList], ["etc".toList, "os-release".toList],
    ["etc".toList, "passwd".toList], ["etc".toList, "nsswitch.conf".toList],
    ["etc".toList, "hosts".toList], ["etc".toList, "resolv.conf".toList]]

/-- The entry is that of a file that is there anyway, and its record is short. -/
structure InBoot (e : Entry) : Prop where
  file : ¬ e.IsDir
  tree : VirtualFS.new.tree e.names = some (.regular, e.data)
  ending : lastPart (splitPath e.path) ≠ []
  sized : e.Sized
  short : e.recordSectors = 1

theorem map_find_bootFiles : bootFiles.map VirtualFS.new.shape.find =
    (VirtualFS.new.inodes.filter fun i => i.fileType = .regular).map fun i => some i.ino := by
  decide +kernel

variable {ms : List Str} {n : Nat}

/-- The regular files at boot are those of the list, and short. -/
theorem mem_bootFiles (h : VirtualFS.new.tree ms = some (.regular, data)) :
    ms ∈ bootFiles ∧ (asBytes (absolute ms)).length + data.length ≤ 400 := by
  have hpaths : ∀ ms ∈ bootFiles, (asBytes (absolute ms)).length ≤ 200 := by decide +kernel
  have hsizes : ∀ i ∈ VirtualFS.new.inodes, i.data.length ≤ 200 := by decide +kernel
  obtain ⟨a, i, hfind, hget, hnode⟩ := wf_new.exists_of_tree h
  obtain ⟨hkind, rfl⟩ := Prod.mk.inj hnode
  have hi := mem_of_getInode hget
  have hino : some i.ino ∈ bootFiles.map VirtualFS.new.shape.find := by
    rw [map_find_bootFiles]
    exact mem_map.mpr ⟨i, mem_filter.mpr ⟨hi, decide_eq_true hkind.symm⟩, rfl⟩
  obtain ⟨ms', hms', hfind'⟩ := mem_map.mp hino
  rw [ino_of_getInode hget] at hfind'
  obtain rfl := plain_new.path_unique hfind hfind'
  exact ⟨hms', Nat.add_le_add (hpaths ms hms') (hsizes i hi)⟩

/-- The devices of a fresh file system have no contents. -/
theorem regular_of_readAt (h : VirtualFS.new.tree.readAt ms = some data) (hdata : data ≠ []) :
    VirtualFS.new.tree ms = some (.regular, data) := by
  have hdevices : ∀ i ∈ VirtualFS.new.inodes, i.fileType = .charDevice → i.data = [] := by
    decide +kernel
  unfold Tree.readAt at h
  cases hnode : VirtualFS.new.tree ms with
  | none =>
    rw [hnode] at h
    cases h
  | some node =>
    rw [hnode] at h
    dsimp only at h
    split_ifs at h with hkind
    obtain rfl := some.inj h
    obtain ⟨a, i, -, hget, rfl⟩ := wf_new.exists_of_tree hnode
    rcases hkind with hkind | hkind
    · rw [← hkind]
    · exact absurd (hdevices i (mem_of_getInode hget) hkind) hdata

/-- An absolute path ends in a name. -/
theorem lastPart_absolute (hparts : ∀ part ∈ ms, IsPart part) (hms : ms ≠ []) :
    lastPart (splitPath (absolute ms)) ≠ [] := by
  cases ms using reverseRecOn with
  | nil => exact absurd rfl hms
  | append_singleton ms n =>
    have hn : IsPart n := hparts n (mem_append_right _ mem_cons_self)
    rw [← absolute_child (fun part hpart => hparts part (mem_append_left _ hpart)) n]
    split_ifs
    · rw [← nil_append ('/' :: n), lastPart_slash hn.2]
      exact hn.1
    · rw [lastPart_slash hn.2]
      exact hn.1

/-- If the files are those of a fresh file system, so is all that is collected. -/
theorem inBoot_of_collect (h : v.Plain)
    (hfiles : ∀ path, v.readFile path = VirtualFS.new.readFile path)
    (hmem : (path, data, permissions) ∈ collectPersistablePaths v) :
    InBoot (fileEntry path data permissions) ∧ path ∈ bootFiles.map absolute := by
  obtain ⟨ms, hparts, rfl, htree, hdata⟩ := collect_sound h hmem
  have hnames : components (absolute ms) = ms := components_absolute hparts
  have hread : VirtualFS.new.tree.readAt ms = some data := by
    have hsame := hfiles (absolute ms)
    rw [h.wf.readFile_eq, wf_new.readFile_eq, hnames] at hsame
    rw [← hsame]
    unfold Tree.readAt
    rw [htree]
    exact if_pos (.inl rfl)
  have hboot := regular_of_readAt hread hdata
  obtain ⟨hms, hlen⟩ := mem_bootFiles hboot
  have hne : ms ≠ [] := by
    rintro rfl
    obtain ⟨data', hroot⟩ := h.wf.tree_root
    rw [hroot] at htree
    cases htree
  refine ⟨⟨show ¬ (0 : UInt16) = 1 by decide, ?_, lastPart_absolute hparts hne, ?_, ?_⟩,
    mem_map.mpr ⟨ms, hms, rfl⟩⟩
  · rw [show (fileEntry (absolute ms) data permissions).names = ms from hnames]
    exact hboot
  · constructor
    · show (asBytes (absolute ms)).length < 2 ^ 30
      omega
    · show data.length < 2 ^ 32
      omega
  · show divCeil (jrnlHeaderSize + (asBytes (absolute ms) ++ data).length) = 1
    rw [length_append]
    unfold divCeil jrnlHeaderSize sectorSize
    omega

/-- No more files are collected than a fresh file system has. -/
theorem length_collect_le (h : v.Plain)
    (hfiles : ∀ path, v.readFile path = VirtualFS.new.readFile path) :
    (collectPersistablePaths v).length ≤ 7 := by
  have hsub : (collectPersistablePaths v).map Prod.fst ⊆ bootFiles.map absolute := by
    intro path hpath
    obtain ⟨⟨path, data, permissions⟩, hmem, rfl⟩ := mem_map.mp hpath
    exact (inBoot_of_collect h hfiles hmem).2
  have hle := (nodup_collect h).length_le_of_subset hsub
  rwa [length_map, length_map] at hle

/-- Such an entry changes nothing. -/
theorem InBoot.fits (h : InBoot e) : Fits VirtualFS.new.tree e where
  dirs := by
    intro ms _ node hnode hdir
    have hne : VirtualFS.new.tree e.names ≠ none := by
      rw [h.tree]
      exact some_ne_none _
    obtain ⟨data, hdata⟩ := wf_new.closed_tree.dirAt_before hdir.1
      (hdir.2.resolve_left h.file) hne
    rw [hdata] at hnode
    exact some.inj hnode ▸ rfl
  file := by
    intro node hnode _
    rw [h.tree] at hnode
    exact .inl (some.inj hnode ▸ rfl)
  ending := fun _ => h.ending

theorem InBoot.place_eq (h : InBoot e) : place VirtualFS.new.tree e = VirtualFS.new.tree := by
  funext ms
  unfold place
  have hne : VirtualFS.new.tree e.names ≠ none := by
    rw [h.tree]
    exact some_ne_none _
  split_ifs with hdir hnone hms
  · exact absurd hnone (wf_new.closed_tree.before hdir.1 hne)
  · rfl
  · rw [hms, h.tree]
    rfl
  · rfl

/-- Replaying any number of such entries changes nothing. -/
theorem fitsAll_inBoot (h : ∀ e ∈ log, InBoot e) :
    FitsAll VirtualFS.new.tree log ∧ log.foldl place VirtualFS.new.tree = VirtualFS.new.tree := by
  induction log with
  | nil => exact ⟨trivial, rfl⟩
  | cons e log ih =>
    have he := h e mem_cons_self
    have hrest := ih fun e he => h e (mem_cons_of_mem _ he)
    show (Fits _ e ∧ FitsAll (place _ e) log) ∧ log.foldl place (place _ e) = _
    rw [he.place_eq]
    exact ⟨⟨he.fits, hrest.1⟩, hrest.2⟩

/-! ## Compaction -/

/-- The store has nothing but such entries, and no more than `n` of them. -/
def BootStore (n : Nat) (d : Disk) : Prop :=
  ∃ log left, Holds d log ∧ Slot d left ∧ (∀ e ∈ log, InBoot e) ∧ (∀ x ∈ left, InBoot x) ∧
    log.length ≤ n

theorem BootStore.mono {m : Nat} (h : BootStore m d) (hle : m ≤ n) : BootStore n d := by
  obtain ⟨log, left, hholds, hslot, hlog, hleft, hlen⟩ := h
  exact ⟨log, left, hholds, hslot, hlog, hleft, Nat.le_trans hlen hle⟩

/-- One more such entry is persisted, whatever becomes of the writes. -/
theorem BootStore.commit (h : BootStore n d) (f : Faults) (he : InBoot e) (hn : n + 1 < 2 ^ 32) :
    Ends (commitThroughJournal d f e) (fun r => BootStore (n + 1) r.2) (BootStore (n + 1)) := by
  obtain ⟨log, left, hholds, hslot, hlog, hleft, hlen⟩ := h
  have htorn : TornDetected d f.journal e := by
    refine tornDetected_whole fun hpos => ?_
    rw [he.short] at hpos ⊢
    exact Nat.le_antisymm (f.journal.reached_le 1) hpos
  have hkept : ∀ {d'}, Appended d' log e → NewSlot d' e ∨ journalRead d' = journalRead d →
      BootStore (n + 1) d' := by
    intro d' happended hslot'
    have hleft' : ∃ left', Slot d' left' ∧ ∀ x ∈ left', InBoot x := by
      rcases hslot' with (hnone | hnew) | hsame
      · exact ⟨none, hnone, nofun⟩
      · refine ⟨some e, hnew, fun x hx => ?_⟩
        obtain rfl := some.inj hx
        exact he
      · exact ⟨left, hsame.trans hslot, hleft⟩
    obtain ⟨left', hslot', hleft'⟩ := hleft'
    rcases happended with hd' | hd'
    · exact ⟨log, left', hd', hslot', hlog, hleft', by omega⟩
    · refine ⟨log ++ [e], left', hd', hslot', fun x hx => ?_, hleft', ?_⟩
      · rcases mem_append.mp hx with hx | hx
        · exact hlog x hx
        · rw [mem_singleton.mp hx]
          exact he
      · rw [length_append, length_singleton]
        omega
  refine (hholds.commitThroughJournal f he.sized (by omega) htorn).mono ?_ ?_
  · exact fun r hr => hkept hr.1 (hr.2.2.imp id And.left)
  · exact fun d' hr => hkept hr.1 hr.2

/-- Persisting such a file adds one entry at most, also where it fails. -/
theorem BootStore.persistFile (h : BootStore n d) (f : Faults)
    (he : InBoot (fileEntry path data permissions)) (hn : n + 1 < 2 ^ 32) :
    Ends (persistFile d f path data permissions) (fun r => BootStore (n + 1) r.2)
      (BootStore (n + 1)) := by
  have hsame : Ends (.ok (false, d)) (fun r : Bool × Disk => BootStore (n + 1) r.2)
      (BootStore (n + 1)) := h.mono (Nat.le_succ n)
  unfold Persist.persistFile
  by_cases hskip : ¬ shouldPersist path
  · rw [if_pos hskip]
    exact hsame
  · rw [if_neg hskip]
    by_cases hlong : maxPersistSize < data.length
    · rw [if_pos hlong]
      exact hsame
    · rw [if_neg hlong]
      exact h.commit f he hn

/-- The loop over such files adds an entry for each at most. -/
theorem BootStore.persistAll {items : List (Str × List UInt8 × UInt16)} (h : BootStore n d)
    (faults : List Faults) (hitems : ∀ item ∈ items, InBoot (fileEntry item.1 item.2.1 item.2.2))
    (hn : n + items.length < 2 ^ 32) :
    Ends (persistAll d faults items) (BootStore (n + items.length))
      (BootStore (n + items.length)) := by
  induction items generalizing d n faults with
  | nil => exact h
  | cons item items ih =>
    rw [length_cons, Nat.add_comm items.length, ← Nat.add_assoc] at hn ⊢
    have hfile := h.persistFile (faults.headD {}) (hitems item mem_cons_self) (by omega)
    refine (hfile.mono (fun _ hr => hr) fun _ hr => hr.mono (Nat.le_add_right _ _)).bind ?_
    exact fun r hr => ih hr _ (fun item hitem => hitems item (mem_cons_of_mem _ hitem)) hn

theorem Synced.cleared (h : Synced d v log) : BootStore 0 (d.put 0 1 (headerSector 0 1)) := by
  obtain ⟨hholds, hsame⟩ := h.holds.cleared
  exact ⟨[], none, hholds, hsame.journalRead.trans h.slot, fun _ he => absurd he not_mem_nil,
    nofun, Nat.le_refl _⟩

/-- Compaction of such files leaves the store as it was, or with nothing but them. -/
theorem Synced.compact (h : Synced d v log)
    (hfiles : ∀ path, v.readFile path = VirtualFS.new.readFile path) (cleared : Outcome)
    (hcleared : Honest cleared) (faults : List Faults) :
    Ends (compact d v cleared faults) (BootStore 7) (fun d' => BootStore 7 d' ∨ d' = d) := by
  have hempty := h.cleared
  have hlen := length_collect_le h.plain hfiles
  have hrest := hempty.persistAll faults
    (fun item hitem => (inBoot_of_collect h.plain hfiles hitem).1)
    (show 0 + (collectPersistablePaths v).length < 2 ^ 32 by omega)
  have hle : 0 + (collectPersistablePaths v).length ≤ 7 := by omega
  have hcap := h.holds.capacity_pos
  unfold Persist.compact clear writeStoreHeader Disk.write
  rw [if_neg (by omega), if_neg (by rw [headerSector, length_padTo]; decide)]
  cases cleared with
  | done => exact hrest.mono (fun _ hd => hd.mono hle) fun _ hd => .inl (hd.mono hle)
  | failed k => cases hcleared
  | crashed k =>
    show BootStore 7 (d.put 0 (min k 1) _) ∨ _
    cases k with
    | zero =>
      exact .inr rfl
    | succ k =>
      rw [Nat.min_eq_right (Nat.le_add_left 1 k)]
      exact .inl (hempty.mono (Nat.zero_le _))

theorem Holds.compact_crashed (h : Holds d log) :
    Persist.compact d v (.crashed 1) [] = .error (d.put 0 1 (headerSector 0 1)) := by
  have hcap := h.capacity_pos
  unfold Persist.compact clear writeStoreHeader Disk.write
  rw [if_neg (by omega), if_neg (by rw [headerSector, length_padTo]; decide)]
  rfl

/-! ## What is restored -/

theorem restores (d : Disk) : ∃ v, Restores d v := by
  obtain ⟨r, hr⟩ := (returns_restoreAll d VirtualFS.new).exists_ok
  exact ⟨r.2, r.1, hr⟩

theorem Restores.unique (h : Restores d v) (h' : Restores d v') : v = v' := by
  obtain ⟨d₁, h⟩ := h
  obtain ⟨d₂, h'⟩ := h'
  rw [h] at h'
  exact congrArg Prod.snd (Except.ok.inj h')

/-- The tree of a file system restored from a log and a record. -/
theorem Restores.tree (h : Restores d v) (hholds : Holds d log) (hslot : Slot d left)
    (hsized : ∀ x ∈ left, x.Sized) (hcount : left ≠ none → log.length + 1 < 2 ^ 32)
    (hfits : ∀ log', Replayed log left log' → FitsAll VirtualFS.new.tree log') :
    ∃ log', Replayed log left log' ∧ v.Plain ∧ v.tree = log'.foldl place VirtualFS.new.tree := by
  obtain ⟨d', h⟩ := h
  have hends := hholds.restoreAll {} hslot hsized hcount VirtualFS.new
  rw [h] at hends
  obtain ⟨⟨log', hlog', hholds', rfl⟩, -⟩ := hends
  obtain ⟨hplain, -, htree⟩ := (hfits log' hlog').restore plain_new hholds'.sized
    (room_new hholds'.count)
  exact ⟨log', hlog', hplain, htree⟩

/-- A boot from such a store gives the tree of a fresh file system. -/
theorem BootStore.tree (h : BootStore 7 d) (hv : Restores d v) :
    v.Plain ∧ v.tree = VirtualFS.new.tree := by
  obtain ⟨log, left, hholds, hslot, hlog, hleft, hlen⟩ := h
  have hboot : ∀ log', Replayed log left log' → ∀ e ∈ log', InBoot e := by
    rintro log' (rfl | ⟨x, hx, rfl⟩) e he
    · exact hlog e he
    · rcases mem_append.mp he with he | he
      · exact hlog e he
      · rw [mem_singleton.mp he]
        exact hleft x hx
  obtain ⟨log', hlog', hplain, htree⟩ := hv.tree hholds hslot (fun x hx => (hleft x hx).sized)
    (fun _ => by omega) fun log' hlog' => (fitsAll_inBoot (hboot log' hlog')).1
  rw [(fitsAll_inBoot (hboot log' hlog')).2] at htree
  exact ⟨hplain, htree⟩

/-- A restore without compaction shows what the file system shows. -/
theorem Synced.restores (h : Synced d v log) (hv' : Restores d v') :
    v'.Plain ∧ v'.tree = v.tree := by
  have hnone : Slot d none := h.slot
  obtain ⟨log', hlog', hplain, htree⟩ := hv'.tree h.holds hnone nofun (fun h => absurd rfl h) (by
    rintro log' (rfl | ⟨x, hx, -⟩)
    · exact h.fits
    · cases hx)
  obtain rfl : log' = log := hlog'.resolve_right nofun
  exact ⟨hplain, htree.trans h.tree.symm⟩

/-! ## Trees and paths -/

theorem hasDir_iff (h : v.WF) : HasDir v path ↔ v.tree.DirAt (components path) := by
  unfold HasDir
  rw [h.resolvePath]
  constructor
  · rintro ⟨ino, hfind, hdir⟩
    exact tree_of_dir hfind (dir_iff.mpr hdir)
  · rintro ⟨data, hdata⟩
    obtain ⟨ino, hfind, hdir⟩ := h.dir_of_tree hdata
    exact ⟨ino, hfind, dir_iff.mp hdir⟩

theorem SameTree.of_tree (h : v.WF) (h' : v'.WF) (htree : v.tree = v'.tree) : SameTree v v' := by
  intro path
  rw [h.readFile_eq, h'.readFile_eq, hasDir_iff h, hasDir_iff h', htree]
  exact ⟨rfl, Iff.rfl⟩

theorem SameTree.trans {v'' : VirtualFS} (h : SameTree v v') (h' : SameTree v' v'') :
    SameTree v v'' := fun path =>
  ⟨(h path).1.trans (h' path).1, (h path).2.trans (h' path).2⟩

theorem SameTree.symm (h : SameTree v v') : SameTree v' v := fun path =>
  ⟨(h path).1.symm, (h path).2.symm⟩

/-- No file goes away where an entry is placed. -/
theorem readAt_place_ne_none (hms : t.readAt ms ≠ none) : (place t e).readAt ms ≠ none := by
  unfold Tree.readAt at hms ⊢
  cases hnode : t ms with
  | none =>
    rw [hnode] at hms
    exact absurd rfl hms
  | some node =>
    rw [hnode] at hms
    dsimp only at hms
    split_ifs at hms with hkind
    · have hplace : ∃ data, place t e ms = some (node.1, data) := by
        unfold place
        rw [hnode]
        split_ifs with hdir hnone hname
        · cases hnone
        · exact ⟨node.2, rfl⟩
        · exact ⟨e.data, rfl⟩
        · exact ⟨node.2, rfl⟩
      obtain ⟨data, hdata⟩ := hplace
      rw [hdata]
      dsimp only
      rw [if_pos hkind]
      exact some_ne_none _
    · exact absurd rfl hms

theorem readAt_foldl_ne_none (hms : t.readAt ms ≠ none) : (log.foldl place t).readAt ms ≠ none := by
  induction log generalizing t with
  | nil => exact hms
  | cons e log ih => exact ih (readAt_place_ne_none hms)

/-- A log of all files of a fresh file system, with their contents, changes no file. -/
theorem Synced.files_eq (h : Synced d v log)
    (hfiles : ∀ path c, v.readFile path = some c → VirtualFS.new.readFile path = some c)
    (path : Str) : v.readFile path = VirtualFS.new.readFile path := by
  cases hv : v.readFile path with
  | some c => exact (hfiles path c hv).symm
  | none =>
    cases hnew : VirtualFS.new.readFile path with
    | none => rfl
    | some c =>
      rw [wf_new.readFile_eq] at hnew
      rw [h.plain.wf.readFile_eq, h.tree] at hv
      refine absurd hv (readAt_foldl_ne_none ?_)
      rw [hnew]
      exact some_ne_none _

/-! ## When compaction is safe -/

/-- Compaction is safe in the states that show no more than a fresh file system does. -/
theorem compact_safe_iff (h : Produced (fun d => ∃ log left, StoreOk d log left) EntryOk d v) :
    CompactionSafe d v ↔ SameTree v VirtualFS.new := by
  obtain ⟨log, h⟩ := h.synced
  -- a restore without compaction
  obtain ⟨v₁, hv₁⟩ := restores d
  obtain ⟨hplain₁, htree₁⟩ := h.restores hv₁
  have hsame₁ : SameTree v₁ v := .of_tree hplain₁.wf h.plain.wf htree₁
  have hboot : ∀ {d' v₂}, BootStore 7 d' → Restores d' v₂ → SameTree v₂ VirtualFS.new := by
    intro d' v₂ hstore hv₂
    obtain ⟨hplain₂, htree₂⟩ := hstore.tree hv₂
    exact .of_tree hplain₂.wf wf_new htree₂
  constructor
  · intro hsafe
    -- the machine stops when the log is cleared
    have hcleared : BootStore 7 (d.put 0 1 (headerSector 0 1)) := h.cleared.mono (Nat.zero_le _)
    obtain ⟨v₁', v₂, hv₁', hv₂, hkept⟩ := hsafe.crash (.crashed 1) [] _ trivial
      (fun _ hf => absurd hf not_mem_nil) h.holds.compact_crashed
    obtain rfl := hv₁.unique hv₁'
    have hfiles : ∀ path, v.readFile path = VirtualFS.new.readFile path := by
      refine h.files_eq fun path c hc => ?_
      rw [← (hboot hcleared hv₂ path).1]
      refine hkept path c ?_
      rw [(hsame₁ path).1]
      exact hc
    -- so nothing but these files is collected, and the directories are those of the restored log
    obtain ⟨d', v₁', v₂', hcompact, hv₁', hv₂', hsame⟩ := hsafe.same
    obtain rfl := hv₁.unique hv₁'
    have hends := h.compact hfiles .done trivial []
    rw [hcompact] at hends
    exact hsame₁.symm.trans (hsame.trans (hboot hends hv₂'))
  · intro hsame
    have hfiles : ∀ path, v.readFile path = VirtualFS.new.readFile path := fun path =>
      (hsame path).1
    constructor
    · obtain ⟨d', hcompact⟩ := (returns_compact d v).exists_ok
      have hends := h.compact hfiles .done trivial []
      rw [hcompact] at hends
      obtain ⟨v₂, hv₂⟩ := restores d'
      exact ⟨d', v₁, v₂, hcompact, hv₁, hv₂,
        hsame₁.trans (hsame.trans (hboot hends hv₂).symm)⟩
    · intro cleared faults d' hhonest _ hcompact
      have hends := h.compact hfiles cleared hhonest faults
      rw [hcompact] at hends
      rcases hends with hstore | rfl
      · obtain ⟨v₂, hv₂⟩ := restores d'
        refine ⟨v₁, v₂, hv₁, hv₂, fun path c hc => ?_⟩
        rw [(hboot hstore hv₂ path).1, ← (hsame path).1, ← (hsame₁ path).1]
        exact hc
      · exact ⟨v₁, v₁, hv₁, hv₁, fun _ _ hc => hc⟩

theorem storeOk_blankDisk : StoreOk blankDisk [] none where
  holds := fresh_blankDisk.holds
  slot := fresh_blankDisk.slot
  sized := nofun
  count := by decide
  fits := trivial
  room := nofun

instance decidableEntryOk (d : Disk) (v : VirtualFS) (e : Entry) : Decidable (EntryOk d v e) :=
  decidable_of_iff (CountFits d ∧ (asBytes e.path).length < 2 ^ 30 ∧ Fits v.tree e)
    ⟨fun h => ⟨h.1, h.2.1, h.2.2⟩, fun h => ⟨h.count, h.length, h.fits⟩⟩

/-- The state after a boot. -/
def booted (d : Disk) : Disk × VirtualFS :=
  match restoreAll d {} VirtualFS.new with
  | .ok s => s
  | .error d => (d, VirtualFS.new)

/-- The state after a file is written, and whether it is acknowledged. -/
def dispatched (s : Disk × VirtualFS) (path : Str) (data : List UInt8) : Bool × Disk × VirtualFS :=
  match writeFileDispatch s.1 s.2 path data with
  | (.ok (acknowledged, d), v) => (acknowledged, d, v)
  | (.error d, v) => (false, d, v)

theorem restores_booted (d : Disk) : Restores d (booted d).2 := by
  obtain ⟨s, hs⟩ := (returns_restoreAll d VirtualFS.new).exists_ok
  refine ⟨s.1, ?_⟩
  unfold booted
  rw [hs]

theorem dispatched_snd (s : Disk × VirtualFS) (path : Str) (data : List UInt8) :
    (dispatched s path data).2.2 = (s.2.writeFile path data).2 := by
  unfold dispatched
  split
  next heq => rw [← congrArg Prod.snd heq]; rfl
  next heq => rw [← congrArg Prod.snd heq]; rfl

theorem StoreOk.booted_empty (h : StoreOk d [] none) : (booted d).2 = VirtualFS.new := by
  obtain ⟨⟨d', v⟩, hrestore⟩ := (returns_restoreAll d VirtualFS.new).exists_ok
  obtain ⟨log, hlog, -, -, rfl⟩ := h.restore hrestore
  obtain rfl : log = [] := hlog.resolve_right nofun
  unfold booted
  rw [hrestore]
  rfl

theorem produced_booted (h : StoreOk d log left) :
    Produced (fun d => ∃ log left, StoreOk d log left) EntryOk (booted d).1 (booted d).2 := by
  obtain ⟨s, hs⟩ := (returns_restoreAll d VirtualFS.new).exists_ok
  unfold booted
  rw [hs]
  exact .restored ⟨log, left, h⟩ hs

/-- An acknowledged write continues a run. -/
theorem Produced.dispatched {start : Disk → Prop} {ok : Disk → VirtualFS → Entry → Prop}
    (h : Produced start ok s.1 s.2) (hok : ok s.1 s.2 (fileEntry path data 0o644))
    (hdone : (dispatched s path data).1 = true) :
    Produced start ok (dispatched s path data).2.1 (dispatched s path data).2.2 := by
  unfold Persist.dispatched at hdone ⊢
  rcases hwrite : writeFileDispatch s.1 s.2 path data with ⟨⟨⟩ | ⟨acknowledged, d⟩, v⟩
  · rw [hwrite] at hdone
    cases hdone
  · rw [hwrite] at hdone
    obtain rfl : acknowledged = true := hdone
    exact h.file hok hwrite

theorem modifyInode_eq_self {ino : Nat} {f : Inode → Inode}
    (h : Vfs.modifyFirst ino f v.inodes = v.inodes) : v.modifyInode ino f = v := by
  unfold VirtualFS.modifyInode
  rw [h]

/-- What a fresh file system has in `/etc/hostname`. -/
def hostname : List UInt8 := asBytes "knoxos\n".toList

/-- The file is written with the contents it has. -/
def hostnameWritten : Bool × Disk × VirtualFS :=
  dispatched (booted blankDisk) "/etc/hostname".toList hostname

/-- A store with an entry for a file that is there anyway. -/
theorem compact_safe_hostname :
    CompactionSafe hostnameWritten.2.1 hostnameWritten.2.2 ∧
      (readStoreHeader hostnameWritten.2.1).map Prod.fst = some 1 := by
  have hproduced : Produced (fun d => ∃ log left, StoreOk d log left) EntryOk hostnameWritten.2.1
      hostnameWritten.2.2 := by
    unfold hostnameWritten
    exact (produced_booted storeOk_blankDisk).dispatched (by decide +kernel) (by decide +kernel)
  have hinode : (VirtualFS.new.resolvePath "/etc/hostname".toList).bind VirtualFS.new.getInode =
      some ⟨33, .regular, "hostname".toList, 7, 0o644, [], hostname⟩ := by decide +kernel
  have hinodes : Vfs.modifyFirst 33 (fun i => { i with data := hostname, size := hostname.length })
      VirtualFS.new.inodes = VirtualFS.new.inodes := by decide +kernel
  have hsame : hostnameWritten.2.2 = VirtualFS.new := by
    unfold hostnameWritten
    rw [dispatched_snd, storeOk_blankDisk.booted_empty, VirtualFS.writeFile, hinode]
    exact modifyInode_eq_self hinodes
  refine ⟨(compact_safe_iff hproduced).mpr ?_, by decide +kernel⟩
  rw [hsame]
  exact fun _ => ⟨rfl, Iff.rfl⟩

/-! ## Files that are lost -/

/-- A file with contents and one without are written. -/
def twoFiles : Disk × VirtualFS :=
  (dispatched (dispatched (booted blankDisk) "/a".toList [1]).2 "/b".toList []).2

/-- Both files are acknowledged. -/
theorem produced_twoFiles : Produced (fun d => ∃ log left, StoreOk d log left) EntryOk twoFiles.1
    twoFiles.2 := by
  have hok : EntryOk (booted blankDisk).1 (booted blankDisk).2
      (fileEntry "/a".toList [1] 0o644) := by decide +kernel
  have hdone : (dispatched (booted blankDisk) "/a".toList [1]).1 = true := by decide +kernel
  have hone := (produced_booted storeOk_blankDisk).dispatched hok hdone
  unfold twoFiles
  generalize hs : (dispatched (booted blankDisk) "/a".toList [1]).2 = s at hone ⊢
  refine hone.dispatched ?_ ?_
  · rw [← hs]
    decide +kernel
  · rw [← hs]
    decide +kernel

/-- A file lost by one crash refutes the safety of the compaction. -/
theorem not_safe_of_crash {c : List UInt8} (hcrash : compact s.1 s.2 (.crashed 1) [] = .error d)
    (hbefore : (booted s.1).2.readFile path = some c) (hafter : (booted d).2.readFile path = none) :
    ¬ CompactionSafe s.1 s.2 := by
  intro hsafe
  obtain ⟨v₁, v₂, hv₁, hv₂, hkept⟩ := hsafe.crash (.crashed 1) [] d trivial
    (fun _ hf => absurd hf not_mem_nil) hcrash
  rw [hv₁.unique (restores_booted _), hv₂.unique (restores_booted _)] at hkept
  rw [hkept path c hbefore] at hafter
  cases hafter

/-- A crash behind the clearing of the log loses one file, and the other is not even collected. -/
theorem compaction_loses_files : ∃ s : Disk × VirtualFS,
    Produced (fun d => ∃ log left, StoreOk d log left) EntryOk s.1 s.2 ∧
      ¬ CompactionSafe s.1 s.2 ∧ (booted s.1).2.readFile "/b".toList = some [] ∧
      "/b".toList ∉ (collectPersistablePaths s.2).map Prod.fst := by
  obtain ⟨log, hsynced⟩ := produced_twoFiles.synced
  have hbefore : (booted twoFiles.1).2.readFile "/a".toList = some [1] ∧
      (booted twoFiles.1).2.readFile "/b".toList = some [] := by decide +kernel
  have hafter : (booted (twoFiles.1.put 0 1 (headerSector 0 1))).2.readFile "/a".toList = none := by
    decide +kernel
  have hempty : twoFiles.2.readFile "/b".toList = some [] := by decide +kernel
  exact ⟨twoFiles, produced_twoFiles,
    not_safe_of_crash hsynced.holds.compact_crashed hbefore.1 hafter, hbefore.2,
    not_collected hsynced.plain hempty⟩

end KnoxOS.Fs.Persist
