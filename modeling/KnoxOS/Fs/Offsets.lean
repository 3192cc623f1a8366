import KnoxOS.Fs.Fd

/-!
# File offsets

`dup`, `dup2` and `fork_fd_table` of `fs/fd.rs` copy an open file with its offset, and the copies
go their own ways from then on (`copies_drift_apart`). A run carries the description POSIX gives
each descriptor, the one it was opened with or copied from. The main theorem, `offsets_shared`,
says that descriptors of one description agree on the offset in every run in which no call moves
the offset of a description that is shared.
-/

namespace KnoxOS.Fs

open Lib Option
open Std (TreeMap)

inductive SeekFrom where
  | start
  | current
  | «end»
deriving DecidableEq, Repr

/-- A sum of machine words. -/
def usizeAdd (a b : Nat) : Nat := (a + b) % 2 ^ 64

namespace OpenFile

/-- The file with the inode the page cache gives its path, if it has none yet. -/
def registered (file : OpenFile) (backend : Backend) : OpenFile :=
  if file.inode = 0 then
    match backend.registerPath file.path with
    | some ino => { file with inode := ino }
    | none => file
  else file

/-- What a read of `len` bytes finds, in the file system if the page cache has no inode or fails. -/
def found (file : OpenFile) (backend : Backend) (len : Nat) : Option (List UInt8) :=
  match (if file.inode ≠ 0 then backend.cacheRead file.inode file.offset len else none) with
  | some bytes => some bytes
  | none => (backend.readFile file.path).map fun data => (data.drop file.offset).take len

/-- `read` of a regular file into a buffer of `len` bytes. -/
def readRegular (file : OpenFile) (backend : Backend) (len : Nat) :
    Except Int (List UInt8) × OpenFile :=
  if !file.flags.isReadable then (.error (-9), file)
  else
    let file := file.registered backend
    match file.found backend len with
    | none => (.error (-2), file)
    | some bytes => (.ok bytes, { file with offset := usizeAdd file.offset bytes.length })

/-- The contents of a file with `data` written at an offset, after zeros if it is shorter. -/
def overwrite (existing data : List UInt8) (offset : Nat) : List UInt8 :=
  let padded := existing ++ List.replicate (offset + data.length - existing.length) 0
  padded.take offset ++ data ++ padded.drop (offset + data.length)

/-- `write` to a regular file, with what goes to the file system if the cache has no inode or fails.
-/
def writeRegular (file : OpenFile) (backend : Backend) (data : List UInt8) :
    Nat × Option (String × List UInt8) × OpenFile :=
  let file := file.registered backend
  let offset := if file.flags.isAppend then backend.logicalSize file.inode else file.offset
  match (if file.inode ≠ 0 then backend.cacheWrite file.inode offset data else none) with
  | some n =>
    let offset := usizeAdd offset n
    (n, none, { file with offset := offset, size := max file.size offset })
  | none =>
    let existing := (backend.readFile file.path).getD []
    if file.flags.isAppend then (data.length, some (file.path, existing ++ data), file)
    else
      (data.length, some (file.path, overwrite existing data file.offset),
        { file with offset := usizeAdd file.offset data.length })

/-- Where a write leaves the offset: behind what the cache took, or what went to the file system
unless it was appended. -/
def writeEnd (file : OpenFile) (backend : Backend) (data : List UInt8) : Nat :=
  let offset := if file.flags.isAppend then backend.logicalSize file.inode else file.offset
  match (if file.inode ≠ 0 then backend.cacheWrite file.inode offset data else none) with
  | some n => usizeAdd offset n
  | none => if file.flags.isAppend then file.offset else usizeAdd file.offset data.length

def seekable (file : OpenFile) : Bool :=
  !(file.fileType = .pipe ∨ file.fileType = .fifo ∨ file.fileType = .socket)

/-- Where a seek leads. Offsets are signed in the call and machine words in the file. -/
def target (file : OpenFile) (offset : Int) (whence : SeekFrom) : Nat :=
  let base : Int := match whence with
    | .start => 0
    | .current => file.offset
    | .end => file.size
  ((base + offset) % 2 ^ 64).toNat

def lseek (file : OpenFile) (offset : Int) (whence : SeekFrom) : Except Int Nat × OpenFile :=
  if !file.seekable then (.error (-29), file)
  else (.ok (file.target offset whence), { file with offset := file.target offset whence })

theorem registered_offset (file : OpenFile) (backend : Backend) :
    (file.registered backend).offset = file.offset := by
  unfold registered
  split_ifs
  · split <;> rfl
  · rfl

theorem writeRegular_offset (file : OpenFile) (backend : Backend) (data : List UInt8) :
    (file.writeRegular backend data).2.2.offset =
      (file.registered backend).writeEnd backend data := by
  unfold writeRegular writeEnd
  dsimp only
  split
  · rfl
  · split_ifs <;> rfl

end OpenFile

/-! ### Runs -/

/-- The descriptor tables, the description of each descriptor, and the next new one. -/
structure FileRun where
  tables : TreeMap Nat FdTable
  description : Nat → Int → Nat
  next : Nat

/-- The calls. -/
inductive FileOp where
  | openFile (pid : Nat) (backend : Backend) (path : String) (flags : OpenFlags)
      (fileType : FileType)
  | dup (pid : Nat) (oldFd : Int)
  | dup2 (pid : Nat) (oldFd newFd : Int)
  | close (pid : Nat) (fd : Int)
  | fork (parent child : Nat)
  | read (pid : Nat) (fd : Int) (backend : Backend) (len : Nat)
  | write (pid : Nat) (fd : Int) (backend : Backend) (data : List UInt8)
  | lseek (pid : Nat) (fd : Int) (offset : Int) (whence : SeekFrom)

namespace FileRun

/-- The tables at boot, each standard descriptor with a description of its own. -/
def init : FileRun where
  tables := bootTables
  description pid fd := 3 * pid + fd.toNat
  next := 9

/-- The open file of a descriptor. -/
def file (s : FileRun) (pid : Nat) (fd : Int) : Option OpenFile :=
  s.tables[pid]?.bind fun t => t.files[fd]?

/-- The offset of a descriptor. -/
def offset (s : FileRun) (pid : Nat) (fd : Int) : Option Nat := (s.file pid fd).map (·.offset)

/-- A new description for a descriptor. -/
def describe (s : FileRun) (pid : Nat) (fd : Int) (d : Nat) : Nat → Int → Nat :=
  fun p e => if p = pid ∧ e = fd then d else s.description p e

/-- The file of a descriptor changes. -/
def modifyFile (s : FileRun) (pid : Nat) (fd : Int) (f : OpenFile → OpenFile) : FileRun :=
  { s with tables := s.tables.modify pid fun t => { t with files := t.files.modify fd f } }

/-- The child's copies of the parent's files keep their descriptions; its own standard descriptors
get new ones. -/
def fork (s : FileRun) (parent child : Nat) : FileRun where
  tables := s.tables.insert child (.fork s.tables[parent]?)
  description := fun p e =>
    if p = child then
      (if (s.file parent e).isSome then s.description parent e else s.next + e.toNat)
    else s.description p e
  next := s.next + 3

/-- A call that gives a descriptor of the process the description `d`, or fails and changes nothing.
-/
def place (s : FileRun) (pid d next : Nat) (call : FdTable → Except Int (Int × FdTable)) :
    FileRun :=
  match s.tables[pid]? with
  | none => s
  | some t =>
    match call t with
    | .error _ => s
    | .ok (fd, t) => ⟨s.tables.insert pid t, s.describe pid fd d, next⟩

/-- One call. Reads and writes of standard descriptors move no offset. -/
def step (s : FileRun) : FileOp → FileRun
  | .openFile pid backend path flags fileType =>
    s.place pid s.next (s.next + 1) fun t => t.openFile backend path flags fileType
  | .dup pid oldFd => s.place pid (s.description pid oldFd) s.next fun t => t.dup oldFd
  | .dup2 pid oldFd newFd => s.place pid (s.description pid oldFd) s.next fun t =>
    (t.dup2 oldFd newFd).map fun r => (r.1, r.2.2)
  | .close pid fd =>
    match s.tables[pid]? with
    | none => s
    | some t =>
      match t.close fd with
      | .error _ => s
      | .ok (_, t) => { s with tables := s.tables.insert pid t }
  | .fork parent child => s.fork parent child
  | .read pid fd backend len => s.modifyFile pid fd fun file =>
    if file.fileType = .regular then (file.readRegular backend len).2 else file
  | .write pid fd backend data => s.modifyFile pid fd fun file =>
    if file.fileType = .regular then (file.writeRegular backend data).2.2 else file
  | .lseek pid fd offset whence => s.modifyFile pid fd fun file => (file.lseek offset whence).2

end FileRun

/-- The descriptor a call reads, writes or seeks through. -/
def FileOp.through : FileOp → Option (Nat × Int)
  | .read pid fd _ _ | .write pid fd _ _ | .lseek pid fd _ _ => some (pid, fd)
  | _ => none

/-- Only regular files are opened. -/
def FileOp.Legal : FileOp → Prop
  | .openFile _ _ _ _ fileType => fileType = .regular
  | _ => True

/-- No other open descriptor has the description of this one. -/
def FileRun.Alone (s : FileRun) (pid : Nat) (fd : Int) : Prop :=
  ∀ x ∈ s.tables.toList, ∀ y ∈ x.2.files.toList, (x.1, y.1) ≠ (pid, fd) →
    s.description x.1 y.1 ≠ s.description pid fd

/-- The call leaves the offset of this file alone: it reads where nothing is, writes nothing or
appends past the cache, or seeks to where it is. -/
def FileOp.Stays (file : OpenFile) : FileOp → Prop
  | .read _ _ backend len => file.fileType = .regular → file.flags.isReadable = true →
      ∀ bytes ∈ (file.registered backend).found backend len,
        usizeAdd file.offset bytes.length = file.offset
  | .write _ _ backend data => file.fileType = .regular →
      (file.registered backend).writeEnd backend data = file.offset
  | .lseek _ _ offset whence => file.seekable = true → file.target offset whence = file.offset
  | _ => True

/-- The call leaves the offset of its descriptor as it is, or no other open descriptor has its
description. -/
def FileOp.Unshared (s : FileRun) (op : FileOp) : Prop :=
  ∀ x ∈ op.through, (∀ file ∈ s.file x.1 x.2, op.Stays file) ∨ s.Alone x.1 x.2

namespace FileRun

variable {s : FileRun} {pid : Nat} {t t' : FdTable}

theorem file_insert (s : FileRun) (pid : Nat) (t : FdTable) (description : Nat → Int → Nat)
    (next p : Nat) (e : Int) :
    FileRun.file ⟨s.tables.insert pid t, description, next⟩ p e =
      if pid = p then t.files[e]? else s.file p e := by
  show ((s.tables.insert pid t)[p]?).bind _ = _
  rw [lookup_insert]
  split_ifs <;> rfl

/-- A change of one open file. -/
theorem file_modifyFile (s : FileRun) (pid : Nat) (fd : Int) (f : OpenFile → OpenFile) (p : Nat)
    (e : Int) :
    (s.modifyFile pid fd f).file p e =
      if p = pid ∧ e = fd then (s.file pid fd).map f else s.file p e := by
  show ((s.tables.modify pid fun t => { t with files := t.files.modify fd f })[p]?).bind _ = _
  rw [lookup_modify]
  by_cases hp : p = pid
  · subst hp
    rw [if_pos rfl]
    unfold file
    cases s.tables[p]? with
    | none =>
      show none = if p = p ∧ e = fd then none else none
      rw [ite_self]
    | some t =>
      show (t.files.modify fd f)[e]? = if p = p ∧ e = fd then t.files[fd]?.map f else t.files[e]?
      rw [lookup_modify]
      simp only [true_and, eq_comm]
  · rw [if_neg (Ne.symm hp), if_neg (fun hand => hp hand.1)]
    rfl

theorem file_eq (ht : s.tables[pid]? = some t) (e : Int) : s.file pid e = t.files[e]? := by
  unfold file
  rw [ht]
  rfl

/-- What every run keeps: descriptors of one description have one offset, and new descriptions are
new. -/
structure Agree (s : FileRun) : Prop where
  same : ∀ p d q e f g, s.file p d = some f → s.file q e = some g →
    s.description p d = s.description q e → f.offset = g.offset
  old : ∀ p d f, s.file p d = some f → s.description p d < s.next

namespace Agree

/-- A descriptor gets a file and a description whose other descriptors have its offset. -/
theorem place (h : s.Agree) {d next : Nat} {call : FdTable → Except Int (Int × FdTable)}
    (hcall : ∀ t fd t', s.tables[pid]? = some t → call t = .ok (fd, t') →
      ∃ file : OpenFile,
        (∀ e : Int, t'.files[e]? = if fd = e then some file else t.files[e]?) ∧ d < next ∧
        ∀ q e g, s.file q e = some g → s.description q e = d → g.offset = file.offset)
    (hnext : s.next ≤ next) : (s.place pid d next call).Agree := by
  unfold FileRun.place
  cases ht : s.tables[pid]? with
  | none => exact h
  | some t =>
    dsimp only
    split
    · exact h
    next fd t' hok =>
      obtain ⟨file, hlookup, hd, hagree⟩ := hcall t fd t' ht hok
      -- a descriptor is the new one, or as it was
      have hcases : ∀ {p e f},
          FileRun.file ⟨s.tables.insert pid t', s.describe pid fd d, next⟩ p e = some f →
          (f = file ∧ s.describe pid fd d p e = d) ∨
            (s.file p e = some f ∧ s.describe pid fd d p e = s.description p e) := by
        intro p e f hf
        unfold describe
        rw [file_insert] at hf
        by_cases hp : pid = p
        · subst hp
          rw [if_pos rfl, hlookup] at hf
          by_cases he : fd = e
          · rw [if_pos he] at hf
            rw [if_pos ⟨rfl, he.symm⟩]
            exact .inl ⟨(some.inj hf).symm, rfl⟩
          · rw [if_neg he] at hf
            rw [if_neg (fun hand => he hand.2.symm)]
            exact .inr ⟨(file_eq ht e).trans hf, rfl⟩
        · rw [if_neg hp] at hf
          rw [if_neg (fun hand => hp hand.1.symm)]
          exact .inr ⟨hf, rfl⟩
      constructor
      · intro p e q e' f g hf hg hdesc
        rcases hcases hf with ⟨rfl, hfd⟩ | ⟨hf, hfd⟩ <;>
          rcases hcases hg with ⟨rfl, hgd⟩ | ⟨hg, hgd⟩
        · rfl
        · exact (hagree q e' g hg (hgd.symm.trans (hdesc.symm.trans hfd))).symm
        · exact hagree p e f hf (hfd.symm.trans (hdesc.trans hgd))
        · exact h.same p e q e' f g hf hg (hfd.symm.trans (hdesc.trans hgd))
      · intro p e f hf
        show s.describe pid fd d p e < next
        rcases hcases hf with ⟨-, hfd⟩ | ⟨hf, hfd⟩
        · rw [hfd]
          exact hd
        · rw [hfd]
          exact Nat.lt_of_lt_of_le (h.old p e f hf) hnext

/-- A descriptor goes. -/
theorem close (h : s.Agree) (ht : s.tables[pid]? = some t)
    (hsub : ∀ (e : Int) (f : OpenFile), t'.files[e]? = some f → t.files[e]? = some f) :
    FileRun.Agree { s with tables := s.tables.insert pid t' } := by
  have hfile : ∀ {p e f}, FileRun.file { s with tables := s.tables.insert pid t' } p e = some f →
      s.file p e = some f := by
    intro p e f hf
    rw [file_insert] at hf
    split_ifs at hf with hp
    · rw [← hp, file_eq ht]
      exact hsub e f hf
    · exact hf
  exact ⟨fun p e q e' f g hf hg => h.same p e q e' f g (hfile hf) (hfile hg),
    fun p e f hf => h.old p e f (hfile hf)⟩

/-- The file of a descriptor changes, with its offset kept or not shared. -/
theorem modifyFile (h : s.Agree) {fd : Int} {f : OpenFile → OpenFile}
    (hshared : (∀ file ∈ s.file pid fd, (f file).offset = file.offset) ∨ s.Alone pid fd) :
    (s.modifyFile pid fd f).Agree := by
  have hcases : ∀ {p e g}, (s.modifyFile pid fd f).file p e = some g →
      ((p, e) = (pid, fd) ∧ ∃ g₀, s.file p e = some g₀ ∧ g = f g₀) ∨
        ((p, e) ≠ (pid, fd) ∧ s.file p e = some g) := by
    intro p e g hg
    rw [file_modifyFile] at hg
    split_ifs at hg with hpe
    · obtain ⟨g₀, hg₀, rfl⟩ := map_eq_some_iff.mp hg
      obtain ⟨rfl, rfl⟩ := hpe
      exact .inl ⟨rfl, g₀, hg₀, rfl⟩
    · exact .inr ⟨fun heq => hpe (Prod.mk.inj heq), hg⟩
  -- the changed descriptor against another one
  have hone : ∀ {p e g₀ q e' g'}, (p, e) = (pid, fd) → s.file p e = some g₀ →
      (q, e') ≠ (pid, fd) → s.file q e' = some g' → s.description p e = s.description q e' →
      (f g₀).offset = g'.offset := by
    intro p e g₀ q e' g' hpe hg₀ hqe hg' hdesc
    obtain ⟨rfl, rfl⟩ := Prod.mk.inj hpe
    rcases hshared with hkept | halone
    · exact (hkept g₀ hg₀).trans (h.same p e q e' g₀ g' hg₀ hg' hdesc)
    · obtain ⟨t, ht, hopen⟩ := bind_eq_some_iff.mp hg'
      exact absurd hdesc.symm
        (halone (q, t) (mem_toList_iff.mpr ht) (e', g') (mem_toList_iff.mpr hopen) hqe)
  constructor
  · intro p e q e' g g' hg hg' hdesc
    rcases hcases hg with ⟨hpe, g₀, hg₀, rfl⟩ | ⟨hpe, hg⟩ <;>
      rcases hcases hg' with ⟨hqe, g₁, hg₁, rfl⟩ | ⟨hqe, hg'⟩
    · obtain ⟨rfl, rfl⟩ := Prod.mk.inj (hpe.trans hqe.symm)
      rw [hg₀] at hg₁
      rw [some.inj hg₁]
    · exact hone hpe hg₀ hqe hg' hdesc
    · exact (hone hqe hg₁ hpe hg hdesc.symm).symm
    · exact h.same p e q e' g g' hg hg' hdesc
  · intro p e g hg
    rcases hcases hg with ⟨-, g₀, hg₀, -⟩ | ⟨-, hg⟩
    · exact h.old p e g₀ hg₀
    · exact h.old p e g hg

/-- `fork_fd_table`. -/
theorem fork (h : s.Agree) (parent child : Nat) : (s.fork parent child).Agree := by
  have hdesc : ∀ p e, (s.fork parent child).description p e =
      if p = child then
        (if (s.file parent e).isSome then s.description parent e else s.next + e.toNat)
      else s.description p e := fun _ _ => rfl
  -- a descriptor has the offset and the description of an old one, or is a fresh one at 0
  have hcases : ∀ {p e f}, (s.fork parent child).file p e = some f →
      (∃ q f₀, s.file q e = some f₀ ∧ f.offset = f₀.offset ∧
        (s.fork parent child).description p e = s.description q e) ∨
      (f.offset = 0 ∧ e.toNat < 3 ∧ (s.fork parent child).description p e = s.next + e.toNat) := by
    intro p e f hf
    rw [hdesc]
    unfold FileRun.fork at hf
    rw [file_insert] at hf
    by_cases hp : child = p
    · rw [if_pos hp, FdTable.lookup_fork] at hf
      rw [if_pos hp.symm]
      change ((s.file parent e).map _).or _ = _ at hf
      cases hfile : s.file parent e with
      | some f₀ =>
        rw [hfile] at hf
        cases hf
        exact .inl ⟨parent, f₀, hfile, rfl, rfl⟩
      | none =>
        rw [hfile] at hf
        obtain ⟨rfl, hlow, hhigh⟩ := FdTable.new_some hf
        exact .inr ⟨rfl, by omega, rfl⟩
    · rw [if_neg hp] at hf
      rw [if_neg (Ne.symm hp)]
      exact .inl ⟨p, f, hf, rfl, rfl⟩
  constructor
  · intro p e q e' f g hf hg hsame
    rcases hcases hf with ⟨p', f₀, hf₀, hfo, hfd⟩ | ⟨hfo, hlt, hfd⟩ <;>
      rcases hcases hg with ⟨q', g₀, hg₀, hgo, hgd⟩ | ⟨hgo, hlt', hgd⟩
    · rw [hfo, hgo]
      exact h.same p' e q' e' f₀ g₀ hf₀ hg₀ (hfd.symm.trans (hsame.trans hgd))
    · have := h.old p' e f₀ hf₀
      omega
    · have := h.old q' e' g₀ hg₀
      omega
    · rw [hfo, hgo]
  · intro p e f hf
    show _ < s.next + 3
    rcases hcases hf with ⟨q, f₀, hf₀, -, hfd⟩ | ⟨-, hlt, hfd⟩
    · have := h.old q e f₀ hf₀
      omega
    · omega

/-- The description that a copy gets. -/
theorem copied (h : s.Agree) {fd : Int} {file : OpenFile} (ht : s.tables[pid]? = some t)
    (hfile : t.files[fd]? = some file) : s.description pid fd < s.next ∧
      ∀ q e g, s.file q e = some g → s.description q e = s.description pid fd →
        g.offset = file.offset := by
  rw [← file_eq ht] at hfile
  exact ⟨h.old pid fd file hfile, fun q e g hg hd => h.same q e pid fd g file hg hfile hd⟩

/-- One call. -/
theorem step (h : s.Agree) {op : FileOp} (hshared : op.Unshared s) : (s.step op).Agree := by
  cases op with
  | openFile pid backend path flags fileType =>
    refine h.place (fun t fd t' _ hcall => ?_) (Nat.le_succ _)
    obtain ⟨-, rfl⟩ := FdTable.openFile_ok hcall
    refine ⟨_, fun e => lookup_insert .., Nat.lt_succ_self _, fun q e g hg hd => ?_⟩
    have := h.old q e g hg
    omega
  | dup pid oldFd =>
    refine h.place (fun t fd t' ht hcall => ?_) (Nat.le_refl _)
    obtain ⟨file, hold, -, rfl⟩ := FdTable.dup_ok hcall
    have hcopy := h.copied ht hold
    exact ⟨file.duplicate, fun e => lookup_insert .., hcopy⟩
  | dup2 pid oldFd newFd =>
    refine h.place (fun t fd t' ht hcall => ?_) (Nat.le_refl _)
    obtain ⟨r, hdup, hr⟩ := ok_of_map hcall
    cases hr
    obtain ⟨hfd, file, hold, hcase⟩ := FdTable.dup2_ok hdup
    have hcopy := h.copied ht hold
    rcases hcase with ⟨hsame, heq⟩ | ⟨-, heq⟩
    · refine ⟨file, fun e => ?_, hcopy⟩
      rw [heq, hfd]
      split_ifs with he
      · rw [← he, ← hsame, hold]
      · rfl
    · refine ⟨file.duplicate, fun e => ?_, hcopy⟩
      rw [heq, hfd, lookup_insert, FdTable.lookup_closeSilently]
      split_ifs <;> rfl
  | close pid fd =>
    simp only [FileRun.step]
    cases ht : s.tables[pid]? with
    | none => exact h
    | some t =>
      dsimp only
      split
      · exact h
      next hcall =>
        obtain ⟨-, rfl⟩ := FdTable.close_ok hcall
        exact h.close ht fun e f hf => (lookup_erase_some hf).2
  | fork parent child => exact h.fork parent child
  | read pid fd backend len =>
    refine h.modifyFile ((hshared (pid, fd) rfl).imp_left fun hstays file hfile => ?_)
    have hread := hstays file hfile
    split_ifs with hregular
    · unfold OpenFile.readRegular
      split_ifs with hreadable
      · rfl
      · dsimp only
        split
        · exact file.registered_offset backend
        next bytes hfound =>
          show usizeAdd (file.registered backend).offset _ = _
          rw [file.registered_offset]
          exact hread hregular (by simpa using hreadable) bytes hfound
    · rfl
  | write pid fd backend data =>
    refine h.modifyFile ((hshared (pid, fd) rfl).imp_left fun hstays file hfile => ?_)
    split_ifs with hregular
    · rw [file.writeRegular_offset]
      exact hstays file hfile hregular
    · rfl
  | lseek pid fd offset whence =>
    refine h.modifyFile ((hshared (pid, fd) rfl).imp_left fun hstays file hfile => ?_)
    have hseek := hstays file hfile
    unfold OpenFile.lseek
    split_ifs with hpipe
    · rfl
    · exact hseek (by simpa using hpipe)

theorem init : FileRun.init.Agree := by
  have hfile : ∀ {p e f}, FileRun.init.file p e = some f → f.offset = 0 ∧ e.toNat < 3 ∧ p < 3 := by
    intro p e f hf
    obtain ⟨t, ht, hopen⟩ := bind_eq_some_iff.mp hf
    obtain ⟨rfl, hp⟩ := bootTables_some ht
    obtain ⟨rfl, hlow, hhigh⟩ := FdTable.new_some hopen
    exact ⟨rfl, by omega, hp⟩
  constructor
  · intro p e q e' f g hf hg _
    rw [(hfile hf).1, (hfile hg).1]
  · intro p e f hf
    obtain ⟨-, he, hp⟩ := hfile hf
    show 3 * p + e.toNat < 9
    omega

end Agree

/-- A call through a descriptor moves no other descriptor. -/
theorem offset_step_of_ne (s : FileRun) {op : FileOp} {pid q : Nat} {fd e : Int}
    (hthrough : op.through = some (pid, fd)) (hne : (q, e) ≠ (pid, fd)) :
    (s.step op).offset q e = s.offset q e := by
  have hmodify : ∀ f : OpenFile → OpenFile, (s.modifyFile pid fd f).offset q e = s.offset q e := by
    intro f
    unfold offset
    rw [file_modifyFile, if_neg fun hand => hne (Prod.ext hand.1 hand.2)]
  cases op with
  | read | write | lseek =>
    cases hthrough
    exact hmodify _
  | openFile | dup | dup2 | close | fork => cases hthrough

end FileRun

/-- In every run on regular files in which no call moves the offset of a shared description, the
descriptors of one description have one offset, and a call moves no descriptor of another
description. -/
theorem offsets_shared {s : FileRun}
    (hrun : Reach FileRun.step (fun s op => op.Legal ∧ op.Unshared s) .init s) :
    (∀ p d q e f g, s.file p d = some f → s.file q e = some g →
      s.description p d = s.description q e → f.offset = g.offset) ∧
      ∀ (op : FileOp) (pid : Nat) (fd : Int), op.through = some (pid, fd) → ∀ q e,
        s.description q e ≠ s.description pid fd → (s.step op).offset q e = s.offset q e := by
  have h : s.Agree := hrun.invariant FileRun.Agree .init fun _ _ h hok => h.step hok.2
  refine ⟨h.same, fun op pid fd hthrough q e hdesc => s.offset_step_of_ne hthrough ?_⟩
  rintro ⟨rfl, rfl⟩
  exact hdesc rfl

instance : ∀ op, Decidable (FileOp.Legal op)
  | .openFile _ _ _ _ fileType => inferInstanceAs (Decidable (fileType = .regular))
  | .dup _ _ | .dup2 _ _ _ | .close _ _ | .fork _ _ | .read _ _ _ _ | .write _ _ _ _
  | .lseek _ _ _ _ => inferInstanceAs (Decidable True)

instance (s : FileRun) (pid : Nat) (fd : Int) : Decidable (s.Alone pid fd) :=
  inferInstanceAs (Decidable (∀ x ∈ s.tables.toList, ∀ y ∈ x.2.files.toList,
    (x.1, y.1) ≠ (pid, fd) → s.description x.1 y.1 ≠ s.description pid fd))

instance (file : OpenFile) : ∀ op, Decidable (FileOp.Stays file op)
  | .read _ _ _ _ | .write _ _ _ _ | .lseek _ _ _ _ => inferInstanceAs (Decidable (_ → _))
  | .openFile _ _ _ _ _ | .dup _ _ | .dup2 _ _ _ | .close _ _ | .fork _ _ =>
    inferInstanceAs (Decidable True)

instance (s : FileRun) (op : FileOp) : Decidable (FileOp.Unshared s op) :=
  inferInstanceAs (Decidable (∀ x ∈ op.through,
    (∀ file ∈ s.file x.1 x.2, op.Stays file) ∨ s.Alone x.1 x.2))

/-- A page cache in which every path has inode 7 and every read finds four bytes. -/
def fourBytes : Backend where
  registerPath _ := some 7
  logicalSize _ := 4
  cacheRead _ _ _ := some [1, 2, 3, 4]
  cacheWrite _ _ data := some data.length
  readFile _ := none

/-- A file is opened and read; its copies then seek to where they are. -/
def steadyCopies : List FileOp :=
  [.openFile 1 fourBytes "/etc/motd" 2 .regular, .read 1 3 fourBytes 4, .dup 1 3, .fork 1 9,
    .lseek 9 4 4 .start]

/-- Copies that seek to where they are stay together. -/
theorem offsets_shared_five_calls :
    Admitted FileRun.step (fun s op => op.Legal ∧ op.Unshared s) .init steadyCopies ∧
      (steadyCopies.foldl FileRun.step .init).offset 9 4 = some 4 ∧
      ((steadyCopies.foldl FileRun.step .init).step (.lseek 1 3 0 .start)).offset 2 0 =
        (steadyCopies.foldl FileRun.step .init).offset 2 0 := by
  have hadmitted : Admitted FileRun.step (fun s op => op.Legal ∧ op.Unshared s) .init
      steadyCopies := by decide +kernel
  exact ⟨hadmitted, by decide +kernel,
    (offsets_shared (Reach.start.foldl hadmitted)).2 _ 1 3 rfl 2 0 (by decide +kernel)⟩

/-- A file is opened, copied by `dup` and read through the first descriptor: the copy stays at 0. -/
theorem copies_drift_apart :
    ∃ s, Reach FileRun.step (fun _ op => op.Legal) .init s ∧
      s.description 1 3 = s.description 1 4 ∧ s.offset 1 3 = some 4 ∧ s.offset 1 4 = some 0 := by
  have hadmitted : Admitted FileRun.step (fun _ op => op.Legal) .init
      [.openFile 1 fourBytes "/etc/motd" 2 .regular, .dup 1 3, .read 1 3 fourBytes 4] := by
    decide +kernel
  exact ⟨_, Reach.start.foldl hadmitted, by decide +kernel⟩

end KnoxOS.Fs
