import Mathlib.Algebra.Group.Int.Defs
import Mathlib.Data.Int.Order.Basic
import KnoxOS.Lib.Map
import KnoxOS.Lib.Reach

/-!
# File descriptor tables

The descriptor table of `fs/fd.rs`. Descriptors are signed, the bounds of `close_range` are not,
and of the calls that take a new number only those that look for a free one keep below the limit:
`dup2` takes any target (`dup2_leaves_table`). The main theorem, `fd_table_discipline`, says what
the calls do where the conversions are harmless.
-/

namespace KnoxOS.Fs

open Lib List
open Std (TreeMap)

theorem ok_of_map {ε α β : Type} {x : Except ε α} {g : α → β} {b : β} (h : x.map g = .ok b) :
    ∃ a, x = .ok a ∧ g a = b := by
  cases x with
  | error e => cases h
  | ok a => exact ⟨a, rfl, Except.ok.inj h⟩

def maxFds : Nat := 256

inductive FileType where
  | regular
  | directory
  | charDevice
  | blockDevice
  | pipe
  | fifo
  | socket
  | symlink
  | stdio
  | procFile
deriving DecidableEq, Repr

abbrev OpenFlags := BitVec 32

namespace OpenFlags

def oRdonly : OpenFlags := 0x0000
def oWronly : OpenFlags := 0x0001
def oRdwr : OpenFlags := 0x0002
def oAppend : OpenFlags := 0x0400
def oNonblock : OpenFlags := 0x0800
def oCloexec : OpenFlags := 0x80000

def isReadable (flags : OpenFlags) : Bool := flags &&& 0x3 = oRdonly || flags &&& 0x3 = oRdwr

def isWritable (flags : OpenFlags) : Bool := flags &&& 0x3 = oWronly || flags &&& 0x3 = oRdwr

def isAppend (flags : OpenFlags) : Bool := flags &&& oAppend ≠ 0

end OpenFlags

structure OpenFile where
  path : String
  fileType : FileType
  flags : OpenFlags
  offset : Nat
  size : Nat
  refCount : Nat
  inode : Nat
  buffer : Option (List UInt8)
  cloexec : Bool
  nonblock : Bool
deriving DecidableEq, Repr

/-- The answers of the page cache (`register_path`, `logical_size`, `read` and `write`, with `none`
for an error) and of `read_file` to a call. -/
structure Backend where
  registerPath : String → Option Nat
  logicalSize : Nat → Nat
  cacheRead : Nat → Nat → Nat → Option (List UInt8)
  cacheWrite : Nat → Nat → List UInt8 → Option Nat
  readFile : String → Option (List UInt8)

namespace OpenFile

def new (path : String) (fileType : FileType) (flags : OpenFlags) : OpenFile where
  path := path
  fileType := fileType
  flags := flags
  offset := 0
  size := 0
  refCount := 1
  inode := 0
  buffer := none
  cloexec := flags &&& OpenFlags.oCloexec ≠ 0
  nonblock := flags &&& OpenFlags.oNonblock ≠ 0

def newStdio (fd : Int) : OpenFile where
  path := if fd = 0 then "/dev/stdin" else if fd = 1 then "/dev/stdout"
    else if fd = 2 then "/dev/stderr" else "/dev/unknown"
  fileType := .stdio
  flags := if fd = 0 then OpenFlags.oRdonly else OpenFlags.oWronly
  offset := 0
  size := 0
  refCount := 1
  inode := 0
  buffer := none
  cloexec := false
  nonblock := false

/-- The file of a new descriptor: a regular file is registered with the page cache. -/
def opened (backend : Backend) (path : String) (flags : OpenFlags) (fileType : FileType) :
    OpenFile :=
  let file := OpenFile.new path fileType flags
  if fileType = .regular then
    match backend.registerPath path with
    | some ino => { file with inode := ino, size := backend.logicalSize ino }
    | none => file
  else file

/-- The copy `dup` and `dup2` make. -/
def duplicate (file : OpenFile) : OpenFile := { file with refCount := 1, cloexec := false }

/-- The copy `fork_fd_table` makes. -/
def forked (file : OpenFile) : OpenFile := { file with refCount := 1 }

end OpenFile

structure FdTable where
  files : TreeMap Int OpenFile
  nextFd : Int

namespace FdTable

/-- `FdTable::new`: the three standard descriptors are open. -/
def new : FdTable where
  files := ((TreeMap.empty.insert 0 (.newStdio 0)).insert 1 (.newStdio 1)).insert 2 (.newStdio 2)
  nextFd := 3

/-- `fork_fd_table`. The child starts with the standard descriptors, even where the parent closed
them. -/
def fork : Option FdTable → FdTable
  | some t =>
    { files := t.files.toList.foldl (fun m e => m.insert e.1 e.2.forked) new.files
      nextFd := t.nextFd }
  | none => .new

def allocFd (t : FdTable) : Option Int :=
  let free := (range maxFds).find? fun n : Nat => !t.files.contains (n : Int)
  free.map fun n : Nat => (n : Int)

/-- `open`. -/
def openFile (t : FdTable) (backend : Backend) (path : String) (flags : OpenFlags)
    (fileType : FileType) : Except Int (Int × FdTable) :=
  match t.allocFd with
  | none => .error (-24)
  | some fd =>
    .ok (fd, { t with files := t.files.insert fd (.opened backend path flags fileType) })

/-- `close`, with the file whose object it releases. -/
def close (t : FdTable) (fd : Int) : Except Int (OpenFile × FdTable) :=
  match t.files[fd]? with
  | none => .error (-9)
  | some file => .ok (file, { t with files := t.files.erase fd })

/-- A call of `close` whose result is dropped, with the files released so far. -/
def closeSilently (st : List OpenFile × FdTable) (fd : Int) : List OpenFile × FdTable :=
  match st.2.close fd with
  | .error _ => st
  | .ok (file, t) => (st.1 ++ [file], t)

def setCloexec (t : FdTable) (fd : Int) (cloexec : Bool) : FdTable :=
  { t with files := t.files.modify fd fun file => { file with cloexec := cloexec } }

def setNonblock (t : FdTable) (fd : Int) (nonblock : Bool) : FdTable :=
  { t with files := t.files.modify fd fun file => { file with nonblock := nonblock } }

/-- The descriptors `close_range` works on. -/
def rangeFds (t : FdTable) (first last : BitVec 32) : List Int :=
  let lastFd := if last = BitVec.allOnes 32 then 2 ^ 31 - 1 else last.toInt
  let firstFd := first.toInt
  t.files.keys.filter fun fd => firstFd ≤ fd ∧ fd ≤ lastFd

/-- `close_range`, with the files whose objects it releases. -/
def closeRange (t : FdTable) (first last flags : BitVec 32) :
    Except Int (List OpenFile × FdTable) :=
  if last < first then .error (-22)
  else if flags &&& ~~~(0x2 ||| 0x4) ≠ 0 then .error (-22)
  else
    let fds := t.rangeFds first last
    if flags &&& 0x4 ≠ 0 then .ok ([], fds.foldl (fun t fd => t.setCloexec fd true) t)
    else .ok (fds.foldl closeSilently ([], t))

def dup (t : FdTable) (oldFd : Int) : Except Int (Int × FdTable) :=
  match t.files[oldFd]? with
  | none => .error (-9)
  | some file =>
    match t.allocFd with
    | none => .error (-24)
    | some newFd => .ok (newFd, { t with files := t.files.insert newFd file.duplicate })

/-- `dup2`, with the file whose object it releases. -/
def dup2 (t : FdTable) (oldFd newFd : Int) : Except Int (Int × List OpenFile × FdTable) :=
  match t.files[oldFd]? with
  | none => .error (-9)
  | some file =>
    if oldFd = newFd then .ok (newFd, [], t)
    else
      let (released, t) := closeSilently ([], t) newFd
      .ok (newFd, released, { t with files := t.files.insert newFd file.duplicate })

/-! ### What the calls do to the table -/

variable {t t' : FdTable} {fd : Int} {first last flags : BitVec 32}

/-- A number that is free, in range, and below which every number is taken. -/
def LowestUnused (t : FdTable) (fd : Int) : Prop :=
  0 ≤ fd ∧ fd < 256 ∧ t.files[fd]? = none ∧ ∀ d : Int, 0 ≤ d → d < fd → t.files[d]?.isSome = true

/-- Every number in range is taken. -/
def Full (t : FdTable) : Prop := ∀ d : Int, 0 ≤ d → d < 256 → t.files[d]?.isSome = true

/-- A descriptor that is found is the lowest unused one. -/
theorem allocFd_some (h : t.allocFd = some fd) : t.LowestUnused fd := by
  obtain ⟨n, hfind, rfl⟩ := Option.map_eq_some_iff.mp h
  obtain ⟨hfree, hrange, hbefore⟩ := find?_range_eq_some.mp hfind
  have hlt : n < 256 := mem_range.mp hrange
  refine ⟨by omega, by omega, ?_, fun d hd hlt => ?_⟩
  · exact TreeMap.getElem?_eq_none_of_contains_eq_false (by simpa using hfree)
  · obtain ⟨m, rfl⟩ := Int.eq_ofNat_of_zero_le hd
    simpa using hbefore m (by omega)

theorem allocFd_none (h : t.allocFd = none) : t.Full := by
  intro d hd hlt
  obtain ⟨m, rfl⟩ := Int.eq_ofNat_of_zero_le hd
  have hm : m < maxFds := by
    show m < 256
    omega
  simpa using find?_range_eq_none.mp (Option.map_eq_none_iff.mp h) m hm

/-- What a fresh table holds. -/
theorem new_some {file : OpenFile} (h : new.files[fd]? = some file) :
    file = .newStdio fd ∧ 0 ≤ fd ∧ fd < 3 := by
  change (((TreeMap.empty.insert 0 (OpenFile.newStdio 0)).insert 1 (.newStdio 1)).insert 2
    (.newStdio 2))[fd]? = some file at h
  rw [lookup_insert, lookup_insert, lookup_insert] at h
  split_ifs at h with h2 h1 h0
  · exact ⟨by rw [← h2, Option.some.inj h], by omega⟩
  · exact ⟨by rw [← h1, Option.some.inj h], by omega⟩
  · exact ⟨by rw [← h0, Option.some.inj h], by omega⟩
  · simp at h

/-- What the table of a child holds. -/
theorem lookup_fork (parent : Option FdTable) (fd : Int) :
    (fork parent).files[fd]? =
      ((parent.bind (·.files[fd]?)).map OpenFile.forked).or new.files[fd]? := by
  cases parent with
  | none => rfl
  | some t => exact lookup_foldl_insert_toList OpenFile.forked t.files new.files fd

section

variable {oldFd newFd : Int}

/-- `open` takes the lowest free number. -/
theorem openFile_ok {backend : Backend} {path : String} {flags : OpenFlags} {fileType : FileType}
    (h : t.openFile backend path flags fileType = .ok (fd, t')) :
    t.LowestUnused fd ∧
      t' = ⟨t.files.insert fd (.opened backend path flags fileType), t.nextFd⟩ := by
  unfold openFile at h
  split at h
  · cases h
  next halloc =>
    cases h
    exact ⟨allocFd_some halloc, rfl⟩

/-- `dup` copies a file to the lowest free number. -/
theorem dup_ok (h : t.dup oldFd = .ok (fd, t')) :
    ∃ file, t.files[oldFd]? = some file ∧ t.LowestUnused fd ∧
      t' = ⟨t.files.insert fd file.duplicate, t.nextFd⟩ := by
  unfold dup at h
  split at h
  · cases h
  next file hold =>
    split at h
    · cases h
    next halloc =>
      cases h
      exact ⟨file, hold, allocFd_some halloc, rfl⟩

/-- `dup2` closes its target and copies a file there, unless it is the same descriptor. -/
theorem dup2_ok {r : List OpenFile × FdTable} (h : t.dup2 oldFd newFd = .ok (fd, r)) :
    fd = newFd ∧ ∃ file, t.files[oldFd]? = some file ∧ (oldFd = newFd ∧ r = ([], t) ∨
      oldFd ≠ newFd ∧ r = ((closeSilently ([], t) newFd).1,
        ⟨(closeSilently ([], t) newFd).2.files.insert newFd file.duplicate,
          (closeSilently ([], t) newFd).2.nextFd⟩)) := by
  unfold dup2 at h
  split at h
  · cases h
  next file hold =>
    split_ifs at h with hsame
    · cases h
      exact ⟨rfl, file, hold, .inl ⟨hsame, rfl⟩⟩
    · cases h
      exact ⟨rfl, file, hold, .inr ⟨hsame, rfl⟩⟩

theorem close_ok {file : OpenFile} (h : t.close fd = .ok (file, t')) :
    t.files[fd]? = some file ∧ t' = ⟨t.files.erase fd, t.nextFd⟩ := by
  unfold close at h
  split at h
  · cases h
  next hfile =>
    cases h
    exact ⟨hfile, rfl⟩

end

/-- What a dropped `close` leaves. -/
theorem lookup_closeSilently (st : List OpenFile × FdTable) (fd d : Int) :
    (closeSilently st fd).2.files[d]? = if fd = d then none else st.2.files[d]? := by
  unfold closeSilently close
  cases hfile : st.2.files[fd]? with
  | none =>
    split_ifs with hd
    · rw [← hd, hfile]
    · rfl
  | some file => exact lookup_erase ..

theorem lookup_foldl_closeSilently (fds : List Int) (st : List OpenFile × FdTable) (d : Int) :
    (fds.foldl closeSilently st).2.files[d]? = if d ∈ fds then none else st.2.files[d]? := by
  induction fds generalizing st with
  | nil => simp
  | cons fd fds ih =>
    rw [foldl_cons, ih, lookup_closeSilently]
    by_cases hd : fd = d
    · simp [hd]
    · simp [Ne.symm hd, hd]

/-- The files of a range that is marked. -/
theorem lookup_foldl_setCloexec (fds : List Int) (t : FdTable) (d : Int) :
    (fds.foldl (fun t fd => t.setCloexec fd true) t).files[d]? =
      if d ∈ fds then t.files[d]?.map fun file => { file with cloexec := true }
      else t.files[d]? := by
  have hfiles : (fds.foldl (fun t fd => t.setCloexec fd true) t).files =
      fds.foldl (fun m fd => m.modify fd fun file => { file with cloexec := true }) t.files := by
    induction fds generalizing t with
    | nil => rfl
    | cons fd fds ih => rw [foldl_cons, foldl_cons, ih]; rfl
  rw [hfiles]
  exact lookup_foldl_modify (f := fun file : OpenFile => { file with cloexec := true })
    (fun _ => rfl) fds t.files d

theorem mem_rangeFds {first last : BitVec 32} :
    fd ∈ t.rangeFds first last ↔ t.files[fd]?.isSome = true ∧ first.toInt ≤ fd ∧
      fd ≤ if last = BitVec.allOnes 32 then 2 ^ 31 - 1 else last.toInt := by
  unfold rangeFds
  rw [mem_filter, TreeMap.mem_keys, ← TreeMap.isSome_getElem?_iff_mem, decide_eq_true_eq]

/-- What `close_range` leaves. -/
theorem lookup_closeRange {released : List OpenFile}
    (h : t.closeRange first last flags = .ok (released, t')) (d : Int) :
    t'.files[d]? = if d ∈ t.rangeFds first last then
      (if flags &&& 0x4 ≠ 0 then t.files[d]?.map fun file => { file with cloexec := true }
        else none) else t.files[d]? := by
  unfold closeRange at h
  split_ifs at h with horder hflags hcloexec
  · obtain ⟨-, rfl⟩ := Prod.mk.inj (Except.ok.inj h)
    rw [lookup_foldl_setCloexec, if_pos hcloexec]
  · have ht : t' = ((t.rangeFds first last).foldl closeSilently ([], t)).2 := by
      rw [Except.ok.inj h]
    rw [ht, lookup_foldl_closeSilently, if_neg hcloexec]

end FdTable

/-- The kernel, `init` and the desktop have a table each. -/
def bootTables : TreeMap Nat FdTable :=
  ((TreeMap.empty.insert 0 .new).insert 1 .new).insert 2 .new

theorem bootTables_some {pid : Nat} {t : FdTable} (h : bootTables[pid]? = some t) :
    t = .new ∧ pid < 3 := by
  unfold bootTables at h
  rw [lookup_insert, lookup_insert, lookup_insert] at h
  split_ifs at h with h2 h1 h0
  · exact ⟨(Option.some.inj h).symm, by omega⟩
  · exact ⟨(Option.some.inj h).symm, by omega⟩
  · exact ⟨(Option.some.inj h).symm, by omega⟩
  · simp at h

/-! ### Runs -/

/-- The calls on a table. -/
inductive FdOp where
  | openFile (backend : Backend) (path : String) (flags : OpenFlags) (fileType : FileType)
  | dup (oldFd : Int)
  | dup2 (oldFd newFd : Int)
  | close (fd : Int)
  | closeRange (first last flags : BitVec 32)

/-- The table after a call; a call that fails leaves it as it is. -/
def FdTable.step (t : FdTable) : FdOp → FdTable
  | .openFile backend path flags fileType =>
    ((t.openFile backend path flags fileType).toOption.map Prod.snd).getD t
  | .dup oldFd => ((t.dup oldFd).toOption.map Prod.snd).getD t
  | .dup2 oldFd newFd => ((t.dup2 oldFd newFd).toOption.map fun r => r.2.2).getD t
  | .close fd => ((t.close fd).toOption.map Prod.snd).getD t
  | .closeRange first last flags =>
    ((t.closeRange first last flags).toOption.map Prod.snd).getD t

/-- The conversions of the call are harmless: the target of `dup2` is in range if there is a file to
copy, and a bound of `close_range` above the signed range, but for the last number, selects no open
descriptor. -/
def FdOp.Fits (t : FdTable) : FdOp → Prop
  | .dup2 oldFd newFd => t.files[oldFd]? = none ∨ 0 ≤ newFd ∧ newFd < 256
  | .closeRange first last _ =>
    if first.toNat < 2 ^ 31 then
      last.toNat < 2 ^ 31 ∨ last = BitVec.allOnes 32 ∨ ∀ d ∈ t.files.keys, d < first.toInt
    else last ≠ BitVec.allOnes 32 ∨ t.files.keys = []
  | _ => True

/-- What a call has to do: `open` and `dup` take the lowest free number or find none; `dup2` does
nothing for a target out of range; `close_range` removes, or marks close-on-exec, exactly the open
descriptors in its unsigned range. -/
def FdOp.Meets (t : FdTable) : FdOp → Prop
  | .openFile backend path flags fileType =>
    match t.openFile backend path flags fileType with
    | .ok (fd, _) => t.LowestUnused fd
    | .error code => code = -24 ∧ t.Full
  | .dup oldFd =>
    match t.dup oldFd with
    | .ok (fd, _) => t.LowestUnused fd
    | .error code => code = -9 ∧ t.files[oldFd]? = none ∨ code = -24 ∧ t.Full
  | .dup2 oldFd newFd => ¬(0 ≤ newFd ∧ newFd < 256) → ∃ code, t.dup2 oldFd newFd = .error code
  | .close _ => True
  | .closeRange first last flags =>
    match t.closeRange first last flags with
    | .ok (_, t') => ∀ d : Int, t'.files[d]? =
        if first ≤ BitVec.ofInt 32 d ∧ BitVec.ofInt 32 d ≤ last then
          (if flags &&& 0x4 ≠ 0 then t.files[d]?.map fun file => { file with cloexec := true }
            else none) else t.files[d]?
    | .error code => code = -22 ∧ (last < first ∨ flags &&& ~~~(0x2 ||| 0x4) ≠ 0)

/-- Every open descriptor is in range. -/
def FdTable.Bounded (t : FdTable) : Prop :=
  ∀ d : Int, t.files[d]?.isSome = true → 0 ≤ d ∧ d < 256

namespace FdTable

variable {t : FdTable}

theorem Bounded.insert (h : t.Bounded) (hfd : 0 ≤ fd ∧ fd < 256) (file : OpenFile) (nextFd : Int) :
    Bounded ⟨t.files.insert fd file, nextFd⟩ := by
  intro d hd
  rw [lookup_insert] at hd
  split_ifs at hd with heq
  · rw [← heq]
    exact hfd
  · exact h d hd

theorem Bounded.shrink (h : t.Bounded) {t' : FdTable}
    (hsub : ∀ d : Int, t'.files[d]?.isSome = true → t.files[d]?.isSome = true) : t'.Bounded :=
  fun d hd => h d (hsub d hd)

/-- A call that fails leaves the table as it is. -/
theorem Bounded.of_ok (h : t.Bounded) {α : Type} {call : Except Int α} {after : α → FdTable}
    (hok : ∀ r, call = .ok r → (after r).Bounded) : ((call.toOption.map after).getD t).Bounded := by
  cases call with
  | error code => exact h
  | ok r => exact hok r rfl

/-- One call. -/
theorem Bounded.step (h : t.Bounded) {op : FdOp} (hfits : op.Fits t) : (t.step op).Bounded := by
  cases op with
  | openFile backend path flags fileType =>
    refine h.of_ok fun r hcall => ?_
    obtain ⟨⟨hlow, hhigh, -⟩, heq⟩ := openFile_ok hcall
    rw [heq]
    exact h.insert ⟨hlow, hhigh⟩ _ _
  | dup oldFd =>
    refine h.of_ok fun r hcall => ?_
    obtain ⟨file, -, ⟨hlow, hhigh, -⟩, heq⟩ := dup_ok hcall
    rw [heq]
    exact h.insert ⟨hlow, hhigh⟩ _ _
  | dup2 oldFd newFd =>
    refine h.of_ok fun r hcall => ?_
    obtain ⟨-, file, hold, ⟨-, heq⟩ | ⟨-, heq⟩⟩ := dup2_ok hcall
    · rw [heq]
      exact h
    · have hrange := hfits.resolve_left (by rw [hold]; exact nofun)
      rw [heq]
      refine (h.shrink fun d hd => ?_).insert hrange _ _
      rw [lookup_closeSilently] at hd
      split_ifs at hd
      · cases hd
      · exact hd
  | close fd =>
    refine h.of_ok fun r hcall => h.shrink fun d hd => ?_
    rw [(close_ok hcall).2, lookup_erase] at hd
    split_ifs at hd
    · cases hd
    · exact hd
  | closeRange first last flags =>
    refine h.of_ok fun r hcall => h.shrink fun d hd => ?_
    rw [lookup_closeRange hcall] at hd
    split_ifs at hd
    · rwa [Option.isSome_map] at hd
    · cases hd
    · exact hd

theorem Bounded.new : FdTable.new.Bounded := by
  intro d hd
  obtain ⟨file, hfile⟩ := Option.isSome_iff_exists.mp hd
  have := (new_some hfile).2
  omega

/-- With harmless conversions the signed comparisons select what the unsigned ones do. -/
theorem Bounded.mem_rangeFds_iff (h : t.Bounded) {d : Int} (hopen : t.files[d]?.isSome = true)
    (horder : first ≤ last) (hfits : FdOp.Fits t (.closeRange first last flags)) :
    d ∈ t.rangeFds first last ↔ first ≤ BitVec.ofInt 32 d ∧ BitVec.ofInt 32 d ≤ last := by
  have hd := h d hopen
  have hkey : d ∈ t.files.keys :=
    TreeMap.mem_keys.mpr (TreeMap.isSome_getElem?_iff_mem.mp hopen)
  have hnat : (BitVec.ofInt 32 d).toNat = d.toNat := by
    rw [BitVec.toNat_ofInt]
    omega
  rw [BitVec.le_def] at horder
  have hlast : last = BitVec.allOnes 32 ↔ last.toNat = 2 ^ 32 - 1 := by
    rw [← BitVec.toNat_inj, BitVec.toNat_allOnes]
  have hltoInt := BitVec.toInt_eq_toNat_cond last
  have hftoInt := BitVec.toInt_eq_toNat_cond first
  rw [mem_rangeFds, and_iff_right hopen, BitVec.le_def, BitVec.le_def]
  simp only [FdOp.Fits] at hfits
  by_cases hsmall : first.toNat < 2 ^ 31
  · rw [if_pos hsmall] at hfits
    by_cases hmax : last = BitVec.allOnes 32
    · rw [if_pos hmax]
      have := hlast.mp hmax
      omega
    · rw [if_neg hmax]
      rcases hfits with hfits | hfits | hfits
      · omega
      · exact absurd hfits hmax
      · -- every open descriptor is below the range
        have := hfits d hkey
        exact iff_of_false (by omega) (by omega)
  · rw [if_neg hsmall] at hfits
    rcases hfits with hfits | hfits
    · -- both bounds are negative numbers to the code
      rw [if_neg hfits]
      exact iff_of_false (by omega) (by omega)
    · rw [hfits] at hkey
      cases hkey

/-- A call whose conversions are harmless does what it has to. -/
theorem Bounded.meets (h : t.Bounded) {op : FdOp} (hfits : op.Fits t) : op.Meets t := by
  cases op with
  | openFile backend path flags fileType =>
    simp only [FdOp.Meets, FdTable.openFile]
    cases halloc : t.allocFd with
    | none => exact ⟨rfl, allocFd_none halloc⟩
    | some fd => exact allocFd_some halloc
  | dup oldFd =>
    simp only [FdOp.Meets, FdTable.dup]
    cases hold : t.files[oldFd]? with
    | none => exact .inl ⟨rfl, rfl⟩
    | some file =>
      cases halloc : t.allocFd with
      | none => exact .inr ⟨rfl, allocFd_none halloc⟩
      | some fd => exact allocFd_some halloc
  | dup2 oldFd newFd =>
    intro hout
    rcases hfits with hold | hrange
    · refine ⟨-9, ?_⟩
      unfold FdTable.dup2
      rw [hold]
    · exact absurd hrange hout
  | close fd => trivial
  | closeRange first last flags =>
    simp only [FdOp.Meets]
    cases hcall : t.closeRange first last flags with
    | error code =>
      unfold FdTable.closeRange at hcall
      split_ifs at hcall with horder hflags
      · exact ⟨(Except.error.inj hcall).symm, .inl horder⟩
      · exact ⟨(Except.error.inj hcall).symm, .inr hflags⟩
    | ok result =>
      have horder : first ≤ last := by
        by_contra hlt
        unfold FdTable.closeRange at hcall
        rw [if_pos (BitVec.not_le.mp hlt)] at hcall
        cases hcall
      intro d
      rw [lookup_closeRange hcall]
      by_cases hopen : t.files[d]?.isSome = true
      · simp only [h.mem_rangeFds_iff hopen horder hfits]
      · -- a descriptor that is not open stays so on either side
        have hnone := Option.not_isSome_iff_eq_none.mp hopen
        rw [hnone]
        split_ifs <;> rfl

end FdTable

/-- In every run whose calls have harmless conversions, every open descriptor is in `[0, 256)`, and
each further such call does what it has to. -/
theorem fd_table_discipline {t : FdTable}
    (hrun : Reach FdTable.step (fun t op => op.Fits t) .new t) :
    (∀ d : Int, t.files[d]?.isSome = true → 0 ≤ d ∧ d < 256) ∧
      ∀ op : FdOp, op.Fits t → op.Meets t := by
  have h : t.Bounded := hrun.invariant FdTable.Bounded .new fun _ _ h hfits => h.step hfits
  exact ⟨h, fun _ hfits => h.meets hfits⟩

instance (t : FdTable) : ∀ op, Decidable (FdOp.Fits t op)
  | .dup2 oldFd newFd =>
    inferInstanceAs (Decidable (t.files[oldFd]? = none ∨ 0 ≤ newFd ∧ newFd < 256))
  | .closeRange first _ _ => inferInstanceAs
      (Decidable (if _ < _ then _ ∨ _ ∨ ∀ d ∈ t.files.keys, d < first.toInt else _ ∨ _))
  | .openFile _ _ _ _ | .dup _ | .close _ => inferInstanceAs (Decidable True)

/-- Standard output is copied to 7 and to the lowest free number, and all above 5 closed. -/
def harmlessCalls : List FdOp :=
  [.dup2 1 7, .dup 7, .close 0, .closeRange 5 0xffffffff 0]

theorem fd_table_discipline_four_calls :
    Admitted FdTable.step (fun t op => op.Fits t) .new harmlessCalls ∧
      (FdOp.dup 3).Meets (harmlessCalls.foldl FdTable.step .new) := by
  have hadmitted : Admitted FdTable.step (fun t op => op.Fits t) .new harmlessCalls := by
    decide +kernel
  exact ⟨hadmitted, (fd_table_discipline (Reach.start.foldl hadmitted)).2 (.dup 3) trivial⟩

/-- `dup2` to 300 succeeds, and 300 is open. -/
theorem dup2_leaves_table :
    ∃ t, Reach FdTable.step (fun _ _ => True) .new t ∧ t.files[(300 : Int)]?.isSome = true :=
  ⟨_, Reach.free [.dup2 1 300], by decide +kernel⟩

end KnoxOS.Fs
