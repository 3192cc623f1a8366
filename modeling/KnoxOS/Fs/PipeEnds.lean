import Mathlib.Data.List.Nodup
import KnoxOS.Fs.Fd
import KnoxOS.Lib.Parse

/-!
# Pipe ends

The pipes of `ipc/mod.rs` count their readers and writers, and the descriptors of `fs/fd.rs` that
are open on them sit in one table per process. `close` is the only call that takes a descriptor off
a count: `dup`, `dup2` and `fork_fd_table` copy pipe descriptors without counting the copies,
`close_cloexec_fds` and `destroy_fd_table` drop them without a word
(`duplicated_writer_closes_pipe`), and a pipe whose descriptors find no room stays counted. The
main theorem, `pipe_counts_live`, says that without these the counts are right, and what reads and
writes then answer.
-/

namespace KnoxOS.Fs

open Lib List FdTable OpenFile
open Std (TreeMap)

/-! ### Pipes -/

def pipeBufSize : Nat := 65536

inductive PipeState where
  | «open»
  | readClosed
  | writeClosed
  | closed
deriving DecidableEq, Repr

structure Pipe where
  id : Nat
  buffer : List UInt8
  state : PipeState
  readers : Nat
  writers : Nat
  bytesWritten : Nat
  bytesRead : Nat
deriving DecidableEq, Repr

namespace Pipe

def new (id : Nat) : Pipe := ⟨id, [], .open, 1, 1, 0, 0⟩

def write (p : Pipe) (data : List UInt8) : Except Int (Nat × Pipe) :=
  if p.state = .readClosed ∨ p.state = .closed then .error (-32)
  else
    let toWrite := min data.length (pipeBufSize - p.buffer.length)
    if toWrite = 0 then .error (-11)
    else
      .ok (toWrite,
        { p with
          buffer := p.buffer ++ data.take toWrite
          bytesWritten := p.bytesWritten + toWrite })

/-- `read` into a buffer of `len` bytes. -/
def read (p : Pipe) (len : Nat) : Except Int (List UInt8 × Pipe) :=
  if p.buffer = [] then
    if p.state = .writeClosed ∨ p.state = .closed then .ok ([], p) else .error (-11)
  else
    let toRead := min len p.buffer.length
    .ok (p.buffer.take toRead,
      { p with buffer := p.buffer.drop toRead, bytesRead := p.bytesRead + toRead })

def closeRead (p : Pipe) : Pipe :=
  let readers := p.readers - 1
  { p with
    readers := readers
    state := if readers = 0 then
      (if p.state = .writeClosed then .closed else .readClosed) else p.state }

def closeWrite (p : Pipe) : Pipe :=
  let writers := p.writers - 1
  { p with
    writers := writers
    state := if writers = 0 then
      (if p.state = .readClosed then .closed else .writeClosed) else p.state }

def isClosed (p : Pipe) : Bool := p.state = .closed

end Pipe

/-- A change to the first pipe with an id. -/
def modifyPipe (id : Nat) (f : Pipe → Pipe) : List Pipe → List Pipe
  | [] => []
  | p :: pipes => if p.id = id then f p :: pipes else p :: modifyPipe id f pipes

/-- A call on the pipe with an id. -/
def onPipe {α : Type} (pipes : List Pipe) (id : Nat) (call : Pipe → Except Int (α × Pipe)) :
    Except Int (α × List Pipe) :=
  match pipes.find? (·.id = id) with
  | none => .error (-9)
  | some p => (call p).map fun r => (r.1, modifyPipe id (fun _ => r.2) pipes)

def pipeWrite (pipes : List Pipe) (id : Nat) (data : List UInt8) : Except Int (Nat × List Pipe) :=
  onPipe pipes id fun p => p.write data

def pipeRead (pipes : List Pipe) (id len : Nat) : Except Int (List UInt8 × List Pipe) :=
  onPipe pipes id fun p => p.read len

/-- `pipe_close`: pipes with both ends closed are dropped. -/
def pipeClose (pipes : List Pipe) (id : Nat) (isReadEnd : Bool) : List Pipe :=
  (modifyPipe id (fun p => if isReadEnd then p.closeRead else p.closeWrite) pipes).filter
    fun p => !p.isClosed

/-! ### The kernel -/

def pipeIdFromPath (path : String) : Option Nat := (afterTag "pipe:" path).bind parseU32

/-- The pipe a file is open on, and whether on its write end. -/
def OpenFile.pipeEnd (file : OpenFile) : Option (Nat × Bool) :=
  if file.fileType = .pipe then
    (pipeIdFromPath file.path).map fun id => (id, file.flags.isWritable) else none

/-- The pipe table, its next id, and the descriptor table of each process. -/
structure Kernel where
  pipes : List Pipe
  nextPipeId : Nat
  tables : TreeMap Nat FdTable

/-- The table without its close-on-exec descriptors, which are removed, not closed. -/
def FdTable.withoutCloexec (t : FdTable) : FdTable :=
  let fds := (t.files.toList.filter fun e =>
    e.2.cloexec || e.2.flags &&& OpenFlags.oCloexec ≠ 0).map Prod.fst
  { t with files := fds.foldl (fun m fd => m.erase fd) t.files }

/-- Why `pipe` fails. -/
inductive PipeError where
  | badFileDescriptor
  | tooManyFiles
deriving DecidableEq, Repr

namespace Kernel

def init : Kernel := ⟨[], 1, bootTables⟩

/-- What `close` does to the pipes for the file it removed. -/
def release (pipes : List Pipe) (file : OpenFile) : List Pipe :=
  match file.pipeEnd with
  | some (id, writable) => pipeClose pipes id (!writable)
  | none => pipes

/-- The file of a pipe descriptor. -/
def pipeFile (id : Nat) (flags : OpenFlags) : OpenFile :=
  .new ("pipe:" ++ toString id) .pipe flags

/-- `sys_pipe` and `sys_pipe2`: the pipe stays if its descriptors find no room. -/
def sysPipe2 (k : Kernel) (pid : Nat) (flags : BitVec 32) : Except PipeError (Int × Int) × Kernel :=
  let id := k.nextPipeId
  let k : Kernel :=
    { k with pipes := k.pipes ++ [Pipe.new id], nextPipeId := (k.nextPipeId + 1) % 2 ^ 32 }
  match k.tables[pid]? with
  | none => (.error .badFileDescriptor, k)
  | some t =>
    match t.allocFd with
    | none => (.error .tooManyFiles, k)
    | some readFd =>
      let t := { t with files := t.files.insert readFd (pipeFile id 0) }
      match t.allocFd with
      | none => (.error .tooManyFiles, { k with tables := k.tables.insert pid t })
      | some writeFd =>
        let t := { t with files := t.files.insert writeFd (pipeFile id 1) }
        let t := if flags &&& 0o2000000 ≠ 0 then
          (t.setCloexec readFd true).setCloexec writeFd true else t
        let t := if flags &&& 0o4000 ≠ 0 then
          (t.setNonblock readFd true).setNonblock writeFd true else t
        (.ok (readFd, writeFd), { k with tables := k.tables.insert pid t })

/-- A call on the table of a process, with the files whose objects it releases. -/
def onTable (k : Kernel) (pid : Nat) (f : FdTable → Except Int (List OpenFile × FdTable)) :
    Kernel :=
  match k.tables[pid]? with
  | none => k
  | some t =>
    match f t with
    | .error _ => k
    | .ok (released, t) =>
      { k with pipes := released.foldl release k.pipes, tables := k.tables.insert pid t }

def forkFdTable (k : Kernel) (parent child : Nat) : Kernel :=
  { k with tables := k.tables.insert child (.fork k.tables[parent]?) }

def closeCloexecFds (k : Kernel) (pid : Nat) : Kernel :=
  match k.tables[pid]? with
  | none => k
  | some t => { k with tables := k.tables.insert pid t.withoutCloexec }

def destroyFdTable (k : Kernel) (pid : Nat) : Kernel := { k with tables := k.tables.erase pid }

def createFdTable (k : Kernel) (pid : Nat) : Kernel := { k with tables := k.tables.insert pid .new }

end Kernel

/-- The calls: on descriptors, by a process, and reads and writes of pipes. -/
inductive PipeOp where
  | pipe2 (pid : Nat) (flags : BitVec 32)
  | openFile (pid : Nat) (backend : Backend) (path : String) (flags : OpenFlags)
      (fileType : FileType)
  | dup (pid : Nat) (oldFd : Int)
  | dup2 (pid : Nat) (oldFd newFd : Int)
  | close (pid : Nat) (fd : Int)
  | closeRange (pid : Nat) (first last flags : BitVec 32)
  | fork (parent child : Nat)
  | exec (pid : Nat)
  | exit (pid : Nat)
  | spawn (pid : Nat)
  | read (id len : Nat)
  | write (id : Nat) (data : List UInt8)

/-- The kernel after a call. -/
def Kernel.step (k : Kernel) : PipeOp → Kernel
  | .pipe2 pid flags => (k.sysPipe2 pid flags).2
  | .openFile pid backend path flags fileType => k.onTable pid fun t =>
    (t.openFile backend path flags fileType).map fun r => ([], r.2)
  | .dup pid oldFd => k.onTable pid fun t => (t.dup oldFd).map fun r => ([], r.2)
  | .dup2 pid oldFd newFd => k.onTable pid fun t => (t.dup2 oldFd newFd).map fun r => r.2
  | .close pid fd => k.onTable pid fun t => (t.close fd).map fun r => ([r.1], r.2)
  | .closeRange pid first last flags => k.onTable pid fun t => t.closeRange first last flags
  | .fork parent child => k.forkFdTable parent child
  | .exec pid => k.closeCloexecFds pid
  | .exit pid => k.destroyFdTable pid
  | .spawn pid => k.createFdTable pid
  | .read id len =>
    match pipeRead k.pipes id len with
    | .error _ => k
    | .ok (_, pipes) => { k with pipes := pipes }
  | .write id data =>
    match pipeWrite k.pipes id data with
    | .error _ => k
    | .ok (_, pipes) => { k with pipes := pipes }

/-! ### Counting descriptors -/

/-- 1 if the file is open on that end of the pipe. -/
def OpenFile.holdsEnd (id : Nat) (writable : Bool) (file : OpenFile) : Nat :=
  if file.pipeEnd = some (id, writable) then 1 else 0

/-- The descriptors of a table that are open on an end of a pipe. -/
def FdTable.ends (t : FdTable) (id : Nat) (writable : Bool) : Nat :=
  sumBy (OpenFile.holdsEnd id writable) t.files

/-- The descriptors of all tables that are open on an end of a pipe. -/
def Kernel.ends (k : Kernel) (id : Nat) (writable : Bool) : Nat :=
  sumBy (fun t => t.ends id writable) k.tables

/-- The table has no descriptor on a pipe. -/
def FdTable.NoPipes (t : FdTable) : Prop :=
  ∀ e ∈ t.files.toList, e.2.pipeEnd = none

instance (t : FdTable) : Decidable t.NoPipes :=
  inferInstanceAs (Decidable (∀ e ∈ t.files.toList, e.2.pipeEnd = none))

theorem OpenFile.holdsEnd_of_none {file : OpenFile} (h : file.pipeEnd = none) (id : Nat)
    (writable : Bool) : file.holdsEnd id writable = 0 := by
  unfold holdsEnd
  rw [h, if_neg nofun]

theorem FdTable.NoPipes.ends_eq_zero {t : FdTable} (h : t.NoPipes) (id : Nat) (writable : Bool) :
    t.ends id writable = 0 :=
  sumBy_eq_zero fun _ _ hfile =>
    holdsEnd_of_none (h _ (mem_toList_iff.mpr hfile)) id writable

/-- The sum of the ends the files are open on. -/
def endsOf (id : Nat) (writable : Bool) (files : List OpenFile) : Nat :=
  (files.map (OpenFile.holdsEnd id writable)).sum

namespace FdTable

theorem ends_insert {t : FdTable} {fd : Int} (hfree : t.files[fd]? = none) (file : OpenFile)
    (nextFd : Int) (id : Nat) (writable : Bool) :
    FdTable.ends ⟨t.files.insert fd file, nextFd⟩ id writable =
      t.ends id writable + file.holdsEnd id writable := by
  have h := sumBy_insert (holdsEnd id writable) t.files fd file
  rw [hfree] at h
  exact h

theorem ends_insert_of_none {t : FdTable} {fd : Int} (hfree : t.files[fd]? = none) {file : OpenFile}
    (hnone : file.pipeEnd = none) (nextFd : Int) (id : Nat) (writable : Bool) :
    FdTable.ends ⟨t.files.insert fd file, nextFd⟩ id writable = t.ends id writable := by
  rw [ends_insert hfree, holdsEnd_of_none hnone, Nat.add_zero]

section

variable (t : FdTable) (fd : Int)

/-- Marking a descriptor. -/
theorem ends_modify {g : OpenFile → OpenFile} (hg : ∀ file, (g file).pipeEnd = file.pipeEnd)
    (nextFd : Int) (id : Nat) (writable : Bool) :
    FdTable.ends ⟨t.files.modify fd g, nextFd⟩ id writable = t.ends id writable := by
  have h := sumBy_modify (holdsEnd id writable) t.files fd g
  have hsame : ∀ file : OpenFile, (g file).holdsEnd id writable = file.holdsEnd id writable := by
    intro file
    unfold holdsEnd
    rw [hg]
  simp only [hsame] at h
  exact Nat.add_right_cancel h

@[simp] theorem ends_setCloexec (b : Bool) (id : Nat) (writable : Bool) :
    (t.setCloexec fd b).ends id writable = t.ends id writable :=
  t.ends_modify fd (g := fun file => { file with cloexec := b }) (fun _ => rfl) t.nextFd id writable

@[simp] theorem ends_setNonblock (b : Bool) (id : Nat) (writable : Bool) :
    (t.setNonblock fd b).ends id writable = t.ends id writable :=
  t.ends_modify fd (g := fun file => { file with nonblock := b }) (fun _ => rfl) t.nextFd id
    writable

end

/-- A `close` takes the file it releases off the table. -/
theorem ends_closeSilently (st : List OpenFile × FdTable) (fd : Int) (id : Nat) (writable : Bool) :
    (closeSilently st fd).2.ends id writable + endsOf id writable (closeSilently st fd).1 =
      st.2.ends id writable + endsOf id writable st.1 := by
  unfold closeSilently close
  cases hfile : st.2.files[fd]? with
  | none => rfl
  | some file =>
    have h := sumBy_erase (holdsEnd id writable) st.2.files fd
    rw [hfile] at h
    show sumBy _ (st.2.files.erase fd) + endsOf id writable (st.1 ++ [file]) =
      sumBy _ st.2.files + _
    unfold endsOf
    rw [map_append, sum_append, ← h]
    show _ + (_ + (file.holdsEnd id writable + 0)) = _ + file.holdsEnd id writable + _
    omega

/-- Closing a list of descriptors moves their ends to the files released. -/
theorem ends_foldl_closeSilently (fds : List Int) (st : List OpenFile × FdTable) (id : Nat)
    (writable : Bool) :
    (fds.foldl closeSilently st).2.ends id writable +
        endsOf id writable (fds.foldl closeSilently st).1 =
      st.2.ends id writable + endsOf id writable st.1 := by
  induction fds generalizing st with
  | nil => rfl
  | cons fd fds ih => rw [foldl_cons, ih, ends_closeSilently]

theorem ends_foldl_setCloexec (fds : List Int) (t : FdTable) (id : Nat) (writable : Bool) :
    (fds.foldl (fun t fd => t.setCloexec fd true) t).ends id writable = t.ends id writable := by
  induction fds generalizing t with
  | nil => rfl
  | cons fd fds ih => rw [foldl_cons, ih, ends_setCloexec]

end FdTable

/-! ### The counts of the pipes -/

/-- The state of a pipe with these counts. -/
def PipeState.ofCounts (readers writers : Nat) : PipeState :=
  if readers = 0 then (if writers = 0 then .closed else .readClosed)
  else if writers = 0 then .writeClosed else .open

theorem PipeState.ofCounts_eq_closed {readers writers : Nat}
    (h : PipeState.ofCounts readers writers = .closed) : readers = 0 ∧ writers = 0 := by
  unfold ofCounts at h
  split_ifs at h with hr hw
  exact ⟨hr, hw⟩

/-- The pipes count the descriptors on their ends, their states follow from the counts, no pipe with
both ends closed is kept, and no descriptor is on a pipe that is not there. -/
structure Matched (pipes : List Pipe) (ends : Nat → Bool → Nat) : Prop where
  ids : (pipes.map Pipe.id).Nodup
  counts : ∀ p ∈ pipes, p.readers = ends p.id false ∧ p.writers = ends p.id true ∧
    p.state = .ofCounts p.readers p.writers ∧ p.isClosed = false
  gone : ∀ id, (∀ p ∈ pipes, p.id ≠ id) → ∀ writable, ends id writable = 0

theorem map_id_ite {pipes : List Pipe} {id : Nat} {f : Pipe → Pipe}
    (hf : ∀ p ∈ pipes, p.id = id → (f p).id = p.id) :
    (pipes.map fun p => if p.id = id then f p else p).map Pipe.id = pipes.map Pipe.id := by
  rw [map_map]
  refine map_congr_left fun p hp => ?_
  show (if p.id = id then f p else p).id = p.id
  split_ifs with hid
  · exact hf p hp hid
  · rfl

/-- Where ids are unique, changing the first match changes the only one. -/
theorem modifyPipe_eq_map {pipes : List Pipe} (h : (pipes.map Pipe.id).Nodup) (id : Nat)
    (f : Pipe → Pipe) :
    modifyPipe id f pipes = pipes.map fun p => if p.id = id then f p else p := by
  induction pipes with
  | nil => rfl
  | cons p pipes ih =>
    obtain ⟨hnot, hnodup⟩ := nodup_cons.mp h
    unfold modifyPipe
    rw [map_cons]
    by_cases hp : p.id = id
    · -- no later pipe has this id
      have hrest : pipes.map (fun p => if p.id = id then f p else p) = pipes := by
        refine (map_congr_left fun q hq => if_neg ?_).trans (map_id' pipes)
        intro hqid
        exact hnot (mem_map.mpr ⟨q, hq, hqid.trans hp.symm⟩)
      rw [if_pos hp, if_pos hp, hrest]
    · rw [if_neg hp, if_neg hp, ih hnodup]

/-- What reading and writing keep of a pipe. -/
structure Pipe.SameCounts (p q : Pipe) : Prop where
  id : q.id = p.id
  readers : q.readers = p.readers
  writers : q.writers = p.writers
  state : q.state = p.state

section

variable {p : Pipe}

theorem Pipe.read_keeps {len : Nat} {result : List UInt8 × Pipe} (h : p.read len = .ok result) :
    p.SameCounts result.2 := by
  unfold read at h
  split_ifs at h
  · cases h
    exact ⟨rfl, rfl, rfl, rfl⟩
  · cases h
    exact ⟨rfl, rfl, rfl, rfl⟩

theorem Pipe.write_keeps {data : List UInt8} {result : Nat × Pipe} (h : p.write data = .ok result) :
    p.SameCounts result.2 := by
  unfold write at h
  split_ifs at h with hclosed
  simp only at h
  split_ifs at h
  cases h
  exact ⟨rfl, rfl, rfl, rfl⟩

/-- An empty pipe with a reader reports the end of the file when it has no writer. -/
theorem Pipe.read_empty {len : Nat} (hempty : p.buffer = [])
    (hstate : p.state = .ofCounts p.readers p.writers) (hpos : 0 < p.readers) :
    p.read len = if p.writers = 0 then .ok ([], p) else .error (-11) := by
  have hcases : p.state = if p.writers = 0 then .writeClosed else .open :=
    hstate.trans (if_neg (Nat.ne_of_gt hpos))
  unfold read
  rw [if_pos hempty, hcases]
  by_cases hw : p.writers = 0
  · simp [hw]
  · simp [hw]

/-- A pipe with a writer refuses a write when it has no reader. -/
theorem Pipe.write_error_iff {data : List UInt8} (hstate : p.state = .ofCounts p.readers p.writers)
    (hpos : 0 < p.writers) : p.write data = .error (-32) ↔ p.readers = 0 := by
  unfold write
  rw [hstate]
  unfold PipeState.ofCounts
  simp only [if_neg (Nat.ne_of_gt hpos)]
  by_cases hr : p.readers = 0
  · simp [hr]
  · simp only [if_neg hr, reduceCtorEq, or_self, if_false]
    refine iff_of_false ?_ hr
    split_ifs <;> simp

/-- One end of a pipe loses a descriptor. -/
theorem Pipe.close_counts {writable : Bool} (hstate : p.state = .ofCounts p.readers p.writers)
    (hpos : 0 < if writable then p.writers else p.readers) :
    let q := if !writable then p.closeRead else p.closeWrite
    q.id = p.id ∧ (q.readers + if writable then 0 else 1) = p.readers ∧
      (q.writers + if writable then 1 else 0) = p.writers ∧
      q.state = .ofCounts q.readers q.writers := by
  cases writable with
  | false =>
    change 0 < p.readers at hpos
    refine ⟨rfl, ?_, rfl, ?_⟩
    · show p.readers - 1 + 1 = p.readers
      omega
    · show (if p.readers - 1 = 0 then _ else p.state) = .ofCounts (p.readers - 1) p.writers
      rw [hstate]
      unfold PipeState.ofCounts
      split_ifs <;> simp_all
  | true =>
    change 0 < p.writers at hpos
    refine ⟨rfl, rfl, ?_, ?_⟩
    · show p.writers - 1 + 1 = p.writers
      omega
    · show (if p.writers - 1 = 0 then _ else p.state) = .ofCounts p.readers (p.writers - 1)
      rw [hstate]
      unfold PipeState.ofCounts
      split_ifs <;> simp_all

end

namespace Matched

variable {pipes : List Pipe} {ends ends' : Nat → Bool → Nat}

section

variable (h : Matched pipes ends)
include h

theorem of_ends (hsame : ∀ id writable, ends' id writable = ends id writable) :
    Matched pipes ends' := by
  rw [funext fun id => funext (hsame id)]
  exact h

/-- A descriptor is closed. -/
theorem release (file : OpenFile)
    (hends : ∀ id writable, ends' id writable + file.holdsEnd id writable = ends id writable) :
    Matched (Kernel.release pipes file) ends' := by
  unfold Kernel.release
  cases hend : file.pipeEnd with
  | none =>
    refine h.of_ends fun id writable => ?_
    rw [← hends, holdsEnd_of_none hend, Nat.add_zero]
  | some e =>
    obtain ⟨i, w⟩ := e
    have hholds : ∀ id writable, file.holdsEnd id writable =
        if id = i ∧ writable = w then 1 else 0 := by
      intro id writable
      unfold holdsEnd
      rw [hend]
      simp only [Option.some.injEq, Prod.mk.injEq, eq_comm]
    have hother : ∀ id, id ≠ i → ∀ writable, ends' id writable = ends id writable := by
      intro id hid writable
      rw [← hends, hholds, if_neg (fun hand => hid hand.1), Nat.add_zero]
    have hself : ends' i w + 1 = ends i w := by
      rw [← hends i w, hholds, if_pos ⟨rfl, rfl⟩]
    -- the closed pipe, before the closed ones are dropped
    have hclosed : ∀ p ∈ pipes, p.id = i →
        let q := if !w then p.closeRead else p.closeWrite
        q.id = i ∧ q.readers = ends' i false ∧ q.writers = ends' i true ∧
          q.state = .ofCounts q.readers q.writers := by
      intro p hp hid
      obtain ⟨hr, hw, hstate, -⟩ := h.counts p hp
      have hpos : 0 < if w then p.writers else p.readers := by
        cases w <;> simp_all <;> omega
      obtain ⟨hqid, hqr, hqw, hqs⟩ := Pipe.close_counts hstate hpos
      refine ⟨hqid.trans hid, ?_, ?_, hqs⟩ <;> cases w <;> simp_all <;> omega
    show Matched (pipeClose pipes i (!w)) ends'
    unfold pipeClose
    rw [modifyPipe_eq_map h.ids]
    constructor
    · refine (filter_sublist.map Pipe.id).nodup ?_
      rw [map_id_ite fun p hp hid => (hclosed p hp hid).1.trans hid.symm]
      exact h.ids
    · intro q hq
      obtain ⟨hmem, hopen⟩ := mem_filter.mp hq
      obtain ⟨p, hp, rfl⟩ := mem_map.mp hmem
      rw [Bool.not_eq_true'] at hopen
      by_cases hid : p.id = i
      · rw [if_pos hid] at hopen ⊢
        obtain ⟨hqid, hr, hw, hs⟩ := hclosed p hp hid
        exact ⟨hqid.symm ▸ hr, hqid.symm ▸ hw, hs, hopen⟩
      · rw [if_neg hid, hother p.id hid, hother p.id hid]
        exact h.counts p hp
    · intro id hnone writable
      by_cases hid : id = i
      · by_cases hin : ∃ p ∈ pipes, p.id = i
        · -- the pipe was dropped, so both its counts are 0
          obtain ⟨p, hp, hpid⟩ := hin
          obtain ⟨hqid, hr, hw, hs⟩ := hclosed p hp hpid
          have hdropped : (if !w then p.closeRead else p.closeWrite).isClosed = true := by
            by_contra hopen
            refine hnone _ (mem_filter.mpr ⟨mem_map.mpr ⟨p, hp, if_pos hpid⟩, ?_⟩)
              (hqid.trans hid.symm)
            simpa using hopen
          have hzero : (if !w then p.closeRead else p.closeWrite).readers = 0 ∧
              (if !w then p.closeRead else p.closeWrite).writers = 0 := by
            have hc := of_decide_eq_true hdropped
            rw [hs] at hc
            exact PipeState.ofCounts_eq_closed hc
          rw [hid]
          cases writable with
          | false => exact hr.symm.trans hzero.1
          | true => exact hw.symm.trans hzero.2
        · have hzero := h.gone i (fun p hp hpid => hin ⟨p, hp, hpid⟩)
          have := hzero w
          omega
      · rw [hother id hid]
        refine h.gone id (fun p hp hpid => ?_) writable
        have hpi : p.id ≠ i := fun heq => hid (hpid.symm.trans heq)
        refine hnone p (mem_filter.mpr ⟨mem_map.mpr ⟨p, hp, if_neg hpi⟩, ?_⟩) hpid
        rw [(h.counts p hp).2.2.2]
        rfl

/-- Descriptors are closed one after the other. -/
theorem release_all (files : List OpenFile)
    (hends : ∀ id writable, ends' id writable + endsOf id writable files = ends id writable) :
    Matched (files.foldl Kernel.release pipes) ends' := by
  induction files generalizing pipes ends with
  | nil => exact h.of_ends hends
  | cons file files ih =>
    have hfirst : Matched (Kernel.release pipes file)
        fun id writable => ends' id writable + endsOf id writable files := by
      refine h.release file fun id writable => ?_
      rw [← hends id writable]
      show _ = _ + (file.holdsEnd id writable + endsOf id writable files)
      omega
    exact ih hfirst fun _ _ => rfl

/-- A pipe is made, with a descriptor on each end. -/
theorem create {id : Nat} (hfresh : ∀ p ∈ pipes, p.id ≠ id)
    (hends : ∀ i writable, ends' i writable = ends i writable + if i = id then 1 else 0) :
    Matched (pipes ++ [Pipe.new id]) ends' := by
  have hzero := h.gone id hfresh
  constructor
  · rw [map_append]
    refine nodup_append'.mpr ⟨h.ids, nodup_singleton _, ?_⟩
    refine disjoint_singleton.mpr fun hmem => ?_
    obtain ⟨p, hp, hpid⟩ := mem_map.mp hmem
    exact hfresh p hp hpid
  · intro p hp
    rcases mem_append.mp hp with hp | hp
    · rw [hends, hends, if_neg (hfresh p hp)]
      exact h.counts p hp
    · cases mem_singleton.mp hp
      refine ⟨?_, ?_, rfl, rfl⟩
      · show 1 = ends' id false
        rw [hends, if_pos rfl, hzero]
      · show 1 = ends' id true
        rw [hends, if_pos rfl, hzero]
  · intro i hnone writable
    have hne : i ≠ id := fun heq => hnone (Pipe.new id)
      (mem_append_right _ mem_cons_self) heq.symm
    rw [hends, if_neg hne]
    exact h.gone i (fun p hp => hnone p (mem_append_left _ hp)) writable

/-- The pipe found under an id is replaced by one with the same counts. -/
theorem modify_found {id : Nat} {p p' : Pipe} (hfind : pipes.find? (·.id = id) = some p)
    (hsame : p.SameCounts p') : Matched (modifyPipe id (fun _ => p') pipes) ends := by
  rw [modifyPipe_eq_map h.ids]
  have hpid : p.id = id := by simpa using find?_some hfind
  have hkeep : ∀ q ∈ pipes, q.SameCounts (if q.id = id then p' else q) := by
    intro q hq
    split_ifs with hid
    · rwa [inj_on_of_nodup_map h.ids hq (mem_of_find?_eq_some hfind) (hid.trans hpid.symm)]
    · exact ⟨rfl, rfl, rfl, rfl⟩
  constructor
  · rw [map_id_ite fun q hq hid => hsame.id.trans (hpid.trans hid.symm)]
    exact h.ids
  · intro q' hq'
    obtain ⟨q, hq, rfl⟩ := mem_map.mp hq'
    obtain ⟨hqid, hr, hw, hs⟩ := hkeep q hq
    unfold Pipe.isClosed
    rw [hqid, hr, hw, hs]
    exact h.counts q hq
  · intro i hnone writable
    refine h.gone i (fun q hq hqid => ?_) writable
    exact hnone _ (mem_map.mpr ⟨q, hq, rfl⟩) ((hkeep q hq).id.trans hqid)

end

end Matched

/-! ### Runs -/

/-- The call leaves no descriptor on a pipe uncounted: a new pipe has a new id and room for its two
descriptors; only `pipe` opens pipe descriptors, and they are not copied by `dup`, `dup2` or `fork`,
not dropped by `exec`, and closed before their table goes. -/
def PipeOp.Orderly (k : Kernel) : PipeOp → Prop
  | .pipe2 pid _ => (∀ p ∈ k.pipes, p.id ≠ k.nextPipeId) ∧
      ∃ t ∈ k.tables[pid]?, ∃ d < (256 : Nat), ∃ e < d, t.files[(d : Int)]? = none ∧
        t.files[(e : Int)]? = none
  | .openFile _ _ _ _ fileType => fileType ≠ .pipe
  | .dup pid oldFd => ∀ t ∈ k.tables[pid]?, ∀ file ∈ t.files[oldFd]?, file.pipeEnd = none
  | .dup2 pid oldFd newFd =>
    oldFd = newFd ∨ ∀ t ∈ k.tables[pid]?, ∀ file ∈ t.files[oldFd]?, file.pipeEnd = none
  | .fork parent child =>
    (∀ t ∈ k.tables[parent]?, t.NoPipes) ∧ ∀ t ∈ k.tables[child]?, t.NoPipes
  | .exec pid => ∀ t ∈ k.tables[pid]?, ∀ e ∈ t.files.toList,
      (e.2.cloexec || e.2.flags &&& OpenFlags.oCloexec ≠ 0) = true → e.2.pipeEnd = none
  | .exit pid | .spawn pid => ∀ t ∈ k.tables[pid]?, t.NoPipes
  | .close _ _ | .closeRange _ _ _ _ | .read _ _ | .write _ _ => True

namespace FdTable

variable {t : FdTable}

/-- A table with two free numbers has room for two descriptors. -/
theorem allocFd_twice {d e : Nat} (hd : d < 256) (he : e < d) (hdfree : t.files[(d : Int)]? = none)
    (hefree : t.files[(e : Int)]? = none) : ∃ fd, t.allocFd = some fd ∧
      ∀ file, ∃ fd', allocFd ⟨t.files.insert fd file, t.nextFd⟩ = some fd' := by
  have htaken : ∀ {t : FdTable} {n : Nat}, n < 256 → t.files[(n : Int)]? = none →
      t.allocFd ≠ none := by
    intro t n hn hfree hnone
    have := allocFd_none hnone n (by omega) (by omega)
    rw [hfree] at this
    cases this
  cases halloc : t.allocFd with
  | none => exact absurd halloc (htaken hd hdfree)
  | some fd =>
    refine ⟨fd, rfl, fun file => ?_⟩
    cases halloc' : allocFd ⟨t.files.insert fd file, t.nextFd⟩ with
    | some fd' => exact ⟨fd', rfl⟩
    | none =>
      -- one of the two is still free
      exfalso
      by_cases hfd : fd = (d : Int)
      · refine htaken (n := e) (by omega) ?_ halloc'
        rw [lookup_insert, if_neg (by omega)]
        exact hefree
      · refine htaken hd ?_ halloc'
        rw [lookup_insert, if_neg hfd]
        exact hdfree

theorem NoPipes.new : FdTable.new.NoPipes := by decide +kernel

/-- A child has pipe descriptors only from its parent. -/
theorem NoPipes.fork {parent : Option FdTable} (h : ∀ t ∈ parent, t.NoPipes) :
    (FdTable.fork parent).NoPipes := by
  intro e he
  rw [mem_toList_iff, lookup_fork, Option.or_eq_some_iff] at he
  rcases he with hcopy | ⟨-, hnew⟩
  · obtain ⟨file, hfile, heq⟩ := Option.map_eq_some_iff.mp hcopy
    obtain ⟨t, ht, hopen⟩ := Option.bind_eq_some_iff.mp hfile
    rw [← heq]
    exact h t ht _ (mem_toList_iff.mpr hopen)
  · exact NoPipes.new e (mem_toList_iff.mpr hnew)

/-- Dropping descriptors that are on no pipe. -/
theorem ends_foldl_erase (fds : List Int) {m : TreeMap Int OpenFile}
    (h : ∀ fd ∈ fds, ∀ file, m[fd]? = some file → file.pipeEnd = none) (nextFd : Int) (id : Nat)
    (writable : Bool) :
    FdTable.ends ⟨fds.foldl (fun m fd => m.erase fd) m, nextFd⟩ id writable =
      FdTable.ends ⟨m, nextFd⟩ id writable := by
  induction fds generalizing m with
  | nil => rfl
  | cons fd fds ih =>
    rw [foldl_cons, ih]
    · have herase := sumBy_erase (holdsEnd id writable) m fd
      rw [elim_eq_zero fun file hfile => holdsEnd_of_none
        (h fd mem_cons_self file hfile) id writable] at herase
      exact herase
    · intro fd' hfd' file hfile
      rw [lookup_erase] at hfile
      split_ifs at hfile
      exact h fd' (mem_cons_of_mem fd hfd') file hfile

/-- Dropping the close-on-exec descriptors, where none of them is on a pipe. -/
theorem ends_withoutCloexec (h : ∀ e ∈ t.files.toList,
      (e.2.cloexec || e.2.flags &&& OpenFlags.oCloexec ≠ 0) = true → e.2.pipeEnd = none) (id : Nat)
    (writable : Bool) : t.withoutCloexec.ends id writable = t.ends id writable := by
  refine ends_foldl_erase _ (fun fd hfd file hfile => ?_) t.nextFd id writable
  obtain ⟨e, he, rfl⟩ := mem_map.mp hfd
  obtain ⟨hmem, hcloexec⟩ := mem_filter.mp he
  have hsame : t.files[e.1]? = some e.2 := mem_toList_iff.mp hmem
  rw [hfile] at hsame
  rw [Option.some.inj hsame]
  exact h e hmem hcloexec

end FdTable

namespace Kernel

variable {k : Kernel}

/-- What every orderly run keeps. -/
structure Counted (k : Kernel) : Prop where
  matched : Matched k.pipes k.ends
  next : k.nextPipeId < 2 ^ 32

theorem ends_insert (k : Kernel) (pid : Nat) (t : FdTable) (pipes : List Pipe) (next id : Nat)
    (writable : Bool) :
    Kernel.ends ⟨pipes, next, k.tables.insert pid t⟩ id writable +
        k.tables[pid]?.elim 0 (fun t => t.ends id writable) =
      k.ends id writable + t.ends id writable :=
  sumBy_insert (fun t : FdTable => t.ends id writable) k.tables pid t

theorem pipeFile_pipeEnd {id : Nat} (h : id < 2 ^ 32) (flags : OpenFlags) :
    (pipeFile id flags).pipeEnd = some (id, flags.isWritable) := by
  have hid : pipeIdFromPath ("pipe:" ++ toString id) = some id := parseU32_afterTag "pipe:" h
  show (pipeIdFromPath ("pipe:" ++ toString id)).map _ = _
  rw [hid]
  rfl

namespace Counted

/-- A call on the table of a process that takes the files it releases off the table. -/
theorem onTable (h : k.Counted) (pid : Nat) {f : FdTable → Except Int (List OpenFile × FdTable)}
    (hf : ∀ t released t', k.tables[pid]? = some t → f t = .ok (released, t') →
      ∀ id writable, t'.ends id writable + endsOf id writable released = t.ends id writable) :
    (k.onTable pid f).Counted := by
  unfold Kernel.onTable
  cases htable : k.tables[pid]? with
  | none => exact h
  | some t =>
    cases hcall : f t with
    | error code =>
      simp only [hcall]
      exact h
    | ok result =>
      obtain ⟨released, t'⟩ := result
      simp only [hcall]
      refine ⟨h.matched.release_all released fun id writable => ?_, h.next⟩
      have hinsert := k.ends_insert pid t' (released.foldl release k.pipes) k.nextPipeId id
        writable
      rw [htable] at hinsert
      change _ + t.ends id writable = _ at hinsert
      have := hf t released t' htable hcall id writable
      omega

/-- A table without pipe descriptors gives way to another. -/
theorem replace (h : k.Counted) {pid : Nat} {t : FdTable}
    (hold : ∀ t ∈ k.tables[pid]?, t.NoPipes) (hnew : t.NoPipes) :
    Kernel.Counted { k with tables := k.tables.insert pid t } := by
  refine ⟨h.matched.of_ends fun id writable => ?_, h.next⟩
  have hinsert := k.ends_insert pid t k.pipes k.nextPipeId id writable
  rw [hnew.ends_eq_zero, elim_eq_zero fun old hmem => (hold old hmem).ends_eq_zero id writable]
    at hinsert
  exact hinsert

/-- A pipe that finds room for its descriptors. -/
theorem pipe2 (h : k.Counted) {pid : Nat} (flags : BitVec 32)
    (horderly : PipeOp.Orderly k (.pipe2 pid flags)) : (k.step (.pipe2 pid flags)).Counted := by
  obtain ⟨hfresh, t, ht, d, hd, e, he, hdfree, hefree⟩ := horderly
  obtain ⟨readFd, hread, hroom⟩ := allocFd_twice hd he hdfree hefree
  obtain ⟨writeFd, hwrite⟩ := hroom (pipeFile k.nextPipeId 0)
  have htable : k.tables[pid]? = some t := ht
  simp only [Kernel.step, sysPipe2, htable, hread, hwrite]
  -- the flags do not change what the descriptors are open on
  generalize hfinal : (if flags &&& 0o4000 ≠ 0 then setNonblock _ writeFd true else _) =
    final
  have hends : ∀ id writable, final.ends id writable = t.ends id writable +
      if id = k.nextPipeId then 1 else 0 := by
    intro id writable
    have hbase : FdTable.ends ⟨(t.files.insert readFd (pipeFile k.nextPipeId 0)).insert writeFd
        (pipeFile k.nextPipeId 1), t.nextFd⟩ id writable = t.ends id writable +
          (if id = k.nextPipeId then 1 else 0) := by
      have hfirst := FdTable.ends_insert (FdTable.allocFd_some hread).2.2.1
        (pipeFile k.nextPipeId 0) t.nextFd id writable
      have hsecond := FdTable.ends_insert (FdTable.allocFd_some hwrite).2.2.1
        (pipeFile k.nextPipeId 1) t.nextFd id writable
      rw [hsecond, hfirst]
      unfold holdsEnd
      rw [pipeFile_pipeEnd h.next, pipeFile_pipeEnd h.next, show OpenFlags.isWritable 0 = false from
        rfl, show OpenFlags.isWritable 1 = true from rfl]
      by_cases hid : id = k.nextPipeId
      · cases writable <;> simp [hid]
      · simp [Ne.symm hid, hid]
    rw [← hfinal, ← hbase]
    split_ifs <;> simp only [ends_setCloexec, ends_setNonblock]
  refine ⟨h.matched.create hfresh fun id writable => ?_, Nat.mod_lt _ (by decide)⟩
  have hinsert := k.ends_insert pid final (k.pipes ++ [Pipe.new k.nextPipeId])
    ((k.nextPipeId + 1) % 2 ^ 32) id writable
  rw [htable, hends] at hinsert
  change _ + t.ends id writable = _ at hinsert
  omega

/-- A call on a pipe that changes no count. -/
theorem onPipe (h : k.Counted) {α : Type} {id : Nat} {call : Pipe → Except Int (α × Pipe)}
    {r : α × List Pipe} (hcall : Fs.onPipe k.pipes id call = .ok r)
    (hkeep : ∀ p r, call p = .ok r → p.SameCounts r.2) :
    Kernel.Counted { k with pipes := r.2 } := by
  unfold Fs.onPipe at hcall
  split at hcall
  · cases hcall
  next p hfind =>
    obtain ⟨q, hq, rfl⟩ := ok_of_map hcall
    exact ⟨h.matched.modify_found hfind (hkeep p q hq), h.next⟩

/-- One orderly call. -/
theorem step (h : k.Counted) {op : PipeOp} (horderly : op.Orderly k) : (k.step op).Counted := by
  cases op with
  | pipe2 pid flags => exact h.pipe2 flags horderly
  | openFile pid backend path flags fileType =>
    refine h.onTable pid fun t released t' _ hcall id writable => ?_
    obtain ⟨r, hopen, hr⟩ := ok_of_map hcall
    obtain ⟨hfree, heq⟩ := openFile_ok hopen
    cases hr
    have htype : (opened backend path flags fileType).fileType = fileType := by
      unfold opened
      split_ifs
      · split <;> rfl
      · rfl
    have hnone : (opened backend path flags fileType).pipeEnd = none := by
      unfold pipeEnd
      rw [htype, if_neg horderly]
    rw [heq]
    exact ends_insert_of_none hfree.2.2.1 hnone t.nextFd id writable
  | dup pid oldFd =>
    refine h.onTable pid fun t released t' ht hcall id writable => ?_
    obtain ⟨r, hdup, hr⟩ := ok_of_map hcall
    obtain ⟨file, hfile, hfree, heq⟩ := dup_ok hdup
    cases hr
    have hnone : file.duplicate.pipeEnd = none := horderly t ht file hfile
    rw [heq]
    exact ends_insert_of_none hfree.2.2.1 hnone t.nextFd id writable
  | dup2 pid oldFd newFd =>
    refine h.onTable pid fun t released t' ht hcall id writable => ?_
    obtain ⟨r, hdup, hr⟩ := ok_of_map hcall
    obtain ⟨-, file, hfile, ⟨-, heq⟩ | ⟨hne, heq⟩⟩ := dup2_ok hdup
    · cases hr.symm.trans heq
      rfl
    · cases hr.symm.trans heq
      have hnone : file.duplicate.pipeEnd = none := horderly.resolve_left hne t ht file hfile
      have hfree := lookup_closeSilently ([], t) newFd newFd
      rw [if_pos rfl] at hfree
      rw [ends_insert_of_none hfree hnone]
      exact ends_closeSilently ([], t) newFd id writable
  | close pid fd =>
    refine h.onTable pid fun t released t' _ hcall id writable => ?_
    obtain ⟨r, hclose, hr⟩ := ok_of_map hcall
    have hends := ends_closeSilently ([], t) fd id writable
    unfold closeSilently at hends
    simp only [hclose] at hends
    cases hr
    exact hends
  | closeRange pid first last flags =>
    refine h.onTable pid fun t released t' _ hcall id writable => ?_
    unfold closeRange at hcall
    split_ifs at hcall
    · cases hcall
      exact ends_foldl_setCloexec _ t id writable
    · have hfold := ends_foldl_closeSilently (t.rangeFds first last) ([], t) id writable
      rw [Except.ok.inj hcall] at hfold
      exact hfold
  | fork parent child => exact h.replace horderly.2 (NoPipes.fork horderly.1)
  | exec pid =>
    simp only [Kernel.step, closeCloexecFds]
    cases htable : k.tables[pid]? with
    | none => exact h
    | some t =>
      refine ⟨h.matched.of_ends fun id writable => ?_, h.next⟩
      have hinsert := k.ends_insert pid t.withoutCloexec k.pipes k.nextPipeId id writable
      rw [htable, ends_withoutCloexec (horderly t htable)] at hinsert
      exact Nat.add_right_cancel hinsert
  | exit pid =>
    refine ⟨h.matched.of_ends fun id writable => ?_, h.next⟩
    have herase := sumBy_erase (fun t : FdTable => t.ends id writable) k.tables pid
    rw [elim_eq_zero fun t ht => (horderly t ht).ends_eq_zero id writable] at herase
    exact herase
  | spawn pid => exact h.replace horderly NoPipes.new
  | read id len =>
    simp only [Kernel.step]
    split
    · exact h
    next hread => exact h.onPipe hread fun _ _ => Pipe.read_keeps
  | write id data =>
    simp only [Kernel.step]
    split
    · exact h
    next hwrite => exact h.onPipe hwrite fun _ _ => Pipe.write_keeps

end Counted

end Kernel

instance (k : Kernel) : ∀ op, Decidable (PipeOp.Orderly k op)
  | .pipe2 pid _ => inferInstanceAs (Decidable ((∀ p ∈ k.pipes, _) ∧
      ∃ t ∈ k.tables[pid]?, ∃ d < (256 : Nat), ∃ e < d, _))
  | .openFile .. => inferInstanceAs (Decidable (_ ≠ _))
  | .dup pid oldFd => inferInstanceAs
      (Decidable (∀ t ∈ k.tables[pid]?, ∀ file ∈ t.files[oldFd]?, _))
  | .dup2 pid oldFd _ => inferInstanceAs
      (Decidable (_ ∨ ∀ t ∈ k.tables[pid]?, ∀ file ∈ t.files[oldFd]?, _))
  | .fork parent child => inferInstanceAs (Decidable
      ((∀ t ∈ k.tables[parent]?, t.NoPipes) ∧ ∀ t ∈ k.tables[child]?, t.NoPipes))
  | .exec pid => inferInstanceAs (Decidable (∀ t ∈ k.tables[pid]?, ∀ e ∈ t.files.toList, _ → _))
  | .exit pid | .spawn pid => inferInstanceAs (Decidable (∀ t ∈ k.tables[pid]?, t.NoPipes))
  | .close .. | .closeRange .. | .read .. | .write .. => inferInstanceAs (Decidable True)

theorem Kernel.Counted.init : Kernel.init.Counted := by
  refine ⟨⟨nodup_nil, nofun, fun id _ writable => ?_⟩, by decide⟩
  refine sumBy_eq_zero fun pid t ht => NoPipes.ends_eq_zero ?_ id writable
  rw [(bootTables_some ht).1]
  exact NoPipes.new

/-- In every orderly run each pipe counts the descriptors open on its ends, in all tables. Through
open descriptors, a read of an empty pipe reports the end of the file exactly when none on the write
end is left, and a write reports `EPIPE` exactly when none on the read end is. -/
theorem pipe_counts_live {k : Kernel}
    (hrun : Reach Kernel.step (fun k op => op.Orderly k) .init k) :
    (∀ p ∈ k.pipes, p.writers = k.ends p.id true ∧ p.readers = k.ends p.id false) ∧
      (∀ id len, 0 < k.ends id false → (∀ p ∈ k.pipes, p.id = id → p.buffer = []) →
        ((∃ pipes, pipeRead k.pipes id len = .ok ([], pipes)) ↔ k.ends id true = 0)) ∧
      ∀ id data, 0 < k.ends id true →
        (pipeWrite k.pipes id data = .error (-32) ↔ k.ends id false = 0) := by
  have h : k.Counted := hrun.invariant Kernel.Counted .init fun _ _ h hok => h.step hok
  have hfound : ∀ id writable, 0 < k.ends id writable →
      ∃ p ∈ k.pipes, p.id = id ∧ k.pipes.find? (·.id = id) = some p := by
    intro id writable hpos
    cases hfind : k.pipes.find? (·.id = id) with
    | some p =>
      exact ⟨p, mem_of_find?_eq_some hfind, by simpa using find?_some hfind, rfl⟩
    | none =>
      have hnone : ∀ p ∈ k.pipes, p.id ≠ id := by
        simpa using find?_eq_none.mp hfind
      have := h.matched.gone id hnone writable
      omega
  refine ⟨fun p hp => ?_, fun id len hpos hempty => ?_, fun id data hpos => ?_⟩
  · obtain ⟨hr, hw, -⟩ := h.matched.counts p hp
    exact ⟨hw, hr⟩
  · obtain ⟨p, hp, rfl, hfind⟩ := hfound id false hpos
    obtain ⟨hr, hw, hstate, -⟩ := h.matched.counts p hp
    simp only [pipeRead, onPipe, hfind, Pipe.read_empty (hempty p hp rfl) hstate (hr ▸ hpos), ← hw]
    split_ifs with hzero
    · exact iff_of_true ⟨_, rfl⟩ hzero
    · refine iff_of_false ?_ hzero
      rintro ⟨pipes, hok⟩
      cases hok
  · obtain ⟨p, hp, rfl, hfind⟩ := hfound id true hpos
    obtain ⟨hr, hw, hstate, -⟩ := h.matched.counts p hp
    rw [← hr, ← Pipe.write_error_iff hstate (hw ▸ hpos)]
    simp only [pipeWrite, onPipe, hfind]
    cases p.write data with
    | error code => simp [Except.map]
    | ok result => exact iff_of_false nofun nofun

/-- A process makes a pipe, writes to it, closes the read end, copies standard output, and forks
once the write end is closed. -/
def orderlyPipe : List PipeOp :=
  [.pipe2 1 0, .write 1 [104, 105], .close 1 3, .dup 1 1, .close 1 4, .fork 1 7, .pipe2 7 0]

/-- Seven calls after which the pipe has no reader left. -/
theorem pipe_counts_live_seven_calls :
    Admitted Kernel.step (fun k op => op.Orderly k) .init orderlyPipe ∧
      (pipeWrite (orderlyPipe.foldl Kernel.step .init).pipes 2 [1] = .error (-32) ↔
        (orderlyPipe.foldl Kernel.step .init).ends 2 false = 0) := by
  have hadmitted : Admitted Kernel.step (fun k op => op.Orderly k) .init orderlyPipe := by
    decide +kernel
  exact ⟨hadmitted, (pipe_counts_live (Reach.start.foldl hadmitted)).2.2 2 [1] (by decide +kernel)⟩

/-- The write end of a pipe is copied and one copy is closed: the pipe counts no writer though one
is open, and a read reports the end of the file. -/
theorem duplicated_writer_closes_pipe :
    ∃ k, Reach Kernel.step (fun _ _ => True) .init k ∧ k.ends 1 true = 1 ∧
      (∃ p ∈ k.pipes, p.id = 1 ∧ p.writers = 0) ∧
      ∃ pipes, pipeRead k.pipes 1 8 = .ok ([], pipes) := by
  refine ⟨_, Reach.free [.pipe2 1 0, .dup 1 4, .close 1 4], ?_, ?_, ?_⟩
  · decide +kernel
  · decide +kernel
  · exact ⟨_, rfl⟩

end KnoxOS.Fs
