import KnoxOS.Fs.Disk
import KnoxOS.Lib.Word
import KnoxOS.Vfs.Tree

/-!
# The persistent store

`fs/persist.rs`: files and directories are kept as a log of entries from sector 1 on, behind a
header that counts them, and the last sectors of the disk hold one write-ahead record. An entry is
written to the record first, then to the log, and then the record is cleared; `restore_all` applies
a record that is left, and writes the entries of the log into the file system. The device is
available. Flushes are left out, as the disk keeps the order of the writes, and so are messages.
-/

namespace KnoxOS.Fs.Persist

open Lib Vfs

def magic : List UInt8 := ascii "KNOXPERSIST" ++ [0]
def journalMagic : List UInt8 := ascii "KNOXJRNL" ++ [0, 0, 0, 0]
def journalSectors : Nat := 256
def jrnlEmpty : Nat := 0
def jrnlCommitted : Nat := 2
def jrnlHeaderSize : Nat := 40
def entryHeaderSize : Nat := 4 + 4 + 2 + 2
def maxPersistSize : Nat := 64 * 1024 * 1024
def skipPrefixes : List Str :=
  ["/dev/".toList, "/proc/".toList, "/sys/".toList, "/run/".toList, "/tmp/".toList]

/-- `should_persist_entry`; the prefixes end in one slash. -/
def shouldPersistEntry (path : Str) (isDir : Bool) : Bool :=
  if path = ['/'] ∨ path = [] then false
  else if skipPrefixes.any fun skip => skip.isPrefixOf path || path == skip.dropLast then isDir
  else true

def shouldPersist (path : Str) : Bool := shouldPersistEntry path false

/-- One round of `crc32` for a bit. -/
def crcBit (crc : UInt32) : UInt32 :=
  if crc &&& 1 ≠ 0 then (crc >>> 1) ^^^ 0xEDB88320 else crc >>> 1

def crc32 (data : List UInt8) : UInt32 :=
  ~~~ data.foldl (fun crc b => crcBit^[8] (crc ^^^ b.toUInt32)) 0xFFFFFFFF

/-- `as_bytes` of a string. -/
def asBytes (path : Str) : List UInt8 := path.flatMap String.utf8EncodeChar

def fromUtf8 (bytes : List UInt8) : Option Str := bytes.toByteArray.utf8Decode?.map Array.toList

/-- `div_ceil(SECTOR_SIZE)`. -/
def divCeil (n : Nat) : Nat := (n + (sectorSize - 1)) / sectorSize

/-- What is persisted at once: the arguments of `commit_through_journal`. -/
structure Entry where
  path : Str
  data : List UInt8
  permissions : UInt16
  fileType : UInt16
deriving DecidableEq, Repr

namespace Entry

/-- The entry in the log, before it is padded. -/
def bytes (e : Entry) : List UInt8 :=
  leBytes 4 (asBytes e.path).length ++ leBytes 4 e.data.length ++ leBytes 2 e.permissions.toNat ++
    leBytes 2 e.fileType.toNat ++ asBytes e.path ++ e.data

/-- `sectors_needed` of an entry. -/
def sectors (e : Entry) : Nat :=
  divCeil (entryHeaderSize + (asBytes e.path).length + e.data.length)

/-- The payload of the write-ahead record. -/
def payload (e : Entry) : List UInt8 := asBytes e.path ++ e.data

/-- The write-ahead record, before it is padded. -/
def record (e : Entry) (state : Nat) : List UInt8 :=
  journalMagic ++ leBytes 4 state ++ leBytes 8 1 ++ leBytes 4 (asBytes e.path).length ++
    leBytes 4 e.data.length ++ leBytes 2 e.permissions.toNat ++ leBytes 2 e.fileType.toNat ++
    leBytes 4 (crc32 e.payload).toNat ++ e.payload

/-- The sectors of the write-ahead record. -/
def recordSectors (e : Entry) : Nat := divCeil (jrnlHeaderSize + e.payload.length)

end Entry

/-- The outcomes of the writes of one call: of the record, the entry, the header of the store, the
clearing of the record, and the header of a fresh disk. -/
structure Faults where
  journal : Outcome := .done
  entry : Outcome := .done
  header : Outcome := .done
  clear : Outcome := .done
  format : Outcome := .done
deriving DecidableEq, Repr

def journalBase (d : Disk) : Option Nat :=
  if d.capacity ≤ journalSectors + 1 then none
  else some (d.capacity - journalSectors)

def dataLimit (d : Disk) : Nat := (journalBase d).getD d.capacity

/-! ## The log -/

def readStoreHeader (d : Disk) : Option (Nat × Nat) :=
  match d.read 0 1 with
  | none => none
  | some buf =>
    if slice buf 0 12 = magic then some (leNat (slice buf 12 4), leNat (slice buf 16 8))
    else some (0, 1)

/-- The header sector. -/
def headerSector (entryCount nextSector : Nat) : List UInt8 :=
  padTo sectorSize (magic ++ leBytes 4 entryCount ++ leBytes 8 nextSector)

def writeStoreHeader (d : Disk) (outcome : Outcome) (entryCount nextSector : Nat) :
    Except Disk (Bool × Disk) :=
  d.write outcome 0 1 (headerSector entryCount nextSector)

/-- The sums are not cut to 64 bits: a header written here names a sector of the disk. -/
def applyEntry (d : Disk) (f : Faults) (e : Entry) : Except Disk (Bool × Disk) :=
  match readStoreHeader d with
  | none => .ok (false, d)
  | some (entryCount, nextSector) =>
    if nextSector < 1 ∨ dataLimit d < nextSector + e.sectors then .ok (false, d)
    else do
      let (written, d) ← d.write f.entry nextSector e.sectors
        (padTo (e.sectors * sectorSize) e.bytes)
      if written then
        writeStoreHeader d f.header (entryCount + 1) (nextSector + e.sectors)
      else return (false, d)

/-! ## The write-ahead record -/

def journalWrite (d : Disk) (outcome : Outcome) (e : Entry) (state : Nat) :
    Except Disk (Bool × Disk) :=
  match journalBase d with
  | none => .ok (false, d)
  | some base =>
    if e.recordSectors = 0 ∨ journalSectors < e.recordSectors then .ok (false, d)
    else
      d.write outcome base e.recordSectors (padTo (e.recordSectors * sectorSize) (e.record state))

def journalClear (d : Disk) (outcome : Outcome) : Except Disk (Bool × Disk) :=
  match journalBase d with
  | none => .ok (false, d)
  | some base => d.write outcome base 1 (padTo sectorSize (journalMagic ++ leBytes 4 jrnlEmpty))

/-- The rest of `journal_read`, from the first sector on. -/
def journalRecord (d : Disk) (base : Nat) (first : List UInt8) : Option (Nat × Entry) :=
  let state := leNat (slice first 12 4)
  let pathLen := leNat (slice first 24 4)
  let dataLen := leNat (slice first 28 4)
  let permissions := UInt16.ofNat (leNat (slice first 32 2))
  let fileType := UInt16.ofNat (leNat (slice first 34 2))
  let storedCrc := leNat (slice first 36 4)
  let sectors := divCeil (jrnlHeaderSize + (pathLen + dataLen))
  if 4096 < pathLen ∨ sectors = 0 ∨ journalSectors < sectors then none
  else
    match (if 1 < sectors then d.read (base + 1) (sectors - 1) else some []) with
    | none => none
    | some rest =>
      let payload := slice (first ++ rest) jrnlHeaderSize (pathLen + dataLen)
      if (crc32 payload).toNat ≠ storedCrc then none
      else
        (fromUtf8 (payload.take pathLen)).map fun path =>
          (state, ⟨path, payload.drop pathLen, permissions, fileType⟩)

def journalRead (d : Disk) : Option (Nat × Entry) :=
  match journalBase d with
  | none => none
  | some base =>
    match d.read base 1 with
    | none => none
    | some first =>
      if slice first 0 12 ≠ journalMagic then none
      else if leNat (slice first 12 4) = jrnlEmpty then none
      else journalRecord d base first

def replayJournal (d : Disk) (f : Faults) : Except Disk (Nat × Disk) :=
  match journalRead d with
  | none => .ok (0, d)
  | some (state, e) =>
    if state = jrnlCommitted then do
      let (applied, d) ← applyEntry d f e
      if applied then
        let (_, d) ← journalClear d f.clear
        return (1, d)
      else return (0, d)
    else do
      let (_, d) ← journalClear d f.clear
      return (0, d)

/-! ## Persisting -/

/-- `commit_through_journal`: the result says whether the entry is acknowledged. -/
def commitThroughJournal (d : Disk) (f : Faults) (e : Entry) : Except Disk (Bool × Disk) := do
  let (written, d) ← journalWrite d f.journal e jrnlCommitted
  if written then
    let (applied, d) ← applyEntry d f e
    if applied then
      let (_, d) ← journalClear d f.clear
      return (true, d)
    else return (false, d)
  else applyEntry d f e

/-- The entry of a file. -/
def fileEntry (path : Str) (data : List UInt8) (permissions : UInt16) : Entry :=
  ⟨path, data, permissions, 0⟩

/-- The entry of a directory. -/
def directoryEntry (path : Str) (permissions : UInt16) : Entry := ⟨path, [], permissions, 1⟩

/-- `persist_file`, with the result of `commit_through_journal` if it comes to that. -/
def persistFile (d : Disk) (f : Faults) (path : Str) (data : List UInt8) (permissions : UInt16) :
    Except Disk (Bool × Disk) :=
  if ¬ shouldPersist path then .ok (false, d)
  else if maxPersistSize < data.length then .ok (false, d)
  else commitThroughJournal d f (fileEntry path data permissions)

/-- `persist_directory`, with the same result. -/
def persistDirectory (d : Disk) (f : Faults) (path : Str) (permissions : UInt16) :
    Except Disk (Bool × Disk) :=
  if ¬ shouldPersistEntry path true then .ok (false, d)
  else commitThroughJournal d f (directoryEntry path permissions)

/-! ## Restoring -/

def virtio0IsExt4 (d : Disk) : Bool :=
  match d.read 2 2 with
  | none => false
  | some buf => leNat (slice buf 56 2) = 0xEF53

/-- What is before the last slash of a path. -/
def beforeLastSlash (path : Str) : Str := ((path.reverse.dropWhile (· ≠ '/')).drop 1).reverse

/-- An entry goes into the file system. -/
def restoreEntry (v : VirtualFS) (e : Entry) : VirtualFS :=
  if e.fileType = 1 then v.ensureDirectory e.path
  else
    let parent := beforeLastSlash e.path
    let v := if parent ≠ [] then v.ensureDirectory parent else v
    let v := (v.writeFile e.path e.data).2
    match v.resolvePath e.path with
    | none => v
    | some ino => v.modifyInode ino fun i => { i with permissions := e.permissions.toNat }

/-- The entry from a sector on, unless its path is no UTF-8, and its sectors; `none` where the disk
cannot be read. -/
def readEntry (d : Disk) (current : Nat) : Option (Option Entry × Nat) :=
  match d.read current 1 with
  | none => none
  | some first =>
    let pathLen := leNat (slice first 0 4)
    let dataLen := leNat (slice first 4 4)
    let permissions := UInt16.ofNat (leNat (slice first 8 2))
    let fileType := UInt16.ofNat (leNat (slice first 10 2))
    let sectors := divCeil (entryHeaderSize + pathLen + dataLen)
    match (if 1 < sectors then d.read (current + 1) (sectors - 1) else some []) with
    | none => none
    | some rest =>
      let buf := first ++ rest
      let data := slice buf (entryHeaderSize + pathLen) dataLen
      some ((fromUtf8 (slice buf entryHeaderSize pathLen)).map fun path =>
        ⟨path, data, permissions, fileType⟩, sectors)

/-- The loop of `restore_all` over the entries. -/
def restoreLoop (d : Disk) : Nat → Nat → VirtualFS → VirtualFS
  | 0, _, v => v
  | count + 1, current, v =>
    match readEntry d current with
    | none => v
    | some (none, sectors) => restoreLoop d count (current + sectors) v
    | some (some e, sectors) => restoreLoop d count (current + sectors) (restoreEntry v e)

def restoreAll (d : Disk) (f : Faults) (v : VirtualFS) : Except Disk (Disk × VirtualFS) := do
  let (_, d) ← replayJournal d f
  match d.read 0 1 with
  | none => return (d, v)
  | some buf =>
    if slice buf 0 12 ≠ magic then
      if virtio0IsExt4 d then return (d, v)
      else
        let (_, d) ← writeStoreHeader d f.format 0 1
        return (d, v)
    else return (d, restoreLoop d (leNat (slice buf 12 4)) 1 v)

/-! ## Compaction -/

def clear (d : Disk) (outcome : Outcome) : Except Disk Disk := do
  let (_, d) ← writeStoreHeader d outcome 0 1
  return d

/-- `walk` of `collect_persistable_paths`; the fuel is the depth to which it goes. -/
def walk (v : VirtualFS) : Nat → Nat → Str → List (Str × List UInt8 × UInt16)
  | 0, _, _ => []
  | fuel + 1, ino, currentPath =>
    match v.getInode ino with
    | none => []
    | some inode =>
      match inode.fileType with
      | .directory =>
        inode.children.flatMap fun childIno =>
          match v.getInode childIno with
          | none => []
          | some child =>
            walk v fuel childIno
              (if currentPath = ['/'] then '/' :: child.name
                else currentPath ++ '/' :: child.name)
      | .regular =>
        if shouldPersist currentPath ∧ inode.data ≠ [] then
          [(currentPath, inode.data, UInt16.ofNat inode.permissions)]
        else []
      | _ => []

/-- `collect_persistable_paths`. A tree is no deeper than it has inodes. -/
def collectPersistablePaths (v : VirtualFS) : List (Str × List UInt8 × UInt16) :=
  match v.inodes.head? with
  | none => []
  | some root => walk v v.inodes.length root.ino ['/']

/-- The loop of `compact`; each call of `persist_file` has its own faults. -/
def persistAll (d : Disk) : List Faults → List (Str × List UInt8 × UInt16) → Except Disk Disk
  | _, [] => .ok d
  | faults, (path, data, permissions) :: paths => do
    let (_, d) ← persistFile d (faults.headD {}) path data permissions
    persistAll d faults.tail paths

def compact (d : Disk) (v : VirtualFS) (cleared : Outcome) (faults : List Faults) :
    Except Disk Disk := do
  let d ← clear d cleared
  persistAll d faults (collectPersistablePaths v)

end KnoxOS.Fs.Persist
