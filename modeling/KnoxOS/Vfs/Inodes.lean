import KnoxOS.Lib.Bytes
import KnoxOS.Lib.Map
import KnoxOS.Lib.Path

/-!
# The virtual file system

The in-memory file system of `fs/vfs.rs`. The first name of an inode is stored in the inode, and
its directory lists the inode among its children; further names are aliases, kept in a map from
directory and name to inode. Owners and time stamps are left out.
-/

namespace KnoxOS.Vfs

open Lib Std

/-- Strings, as their characters. -/
abbrev Str := List Char

/-- Keys of the alias map compare the directory first. -/
instance aliasKeyOrd : Ord (Nat × Str) := lexOrd

inductive FileType where
  | regular
  | directory
  | symLink
  | charDevice
  | blockDevice
  | pipe
  | socket
deriving DecidableEq, Repr

structure Inode where
  ino : Nat
  fileType : FileType
  name : Str
  size : Nat
  permissions : Nat
  children : List Nat
  data : List UInt8
deriving DecidableEq, Repr

structure VirtualFS where
  inodes : List Inode
  nextIno : Nat
  aliases : TreeMap (Nat × Str) Nat

/-! ## Paths -/

/-- `path.trim_start_matches('/').split('/')`, which is never empty. -/
def splitPath (path : Str) : List Str := (path.dropWhile (· = '/')).splitOn '/'

/-- The last part, which is empty after a final slash. -/
def lastPart (parts : List Str) : Str := parts.getLastD []

/-- The path of all parts but the last. -/
def parentPath (parts : List Str) : Str :=
  if 1 < parts.length then absolute parts.dropLast else ['/']

/-- `split_parent_name`, which drops empty parts first. -/
def splitParentName (path : Str) : Except Int (Str × Str) :=
  let parts := (splitPath path).filter (· ≠ [])
  if parts = [] then .error (-22) else .ok (parentPath parts, lastPart parts)

/-- Change the first inode with this number. -/
def modifyFirst (ino : Nat) (f : Inode → Inode) : List Inode → List Inode
  | [] => []
  | i :: inodes => if i.ino = ino then f i :: inodes else i :: modifyFirst ino f inodes

namespace VirtualFS

/-! ## Looking up -/

def getInode (v : VirtualFS) (ino : Nat) : Option Inode := v.inodes.find? fun i => i.ino = ino

/-- `get_inode_mut`, and a change through it. -/
def modifyInode (v : VirtualFS) (ino : Nat) (f : Inode → Inode) : VirtualFS :=
  { v with inodes := modifyFirst ino f v.inodes }

/-- The first of the children with this name. -/
def findChild (v : VirtualFS) (children : List Nat) (name : Str) : Option Nat :=
  children.find? fun c => (v.getInode c).any fun child => child.name = name

def lookupChild (v : VirtualFS) (parentIno : Nat) (name : Str) : Option Nat :=
  match v.getInode parentIno with
  | none => none
  | some parent =>
    match v.findChild parent.children name with
    | some ino => some ino
    | none => v.aliases[(parentIno, name)]?

def nameCount (v : VirtualFS) (ino : Nat) : Nat :=
  v.inodes.countP (fun p => p.children.contains ino) +
    v.aliases.toList.countP fun e => e.2 = ino

/-- `resolve_path`, which skips empty parts. -/
def resolvePath (v : VirtualFS) (path : Str) : Option Nat :=
  match v.inodes.head? with
  | none => none
  | some root =>
    if path = ['/'] then some root.ino
    else
      (splitPath path).foldlM
        (fun current part => if part = [] then some current else v.lookupChild current part)
        root.ino

def readFile (v : VirtualFS) (path : Str) : Option (List UInt8) :=
  match (v.resolvePath path).bind v.getInode with
  | none => none
  | some inode =>
    if inode.fileType = .regular ∨ inode.fileType = .charDevice then some inode.data else none

/-- The link count that `stat` reports. -/
def statNlink (v : VirtualFS) (path : Str) : Except Int Nat :=
  match v.resolvePath path with
  | none => .error (-2)
  | some ino =>
    match v.getInode ino with
    | none => .error (-2)
    | some inode =>
      .ok (if inode.fileType = .directory then 2 + inode.children.length else v.nameCount ino)

/-! ## Making inodes -/

/-- `alloc_ino` and the push of the new inode. -/
def pushInode (v : VirtualFS) (fileType : FileType) (name : Str) (data : List UInt8)
    (permissions : Nat) : VirtualFS :=
  { v with
    inodes := v.inodes ++ [⟨v.nextIno, fileType, name, data.length, permissions, [], data⟩]
    nextIno := (v.nextIno + 1) % 2 ^ 64 }

def createDir (v : VirtualFS) (name : Str) (permissions : Nat) : Nat × VirtualFS :=
  (v.nextIno, v.pushInode .directory name [] permissions)

/-- `parent.children.push(ino)`. -/
def addChild (v : VirtualFS) (parentIno ino : Nat) : VirtualFS :=
  v.modifyInode parentIno fun p => { p with children := p.children ++ [ino] }

/-- `parent.children.retain(|&c| c != ino)`. -/
def removeChild (v : VirtualFS) (parentIno ino : Nat) : VirtualFS :=
  v.modifyInode parentIno fun p => { p with children := p.children.filter (· ≠ ino) }

/-- `self.inodes.retain(|i| i.ino != ino)`. -/
def dropInode (v : VirtualFS) (ino : Nat) : VirtualFS :=
  { v with inodes := v.inodes.filter fun i => i.ino ≠ ino }

def createDirUnder (v : VirtualFS) (parentIno : Nat) (name : Str) (permissions : Nat) :
    Nat × VirtualFS :=
  let (ino, v) := v.createDir name permissions
  (ino, v.addChild parentIno ino)

def createFileUnder (v : VirtualFS) (parentIno : Nat) (name : Str) (fileType : FileType)
    (data : List UInt8) (permissions : Nat) : Nat × VirtualFS :=
  let ino := v.nextIno
  let v := v.pushInode fileType name data permissions
  (ino, v.addChild parentIno ino)

/-- The loop of `create_file_at_path` over the directories of the path. It looks at children only,
not at aliases, and goes into whatever it finds. -/
def makeDirs (v : VirtualFS) (currentIno : Nat) : List Str → Nat × VirtualFS
  | [] => (currentIno, v)
  | part :: parts =>
    if part = [] then v.makeDirs currentIno parts
    else
      match (v.getInode currentIno).bind fun current => v.findChild current.children part with
      | some ino => v.makeDirs ino parts
      | none =>
        let (ino, v) := v.createDirUnder currentIno part 0o755
        v.makeDirs ino parts

def createFileAtPath (v : VirtualFS) (path : Str) (fileType : FileType) (data : List UInt8)
    (permissions : Nat) : Bool × VirtualFS :=
  let parts := splitPath path
  match v.inodes.head? with
  | none => (false, v)
  | some root =>
    let (currentIno, v) := v.makeDirs root.ino parts.dropLast
    (true, (v.createFileUnder currentIno (lastPart parts) fileType data permissions).2)

/-! ## Writing -/

def writeFile (v : VirtualFS) (path : Str) (data : List UInt8) : Bool × VirtualFS :=
  match (v.resolvePath path).bind v.getInode with
  | some inode =>
    (true, v.modifyInode inode.ino fun i => { i with data := data, size := data.length })
  | none => v.createFileAtPath path .regular data 0o644

/-- The inode of `write_file_range`, which makes the file if there is none. -/
def openForRange (v : VirtualFS) (path : Str) : Option Nat × VirtualFS :=
  match v.resolvePath path with
  | some ino => (some ino, v)
  | none =>
    match v.writeFile path [] with
    | (false, v) => (none, v)
    | (true, v) => (v.resolvePath path, v)

def writeFileRange (v : VirtualFS) (path : Str) (offset : Nat) (data : List UInt8) :
    Bool × VirtualFS :=
  match v.openForRange path with
  | (none, v) => (false, v)
  | (some ino, v) =>
    match v.getInode ino with
    | none => (false, v)
    | some inode =>
      if inode.fileType ≠ .regular ∧ inode.fileType ≠ .charDevice then (false, v)
      else if offset + data.length ≥ 2 ^ 64 then (false, v)
      else
        (true, v.modifyInode ino fun i =>
          { i with
            data := overlay (extendTo (offset + data.length) i.data) offset data
            size := max i.size (offset + data.length) })

/-! ## Names -/

def mkdir (v : VirtualFS) (path : Str) (permissions : Nat) : Except Int (Nat × VirtualFS) :=
  if (v.resolvePath path).isSome then .error (-17)
  else
    let parts := splitPath path
    match v.resolvePath (parentPath parts) with
    | none => .error (-2)
    | some parentIno => .ok (v.createDirUnder parentIno (lastPart parts) permissions)

/-- Whether the inode is there and is a directory. -/
def isDirectory (v : VirtualFS) (ino : Nat) : Bool :=
  (v.getInode ino).any fun i => i.fileType = .directory

def unlink (v : VirtualFS) (path : Str) : Except Int VirtualFS :=
  match v.resolvePath path with
  | none => .error (-2)
  | some ino =>
    if v.isDirectory ino then .error (-21)
    else
      match splitParentName path with
      | .error e => .error e
      | .ok (parent, name) =>
        match v.resolvePath parent with
        | none => .error (-2)
        | some parentIno =>
          let wasAlias := v.aliases[(parentIno, name)]?.isSome
          let v := { v with aliases := v.aliases.erase (parentIno, name) }
          let v := if wasAlias then v else v.removeChild parentIno ino
          .ok (if v.nameCount ino = 0 then v.dropInode ino else v)

def link (v : VirtualFS) (oldPath newPath : Str) : Except Int VirtualFS :=
  match v.resolvePath oldPath with
  | none => .error (-2)
  | some ino =>
    if v.isDirectory ino then .error (-1)
    else if (v.resolvePath newPath).isSome then .error (-17)
    else
      match splitParentName newPath with
      | .error e => .error e
      | .ok (parent, name) =>
        match v.resolvePath parent with
        | none => .error (-2)
        | some parentIno =>
          if (v.getInode parentIno).any fun i => i.fileType ≠ .directory then .error (-20)
          else .ok { v with aliases := v.aliases.insert (parentIno, name) ino }

def rmdir (v : VirtualFS) (path : Str) : Except Int VirtualFS :=
  match v.resolvePath path with
  | none => .error (-2)
  | some ino =>
    if (v.getInode ino).any fun i => i.fileType ≠ .directory then .error (-20)
    else if (v.getInode ino).any fun i => i.children ≠ [] then .error (-39)
    else
      let v :=
        match v.resolvePath (parentPath (splitPath path)) with
        | none => v
        | some parentIno => v.removeChild parentIno ino
      .ok (v.dropInode ino)

/-- `rename`, with the file system it leaves, which a failure may have changed. -/
def rename (v : VirtualFS) (oldPath newPath : Str) : Except Int Unit × VirtualFS :=
  match v.resolvePath oldPath with
  | none => (.error (-2), v)
  | some ino =>
    match splitParentName oldPath with
    | .error e => (.error e, v)
    | .ok (oldParent, oldName) =>
      match v.resolvePath oldParent with
      | none => (.error (-2), v)
      | some oldParentIno =>
        if v.aliases[(oldParentIno, oldName)]?.isSome then
          if (v.resolvePath newPath).isSome then (.error (-17), v)
          else
            match splitParentName newPath with
            | .error e => (.error e, v)
            | .ok (newParent, newName) =>
              match v.resolvePath newParent with
              | none => (.error (-2), v)
              | some newParentIno =>
                let aliases := v.aliases.erase (oldParentIno, oldName)
                (.ok (), { v with aliases := aliases.insert (newParentIno, newName) ino })
        else
          -- the old name goes before the new parent is looked up
          let parts := splitPath newPath
          let v := v.removeChild oldParentIno ino
          let v := v.modifyInode ino fun i => { i with name := lastPart parts }
          match v.resolvePath (parentPath parts) with
          | none => (.error (-2), v)
          | some newParentIno => (.ok (), v.addChild newParentIno ino)

/-- `create_symlink_dispatch`. -/
def createSymlink (v : VirtualFS) (target : List UInt8) (linkPath : Str) : VirtualFS :=
  (v.createFileAtPath linkPath .symLink target 0o777).2

end VirtualFS

/-! ## The fresh file system -/

/-- A call of `VirtualFS::new`. -/
inductive Make where
  | dir (parentIno : Nat) (name : String) (permissions : Nat)
  | file (parentIno : Nat) (name : String) (fileType : FileType) (data : String)
      (permissions : Nat)

/-- Byte string literals. -/
def ascii (s : String) : List UInt8 := s.toList.map fun c => c.toNat.toUInt8

def VirtualFS.make (v : VirtualFS) : Make → VirtualFS
  | .dir parentIno name permissions => (v.createDirUnder parentIno name.toList permissions).2
  | .file parentIno name fileType data permissions =>
    (v.createFileUnder parentIno name.toList fileType (ascii data) permissions).2

/-- The calls in their order. Inode numbers are given out from 1 on, which makes the numbers below
those of the directories they are named after. -/
def standardTree : List Make :=
  let root := 1
  let dev := 4
  let etc := 5
  let home := 6
  let userHome := 16
  let documents := 18
  [ .dir root "bin" 0o755, .dir root "boot" 0o755, .dir root "dev" 0o755, .dir root "etc" 0o755,
    .dir root "home" 0o755, .dir root "lib" 0o755, .dir root "mnt" 0o755, .dir root "proc" 0o555,
    .dir root "sbin" 0o755, .dir root "sys" 0o555, .dir root "run" 0o755,
    .dir root "tmp" 0o1777, .dir root "usr" 0o755, .dir root "var" 0o755,
    .dir home "user" 0o755, .dir userHome "Desktop" 0o755, .dir userHome "Documents" 0o755,
    .dir userHome "Downloads" 0o755, .dir userHome "Music" 0o755, .dir userHome "Pictures" 0o755,
    .dir userHome "Videos" 0o755, .dir userHome ".trash" 0o700,
    .file documents "Welcome.txt" .regular
      ("Welcome to KnoxOS.\n\nThis is your Documents folder.\n" ++
        "Open files from the desktop Files icon.\n") 0o644,
    .file dev "null" .charDevice "" 0o666, .file dev "zero" .charDevice "" 0o666,
    .file dev "random" .charDevice "" 0o666, .file dev "urandom" .charDevice "" 0o666,
    .file dev "tty" .charDevice "" 0o666, .file dev "console" .charDevice "" 0o600,
    .file dev "fb0" .charDevice "" 0o660, .file dev "wl0" .charDevice "" 0o666,
    .file etc "hostname" .regular "knoxos\n" 0o644,
    .file etc "os-release" .regular
      ("NAME=\"KnoxOS\"\nVERSION=\"0.2.6\"\nID=knoxos\nVERSION_ID=0.2.6\n" ++
        "PRETTY_NAME=\"KnoxOS 0.2.6\"\n") 0o644,
    .file etc "passwd" .regular
      ("root:x:0:0:root:/root:/bin/sh\n" ++
        "user:x:1000:1000:KnoxOS User:/home/user:/bin/sh\n") 0o644,
    .file etc "nsswitch.conf" .regular
      "passwd: files\ngroup: files\nhosts: files dns\n" 0o644,
    .file etc "hosts" .regular "127.0.0.1\tlocalhost\n::1\tlocalhost\n" 0o644,
    .file etc "resolv.conf" .regular "nameserver 1.1.1.1\nnameserver 8.8.8.8\n" 0o644 ]

/-- The root alone. -/
def VirtualFS.bare : VirtualFS := ((⟨[], 1, ∅⟩ : VirtualFS).createDir ['/'] 0o755).2

def VirtualFS.new : VirtualFS := standardTree.foldl VirtualFS.make .bare

example : VirtualFS.new.resolvePath "/home/user/Documents".toList = some 18 := by decide +kernel

end KnoxOS.Vfs
