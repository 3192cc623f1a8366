import KnoxOS.Lib.Bytes
import KnoxOS.Lib.Map
import KnoxOS.Lib.Word
import Mathlib.Data.List.MinMax

/-!
# The page cache

The write-back cache of `mm/page_cache.rs` over the file primitives of `fs/vfs.rs`. Reads fill the
cache from the backing file, writes leave dirty pages behind, and inserting into a full cache
evicts the least recently used clean page, or writes back and drops the oldest dirty one. The
statistics counters and the journal behind `persist_backing` are left out.
-/

namespace KnoxOS.PageCache

open Lib Std

/-! ## The backing files -/

/-- A file of the VFS: its bytes and the size it reports. -/
structure File where
  data : List UInt8
  size : Nat

/-- `write_file_range` on the inode: overlay `data` at `offset`, extending the file. -/
def File.writeRange (file : File) (offset : Nat) (data : List UInt8) : File where
  data := overlay (extendTo (offset + data.length) file.data) offset data
  size := max file.size (offset + data.length)

/-- The VFS as the cache sees it. `writeFails` lists the outcomes of the next writes; later ones
succeed. -/
structure Vfs where
  resolve : String → Option Nat
  inodes : Nat → File
  writeFails : List Bool

namespace Vfs

/-- Overlay bytes at `offset`; `false` when the file system refuses. -/
def pwriteFile (vfs : Vfs) (path : String) (offset : Nat) (data : List UInt8) : Bool × Vfs :=
  let fails := vfs.writeFails.headD false
  let vfs := { vfs with writeFails := vfs.writeFails.tail }
  if fails then (false, vfs)
  else
    match vfs.resolve path with
    | none => (false, vfs)
    | some ino =>
      if offset + data.length ≥ 2 ^ 64 then (false, vfs)
      else
        (true, { vfs with
          inodes := Function.update vfs.inodes ino ((vfs.inodes ino).writeRange offset data) })

/-- The bytes that `pread_file` copies into a buffer of `n` bytes. -/
def preadFile (vfs : Vfs) (path : String) (offset n : Nat) : Option (List UInt8) :=
  match vfs.resolve path with
  | none => none
  | some ino => some (slice (vfs.inodes ino).data offset n)

end Vfs

/-! ## State -/

@[irreducible] def pageSize : Nat := 4096

theorem pageSize_pos : 0 < pageSize := by simp [pageSize]

def readaheadSize : Nat := 32

structure CachedPage where
  data : List UInt8
  dirty : Bool
  /-- The page is being flushed. -/
  writeback : Bool
  /-- Higher means more recently used. -/
  lruGen : Nat

def CachedPage.startWriteback (page : CachedPage) : CachedPage := { page with writeback := true }

/-- A page that is still being flushed becomes clean. -/
def CachedPage.endWriteback (page : CachedPage) : CachedPage :=
  if page.writeback then { page with dirty := false, writeback := false } else page

inductive PageCacheError where
  | notFound
  | ioError
deriving DecidableEq

structure ReadaheadState where
  lastIndex : Nat
  sequentialCount : Nat
  windowSize : Nat

/-- The cache, with pages keyed by inode and page index, and the tables beside it. -/
structure State where
  pages : TreeMap (Nat × Nat) CachedPage
  maxPages : Nat
  lruCounter : Nat
  readahead : TreeMap Nat ReadaheadState
  fileSizes : TreeMap Nat Nat
  inodePaths : TreeMap Nat String
  vfs : Vfs

namespace State

def new (maxPages : Nat) (vfs : Vfs) : State := ⟨∅, maxPages, 0, ∅, ∅, ∅, vfs⟩

/-! ## Sizes and paths -/

/-- Remember the logical size of a cached file; it only grows. -/
def noteFileSize (s : State) (inode size : Nat) : State :=
  { s with fileSizes := s.fileSizes.insert inode (max ((s.fileSizes[inode]?).getD 0) size) }

def registerInode (s : State) (inode : Nat) (path : String) : State :=
  { s with inodePaths := s.inodePaths.insert inode path }

/-- Resolve `path`, register it and remember its size. -/
def registerPath (s : State) (path : String) : Option Nat × State :=
  match s.vfs.resolve path with
  | none => (none, s)
  | some ino => (some ino, (s.registerInode ino path).noteFileSize ino (s.vfs.inodes ino).size)

/-- The size used to clip reads and write-back. -/
def logicalSize (s : State) (inode : Nat) : Nat :=
  match s.fileSizes[inode]? with
  | some size => size
  | none =>
    match s.inodePaths[inode]? with
    | none => 0
    | some path =>
      match s.vfs.resolve path with
      | none => 0
      | some ino => (s.vfs.inodes ino).size

/-! ## Lookup and eviction -/

/-- Look a page up and mark it as most recently used. -/
def findPage (s : State) (inode index : Nat) : Option (List UInt8) × State :=
  match s.pages[(inode, index)]? with
  | none => (none, s)
  | some page =>
    (some page.data, { s with
      lruCounter := s.lruCounter + 1
      pages := s.pages.insert (inode, index) { page with lruGen := s.lruCounter + 1 } })

/-- The least recently used page among those that `p` selects, first in key order. -/
def lruPage (s : State) (p : CachedPage → Bool) : Option ((Nat × Nat) × CachedPage) :=
  (s.pages.toList.filter fun entry => p entry.2).argmin fun entry => entry.2.lruGen

/-- The least recently used page that can simply be dropped. -/
def lruClean (s : State) : Option ((Nat × Nat) × CachedPage) :=
  s.lruPage fun page => !page.dirty && !page.writeback

def dropPage (s : State) (key : Nat × Nat) : State := { s with pages := s.pages.erase key }

/-- Write the part of a page below the logical size to the backing file. -/
def writeBack (s : State) (key : Nat × Nat) (page : CachedPage) : State :=
  match s.inodePaths[key.1]? with
  | none => s
  | some path =>
    let offset := u64 (key.2 * pageSize)
    if offset < s.logicalSize key.1 then
      let valid := min (s.logicalSize key.1 - offset) page.data.length
      { s with vfs := (s.vfs.pwriteFile path offset (page.data.take valid)).2 }
    else s

/-- Evict the least recently used clean page, else write back and drop the oldest dirty one. -/
def evictLru (s : State) : State :=
  match s.lruClean with
  | some (key, _) => s.dropPage key
  | none =>
    match s.lruPage fun page => page.dirty && !page.writeback with
    | some (key, page) => (s.writeBack key page).dropPage key
    | none => s

/-- The eviction loop of `insert_page`; every round with a victim drops one page. -/
def makeRoom : Nat → State → State
  | 0, s => s
  | fuel + 1, s => if s.pages.size ≥ s.maxPages then makeRoom fuel s.evictLru else s

/-- `insert_page` once there is room. -/
def putPage (s : State) (inode index : Nat) (data : List UInt8) (dirty : Bool) : State :=
  { s with
    lruCounter := s.lruCounter + 1
    pages := s.pages.insert (inode, index)
      { data := padTo pageSize data, dirty, writeback := false, lruGen := s.lruCounter + 1 } }

/-- Insert or replace a page, evicting others while the cache is full. -/
def insertPage (s : State) (inode index : Nat) (data : List UInt8) (dirty : Bool) : State :=
  (makeRoom s.pages.size s).putPage inode index data dirty

/-! ## Reads -/

/-- Load a page from the backing file, zero-filled past its end. -/
def loadFromBacking (s : State) (inode index : Nat) : Except PageCacheError (List UInt8) :=
  match s.inodePaths[inode]? with
  | none => .error .notFound
  | some path =>
    .ok (padTo pageSize ((s.vfs.preadFile path (u64 (index * pageSize)) pageSize).getD []))

/-- Load each page of a list that has a backing file and insert it clean. -/
def fetchPages (s : State) (inode : Nat) : List Nat → State
  | [] => s
  | index :: rest =>
    match s.loadFromBacking inode index with
    | .ok data => (s.insertPage inode index data false).fetchPages inode rest
    | .error _ => s.fetchPages inode rest

/-- Detect sequential misses and, from the second on, load a window of pages ahead. -/
def updateReadahead (s : State) (inode index : Nat) : State :=
  let ra := (s.readahead[inode]?).getD ⟨index, 0, 4⟩
  if index = ra.lastIndex + 1 then
    if ra.sequentialCount + 1 ≥ 2 then
      let window := min (ra.windowSize * 2) readaheadSize
      let s := { s with readahead :=
        s.readahead.insert inode ⟨ra.lastIndex, ra.sequentialCount + 1, window⟩ }
      s.fetchPages inode <| (List.range' (index + 1) window).filter fun i =>
        !s.pages.contains (inode, i)
    else
      { s with readahead :=
          s.readahead.insert inode ⟨index, ra.sequentialCount + 1, ra.windowSize⟩ }
  else { s with readahead := s.readahead.insert inode ⟨index, 0, 4⟩ }

/-- The page of a read: cached, or loaded with its readahead. -/
def readPage (s : State) (inode index : Nat) : Except PageCacheError (List UInt8) × State :=
  match s.findPage inode index with
  | (some data, s) => (.ok data, s)
  | (none, s) =>
    match s.loadFromBacking inode index with
    | .error e => (.error e, s)
    | .ok data => (.ok data, (s.insertPage inode index data false).updateReadahead inode index)

/-- The loop of `read`: `want` more bytes, from `skip` bytes into page `index` on. A round copies at
least one byte, so `fuel` counts bytes. -/
def readLoop : Nat → State → Nat → Nat → Nat → Nat → Except PageCacheError (List UInt8) × State
  | 0, s, _, _, _, _ => (.ok [], s)
  | fuel + 1, s, inode, index, skip, want =>
    if want = 0 then (.ok [], s)
    else
      match s.readPage inode index with
      | (.error e, s) => (.error e, s)
      | (.ok data, s) =>
        let copyLen := min (pageSize - skip) want
        match readLoop fuel s inode (index + 1) 0 (want - copyLen) with
        | (.error e, s) => (.error e, s)
        | (.ok rest, s) => (.ok (slice data skip copyLen ++ rest), s)

/-- Read up to `len` bytes at `offset`, clipped to the logical size. -/
def read (s : State) (inode offset len : Nat) : Except PageCacheError (List UInt8) × State :=
  let fileSize := s.logicalSize inode
  if offset ≥ fileSize ∨ len = 0 then (.ok [], s)
  else
    let want := min (fileSize - offset) len
    readLoop want s inode (offset / pageSize) (offset % pageSize) want

/-- The loop of `prefetch` over `n` pages from `index` on; it counts the loaded ones. -/
def prefetchLoop : Nat → State → Nat → Nat → Nat × State
  | 0, s, _, _ => (0, s)
  | n + 1, s, inode, index =>
    match s.findPage inode index with
    | (some _, s) => prefetchLoop n s inode (index + 1)
    | (none, s) =>
      match s.loadFromBacking inode index with
      | .error _ => (0, s)
      | .ok data =>
        let (loaded, s) :=
          prefetchLoop n (s.insertPage inode index data false) inode (index + 1)
        (loaded + 1, s)

/-- Load `[offset, offset + count)` into the cache. -/
def prefetch (s : State) (inode offset count : Nat) : Nat × State :=
  if count = 0 then (0, s)
  else
    let start := offset / pageSize
    let stop := (min (offset + count) (2 ^ 64 - 1) + pageSize - 1) / pageSize
    prefetchLoop (stop - start) s inode start

/-! ## Writes -/

/-- The page a write modifies: cached, loaded, or zeros for a file without backing. -/
def pageForWrite (s : State) (inode index : Nat) : List UInt8 × State :=
  match s.findPage inode index with
  | (some data, s) => (data, s)
  | (none, s) =>
    match s.loadFromBacking inode index with
    | .ok data => (data, s)
    | .error _ => (List.replicate pageSize 0, s)

/-- The loop of `write`: `data` goes from `skip` bytes into page `index` on. -/
def writeLoop : Nat → State → Nat → Nat → Nat → List UInt8 → Nat × State
  | 0, s, _, _, _, _ => (0, s)
  | fuel + 1, s, inode, index, skip, data =>
    if data.length = 0 then (0, s)
    else
      let (page, s) := s.pageForWrite inode index
      let copyLen := min (pageSize - skip) data.length
      let s := s.insertPage inode index (overlay page skip (data.take copyLen)) true
      let (total, s) := writeLoop fuel s inode (index + 1) 0 (data.drop copyLen)
      (copyLen + total, s)

/-- Write through the cache, leaving dirty pages; the logical size grows afterwards. -/
def write (s : State) (inode offset : Nat) (data : List UInt8) : Nat × State :=
  let (total, s) := writeLoop data.length s inode (offset / pageSize) (offset % pageSize) data
  (total, s.noteFileSize inode (u64 (offset + data.length)))

/-- Mark the dirty pages of `inode` as being flushed, and list them. -/
def beginWriteback (s : State) (inode : Nat) : List (Nat × List UInt8) × State :=
  let entries := s.pages.toList.filter fun entry =>
    entry.1.1 = inode && entry.2.dirty && !entry.2.writeback
  let pages := (entries.map Prod.fst).foldl (·.modify · CachedPage.startWriteback) s.pages
  (entries.map fun entry => (entry.1.2, entry.2.data), { s with pages })

/-- Write the listed pages to the backing file, stopping at the first failure. -/
def flushPages (path : String) (fileSize : Nat) : Vfs → List (Nat × List UInt8) →
    Option Nat × Vfs
  | vfs, [] => (some 0, vfs)
  | vfs, (index, data) :: rest =>
    let offset := u64 (index * pageSize)
    if offset ≥ fileSize then flushPages path fileSize vfs rest
    else
      match vfs.pwriteFile path offset (data.take (min (fileSize - offset) data.length)) with
      | (false, vfs) => (none, vfs)
      | (true, vfs) =>
        match flushPages path fileSize vfs rest with
        | (none, vfs) => (none, vfs)
        | (some flushed, vfs) => (some (flushed + 1), vfs)

/-- Mark the written pages as clean. -/
def endWriteback (s : State) (inode : Nat) (written : List (Nat × List UInt8)) : State :=
  let keys := written.map fun entry => (inode, entry.1)
  { s with pages := keys.foldl (·.modify · CachedPage.endWriteback) s.pages }

/-- Flush all dirty pages of an inode. -/
def flushInode (s : State) (inode : Nat) : Except PageCacheError Nat × State :=
  match s.inodePaths[inode]? with
  | none => (.error .notFound, s)
  | some path =>
    let fileSize := s.logicalSize inode
    let (toWrite, s) := s.beginWriteback inode
    match flushPages path fileSize s.vfs toWrite with
    | (none, vfs) => (.error .ioError, { s with vfs })
    | (some flushed, vfs) => (.ok flushed, { s with vfs }.endWriteback inode toWrite)

/-- Drop up to `targetFree` clean pages, the least recently used first. -/
def shrink (s : State) : Nat → Nat × State
  | 0 => (0, s)
  | targetFree + 1 =>
    match s.lruClean with
    | some (key, _) =>
      let (freed, s) := (s.dropPage key).shrink targetFree
      (freed + 1, s)
    | none => (0, s)

end State

end KnoxOS.PageCache
