import Mathlib.Algebra.Group.Nat.Defs
import KnoxOS.Lib.Bytes

/-!
# JBD2 replay

`fs/journal_replay.rs`: the log of a JBD2 journal is walked block by block from `s_start` on, round
the journal, and the data blocks of a descriptor are written back when a commit block with its
sequence number follows. The journal and the filesystem area are kept apart: `journal` gives the
blocks of the journal, `none` where the device cannot be read, and `fs` those of the filesystem.
-/

namespace KnoxOS.Fs.Jbd2

open Lib

abbrev Block := List UInt8

def jbd2Magic : UInt32 := 0xC03B3998
def jbd2DescriptorBlock : UInt32 := 1
def jbd2CommitBlock : UInt32 := 2
def jbd2SuperblockV1 : UInt32 := 3
def jbd2SuperblockV2 : UInt32 := 4
def jbd2RevokeBlock : UInt32 := 5

def jbd2FlagEscape : UInt16 := 1
def jbd2FlagSameUuid : UInt16 := 2
def jbd2FlagDeleted : UInt16 := 4
def jbd2FlagLastTag : UInt16 := 8

/-- `BLOCK_SIZE`, the size of a sector. -/
def blockSize : Nat := 512

/-- The device, as the walker sees it. -/
structure Device where
  journal : Nat → Option Block
  fs : Nat → Block

def putBe32 (buf : Block) (off : Nat) (v : UInt32) : Block :=
  if off + 4 ≤ buf.length then
    overlay buf off [(v >>> 24).toUInt8, (v >>> 16).toUInt8, (v >>> 8).toUInt8, v.toUInt8]
  else buf

def nextRel (rel first maxlen : Nat) : Nat :=
  let n := min (rel + 1) (2 ^ 32 - 1)
  if maxlen ≤ n then first else n

structure Tag where
  fsBlock : Nat
  flags : UInt16
deriving DecidableEq, Repr

/-- The tags that `parse_tags` keeps. -/
def Tag.kept (tag : Tag) : Bool := tag.flags &&& jbd2FlagDeleted == 0 && tag.fsBlock != 0

/-- The walk of `parse_tags` from an offset on. A UUID follows a tag that does not say otherwise,
and each step moves on by at least eight bytes. -/
def tagsFrom (desc : Block) : Nat → Nat → List Tag
  | 0, _ => []
  | fuel + 1, off =>
    if off + 8 ≤ desc.length then
      let tag : Tag := ⟨(be32 desc off).toNat, be16 desc (off + 6)⟩
      let next := if tag.flags &&& jbd2FlagSameUuid == 0 then off + 24 else off + 8
      if tag.flags &&& jbd2FlagLastTag != 0 then [tag] else tag :: tagsFrom desc fuel next
    else []

/-- All tags of a descriptor block. -/
def allTags (desc : Block) : List Tag := tagsFrom desc desc.length 12

/-- `parse_tags`: deleted tags and tags of block 0 are left out. -/
def parseTags (desc : Block) : List Tag := (allTags desc).filter Tag.kept

/-- A data block as it is written back, with the magic number of an escaped block put in again. -/
def unescape (tag : Tag) (data : Block) : Block :=
  if tag.flags &&& jbd2FlagEscape ≠ 0 ∧ 4 ≤ data.length then putBe32 data 0 jbd2Magic else data

/-- The variables of the walk. -/
structure Scan where
  rel : Nat
  scanned : Nat
  pending : List (Nat × Block)
  pendingSeq : UInt32
  replayed : Nat
  fs : Nat → Block

def writeFsBlock (fs : Nat → Block) (write : Nat × Block) : Nat → Block := fun b =>
  if b = write.1 then write.2 else fs b

section

variable (journal : Nat → Option Block) (first maxlen startRel : Nat)

/-- The inner loop for the data blocks of a descriptor; `rel` is `data_rel`. -/
def readData : List Tag → Scan → Scan
  | [], s => s
  | tag :: tags, s =>
    match journal s.rel with
    | none => { s with pending := [] }
    | some data =>
      let s := { s with
        pending := s.pending ++ [(tag.fsBlock, unescape tag data)]
        rel := nextRel s.rel first maxlen
        scanned := s.scanned + 1 }
      if s.rel = startRel then s else readData tags s

/-- A commit block. -/
def commit (s : Scan) (seq : UInt32) : Scan :=
  if seq = s.pendingSeq ∧ s.pending ≠ [] then
    { s with fs := s.pending.foldl writeFsBlock s.fs, pending := [], replayed := s.replayed + 1 }
  else { s with pending := [] }

/-- The walk. Every round counts at least one block, so `maxlen` rounds are enough. -/
def scanLoop : Nat → Scan → Scan
  | 0, s => s
  | fuel + 1, s =>
    if s.scanned < maxlen then
      match journal s.rel with
      | none => s
      | some blk =>
        if be32 blk 0 ≠ jbd2Magic then s
        else if be32 blk 4 = jbd2DescriptorBlock then
          let s := readData journal first maxlen startRel (parseTags blk)
            { s with
              pending := []
              pendingSeq := be32 blk 8
              rel := nextRel s.rel first maxlen }
          let s := { s with scanned := s.scanned + 1 }
          if s.rel = startRel ∧ 1 < s.scanned then s else scanLoop fuel s
        else
          let s :=
            if be32 blk 4 = jbd2CommitBlock then commit s (be32 blk 8)
            else if be32 blk 4 = jbd2RevokeBlock then { s with pending := [] }
            else s
          let s := { s with rel := nextRel s.rel first maxlen, scanned := s.scanned + 1 }
          if s.rel = startRel then s else scanLoop fuel s
    else s

end

/-- `replay_contiguous`: the number of transactions written back. -/
def replayContiguous (dev : Device) (jblockSize : Nat) : Nat × Device :=
  if jblockSize < 512 ∨ jblockSize % blockSize ≠ 0 then (0, dev)
  else
    match dev.journal 0 with
    | none => (0, dev)
    | some jsb =>
      let blocktype := be32 jsb 4
      let maxlen := (be32 jsb 16).toNat
      let first := (be32 jsb 20).toNat
      let sStart := (be32 jsb 28).toNat
      if be32 jsb 0 ≠ jbd2Magic then (0, dev)
      else if blocktype ≠ jbd2SuperblockV1 ∧ blocktype ≠ jbd2SuperblockV2 then (0, dev)
      else if maxlen = 0 ∨ first = 0 then (0, dev)
      else if sStart = 0 then (0, dev)
      else
        let s := scanLoop dev.journal first maxlen sStart maxlen
          ⟨sStart, 0, [], 0, 0, dev.fs⟩
        let journal := if 0 < s.replayed then
            fun rel => if rel = 0 then some (putBe32 jsb 28 0) else dev.journal rel
          else dev.journal
        (s.replayed, ⟨journal, s.fs⟩)

end KnoxOS.Fs.Jbd2
