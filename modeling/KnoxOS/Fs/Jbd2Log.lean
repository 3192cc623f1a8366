import KnoxOS.Fs.Jbd2

/-!
# What a JBD2 log means

The log of a journal as a list of committed transactions, each with its descriptor blocks, their
data blocks and revoke blocks, laid out round the journal from `s_start` on. The meaning of a log
is the data it leaves in each filesystem block, by the rules of the format: every tag has a data
block, and a revoke block takes back what was logged before it.
-/

namespace KnoxOS.Fs.Jbd2

open Lib

/-! ## The ring of log blocks -/

/-- The part of the journal that holds the log, with the block it starts at. -/
structure LogRing where
  first : Nat
  maxlen : Nat
  start : Nat
  first_pos : 0 < first
  first_le : first ≤ start
  start_lt : start < maxlen
  room : first + 2 ≤ maxlen
  word : maxlen < 2 ^ 32

namespace LogRing

variable (ring : LogRing)

/-- The number of log blocks. -/
def cap : Nat := ring.maxlen - ring.first

/-- The journal block of the log's block `i`. -/
def pos (i : Nat) : Nat := ring.first + (ring.start - ring.first + i) % ring.cap

theorem cap_pos : 2 ≤ ring.cap := by
  have h := ring.room
  unfold cap
  omega

theorem pos_zero : ring.pos 0 = ring.start := by
  have h := ring.start_lt
  have h' := ring.first_le
  have hlt : ring.start - ring.first + 0 < ring.cap := by
    unfold cap
    omega
  unfold pos
  rw [Nat.mod_eq_of_lt hlt]
  omega

/-- The step to the next block goes round the journal. -/
theorem nextRel_pos (i : Nat) : nextRel (ring.pos i) ring.first ring.maxlen = ring.pos (i + 1) := by
  have hword := ring.word
  have hlt : (ring.start - ring.first + i) % ring.cap < ring.cap :=
    Nat.mod_lt _ (by have h := ring.cap_pos; omega)
  unfold pos
  rw [← Nat.add_assoc (ring.start - ring.first) i 1, Nat.add_mod (ring.start - ring.first + i) 1,
    Nat.mod_eq_of_lt (show 1 < ring.cap from ring.cap_pos)]
  generalize (ring.start - ring.first + i) % ring.cap = p at hlt ⊢
  unfold nextRel cap at *
  have hmin : min (ring.first + p + 1) (2 ^ 32 - 1) = ring.first + p + 1 := by omega
  rw [hmin]
  by_cases hend : ring.maxlen ≤ ring.first + p + 1
  · have hp : p + 1 = ring.maxlen - ring.first := by omega
    rw [if_pos hend, hp, Nat.mod_self]
    rfl
  · have hp : p + 1 < ring.maxlen - ring.first := by omega
    rw [if_neg hend, Nat.mod_eq_of_lt hp]
    rfl

/-- The walk comes back to the start after one round. -/
theorem pos_eq_start_iff {i : Nat} (hpos : 0 < i) (hi : i ≤ ring.cap) :
    ring.pos i = ring.start ↔ i = ring.cap := by
  have hfirst := ring.first_le
  have hlt : ring.start - ring.first < ring.cap := by
    have h := ring.start_lt
    unfold cap
    omega
  unfold pos
  generalize hp : ring.start - ring.first = p at hlt ⊢
  constructor
  · intro heq
    have hmod : (p + i) % ring.cap = p := by omega
    by_cases hsum : p + i < ring.cap
    · rw [Nat.mod_eq_of_lt hsum] at hmod
      omega
    · rw [Nat.mod_eq_sub_mod (by omega), Nat.mod_eq_of_lt (by omega)] at hmod
      omega
  · intro heq
    rw [heq, Nat.add_mod_right, Nat.mod_eq_of_lt hlt]
    omega

end LogRing

/-! ## Logs -/

/-- A part of a transaction. -/
inductive Item where
  | descriptor (block : Block) (data : List Block)
  | revoke (block : Block)

structure Transaction where
  items : List Item
  commit : Block

def Item.blocks : Item → List Block
  | .descriptor block data => block :: data
  | .revoke block => [block]

def Transaction.blocks (t : Transaction) : List Block := t.items.flatMap Item.blocks ++ [t.commit]

/-- A journal block with the given type and sequence number. -/
structure Header (block : Block) (type seq : UInt32) : Prop where
  magic : be32 block 0 = jbd2Magic
  type : be32 block 4 = type
  seq : be32 block 8 = seq

/-- A descriptor has a data block for each of its tags. -/
def Item.WellFormed (seq : UInt32) : Item → Prop
  | .descriptor block data =>
    Header block jbd2DescriptorBlock seq ∧ data.length = (allTags block).length
  | .revoke block => Header block jbd2RevokeBlock seq

structure Transaction.WellFormed (t : Transaction) (seq : UInt32) : Prop where
  items : ∀ item ∈ t.items, item.WellFormed seq
  descriptor : ∃ block data, Item.descriptor block data ∈ t.items
  commit : Header t.commit jbd2CommitBlock seq

/-- Transactions with consecutive sequence numbers. -/
def Consecutive : UInt32 → List Transaction → Prop
  | _, [] => True
  | seq, t :: rest => t.WellFormed seq ∧ Consecutive (seq + 1) rest

/-- The filesystem blocks with their data that a descriptor logs. -/
def logged (block : Block) (data : List Block) : List (Nat × Block) :=
  ((allTags block).zip data).map fun e => (e.1.fsBlock, unescape e.1 e.2)

/-- The blocks a revoke block names: four bytes each, behind a header of 16 bytes. -/
def revokedBlocks (block : Block) : List Nat :=
  (List.range (((be32 block 12).toNat - 16) / 4)).map fun i => (be32 block (16 + 4 * i)).toNat

/-- What the log says about each filesystem block. -/
abbrev Meaning := Nat → Option Block

/-- An item overrides what was logged before it, or revokes it. -/
def Item.apply (m : Meaning) : Item → Meaning
  | .descriptor block data => (logged block data).foldl (fun m e b =>
    if b = e.1 then some e.2 else m b) m
  | .revoke block => fun b => if b ∈ revokedBlocks block then none else m b

/-- The meaning of a log: each block has the data of the last descriptor that logged it, unless a
revoke of the block follows. -/
def meaning (items : List Item) : Meaning := items.foldl Item.apply fun _ => none

/-- The filesystem the log leaves. -/
def Meaning.on (m : Meaning) (fs : Nat → Block) : Nat → Block := fun b => (m b).getD (fs b)

def itemsOf (txs : List Transaction) : List Item := txs.flatMap Transaction.items

def blocksOf (txs : List Transaction) : List Block := txs.flatMap Transaction.blocks

/-- The superblock of a journal that holds a log from sequence number `seq` on. -/
structure Mounted (dev : Device) (jblockSize : Nat) (ring : LogRing) (seq : UInt32) : Prop where
  size : 512 ≤ jblockSize ∧ jblockSize % blockSize = 0
  superblock : ∃ jsb, dev.journal 0 = some jsb ∧ be32 jsb 0 = jbd2Magic ∧
    (be32 jsb 4 = jbd2SuperblockV1 ∨ be32 jsb 4 = jbd2SuperblockV2) ∧
    (be32 jsb 16).toNat = ring.maxlen ∧ (be32 jsb 20).toNat = ring.first ∧
    be32 jsb 24 = seq ∧ (be32 jsb 28).toNat = ring.start
  readable : ∀ i < ring.cap, (dev.journal (ring.pos i)).isSome

/-- The log's blocks from block `i` on. -/
def LaidAt (dev : Device) (ring : LogRing) (i : Nat) (blocks : List Block) : Prop :=
  ∀ k < blocks.length, dev.journal (ring.pos (i + k)) = blocks[k]?

/-- The journal holds the transactions, from the start of the log on. -/
structure Holds (dev : Device) (ring : LogRing) (seq : UInt32) (txs : List Transaction) : Prop where
  consecutive : Consecutive seq txs
  laid : LaidAt dev ring 0 (blocksOf txs)
  fits : (blocksOf txs).length ≤ ring.cap

/-- Replay is exact: it leaves each filesystem block as the log says. -/
def ReplayExact (dev : Device) (jblockSize : Nat) (txs : List Transaction) : Prop :=
  (replayContiguous dev jblockSize).2.fs = (meaning (itemsOf txs)).on dev.fs

end KnoxOS.Fs.Jbd2
