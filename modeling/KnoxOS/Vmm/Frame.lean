import KnoxOS.Lib.Vec
import KnoxOS.Vmm.Layout
import Mathlib.Algebra.BigOperators.Group.Finset.Basic
import Mathlib.Data.Nat.Bitwise
import Mathlib.Tactic.Abel
import Mathlib.Tactic.Ring

/-!
# The physical buddy allocator

The pool of `mm/vmm/frame.rs`: thirteen free lists of blocks of `2 ^ order` pages, split on
allocation and merged with their buddy on free. The free lists are described by the multiset of
4 KiB frames they hold. `takeBlock_spec` says that an allocation moves the frames of one aligned
block out of that multiset, and `freeBlock_spec` that a free moves them back in, whatever was
split or merged on the way.
-/

namespace KnoxOS.Vmm

open Lib Multiset Function

def buddyMaxOrder : Nat := 12

/-- `free order` lists the free blocks of `pageSize * 2 ^ order` bytes. -/
structure PhysicalFramePool where
  free : Nat → List Nat
  totalFrames : Nat
  allocatedFrames : Nat

namespace PhysicalFramePool

/-- The empty pool. -/
def new : PhysicalFramePool := ⟨fun _ => [], 0, 0⟩

/-- `PAGE_SIZE << order`. -/
def blockSize (order : Nat) : Nat := pageSize * 2 ^ order

def buddyAddr (addr order : Nat) : Nat := addr ^^^ blockSize order

/-- Replace the free list of one order. -/
def setFree (pool : PhysicalFramePool) (order : Nat) (blocks : List Nat) : PhysicalFramePool :=
  { pool with free := update pool.free order blocks }

/-- `take_block` at `order`, with one unit of fuel for each order up to the largest. -/
def takeBlockFrom : Nat → Nat → PhysicalFramePool → Option Nat × PhysicalFramePool
  | 0, _, pool => (none, pool)
  | fuel + 1, order, pool =>
    match pop (pool.free order) with
    | some (addr, rest) => (some addr, pool.setFree order rest)
    | none =>
      match takeBlockFrom fuel (order + 1) pool with
      | (none, pool) => (none, pool)
      | (some larger, pool) =>
        (some larger,
          pool.setFree order (pool.free order ++ [larger + blockSize order]))

/-- Take a block of `order`, splitting a larger one when the list is empty. -/
def takeBlock (pool : PhysicalFramePool) (order : Nat) : Option Nat × PhysicalFramePool :=
  takeBlockFrom (buddyMaxOrder + 1 - order) order pool

/-- `free_block` at `order`, with one unit of fuel for each order below the largest. -/
def freeBlockFrom : Nat → PhysicalFramePool → Nat → Nat → PhysicalFramePool
  | 0, pool, addr, order => pool.setFree order (pool.free order ++ [addr])
  | fuel + 1, pool, addr, order =>
    match (pool.free order).idxOf? (buddyAddr addr order) with
    | some pos =>
      freeBlockFrom fuel (pool.setFree order (swapRemove (pool.free order) pos))
        (min addr (buddyAddr addr order)) (order + 1)
    | none => pool.setFree order (pool.free order ++ [addr])

/-- Put a block on its free list, merging it with its buddy as long as that is free too. -/
def freeBlock (pool : PhysicalFramePool) (addr order : Nat) : PhysicalFramePool :=
  freeBlockFrom (buddyMaxOrder - order) pool addr order

/-- Add a 4 KiB frame to the pool. -/
def addFrame (pool : PhysicalFramePool) (physAddr : Nat) : PhysicalFramePool :=
  let pool := pool.freeBlock (pageAlignDown physAddr) 0
  { pool with totalFrames := pool.totalFrames + 1 }

/-- The inner loop of `add_range`: the largest order whose block fits and is aligned. -/
def rangeOrder (addr nframes : Nat) : Nat → Nat → Nat
  | 0, order => order
  | fuel + 1, order =>
    if nframes < 2 ^ (order + 1) then order
    else if addr % blockSize (order + 1) ≠ 0 then order
    else rangeOrder addr nframes fuel (order + 1)

/-- The outer loop of `add_range`; every round takes at least one frame. -/
def addRangeFrom : Nat → PhysicalFramePool → Nat → Nat → PhysicalFramePool
  | 0, pool, _, _ => pool
  | fuel + 1, pool, addr, nframes =>
    if nframes = 0 then pool
    else
      let order := rangeOrder addr nframes buddyMaxOrder 0
      let pool := pool.freeBlock addr order
      addRangeFrom fuel { pool with totalFrames := pool.totalFrames + 2 ^ order }
        (u64 (addr + 2 ^ order * pageSize)) (nframes - 2 ^ order)

/-- Add `nframes` consecutive 4 KiB pages as the largest aligned blocks. -/
def addRange (pool : PhysicalFramePool) (addr nframes : Nat) : PhysicalFramePool :=
  addRangeFrom nframes pool (pageAlignDown addr) nframes

/-- Allocate a 4 KiB frame. -/
def allocate (pool : PhysicalFramePool) : Option Nat × PhysicalFramePool :=
  match pool.takeBlock 0 with
  | (none, pool) => (none, pool)
  | (some addr, pool) => (some addr, { pool with allocatedFrames := pool.allocatedFrames + 1 })

/-- Allocate `2 ^ order` consecutive 4 KiB frames. -/
def allocateOrder (pool : PhysicalFramePool) (order : Nat) : Option Nat × PhysicalFramePool :=
  if order > buddyMaxOrder then (none, pool)
  else
    match pool.takeBlock order with
    | (none, pool) => (none, pool)
    | (some addr, pool) =>
      (some addr, { pool with allocatedFrames := pool.allocatedFrames + 2 ^ order })

/-- Free a 4 KiB frame. -/
def freeFrame (pool : PhysicalFramePool) (physAddr : Nat) : PhysicalFramePool :=
  let pool := pool.freeBlock (pageAlignDown physAddr) 0
  if pool.allocatedFrames > 0 then
    { pool with allocatedFrames := pool.allocatedFrames - 1 }
  else pool

/-- Free a block that `allocateOrder` returned. -/
def freeOrder (pool : PhysicalFramePool) (physAddr order : Nat) : PhysicalFramePool :=
  if order > buddyMaxOrder then pool
  else
    let pool := pool.freeBlock (physAddr / blockSize order * blockSize order) order
    { pool with allocatedFrames := pool.allocatedFrames - 2 ^ order }

/-- The number of 4 KiB pages on the free lists. -/
def available (pool : PhysicalFramePool) : Nat :=
  ∑ order ∈ Finset.range (buddyMaxOrder + 1), (pool.free order).length * 2 ^ order

/-- Remove every free block, popping each list from its end. -/
def stealFreeFrames (pool : PhysicalFramePool) : List (Nat × Nat) × PhysicalFramePool :=
  ((List.range (buddyMaxOrder + 1)).flatMap fun order =>
      (pool.free order).reverse.map (·, order),
    { pool with free := fun order => if order ≤ buddyMaxOrder then [] else pool.free order })

/-- Put stolen blocks back. -/
def restoreFreeFrames (pool : PhysicalFramePool) (blocks : List (Nat × Nat)) :
    PhysicalFramePool :=
  blocks.foldl (fun pool b => pool.freeBlock (pageAlignDown b.1) (min b.2 buddyMaxOrder)) pool

/-! ## The frames of a block -/

/-- The 4 KiB frames of a block, given as its address and its order. -/
def blockFrames (b : Nat × Nat) : Multiset Nat :=
  (Multiset.range (2 ^ b.2)).map fun i => b.1 + pageSize * i

/-- The block is a multiple of its own size. -/
def Aligned (b : Nat × Nat) : Prop := blockSize b.2 ∣ b.1

@[simp] theorem card_blockFrames (b : Nat × Nat) : (blockFrames b).card = 2 ^ b.2 := by
  simp [blockFrames]

@[simp] theorem blockFrames_zero (addr : Nat) : blockFrames (addr, 0) = {addr} := by
  simp [blockFrames, ← coe_range]

theorem blockFrames_succ (addr order : Nat) :
    blockFrames (addr, order + 1) =
      blockFrames (addr, order) + blockFrames (addr + blockSize order, order) := by
  simp only [blockFrames, pow_succ, mul_two, range_add, map_add,
    map_map, comp_def, blockSize]
  congr 2
  funext i
  ring

theorem blockSize_eq_two_pow (order : Nat) : blockSize order = 2 ^ (12 + order) := by
  simp [blockSize, pageSize, pow_add]

theorem blockSize_succ (order : Nat) : blockSize (order + 1) = 2 * blockSize order := by
  simp only [blockSize, pow_succ]; ring

/-- The buddy of the `m`-th block of its order is the other half of the same larger block. -/
theorem buddyAddr_mul (order m : Nat) :
    buddyAddr (blockSize order * m) order =
      blockSize order * if m % 2 = 0 then m + 1 else m - 1 := by
  have hone : m ^^^ 1 = if m % 2 = 0 then m + 1 else m - 1 := by
    have hm : m = Nat.bit (m % 2 = 1) (m / 2) := by
      rw [Nat.bit_val]; rcases Nat.mod_two_eq_zero_or_one m with h | h <;> simp [h] <;> omega
    have h1 : (1 : Nat) = Nat.bit true 0 := rfl
    rcases Nat.mod_two_eq_zero_or_one m with h | h
    · rw [hm]; simp [h, Nat.bit_val]
    · rw [hm, h1, Nat.xor_bit]; simp [h, Nat.bit_val]
  rw [← hone, buddyAddr, blockSize_eq_two_pow, mul_comm, ← Nat.shiftLeft_eq,
    mul_comm, ← Nat.shiftLeft_eq, Nat.shiftLeft_xor_distrib, Nat.shiftLeft_eq 1, one_mul]

variable {addr order fuel : Nat} {pool pool' : PhysicalFramePool}

/-- A block and its buddy are the two halves of an aligned block of the next order. -/
theorem merge_buddy (h : Aligned (addr, order)) :
    Aligned (min addr (buddyAddr addr order), order + 1) ∧
      blockFrames (min addr (buddyAddr addr order), order + 1) =
        blockFrames (addr, order) + blockFrames (buddyAddr addr order, order) := by
  obtain ⟨m, rfl⟩ : ∃ m, addr = blockSize order * m := h
  rw [buddyAddr_mul]
  rcases Nat.mod_two_eq_zero_or_one m with hm | hm
  · have hmin : min (blockSize order * m) (blockSize order * (m + 1)) = blockSize order * m :=
      Nat.min_eq_left (Nat.mul_le_mul_left _ (Nat.le_succ m))
    rw [if_pos hm, hmin]
    refine ⟨?_, ?_⟩
    · rw [Aligned, blockSize_succ, mul_comm 2]
      exact Nat.mul_dvd_mul_left _ (Nat.dvd_of_mod_eq_zero hm)
    · rw [blockFrames_succ, mul_add_one]
  · obtain ⟨q, rfl⟩ : ∃ q, m = q + 1 := ⟨m - 1, by omega⟩
    have hmin : min (blockSize order * (q + 1)) (blockSize order * q) = blockSize order * q :=
      Nat.min_eq_right (Nat.mul_le_mul_left _ (Nat.le_succ q))
    rw [if_neg (by omega), Nat.add_sub_cancel, hmin]
    refine ⟨?_, ?_⟩
    · rw [Aligned, blockSize_succ, mul_comm 2]
      exact Nat.mul_dvd_mul_left _ (by omega)
    · rw [blockFrames_succ, mul_add_one, add_comm]

/-! ## The frames of the free lists -/

/-- The free blocks as address and order. -/
def freeBlocks (pool : PhysicalFramePool) : Multiset (Nat × Nat) :=
  ∑ order ∈ Finset.range (buddyMaxOrder + 1), (pool.free order : Multiset Nat).map (·, order)

/-- The 4 KiB frames on the free lists. -/
def freeFrames (pool : PhysicalFramePool) : Multiset Nat := pool.freeBlocks.bind blockFrames

/-- Every free block is aligned to its own size. -/
def AllAligned (pool : PhysicalFramePool) : Prop := ∀ b ∈ pool.freeBlocks, Aligned b

theorem mem_freeBlocks {b : Nat × Nat} :
    b ∈ pool.freeBlocks ↔ b.2 ≤ buddyMaxOrder ∧ b.1 ∈ pool.free b.2 := by
  rcases b with ⟨addr, order⟩
  simp only [freeBlocks, mem_sum, Finset.mem_range, mem_map, mem_coe,
    Prod.mk.injEq, Nat.lt_succ_iff]
  constructor
  · rintro ⟨o, ho, a, ha, rfl, rfl⟩
    exact ⟨ho, ha⟩
  · rintro ⟨ho, ha⟩
    exact ⟨order, ho, addr, ha, rfl, rfl⟩

section

variable (pool : PhysicalFramePool)

/-- Replacing one free list exchanges its blocks. -/
theorem freeBlocks_setFree (h : order ≤ buddyMaxOrder) (blocks : List Nat) :
    (pool.setFree order blocks).freeBlocks + (pool.free order : Multiset Nat).map (·, order) =
      pool.freeBlocks + (blocks : Multiset Nat).map (·, order) := by
  have hmem : order ∈ Finset.range (buddyMaxOrder + 1) := Finset.mem_range.mpr (by omega)
  simp only [freeBlocks, ← Finset.add_sum_erase _ _ hmem, setFree, update_self]
  have hrest : ∑ o ∈ (Finset.range (buddyMaxOrder + 1)).erase order,
        (update pool.free order blocks o : Multiset Nat).map (·, o) =
      ∑ o ∈ (Finset.range (buddyMaxOrder + 1)).erase order,
        (pool.free o : Multiset Nat).map (·, o) := by
    refine Finset.sum_congr rfl fun o ho => ?_
    rw [update_of_ne (Finset.ne_of_mem_erase ho)]
  rw [hrest]
  abel

theorem freeBlocks_push (addr : Nat) (h : order ≤ buddyMaxOrder) :
    (pool.setFree order (pool.free order ++ [addr])).freeBlocks =
      (addr, order) ::ₘ pool.freeBlocks := by
  have hset := freeBlocks_setFree pool h (pool.free order ++ [addr])
  rw [← coe_add, map_add, ← add_assoc, add_right_comm, add_left_inj] at hset
  rw [hset, add_comm]
  rfl

/-- Removing one occurrence of a block from its list removes it from the free blocks. -/
theorem freeBlocks_remove {rest : List Nat} (h : order ≤ buddyMaxOrder)
    (hperm : (pool.free order).Perm (addr :: rest)) :
    pool.freeBlocks = (addr, order) ::ₘ (pool.setFree order rest).freeBlocks := by
  have hset := freeBlocks_setFree pool h rest
  rw [coe_eq_coe.mpr hperm, ← cons_coe, map_cons,
    ← singleton_add, ← add_assoc, add_left_inj] at hset
  rw [← hset, add_comm, singleton_add]

end

/-- When no block is large enough the pool is unchanged. -/
theorem takeBlockFrom_none (h : takeBlockFrom fuel order pool = (none, pool')) : pool' = pool := by
  induction fuel generalizing order pool' with
  | zero => simpa [takeBlockFrom] using h.symm
  | succ fuel ih =>
    simp only [takeBlockFrom] at h
    split at h
    next => cases h
    next =>
      split at h
      next hlarger =>
        cases h
        exact ih hlarger
      next => cases h

/-- A failed search found every list from its order on empty. -/
theorem takeBlockFrom_empty (h : takeBlockFrom fuel order pool = (none, pool')) {o : Nat}
    (hle : order ≤ o) (hlt : o < order + fuel) : pool.free o = [] := by
  induction fuel generalizing order pool' with
  | zero => omega
  | succ fuel ih =>
    simp only [takeBlockFrom] at h
    split at h
    next => cases h
    next hpop =>
      split at h
      next hlarger =>
        rcases Nat.eq_or_lt_of_le hle with rfl | hlt'
        · exact pop_eq_none hpop
        · exact ih hlarger hlt' (by omega)
      next => cases h

theorem allocateOrder_none (h : pool.allocateOrder order = (none, pool')) : pool' = pool := by
  simp only [allocateOrder] at h
  split at h
  next => exact (Prod.mk.inj h).2.symm
  next =>
    split at h
    next hblock =>
      cases h
      exact takeBlockFrom_none hblock
    next => cases h

theorem allocate_eq (pool : PhysicalFramePool) : pool.allocate = pool.allocateOrder 0 := by
  simp [allocate, allocateOrder]

/-- A failed `allocate` changes nothing and found no free frame. -/
theorem allocate_none (h : pool.allocate = (none, pool')) : pool' = pool ∧ pool.freeFrames = 0 := by
  have hnone : pool.takeBlock 0 = (none, pool') := by
    simp only [allocate] at h
    split at h
    next hblock =>
      cases h
      exact hblock
    next => cases h
  refine ⟨takeBlockFrom_none hnone, ?_⟩
  have hempty : pool.freeBlocks = 0 := by
    refine eq_zero_of_forall_notMem fun b hb => ?_
    obtain ⟨hle, hmem⟩ := mem_freeBlocks.mp hb
    rw [takeBlockFrom_empty hnone (Nat.zero_le b.2) (by omega)] at hmem
    simp at hmem
  rw [freeFrames, hempty, zero_bind]

section

variable (haligned : pool.AllAligned)
include haligned

/-- What `take_block` does: it returns an aligned block whose frames leave the free lists. -/
theorem takeBlockFrom_spec (hfuel : fuel + order ≤ buddyMaxOrder + 1)
    (h : takeBlockFrom fuel order pool = (some addr, pool')) :
    Aligned (addr, order) ∧ pool'.AllAligned ∧
      pool.freeFrames = blockFrames (addr, order) + pool'.freeFrames ∧
      pool'.totalFrames = pool.totalFrames ∧ pool'.allocatedFrames = pool.allocatedFrames := by
  induction fuel generalizing order pool' addr with
  | zero => simp [takeBlockFrom] at h
  | succ fuel ih =>
    simp only [takeBlockFrom] at h
    split at h
    next a rest hpop =>
      cases h
      have hperm : (pool.free order).Perm (addr :: rest) := by
        rw [pop_eq_some hpop]
        exact List.perm_append_singleton _ _
      have hblocks := freeBlocks_remove pool (by omega) hperm
      refine ⟨haligned _ (hblocks ▸ mem_cons_self _ _), ?_, ?_, rfl, rfl⟩
      · intro b hb
        exact haligned b (hblocks ▸ mem_cons_of_mem hb)
      · rw [freeFrames, hblocks, cons_bind, freeFrames]
    next hpop =>
      split at h
      next => cases h
      next larger mid hlarger =>
        cases h
        obtain ⟨hal, hmid, hframes, htotal, halloc⟩ := ih (by omega) hlarger
        have horder : order ≤ buddyMaxOrder := by omega
        have hpush := freeBlocks_push mid (addr + blockSize order) horder
        have hdvd : blockSize order ∣ blockSize (order + 1) :=
          ⟨2, by rw [blockSize_succ, mul_comm]⟩
        refine ⟨hdvd.trans hal, ?_, ?_, htotal, halloc⟩
        · intro b hb
          rw [hpush, mem_cons] at hb
          rcases hb with rfl | hb
          · exact (Nat.dvd_add_iff_left (dvd_refl _)).mp (hdvd.trans hal)
          · exact hmid b hb
        · rw [hframes, blockFrames_succ, freeFrames, freeFrames, hpush, cons_bind,
            add_assoc]

/-- What `free_block` does: the frames of the block join the free lists. -/
theorem freeBlockFrom_spec (hfuel : fuel + order = buddyMaxOrder) (hblock : Aligned (addr, order)) :
    (freeBlockFrom fuel pool addr order).AllAligned ∧
      (freeBlockFrom fuel pool addr order).freeFrames =
        blockFrames (addr, order) + pool.freeFrames ∧
      (freeBlockFrom fuel pool addr order).totalFrames = pool.totalFrames ∧
      (freeBlockFrom fuel pool addr order).allocatedFrames = pool.allocatedFrames := by
  -- without a merge the block itself is pushed
  have hpush : ∀ {order : Nat} {pool : PhysicalFramePool} {addr : Nat}, order ≤ buddyMaxOrder →
      pool.AllAligned → Aligned (addr, order) →
      (pool.setFree order (pool.free order ++ [addr])).AllAligned ∧
        (pool.setFree order (pool.free order ++ [addr])).freeFrames =
          blockFrames (addr, order) + pool.freeFrames := by
    intro order pool addr ho hpool hb
    have hblocks := freeBlocks_push pool addr ho
    refine ⟨fun b hmem => ?_, by rw [freeFrames, hblocks, cons_bind, freeFrames]⟩
    rw [hblocks, mem_cons] at hmem
    rcases hmem with rfl | hmem
    · exact hb
    · exact hpool b hmem
  induction fuel generalizing pool addr order with
  | zero =>
    obtain ⟨h1, h2⟩ := hpush (by omega) haligned hblock
    exact ⟨h1, h2, rfl, rfl⟩
  | succ fuel ih =>
    simp only [freeBlockFrom]
    split
    next pos hpos =>
      have hblocks := freeBlocks_remove pool (by omega) (perm_swapRemove_idxOf hpos)
      obtain ⟨hal, hframes⟩ := merge_buddy hblock
      have hrest : (pool.setFree order (swapRemove (pool.free order) pos)).AllAligned :=
        fun b hb => haligned b (hblocks ▸ mem_cons_of_mem hb)
      obtain ⟨h1, h2, h3, h4⟩ := ih hrest (by omega) hal
      refine ⟨h1, ?_, h3, h4⟩
      rw [h2, hframes, freeFrames, freeFrames, hblocks, cons_bind, add_assoc]
    next =>
      obtain ⟨h1, h2⟩ := hpush (by omega) haligned hblock
      exact ⟨h1, h2, rfl, rfl⟩

/-! ## The public operations -/

/-- `freeBlock` puts the frames of an aligned block on the free lists. -/
theorem freeBlock_spec (horder : order ≤ buddyMaxOrder) (hblock : Aligned (addr, order)) :
    (pool.freeBlock addr order).AllAligned ∧
      (pool.freeBlock addr order).freeFrames = blockFrames (addr, order) + pool.freeFrames ∧
      (pool.freeBlock addr order).totalFrames = pool.totalFrames ∧
      (pool.freeBlock addr order).allocatedFrames = pool.allocatedFrames :=
  freeBlockFrom_spec haligned (by omega) hblock

/-- A successful `allocate_order` moves one aligned block out of the pool. -/
theorem allocateOrder_spec (h : pool.allocateOrder order = (some addr, pool')) :
    Aligned (addr, order) ∧ pool'.AllAligned ∧
      pool.freeFrames = blockFrames (addr, order) + pool'.freeFrames ∧
      pool'.totalFrames = pool.totalFrames ∧
      pool'.allocatedFrames = pool.allocatedFrames + 2 ^ order := by
  simp only [allocateOrder] at h
  split at h
  next => cases h
  next horder =>
    split at h
    next => cases h
    next taken hblock =>
      cases h
      obtain ⟨h1, h2, h3, h4, h5⟩ := takeBlockFrom_spec haligned (by omega) hblock
      exact ⟨h1, h2, h3, h4, by rw [← h5]⟩

theorem allocate_spec (h : pool.allocate = (some addr, pool')) :
    pageSize ∣ addr ∧ pool'.AllAligned ∧ pool.freeFrames = addr ::ₘ pool'.freeFrames ∧
      pool'.totalFrames = pool.totalFrames ∧ pool'.allocatedFrames = pool.allocatedFrames + 1 := by
  rw [allocate_eq] at h
  simpa [Aligned, blockSize] using allocateOrder_spec haligned h

/-- Freeing an outstanding 4 KiB frame puts it back. -/
theorem freeFrame_spec (haddr : pageSize ∣ addr) :
    (pool.freeFrame addr).AllAligned ∧
      (pool.freeFrame addr).freeFrames = addr ::ₘ pool.freeFrames ∧
      (pool.freeFrame addr).totalFrames = pool.totalFrames ∧
      (pool.freeFrame addr).allocatedFrames = pool.allocatedFrames - 1 := by
  have hblock : Aligned (addr, 0) := by simpa [Aligned, blockSize] using haddr
  obtain ⟨h1, h2, h3, h4⟩ := freeBlock_spec haligned (Nat.zero_le _) hblock
  simp only [freeFrame, pageAlignDown_of_aligned (Nat.mod_eq_zero_of_dvd haddr)]
  split
  next => exact ⟨h1, h2, h3, by rw [h4]⟩
  next hzero => exact ⟨h1, h2, h3, by omega⟩

end

/-- The frames of `n` consecutive pages. -/
def rangeFrames (addr n : Nat) : Multiset Nat :=
  (Multiset.range n).map fun i => addr + pageSize * i

/-- A range starts with any block that fits in it. -/
theorem rangeFrames_split (addr : Nat) {n : Nat} (h : 2 ^ order ≤ n) :
    rangeFrames addr n =
      blockFrames (addr, order) + rangeFrames (addr + 2 ^ order * pageSize) (n - 2 ^ order) := by
  obtain ⟨rest, rfl⟩ := Nat.exists_eq_add_of_le h
  simp only [rangeFrames, blockFrames, range_add, map_add, map_map,
    comp_def, Nat.add_sub_cancel_left]
  congr 2
  funext i
  ring

/-- The order `add_range` picks fits in the range and is aligned. -/
theorem rangeOrder_spec {nframes : Nat} (fuel order : Nat) (hfit : 2 ^ order ≤ nframes)
    (haligned : Aligned (addr, order)) :
    rangeOrder addr nframes fuel order ≤ order + fuel ∧
      2 ^ rangeOrder addr nframes fuel order ≤ nframes ∧
      Aligned (addr, rangeOrder addr nframes fuel order) := by
  induction fuel generalizing order with
  | zero => exact ⟨by simp [rangeOrder], hfit, haligned⟩
  | succ fuel ih =>
    simp only [rangeOrder]
    split
    next => exact ⟨by omega, hfit, haligned⟩
    next hbig =>
      split
      next => exact ⟨by omega, hfit, haligned⟩
      next hmod =>
        obtain ⟨h1, h2⟩ := ih (order + 1) (by omega)
          (Nat.dvd_of_mod_eq_zero (not_not.mp hmod))
        exact ⟨by omega, h2⟩

/-- `add_range` puts exactly the frames of the range on the free lists. -/
theorem addRangeFrom_spec (fuel : Nat) (pool : PhysicalFramePool) (addr nframes : Nat)
    (hfuel : nframes ≤ fuel) (haligned : pool.AllAligned) (haddr : pageSize ∣ addr)
    (hend : addr + nframes * pageSize ≤ 2 ^ 64) :
    (addRangeFrom fuel pool addr nframes).AllAligned ∧
      (addRangeFrom fuel pool addr nframes).freeFrames =
        rangeFrames addr nframes + pool.freeFrames ∧
      (addRangeFrom fuel pool addr nframes).totalFrames = pool.totalFrames + nframes ∧
      (addRangeFrom fuel pool addr nframes).allocatedFrames = pool.allocatedFrames := by
  induction fuel generalizing pool addr nframes with
  | zero =>
    obtain rfl : nframes = 0 := by omega
    simpa [addRangeFrom, rangeFrames] using haligned
  | succ fuel ih =>
    simp only [addRangeFrom]
    split
    next hzero => subst hzero; simpa [rangeFrames] using haligned
    next hpos =>
      have h0 : Aligned (addr, 0) := by simpa [Aligned, blockSize] using haddr
      obtain ⟨hle, hfit, hal⟩ := rangeOrder_spec buddyMaxOrder 0
        (Nat.one_le_iff_ne_zero.mpr hpos) h0
      generalize rangeOrder addr nframes buddyMaxOrder 0 = order at hle hfit hal ⊢
      obtain ⟨h1, h2, h3, h4⟩ := freeBlock_spec haligned (by omega) hal
      have hmul : 2 ^ order * pageSize + (nframes - 2 ^ order) * pageSize =
          nframes * pageSize := by
        rw [← Nat.add_mul, Nat.add_sub_cancel' hfit]
      have hone : 1 ≤ 2 ^ order := Nat.one_le_two_pow
      rcases Nat.eq_or_lt_of_le hfit with heq | hlt
      · -- the block is the whole range: the address may wrap, but nothing follows it
        have hnil : ∀ (fuel : Nat) (p : PhysicalFramePool) (a : Nat),
            addRangeFrom fuel p a 0 = p := by
          intro fuel p a
          cases fuel <;> simp [addRangeFrom]
        rw [heq, Nat.sub_self, hnil]
        refine ⟨h1, ?_, ?_, h4⟩
        · rw [rangeFrames_split addr hfit, heq, Nat.sub_self]
          rw [rangeFrames, range_zero, map_zero, add_zero]
          exact h2
        · simp only [h3]
      · have hlast : addr + 2 ^ order * pageSize < 2 ^ 64 := by
          have : 0 < (nframes - 2 ^ order) * pageSize :=
            Nat.mul_pos (by omega) (by simp [pageSize])
          omega
        have hu : u64 (addr + 2 ^ order * pageSize) = addr + 2 ^ order * pageSize :=
          Nat.mod_eq_of_lt hlast
        rw [hu]
        obtain ⟨g1, g2, g3, g4⟩ := ih { pool.freeBlock addr order with
            totalFrames := (pool.freeBlock addr order).totalFrames + 2 ^ order }
          (addr + 2 ^ order * pageSize) (nframes - 2 ^ order)
          (by omega) h1 (Nat.dvd_add haddr (dvd_mul_left _ _)) (by omega)
        refine ⟨g1, ?_, ?_, by rw [g4]; exact h4⟩
        · rw [g2, rangeFrames_split addr hfit, add_comm (blockFrames _), add_assoc]
          exact congrArg _ h2
        · rw [g3]
          simp only [h3]
          omega

end PhysicalFramePool

end KnoxOS.Vmm
