import KnoxOS.Lib.Reach
import KnoxOS.Vmm.Frame

/-!
# Conservation of physical frames

A `Ledger` is a pool together with what its callers have done: the frames they added, the blocks
they hold and the batches they stole. `PoolOp` lists the calls and `Permitted` says when a caller
may make them. The invariant `Balanced` is one equation between multisets of frames: the added
frames are the free ones, the outstanding ones and the stolen ones. `frames_conserved` reads off
that every added frame has exactly one owner.
-/

namespace KnoxOS.Vmm

open Lib Multiset PhysicalFramePool Finset

/-- A pool and the history of its callers. -/
structure Ledger where
  pool : PhysicalFramePool
  added : Multiset Nat
  outstanding : Multiset (Nat × Nat)
  stolen : List (List (Nat × Nat))

/-- The calls on a frame pool. -/
inductive PoolOp where
  | addFrame (physAddr : Nat)
  | addRange (addr nframes : Nat)
  | allocate
  | allocateOrder (order : Nat)
  | free (physAddr : Nat)
  | freeOrder (physAddr order : Nat)
  | stealFreeFrames
  | restoreFreeFrames (blocks : List (Nat × Nat))

namespace Ledger

def init : Ledger := ⟨.new, 0, 0, []⟩

/-- Record the result of an allocation of `order`. -/
def allocated (l : Ledger) (order : Nat) (result : Option Nat × PhysicalFramePool) : Ledger :=
  match result with
  | (none, pool) => { l with pool }
  | (some addr, pool) => { l with pool, outstanding := (addr, order) ::ₘ l.outstanding }

/-- Run one call and record its effect. -/
def step (l : Ledger) : PoolOp → Ledger
  | .addFrame a => { l with pool := l.pool.addFrame a, added := a ::ₘ l.added }
  | .addRange a n =>
    { l with pool := l.pool.addRange a n, added := rangeFrames a n + l.added }
  | .allocate => l.allocated 0 l.pool.allocate
  | .allocateOrder order => l.allocated order (l.pool.allocateOrder order)
  | .free a =>
    { l with pool := l.pool.freeFrame a, outstanding := l.outstanding.erase (a, 0) }
  | .freeOrder a order =>
    { l with pool := l.pool.freeOrder a order, outstanding := l.outstanding.erase (a, order) }
  | .stealFreeFrames =>
    { l with pool := l.pool.stealFreeFrames.2, stolen := l.pool.stealFreeFrames.1 :: l.stolen }
  | .restoreFreeFrames blocks =>
    { l with pool := l.pool.restoreFreeFrames blocks, stolen := l.stolen.erase blocks }

/-- What a caller may do: add page-aligned memory it has not added before, allocate at any
order, free what it holds at the order it got it, and restore what it stole. -/
def Permitted (l : Ledger) : PoolOp → Prop
  | .addFrame a => pageSize ∣ a ∧ a < 2 ^ 64 ∧ a ∉ l.added
  | .addRange a n => pageSize ∣ a ∧ a + n * pageSize ≤ 2 ^ 64 ∧ ∀ f ∈ rangeFrames a n, f ∉ l.added
  | .allocate => True
  | .allocateOrder order => order ≤ buddyMaxOrder
  | .free a => (a, 0) ∈ l.outstanding
  | .freeOrder a order => (a, order) ∈ l.outstanding
  | .stealFreeFrames => True
  | .restoreFreeFrames blocks => blocks ∈ l.stolen

instance (l : Ledger) : DecidablePred l.Permitted
  | .addFrame _ => inferInstanceAs (Decidable (_ ∣ _ ∧ _ < _ ∧ _ ∉ _))
  | .addRange a n => inferInstanceAs (Decidable (_ ∣ _ ∧ _ ≤ _ ∧ ∀ f ∈ rangeFrames a n, _ ∉ _))
  | .allocate | .stealFreeFrames => inferInstanceAs (Decidable True)
  | .allocateOrder _ => inferInstanceAs (Decidable (_ ≤ _))
  | .free _ | .freeOrder _ _ | .restoreFreeFrames _ => inferInstanceAs (Decidable (_ ∈ _))

/-- Every added frame lies in exactly one free block or outstanding allocation, all of these are
aligned to their size, and the counters add up. -/
structure Conserved (l : Ledger) : Prop where
  one_owner : ∀ f ∈ l.added, (l.pool.freeBlocks + l.outstanding).countP (f ∈ blockFrames ·) = 1
  free_aligned : ∀ b ∈ l.pool.freeBlocks, pageSize <<< b.2 ∣ b.1
  outstanding_aligned : ∀ b ∈ l.outstanding, pageSize <<< b.2 ∣ b.1
  counted : l.pool.available + l.pool.allocatedFrames = l.pool.totalFrames

/-! ## The invariant -/

/-- The blocks that are not on a free list. -/
def held (l : Ledger) : Multiset (Nat × Nat) := l.outstanding + (l.stolen.flatten : Multiset _)

/-- The free frames and the held frames are the added frames. -/
structure Balanced (l : Ledger) : Prop where
  aligned : l.pool.AllAligned
  held_order : ∀ b ∈ l.held, b.2 ≤ buddyMaxOrder
  held_aligned : ∀ b ∈ l.held, Aligned b
  nodup : l.added.Nodup
  frames : l.added = l.pool.freeFrames + l.held.bind blockFrames
  total : l.pool.totalFrames = l.added.card
  allocated : l.pool.allocatedFrames = (l.outstanding.bind blockFrames).card

theorem balanced_init : Balanced init := by
  refine ⟨?_, ?_, ?_, ?_, ?_, ?_, ?_⟩ <;>
    simp [init, held, new, AllAligned, freeFrames, freeBlocks]

/-- `available` counts the frames on the free lists. -/
theorem available_eq_card (pool : PhysicalFramePool) : pool.available = pool.freeFrames.card := by
  have hsum : ∀ blocks : Finset Nat, card ((∑ order ∈ blocks,
        (pool.free order : Multiset Nat).map (·, order)).bind blockFrames) =
      ∑ order ∈ blocks, (pool.free order).length * 2 ^ order := by
    intro blocks
    induction blocks using Finset.induction_on with
    | empty => simp
    | insert order blocks hmem ih =>
      rw [sum_insert hmem, sum_insert hmem, add_bind, card_add, ih]
      simp [card_bind, Function.comp_def]
  rw [freeFrames, freeBlocks, hsum, available]

theorem nodup_rangeFrames (addr n : Nat) : (rangeFrames addr n).Nodup := by
  refine (nodup_range _).map fun i j h => ?_
  simp only [pageSize] at h
  omega

theorem nodup_blockFrames (b : Nat × Nat) : (blockFrames b).Nodup :=
  nodup_rangeFrames b.1 (2 ^ b.2)

theorem countP_blockFrames (blocks : Multiset (Nat × Nat)) (f : Nat) :
    blocks.countP (f ∈ blockFrames ·) = (blocks.bind blockFrames).count f := by
  induction blocks using Multiset.induction_on with
  | empty => simp
  | cons b blocks ih =>
    rw [countP_cons, ih, cons_bind, count_add, count_eq_of_nodup (nodup_blockFrames b), add_comm]

variable {l : Ledger}

/-- What is stolen are the free blocks. -/
theorem stolen_eq_freeBlocks (pool : PhysicalFramePool) :
    (pool.stealFreeFrames.1 : Multiset (Nat × Nat)) = pool.freeBlocks := by
  have hsum : ∀ n : Nat, (((List.range n).flatMap fun order =>
        (pool.free order).reverse.map (·, order) : List (Nat × Nat)) : Multiset (Nat × Nat)) =
      ∑ order ∈ range n, (pool.free order : Multiset Nat).map (·, order) := by
    intro n
    induction n with
    | zero => simp
    | succ n ih =>
      rw [List.range_succ, List.flatMap_append, ← coe_add, ih, sum_range_succ]
      simp
  exact hsum _

/-- Restoring aligned blocks puts their frames back, whatever merges with what. -/
theorem restoreFreeFrames_spec (blocks : List (Nat × Nat)) (pool : PhysicalFramePool)
    (haligned : pool.AllAligned)
    (hblocks : ∀ b ∈ blocks, b.2 ≤ buddyMaxOrder ∧ Aligned b) :
    (pool.restoreFreeFrames blocks).AllAligned ∧
      (pool.restoreFreeFrames blocks).freeFrames =
        (blocks : Multiset _).bind blockFrames + pool.freeFrames ∧
      (pool.restoreFreeFrames blocks).totalFrames = pool.totalFrames ∧
      (pool.restoreFreeFrames blocks).allocatedFrames = pool.allocatedFrames := by
  induction blocks generalizing pool with
  | nil => simpa [restoreFreeFrames] using haligned
  | cons b blocks ih =>
    obtain ⟨horder, hal⟩ := hblocks b (by simp)
    have hpage : pageSize ∣ b.1 := (dvd_mul_right _ _).trans hal
    obtain ⟨h1, h2, h3, h4⟩ := freeBlock_spec haligned horder hal
    obtain ⟨g1, g2, g3, g4⟩ := ih (pool.freeBlock b.1 b.2) h1
      (fun b hb => hblocks b (by simp [hb]))
    have hcons : pool.restoreFreeFrames (b :: blocks) =
        (pool.freeBlock b.1 b.2).restoreFreeFrames blocks := by
      simp only [restoreFreeFrames, List.foldl_cons, min_eq_left horder,
        pageAlignDown_of_aligned (Nat.mod_eq_zero_of_dvd hpage)]
    rw [hcons]
    refine ⟨g1, ?_, g3.trans h3, g4.trans h4⟩
    rw [g2, h2, ← cons_coe, cons_bind]
    abel

variable (h : Balanced l)
include h

/-- With nothing stolen, balance gives every added frame one owner. -/
theorem Balanced.conserved (hstolen : l.stolen = []) : Conserved l := by
  have hheld : l.held = l.outstanding := by simp [held, hstolen]
  have hshift : ∀ b : Nat × Nat, Aligned b → pageSize <<< b.2 ∣ b.1 := by
    intro b hb
    rwa [Nat.shiftLeft_eq]
  refine ⟨fun f hf => ?_, fun b hb => hshift b (h.aligned b hb), fun b hb => ?_, ?_⟩
  · rw [countP_blockFrames, add_bind, ← freeFrames, ← hheld, ← h.frames]
    exact count_eq_one_of_mem h.nodup hf
  · exact hshift b (h.held_aligned b (hheld ▸ hb))
  · rw [available_eq_card, h.allocated, h.total, h.frames, hheld, card_add]

/-! ## One step -/

/-- Frames that were not added before extend the balance. -/
theorem Balanced.add (pool : PhysicalFramePool) (frames : Multiset Nat) (haligned : pool.AllAligned)
    (hnodup : frames.Nodup) (hfresh : ∀ f ∈ frames, f ∉ l.added)
    (hfree : pool.freeFrames = frames + l.pool.freeFrames)
    (htotal : pool.totalFrames = l.pool.totalFrames + frames.card)
    (halloc : pool.allocatedFrames = l.pool.allocatedFrames) :
    Balanced { l with pool, added := frames + l.added } where
  aligned := haligned
  held_order := h.held_order
  held_aligned := h.held_aligned
  nodup := by
    refine nodup_add.mpr ⟨hnodup, h.nodup, ?_⟩
    exact disjoint_left.mpr fun hf => hfresh _ hf
  frames := by
    show frames + l.added = pool.freeFrames + l.held.bind blockFrames
    rw [hfree, h.frames, add_assoc]
  total := by
    rw [htotal, h.total, card_add, add_comm]
  allocated := halloc.trans h.allocated

/-- An allocation moves one block from the free lists to the outstanding ones. -/
theorem Balanced.allocateOrder {order : Nat} (horder : order ≤ buddyMaxOrder) :
    Balanced (l.allocated order (l.pool.allocateOrder order)) := by
  rcases hresult : l.pool.allocateOrder order with ⟨_ | addr, pool⟩
  · rw [allocateOrder_none hresult]
    exact h
  · obtain ⟨h1, h2, h3, h4, h5⟩ := allocateOrder_spec h.aligned hresult
    have hheld : (l.allocated order (some addr, pool)).held = (addr, order) ::ₘ l.held := by
      simp [held, Ledger.allocated]
    refine ⟨h2, ?_, ?_, h.nodup, ?_, h4.trans h.total, ?_⟩
    · rw [hheld]
      simpa using ⟨horder, fun a o hb => h.held_order (a, o) hb⟩
    · rw [hheld]
      simpa using ⟨h1, fun a o hb => h.held_aligned (a, o) hb⟩
    · show l.added = pool.freeFrames + _
      rw [hheld, cons_bind, h.frames, h3]
      abel
    · show pool.allocatedFrames = card (Multiset.bind (_ ::ₘ _) blockFrames)
      rw [cons_bind, card_add, card_blockFrames, h5, h.allocated, add_comm]

/-- Freeing a held block moves its frames back to the free lists. -/
theorem Balanced.free {addr order : Nat} {pool : PhysicalFramePool}
    (hmem : (addr, order) ∈ l.outstanding) (haligned : pool.AllAligned)
    (hfree : pool.freeFrames = blockFrames (addr, order) + l.pool.freeFrames)
    (htotal : pool.totalFrames = l.pool.totalFrames)
    (halloc : pool.allocatedFrames = l.pool.allocatedFrames - 2 ^ order) :
    Balanced { l with pool, outstanding := l.outstanding.erase (addr, order) } := by
  have hcons := cons_erase hmem
  have hheld : l.held =
      (addr, order) ::ₘ
        Ledger.held { l with outstanding := l.outstanding.erase (addr, order) } := by
    simp only [held]
    rw [← hcons, cons_add, erase_cons_head]
  have hsub : ∀ b ∈ Ledger.held { l with outstanding := l.outstanding.erase (addr, order) },
      b ∈ l.held := fun b hb => hheld ▸ mem_cons_of_mem hb
  refine ⟨haligned, fun b hb => h.held_order b (hsub b hb),
    fun b hb => h.held_aligned b (hsub b hb), h.nodup, ?_, htotal.trans h.total, ?_⟩
  · rw [h.frames, hheld, cons_bind, hfree]
    abel
  · rw [halloc, h.allocated]
    conv_lhs => rw [← hcons, cons_bind, card_add, card_blockFrames]
    simp

/-- Stealing moves every free block to the held ones. -/
theorem Balanced.steal : Balanced (l.step .stealFreeFrames) := by
  have hempty : l.pool.stealFreeFrames.2.freeBlocks = 0 := by
    refine eq_zero_of_forall_notMem fun b hb => ?_
    obtain ⟨hle, hmem⟩ := mem_freeBlocks.mp hb
    simp [stealFreeFrames, hle] at hmem
  have hheld : (l.step .stealFreeFrames).held = l.pool.freeBlocks + l.held := by
    simp only [held, step, List.flatten_cons, ← coe_add, stolen_eq_freeBlocks]
    abel
  refine ⟨?_, ?_, ?_, h.nodup, ?_, h.total, h.allocated⟩
  · intro b hb
    rw [step, hempty] at hb
    simp at hb
  · rw [hheld]
    intro b hb
    rcases mem_add.mp hb with hb | hb
    · exact (mem_freeBlocks.mp hb).1
    · exact h.held_order b hb
  · rw [hheld]
    intro b hb
    rcases mem_add.mp hb with hb | hb
    · exact h.aligned b hb
    · exact h.held_aligned b hb
  · rw [hheld, add_bind, ← freeFrames, step, freeFrames, hempty]
    simpa using h.frames

/-- Restoring a stolen batch returns its frames to the free lists. -/
theorem Balanced.restore {blocks : List (Nat × Nat)} (hmem : blocks ∈ l.stolen) :
    Balanced (l.step (.restoreFreeFrames blocks)) := by
  have hheld : l.held = (blocks : Multiset _) + (l.step (.restoreFreeFrames blocks)).held := by
    have hperm := (List.perm_cons_erase hmem).flatten
    simp only [held, step]
    rw [coe_eq_coe.mpr hperm, List.flatten_cons, ← coe_add]
    abel
  have hsub : ∀ b ∈ (l.step (.restoreFreeFrames blocks)).held, b ∈ l.held :=
    fun b hb => hheld ▸ mem_add.mpr (.inr hb)
  have hin : ∀ b ∈ blocks, b ∈ l.held :=
    fun b hb => hheld ▸ mem_add.mpr (.inl (by simpa using hb))
  obtain ⟨h1, h2, h3, h4⟩ := restoreFreeFrames_spec blocks l.pool h.aligned
    fun b hb => ⟨h.held_order b (hin b hb), h.held_aligned b (hin b hb)⟩
  refine ⟨h1, fun b hb => h.held_order b (hsub b hb), fun b hb => h.held_aligned b (hsub b hb),
    h.nodup, ?_, h3.trans h.total, h4.trans h.allocated⟩
  show l.added = (l.pool.restoreFreeFrames blocks).freeFrames + _
  rw [h.frames, hheld, h2, add_bind]
  abel

/-- Every permitted call keeps the ledger balanced. -/
theorem Balanced.step {op : PoolOp} (hop : l.Permitted op) : Balanced (l.step op) := by
  cases op with
  | addFrame a =>
    obtain ⟨hal, -, hfresh⟩ := hop
    have hblock : Aligned (a, 0) := by simpa [Aligned, blockSize] using hal
    obtain ⟨h1, h2, h3, h4⟩ := freeBlock_spec h.aligned (Nat.zero_le _) hblock
    have hdown := pageAlignDown_of_aligned (Nat.mod_eq_zero_of_dvd hal)
    refine h.add (l.pool.addFrame a) {a} ?_ (nodup_singleton a)
      (by simpa using hfresh) ?_ ?_ ?_ <;> simp only [PhysicalFramePool.addFrame, hdown]
    · exact h1
    · exact h2
    · simp [h3]
    · exact h4
  | addRange a n =>
    obtain ⟨hal, hend, hfresh⟩ := hop
    obtain ⟨h1, h2, h3, h4⟩ := addRangeFrom_spec n l.pool a n le_rfl h.aligned hal hend
    have hdown := pageAlignDown_of_aligned (Nat.mod_eq_zero_of_dvd hal)
    refine h.add (l.pool.addRange a n) (rangeFrames a n) ?_ (nodup_rangeFrames a n) hfresh
      ?_ ?_ ?_ <;> simp only [PhysicalFramePool.addRange, hdown]
    · exact h1
    · exact h2
    · simpa [rangeFrames] using h3
    · exact h4
  | allocate =>
    exact h.allocateOrder (Nat.zero_le _)
  | allocateOrder order => exact h.allocateOrder hop
  | free a =>
    have hal := h.held_aligned (a, 0) (mem_add.mpr (.inl hop))
    have hpage : pageSize ∣ a := (dvd_mul_right _ _).trans hal
    obtain ⟨h1, h2, h3, h4⟩ := freeFrame_spec h.aligned hpage
    exact h.free hop h1 (by simpa using h2) h3 (by simpa using h4)
  | freeOrder a order =>
    have hheld : (a, order) ∈ l.held := mem_add.mpr (.inl hop)
    have horder := h.held_order _ hheld
    have hal := h.held_aligned _ hheld
    obtain ⟨h1, h2, h3, h4⟩ := freeBlock_spec h.aligned horder hal
    have hmask : a / blockSize order * blockSize order = a := Nat.div_mul_cancel hal
    refine h.free hop ?_ ?_ ?_ ?_ <;>
      simp only [PhysicalFramePool.freeOrder, if_neg (not_lt.mpr horder), hmask]
    · exact h1
    · exact h2
    · exact h3
    · rw [h4]
  | stealFreeFrames => exact h.steal
  | restoreFreeFrames blocks => exact h.restore hop

end Ledger

open Ledger

/-- In every state with no steal outstanding, each added frame is free or allocated once. -/
theorem frames_conserved {l : Ledger} (hreach : Reach step Permitted init l)
    (hstolen : l.stolen = []) : Conserved l := by
  have hbalanced := hreach.invariant Balanced balanced_init fun _ _ hinv hop => hinv.step hop
  exact hbalanced.conserved hstolen

/-- Split, merge, free and steal over one range of eight frames. -/
theorem frames_conserved_eight_frames :
    Conserved ([PoolOp.addRange 0x10000 8, .allocate, .allocateOrder 1, .addFrame 0x1000,
      .free 0x10000, .stealFreeFrames, .allocate, .freeOrder 0x12000 1,
      .restoreFreeFrames [(0x1000, 0), (0x10000, 1), (0x14000, 2)]].foldl step init) :=
  frames_conserved (Reach.start.foldl (by decide +kernel)) (by decide +kernel)

end KnoxOS.Vmm
