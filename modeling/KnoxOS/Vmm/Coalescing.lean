import KnoxOS.Vmm.Conservation

/-!
# Maximal coalescing of the buddy pool

In every state that the calls of `Conservation` reach, no free list below the largest order holds
a block together with its buddy. This is `Coalesced`; it needs neither alignment nor ownership,
since a block is only pushed when its buddy is not listed. With it an aligned run of free frames
lies inside one free block (`Coalesced.exists_block`), so that `allocate_order` fails only when
there is no such run: `allocateOrder_complete`.
-/

namespace KnoxOS.Vmm

open Lib List Function

namespace PhysicalFramePool

variable {addr order fuel : Nat} {pool : PhysicalFramePool} {blocks : List Nat} {b : Nat × Nat}

/-- No free list below the largest order holds a block and its buddy. -/
def Coalesced (pool : PhysicalFramePool) : Prop :=
  ∀ order < buddyMaxOrder, ∀ addr ∈ pool.free order, buddyAddr addr order ∉ pool.free order

theorem buddyAddr_buddyAddr (addr order : Nat) : buddyAddr (buddyAddr addr order) order = addr :=
  Nat.xor_xor_cancel_right addr (blockSize order)

theorem blockSize_pos (order : Nat) : 0 < blockSize order :=
  Nat.mul_pos (by simp [pageSize]) (Nat.two_pow_pos order)

theorem buddyAddr_ne_self (addr order : Nat) : buddyAddr addr order ≠ addr := by
  intro h
  have hpos := blockSize_pos order
  have hzero : blockSize order = 0 := by
    rw [← Nat.xor_xor_cancel_left addr (blockSize order)]
    show addr ^^^ buddyAddr addr order = 0
    rw [h, Nat.xor_self]
  omega

/-! ## One call -/

section

variable (h : pool.Coalesced)
include h

/-- A free list without buddies keeps the pool coalesced. -/
theorem Coalesced.setFree
    (hblocks : order < buddyMaxOrder → ∀ a ∈ blocks, buddyAddr a order ∉ blocks) :
    (pool.setFree order blocks).Coalesced := by
  intro o ho
  by_cases heq : o = order
  · subst heq
    simpa only [PhysicalFramePool.setFree, update_self] using hblocks ho
  · simpa only [PhysicalFramePool.setFree, update_of_ne heq] using h o ho

theorem Coalesced.shrink (hsub : blocks ⊆ pool.free order) :
    (pool.setFree order blocks).Coalesced :=
  h.setFree fun ho a ha hbuddy => h order ho a (hsub ha) (hsub hbuddy)

/-- A block may be listed when its buddy is not. -/
theorem Coalesced.push (habsent : order < buddyMaxOrder → buddyAddr addr order ∉ pool.free order) :
    (pool.setFree order (pool.free order ++ [addr])).Coalesced := by
  refine h.setFree fun ho a ha hbuddy => ?_
  rw [mem_append, mem_singleton] at ha hbuddy
  rcases ha with ha | rfl
  · rcases hbuddy with hbuddy | rfl
    · exact h order ho a ha hbuddy
    · rw [buddyAddr_buddyAddr] at habsent
      exact habsent ho ha
  · rcases hbuddy with hbuddy | hself
    · exact habsent ho hbuddy
    · exact buddyAddr_ne_self a order hself

/-- A split leaves the upper half alone on a list that was empty. -/
theorem Coalesced.takeBlockFrom : (takeBlockFrom fuel order pool).2.Coalesced ∧
      ∀ o < order, (takeBlockFrom fuel order pool).2.free o = pool.free o := by
  induction fuel generalizing order with
  | zero => exact ⟨h, fun _ _ => rfl⟩
  | succ fuel ih =>
    simp only [PhysicalFramePool.takeBlockFrom]
    split
    next a rest hpop =>
      refine ⟨h.shrink ?_, fun o ho => update_of_ne (by omega) _ _⟩
      rw [pop_eq_some hpop]
      exact subset_append_left _ _
    next hpop =>
      obtain ⟨hmid, hlower⟩ := @ih (order + 1)
      split
      next hlarger =>
        rw [hlarger] at hmid hlower
        exact ⟨hmid, fun o ho => hlower o (by omega)⟩
      next larger mid hlarger =>
        rw [hlarger] at hmid hlower
        have hempty : mid.free order = [] := (hlower order (by omega)).trans (pop_eq_none hpop)
        refine ⟨hmid.push fun _ => by simp [hempty], fun o ho => ?_⟩
        exact (update_of_ne (by omega) _ _).trans (hlower o (by omega))

/-- Freeing merges up to the largest order. -/
theorem Coalesced.freeBlockFrom (hfuel : buddyMaxOrder ≤ fuel + order) :
    (freeBlockFrom fuel pool addr order).Coalesced := by
  induction fuel generalizing pool addr order with
  | zero => exact h.push fun hlt => by omega
  | succ fuel ih =>
    simp only [PhysicalFramePool.freeBlockFrom]
    split
    next pos hpos =>
      refine ih (h.shrink fun a ha => ?_) (by omega)
      exact (perm_swapRemove_idxOf hpos).mem_iff.mpr (mem_cons_of_mem _ ha)
    next hnone => exact h.push fun _ => idxOf?_eq_none_iff.mp hnone

theorem Coalesced.freeBlock (addr order : Nat) : (pool.freeBlock addr order).Coalesced :=
  h.freeBlockFrom (by omega)

end

/-- Adding a range keeps the pool coalesced. -/
theorem Coalesced.addRangeFrom (fuel addr nframes : Nat) (h : pool.Coalesced) :
    (addRangeFrom fuel pool addr nframes).Coalesced := by
  induction fuel generalizing pool addr nframes with
  | zero => exact h
  | succ fuel ih =>
    simp only [PhysicalFramePool.addRangeFrom]
    split
    next => exact h
    next => exact ih _ _ (h.freeBlock addr _)

theorem Coalesced.restoreFreeFrames (blocks : List (Nat × Nat)) (h : pool.Coalesced) :
    (pool.restoreFreeFrames blocks).Coalesced := by
  induction blocks generalizing pool with
  | nil => exact h
  | cons b blocks ih => exact ih (h.freeBlock _ _)

/-- Splitting a block leaves one buddy of each pair free. -/
theorem Coalesced.allocateOrder (h : pool.Coalesced) (order : Nat) :
    (pool.allocateOrder order).2.Coalesced := by
  have htake : (pool.takeBlock order).2.Coalesced := h.takeBlockFrom.1
  unfold PhysicalFramePool.allocateOrder
  split
  next => exact h
  next =>
    split
    next hblock => rwa [hblock] at htake
    next hblock => rwa [hblock] at htake

/-! ## A free run lies in a free block -/

/-- The frames of a block are the pages of its address range. -/
theorem mem_blockFrames {f : Nat} (hb : pageSize ∣ b.1) (hf : pageSize ∣ f) :
    f ∈ blockFrames b ↔ b.1 ≤ f ∧ f < b.1 + blockSize b.2 := by
  obtain ⟨x, hx⟩ := hb
  obtain ⟨y, rfl⟩ := hf
  simp only [blockFrames, Multiset.mem_map, Multiset.mem_range, blockSize, hx, pageSize]
  constructor
  · rintro ⟨i, hi, heq⟩
    omega
  · rintro ⟨hle, hlt⟩
    exact ⟨y - x, by omega, by omega⟩

theorem Aligned.page (h : Aligned b) : pageSize ∣ b.1 := (dvd_mul_right _ _).trans h

theorem Aligned.of_le {k : Nat} (h : Aligned (addr, order)) (hle : k ≤ order) : Aligned (addr, k) :=
  (Nat.mul_dvd_mul_left _ (pow_dvd_pow 2 hle)).trans h

theorem Aligned.eq_of_mem (hb : Aligned b) (h : Aligned (addr, b.2)) (hmem : addr ∈ blockFrames b) :
    b.1 = addr := by
  obtain ⟨hle, hlt⟩ := (mem_blockFrames hb.page h.page).mp hmem
  exact Nat.le_antisymm hle (Nat.le_of_lt_add_of_dvd hlt h hb)

/-- The buddy of the lower half of an aligned block is the upper half. -/
theorem buddyAddr_lower (h : Aligned (addr, order + 1)) :
    buddyAddr addr order = addr + blockSize order := by
  obtain ⟨m, rfl⟩ : ∃ m, addr = blockSize (order + 1) * m := h
  rw [blockSize_succ, mul_comm 2, mul_assoc, buddyAddr_mul, if_pos (Nat.mul_mod_right 2 m),
    mul_add_one]

/-- An aligned run of free frames starts in a free block of at least its order. -/
theorem Coalesced.exists_block (h : pool.Coalesced) (haligned : pool.AllAligned)
    (horder : order ≤ buddyMaxOrder) (haddr : Aligned (addr, order))
    (hfree : ∀ f ∈ blockFrames (addr, order), f ∈ pool.freeFrames) :
    ∃ b ∈ pool.freeBlocks, order ≤ b.2 ∧ addr ∈ blockFrames b := by
  induction order generalizing addr with
  | zero =>
    obtain ⟨b, hb, hmem⟩ := Multiset.mem_bind.mp (hfree addr (by simp))
    exact ⟨b, hb, Nat.zero_le _, hmem⟩
  | succ order ih =>
    have hlo : Aligned (addr, order) := haddr.of_le (Nat.le_succ order)
    have hhi : Aligned (addr + blockSize order, order) := Nat.dvd_add hlo dvd_rfl
    simp only [blockFrames_succ, Multiset.mem_add] at hfree
    obtain ⟨b, hb, hble, hbmem⟩ := ih (by omega) hlo fun f hf => hfree f (.inl hf)
    obtain ⟨c, hc, hcle, hcmem⟩ := ih (by omega) hhi fun f hf => hfree f (.inr hf)
    rcases Nat.lt_or_eq_of_le hble with hlt | rfl
    · exact ⟨b, hb, hlt, hbmem⟩
    rcases Nat.lt_or_eq_of_le hcle with hlt | heq
    · -- a larger block around the upper half is aligned, so it holds the lower half too
      have hcal := haligned c hc
      rw [mem_blockFrames hcal.page hhi.page] at hcmem
      have hstart : c.1 ≤ addr := by
        have hdvd : Aligned (c.1, b.2 + 1) := Aligned.of_le hcal hlt
        refine Nat.le_of_lt_add_of_dvd ?_ hdvd haddr
        have hpos := blockSize_pos b.2
        rw [blockSize_succ]
        omega
      exact ⟨c, hc, hlt, (mem_blockFrames hcal.page hlo.page).mpr ⟨hstart, by omega⟩⟩
    · -- the two halves would be free buddies
      obtain rfl := (haligned b hb).eq_of_mem hlo hbmem
      have hupper := (haligned c hc).eq_of_mem (heq ▸ hhi) hcmem
      have hlist := (mem_freeBlocks.mp hc).2
      rw [hupper, ← heq, ← buddyAddr_lower haddr] at hlist
      exact absurd hlist (h b.2 horder b.1 (mem_freeBlocks.mp hb).2)

/-- `allocate_order` fails only when no aligned run of its length is free. -/
theorem Coalesced.allocateOrder_isSome (h : pool.Coalesced) (haligned : pool.AllAligned)
    (horder : order ≤ buddyMaxOrder) :
    (pool.allocateOrder order).1.isSome ↔
      ∃ addr, Aligned (addr, order) ∧ ∀ f ∈ blockFrames (addr, order), f ∈ pool.freeFrames := by
  rcases hresult : pool.allocateOrder order with ⟨_ | addr, pool'⟩
  · refine ⟨fun hsome => absurd hsome (by simp), fun ⟨addr, haddr, hfree⟩ => ?_⟩
    obtain ⟨b, hb, hle, -⟩ := h.exists_block haligned horder haddr hfree
    obtain ⟨hmax, hmem⟩ := mem_freeBlocks.mp hb
    have hempty : pool.free b.2 = [] := by
      simp only [PhysicalFramePool.allocateOrder, if_neg (not_lt.mpr horder)] at hresult
      split at hresult
      next hblock => exact takeBlockFrom_empty hblock hle (by omega)
      next => cases hresult
    rw [hempty] at hmem
    cases hmem
  · obtain ⟨haddr, -, hframes, -⟩ := allocateOrder_spec haligned hresult
    refine ⟨fun _ => ⟨addr, haddr, fun f hf => ?_⟩, fun _ => rfl⟩
    rw [hframes]
    exact Multiset.mem_add.mpr (.inl hf)

end PhysicalFramePool

open PhysicalFramePool Ledger

/-- Every operation keeps the pool coalesced. -/
theorem Ledger.coalesced_step {l : Ledger} (h : l.pool.Coalesced) (op : PoolOp) :
    (l.step op).pool.Coalesced := by
  have halloc : ∀ order result, (l.allocated order result).pool = result.2 := by
    intro order result
    rcases result with ⟨_ | addr, pool⟩ <;> rfl
  cases op with
  | addFrame a => exact h.freeBlock _ 0
  | addRange a n => exact h.addRangeFrom n _ n
  | allocate =>
    rw [step, halloc, allocate_eq]
    exact h.allocateOrder 0
  | allocateOrder order =>
    rw [step, halloc]
    exact h.allocateOrder order
  | free a =>
    show (l.pool.freeFrame a).Coalesced
    simp only [freeFrame]
    split
    next => exact h.freeBlock _ 0
    next => exact h.freeBlock _ 0
  | freeOrder a order =>
    show (l.pool.freeOrder a order).Coalesced
    unfold freeOrder
    split
    next => exact h
    next => exact h.freeBlock _ order
  | stealFreeFrames =>
    intro o ho a ha
    simp [step, stealFreeFrames, Nat.le_of_lt ho] at ha
  | restoreFreeFrames blocks => exact h.restoreFreeFrames blocks

/-- In every reachable state free buddies are merged, so `allocate_order` succeeds exactly when
an aligned run of its length is free. -/
theorem allocateOrder_complete {l : Ledger} (hreach : Reach step Permitted init l) :
    (∀ k < buddyMaxOrder, ∀ addr ∈ l.pool.free k, buddyAddr addr k ∉ l.pool.free k) ∧
      ∀ k ≤ buddyMaxOrder, ((l.pool.allocateOrder k).1.isSome ↔
        ∃ addr, pageSize <<< k ∣ addr ∧
          ∀ i < 2 ^ k, addr + pageSize * i ∈ l.pool.freeFrames) := by
  have hbalanced := hreach.invariant Balanced balanced_init fun _ _ hinv hop => hinv.step hop
  have hcoalesced : l.pool.Coalesced :=
    hreach.invariant (·.pool.Coalesced) (fun o _ a ha => by simp [init, new] at ha)
      fun _ op hinv _ => coalesced_step hinv op
  refine ⟨hcoalesced, fun k hk => ?_⟩
  rw [hcoalesced.allocateOrder_isSome hbalanced.aligned hk]
  simp [Aligned, blockSize, Nat.shiftLeft_eq, blockFrames]

/-- Eight frames from two ranges added out of order merge into one block of order three. -/
theorem allocateOrder_complete_two_ranges :
    (([PoolOp.addRange 0x14000 4, .addRange 0x10000 4].foldl step init).pool.allocateOrder
      3).1.isSome :=
  ((allocateOrder_complete (Reach.start.foldl (by decide +kernel))).2 3 (by decide)).mpr
    ⟨0x10000, by decide +kernel, by decide +kernel⟩

end KnoxOS.Vmm
