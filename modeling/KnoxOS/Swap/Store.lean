import KnoxOS.Lib.Reach
import KnoxOS.Swap.Manager

/-!
# The swap store

A `StoreState` is a swap manager together with the bytes last paged out under every key. The
invariant `Coherent` ties the key map, the slot bitmaps and the slot contents together and
survives every call. It says nothing of `used_swap_pages`: paging out a key that is already
swapped takes a second slot and forgets the first one (`pageOut_twice_leaks_slot`). Runs that
never do so keep that counter exact as well, which is `store_correct`.
-/

namespace KnoxOS.Swap

open Function Lib Std SwapManager SwapArea Bitmap List Option

/-! ## Swap entries -/

namespace SwapEntry

variable {area : Nat} {pid vaddr : Nat}

section

variable (harea : area < maxSwapAreas)
include harea

/-- The packed fields do not overlap. -/
theorem new_val {slot : Nat} (hslot : slot < 2 ^ 57) :
    (new area slot).val = slot * 128 + (area * 4 + 2) := by
  unfold maxSwapAreas at harea
  have hmask : area &&& 0x1F = area := by
    rw [show (0x1F : Nat) = 2 ^ 5 - 1 from rfl, Nat.and_two_pow_sub_one_eq_mod]
    exact Nat.mod_eq_of_lt harea
  have hfits : slot <<< 7 % 2 ^ 64 = slot <<< 7 := by
    exact Nat.mod_eq_of_lt (by omega)
  have hlow : (1 <<< 1) ||| (area <<< 2) = area <<< 2 + 2 := by
    rw [Nat.or_comm]
    exact (Nat.shiftLeft_add_eq_or_of_lt (by decide) area).symm
  have hall : (area <<< 2 + 2) ||| (slot <<< 7) = slot <<< 7 + (area <<< 2 + 2) := by
    rw [Nat.or_comm]
    refine (Nat.shiftLeft_add_eq_or_of_lt ?_ slot).symm
    omega
  unfold new
  rw [hmask, hfits, hlow, hall]
  simp only [Nat.shiftLeft_eq]

theorem areaId_new {slot : Nat} (hslot : slot < 2 ^ 57) : (new area slot).areaId = area := by
  unfold areaId
  rw [new_val harea hslot, show (0x1F : Nat) = 2 ^ 5 - 1 from rfl,
    Nat.and_two_pow_sub_one_eq_mod, Nat.shiftRight_eq_div_pow]
  unfold maxSwapAreas at harea
  omega

theorem slot_new {i : Nat} (hi : i < 2 ^ 57) : (new area i).slot = i := by
  unfold slot
  rw [new_val harea hi]
  unfold maxSwapAreas at harea
  omega

end

/-- Where the page of an entry is stored. -/
def location (e : SwapEntry) : Nat × Nat := (e.areaId, e.slot)

end SwapEntry

/-! ## Slots of one area -/

namespace SwapArea

variable {slot : Nat} {area : SwapArea}

/-- The scan of a byte finds a clear bit in range. -/
theorem scanByte_spec {byte : BitVec 8} {byteIdx total fuel bit : Nat} (hfuel : bit + fuel = 8)
    (h : scanByte byte byteIdx total fuel bit = some (some slot)) :
    slot / 8 = byteIdx ∧ slot < total ∧ byte.getLsbD (slot % 8) = false := by
  induction fuel generalizing bit with
  | zero => simp [scanByte] at h
  | succ fuel ih =>
    unfold scanByte at h
    split at h
    · simp at h
    · split at h
      next hlt hzero =>
        have hslot : byteIdx * 8 + bit = slot := by simpa using h
        have hdiv : slot / 8 = byteIdx := by omega
        have hmod : slot % 8 = bit := by omega
        refine ⟨hdiv, by omega, ?_⟩
        rw [hmod]
        exact (and_shift_eq_zero_iff (by omega)).mp hzero
      · exact ih (by omega) h

/-- The scan stops at a clear bit of the map. -/
theorem scanMap_spec {total : Nat} {bytes : List (BitVec 8)} {byteIdx : Nat}
    (h : scanMap total bytes byteIdx = some slot) :
    byteIdx ≤ slot / 8 ∧ slot / 8 - byteIdx < bytes.length ∧ slot < total ∧
      (bytes.getD (slot / 8 - byteIdx) 0).getLsbD (slot % 8) = false := by
  induction bytes generalizing byteIdx with
  | nil => simp [scanMap] at h
  | cons byte bytes ih =>
    -- the rest of the map is scanned from the next byte index on
    have hnext : scanMap total bytes (byteIdx + 1) = some slot →
        byteIdx ≤ slot / 8 ∧ slot / 8 - byteIdx < (byte :: bytes).length ∧ slot < total ∧
          ((byte :: bytes).getD (slot / 8 - byteIdx) 0).getLsbD (slot % 8) = false := by
      intro hrest
      obtain ⟨hle, hlen, hlt, hbit⟩ := ih hrest
      have hsub : slot / 8 - byteIdx = slot / 8 - (byteIdx + 1) + 1 := by omega
      refine ⟨by omega, ?_, hlt, ?_⟩
      · rw [length_cons]
        omega
      · rw [hsub]
        exact hbit
    unfold scanMap at h
    split at h
    · split at h
      next result hscan =>
        subst h
        obtain ⟨hdiv, hlt, hbit⟩ := scanByte_spec (by decide) hscan
        have hsub : slot / 8 - byteIdx = 0 := by omega
        refine ⟨by omega, by simp [hsub], hlt, ?_⟩
        rw [hsub]
        exact hbit
      · exact hnext h
    · exact hnext h

variable {area' : SwapArea}

/-- An allocated slot was free, and only its bit changes. -/
theorem allocSlot_spec (h : area.allocSlot = some (slot, area')) :
    slot < area.totalSlots ∧ slot < 8 * area.slotMap.length ∧
      test area.slotMap slot = false ∧
      area' = { area with
        slotMap := set area.slotMap slot, usedSlots := area.usedSlots + 1 } := by
  unfold allocSlot at h
  split at h
  · simp at h
  next s hscan =>
    obtain ⟨rfl, rfl⟩ := h
    obtain ⟨-, hlen, hlt, hbit⟩ := scanMap_spec hscan
    refine ⟨hlt, by omega, ?_, rfl⟩
    simpa [test] using hbit

theorem isSlotUsed_iff :
    area.isSlotUsed slot = true ↔ slot < area.totalSlots ∧ test area.slotMap slot = true := by
  unfold isSlotUsed
  split
  next hge => simp [Nat.not_lt.mpr hge]
  next hlt => simp [Nat.not_le.mp hlt]

/-- The slot numbers fit their field of a swap entry and the counter counts the set bits. -/
structure Valid (area : SwapArea) : Prop where
  bound : area.totalSlots < 2 ^ 57
  counted : area.usedSlots = Bitmap.count area.slotMap

theorem valid_new (path : String) (sizeBytes : UInt64) (priority : Int) :
    Valid { new path (sizeBytes.toNat / pageSize) priority with active := true } where
  bound := by
    have hsize := sizeBytes.toNat_lt
    simp only [new, pageSize]
    omega
  counted := by simp [new]

theorem Valid.allocSlot (hvalid : area.Valid) (h : area.allocSlot = some (slot, area')) :
    area'.Valid := by
  obtain ⟨-, hlen, hclear, rfl⟩ := allocSlot_spec h
  exact ⟨hvalid.bound, by simp [count_set hlen hclear, hvalid.counted]⟩

theorem Valid.freeSlot (hvalid : area.Valid) (slot : Nat) : (area.freeSlot slot).Valid := by
  unfold SwapArea.freeSlot
  split
  next hused =>
    obtain ⟨-, hset⟩ := isSlotUsed_iff.mp hused
    have hcount := count_clear hset
    refine ⟨hvalid.bound, ?_⟩
    simp only [hvalid.counted]
    omega
  · exact hvalid

/-- Allocation uses up the returned slot. -/
theorem isSlotUsed_allocSlot (h : area.allocSlot = some (slot, area')) (j : Nat) :
    area'.isSlotUsed j = true ↔ j = slot ∨ area.isSlotUsed j = true := by
  obtain ⟨hlt, hlen, hclear, rfl⟩ := allocSlot_spec h
  simp only [isSlotUsed_iff, test_set hlen, Bool.or_eq_true, decide_eq_true_eq]
  constructor
  · rintro ⟨hj, rfl | ht⟩
    · exact .inl rfl
    · exact .inr ⟨hj, ht⟩
  · rintro (rfl | ⟨hj, ht⟩)
    · exact ⟨hlt, .inl rfl⟩
    · exact ⟨hj, .inr ht⟩

theorem isSlotUsed_freeSlot {j : Nat} (hne : j ≠ slot) (hused : area.isSlotUsed j = true) :
    (area.freeSlot slot).isSlotUsed j = true := by
  unfold freeSlot
  split
  next hslot =>
    have hset := (isSlotUsed_iff.mp hslot).2
    rw [isSlotUsed_iff] at hused ⊢
    refine ⟨hused.1, ?_⟩
    simp [test_clear (lt_of_test hset), hne, hused.2]
  · exact hused

@[simp] theorem freeSlot_active (area : SwapArea) (slot : Nat) :
    (area.freeSlot slot).active = area.active := by
  unfold freeSlot
  split <;> rfl

theorem isSlotUsed_eq_false (hvalid : area.Valid) (hzero : area.usedSlots = 0) (slot : Nat) :
    area.isSlotUsed slot = false := by
  by_contra hused
  obtain ⟨-, hset⟩ := isSlotUsed_iff.mp (by simpa using hused)
  have := count_clear hset
  have := hvalid.counted
  omega

end SwapArea

/-! ## Slots of the manager -/

namespace SwapManager

variable {i : Nat} {m : SwapManager}

/-- The chosen area is active and has a free slot. -/
theorem bestArea_spec {areas : List SwapArea} {best : Option (Nat × Int)} {idx : Nat} {p : Int}
    (h : bestArea areas i best = some (idx, p)) :
    best = some (idx, p) ∨
      i ≤ idx ∧ ∃ area, areas[idx - i]? = some area ∧ area.active = true ∧ area.freeSlots ≠ 0 := by
  induction areas generalizing i best with
  | nil => exact .inl h
  | cons area areas ih =>
    -- a later area, or the one just passed
    have hlater : ∀ best', bestArea areas (i + 1) best' = some (idx, p) →
        best' = some (idx, p) ∨ i ≤ idx ∧ ∃ a, (area :: areas)[idx - i]? = some a ∧
          a.active = true ∧ a.freeSlots ≠ 0 := by
      intro best' hrest
      rcases ih hrest with heq | ⟨hle, a, hget, hok⟩
      · exact .inl heq
      · refine .inr ⟨by omega, a, ?_, hok⟩
        rw [show idx - i = idx - (i + 1) + 1 by omega]
        exact hget
    have hhere : ¬ (!area.active || area.freeSlots = 0) = true →
        some (i, area.priority) = some (idx, p) → i ≤ idx ∧ ∃ a, (area :: areas)[idx - i]? =
          some a ∧ a.active = true ∧ a.freeSlots ≠ 0 := by
      intro hok heq
      obtain ⟨rfl, rfl⟩ : i = idx ∧ area.priority = p := by simpa using heq
      simpa using hok
    unfold bestArea at h
    split at h
    · exact hlater _ h
    next hok =>
      split at h
      · exact (hlater _ h).elim (fun heq => .inr (hhere hok heq)) .inr
      · split at h
        · exact (hlater _ h).elim (fun heq => .inr (hhere hok heq)) .inr
        · exact hlater _ h

/-- With every active area full there is no best area. -/
theorem bestArea_none {areas : List SwapArea}
    (hfull : ∀ area ∈ areas, area.active = true → area.freeSlots = 0) :
    bestArea areas i none = none := by
  induction areas generalizing i with
  | nil => rfl
  | cons area areas ih =>
    have hskip : (!area.active || decide (area.freeSlots = 0)) = true := by
      cases hactive : area.active <;> simp_all
    unfold bestArea
    rw [if_pos hskip]
    exact ih fun a ha => hfull a (by simp [ha])

/-- There are at most 32 areas and each is valid. -/
structure AreasValid (m : SwapManager) : Prop where
  length_le : m.areas.length ≤ maxSwapAreas
  valid : ∀ area ∈ m.areas, area.Valid

variable {entry : SwapEntry} {m' : SwapManager} {area : SwapArea}

/-- An allocated entry names a slot of an active area that was free. -/
theorem allocSwapSlot_spec (hvalid : m.AreasValid) (h : m.allocSwapSlot = some (entry, m')) :
    ∃ area area', m.areas[entry.areaId]? = some area ∧ area.active = true ∧
      area.allocSlot = some (entry.slot, area') ∧
      m' = { m with
        areas := m.areas.set entry.areaId area', usedSwapPages := m.usedSwapPages + 1 } := by
  unfold allocSwapSlot at h
  split at h
  · simp at h
  next idx p hbest =>
    split at h
    · simp at h
    next area hget =>
      split at h
      · simp at h
      next slot area' halloc =>
        obtain ⟨rfl, rfl⟩ := h
        obtain ⟨hlt, rfl⟩ := List.getElem?_eq_some_iff.mp hget
        have hidx : idx < maxSwapAreas := Nat.lt_of_lt_of_le hlt hvalid.length_le
        have hslot : slot < 2 ^ 57 :=
          (allocSlot_spec halloc).1.trans (hvalid.valid _ (getElem_mem hlt)).bound
        rw [SwapEntry.areaId_new hidx hslot, SwapEntry.slot_new hidx hslot]
        rcases bestArea_spec hbest with hnone | ⟨-, area, hget', hactive, -⟩
        · simp at hnone
        · rw [Nat.sub_zero, hget] at hget'
          cases hget'
          exact ⟨_, area', hget, hactive, halloc, rfl⟩

/-- Paging in a swapped key gives its bytes and frees its slot. -/
theorem pageIn_of_swapped (hentry : m.swappedPages[(pid, vaddr)]? = some entry)
    (hget : m.areas[entry.areaId]? = some area) : m.pageIn pid vaddr =
      (some ((m.slotData[entry.location]?).getD (replicate pageSize 0)), { m with
        areas := m.areas.set entry.areaId (area.freeSlot entry.slot)
        usedSwapPages := m.usedSwapPages - 1
        swappedPages := m.swappedPages.erase (pid, vaddr)
        slotData := m.slotData.erase entry.location }) := by
  unfold pageIn freeSwapSlot
  simp only [hentry, hget]
  rfl

theorem pageIn_of_not_swapped (hentry : m.swappedPages[(pid, vaddr)]? = none) :
    m.pageIn pid vaddr = (none, m) := by
  unfold pageIn
  rw [hentry]

/-- The slot of `entry` is in use in an active area. -/
def Located (m : SwapManager) (entry : SwapEntry) : Prop :=
  ∃ area, m.areas[entry.areaId]? = some area ∧ area.active = true ∧
    area.isSlotUsed entry.slot = true

/-- Replacing one area keeps the others' slots, and that area's if it keeps them. -/
theorem Located.set {area' : SwapArea} (h : m.Located entry) (hget : m.areas[i]? = some area)
    (hareas : m'.areas = m.areas.set i area')
    (hkeep : entry.areaId = i → area.active = true → area.isSlotUsed entry.slot = true →
      area'.active = true ∧ area'.isSlotUsed entry.slot = true) : m'.Located entry := by
  obtain ⟨a, ha, hactive, hused⟩ := h
  by_cases hi : entry.areaId = i
  · rw [hi, hget] at ha
    cases ha
    obtain ⟨hactive', hused'⟩ := hkeep hi hactive hused
    have hlt : i < m.areas.length := (List.getElem?_eq_some_iff.mp hget).1
    exact ⟨area', by rw [hareas, hi, getElem?_set_self hlt], hactive', hused'⟩
  · exact ⟨a, by rw [hareas, getElem?_set_ne (Ne.symm hi)]; exact ha, hactive, hused⟩

theorem AreasValid.set (h : m.AreasValid) (hareas : m'.areas = m.areas.set i area)
    (harea : area.Valid) : m'.AreasValid where
  length_le := by simpa [hareas] using h.length_le
  valid := by
    intro a ha
    rw [hareas] at ha
    rcases mem_or_eq_of_mem_set ha with ha | rfl
    · exact h.valid a ha
    · exact harea

end SwapManager

/-! ## Runs -/

/-- A manager and the bytes last paged out under each key that is still swapped. -/
structure StoreState where
  mgr : SwapManager
  lastOut : Nat × Nat → Option (List UInt8)

/-- The calls on a swap manager. -/
inductive SwapOp where
  | swapon (path : String) (sizeBytes : UInt64) (priority : Int)
  | swapoff (path : String)
  | pageOut (pid vaddr : Nat) (data : List UInt8)
  | pageIn (pid vaddr : Nat)

namespace StoreState

def init : StoreState := ⟨.new, fun _ => none⟩

/-- Run one call and record what it stores or gives back. -/
def step (s : StoreState) : SwapOp → StoreState
  | .swapon path sizeBytes priority => { s with mgr := (s.mgr.swapon path sizeBytes priority).2 }
  | .swapoff path => { s with mgr := (s.mgr.swapoff path).2 }
  | .pageOut pid vaddr data =>
    match s.mgr.pageOut pid vaddr data with
    | (none, mgr) => { s with mgr }
    | (some _, mgr) =>
      { mgr, lastOut := Function.update s.lastOut (pid, vaddr) (some (padTo pageSize data)) }
  | .pageIn pid vaddr =>
    { mgr := (s.mgr.pageIn pid vaddr).2,
      lastOut := Function.update s.lastOut (pid, vaddr) none }

/-- The call does not page out a key that is swapped already, unless no area can take it. -/
def Fresh (s : StoreState) : SwapOp → Prop
  | .pageOut pid vaddr _ =>
    s.mgr.isSwapped pid vaddr = false ∨
      ∀ area ∈ s.mgr.areas, area.active = true → area.freeSlots = 0
  | _ => True

instance (s : StoreState) : DecidablePred s.Fresh
  | .pageOut .. => inferInstanceAs (Decidable (_ = _ ∨ ∀ area ∈ s.mgr.areas, _ → _))
  | .swapon .. | .swapoff _ | .pageIn .. => inferInstanceAs (Decidable True)

/-- What a swap store promises: every swapped key has a slot of its own in an active area,
paging it in gives the bytes last paged out and forgets the key, and the counters count. -/
structure Correct (s : StoreState) : Prop where
  distinct : ∀ (k₁ k₂ : Nat × Nat) (e₁ e₂ : SwapEntry), s.mgr.swappedPages[k₁]? = some e₁ →
    s.mgr.swappedPages[k₂]? = some e₂ → k₁ ≠ k₂ → e₁.location ≠ e₂.location
  active : ∀ (k : Nat × Nat) (e : SwapEntry), s.mgr.swappedPages[k]? = some e →
    ∃ area, s.mgr.areas[e.areaId]? = some area ∧ area.active = true ∧ e.slot < area.totalSlots
  returns : ∀ pid vaddr, (s.mgr.pageIn pid vaddr).1 = s.lastOut (pid, vaddr)
  removes : ∀ pid vaddr, (s.mgr.pageIn pid vaddr).2.isSwapped pid vaddr = false
  bits : ∀ area ∈ s.mgr.areas, area.usedSlots = Bitmap.count area.slotMap
  used : s.mgr.usedSwapPages = s.mgr.swappedPages.size

/-- The part of `Correct` that every call keeps. -/
structure Coherent (s : StoreState) : Prop where
  areas : s.mgr.AreasValid
  located : ∀ (k : Nat × Nat) (e : SwapEntry),
    s.mgr.swappedPages[k]? = some e → s.mgr.Located e
  distinct : ∀ (k₁ k₂ : Nat × Nat) (e₁ e₂ : SwapEntry), s.mgr.swappedPages[k₁]? = some e₁ →
    s.mgr.swappedPages[k₂]? = some e₂ → k₁ ≠ k₂ → e₁.location ≠ e₂.location
  filled : ∀ (k : Nat × Nat) (e : SwapEntry),
    s.mgr.swappedPages[k]? = some e → (s.mgr.slotData[e.location]?).isSome
  stored : ∀ k, s.lastOut k =
    (s.mgr.swappedPages[k]?).bind fun e => s.mgr.slotData[e.location]?

theorem coherent_init : Coherent init := by
  refine ⟨⟨?_, ?_⟩, ?_, ?_, ?_, ?_⟩ <;> simp [init, SwapManager.new, maxSwapAreas]

variable {s : StoreState}

section

variable (h : Coherent s)
include h

/-- A new area is empty. -/
theorem Coherent.swapon (path : String) (sizeBytes : UInt64) (priority : Int) :
    Coherent (s.step (.swapon path sizeBytes priority)) := by
  show Coherent { s with mgr := (s.mgr.swapon path sizeBytes priority).2 }
  unfold SwapManager.swapon
  split
  · exact h
  next hlen =>
    dsimp only
    split
    · exact h
    · refine ⟨⟨?_, ?_⟩, ?_, h.distinct, h.filled, h.stored⟩
      · rw [length_append, length_singleton]
        omega
      · intro area harea
        rcases mem_append.mp harea with harea | harea
        · exact h.areas.valid area harea
        · rw [mem_singleton.mp harea]
          exact valid_new path sizeBytes priority
      · intro k e hk
        obtain ⟨area, hget, hrest⟩ := h.located k e hk
        have hlt := (List.getElem?_eq_some_iff.mp hget).1
        exact ⟨area, by rw [getElem?_append_left hlt]; exact hget, hrest⟩

/-- Only an area without used slots is switched off. -/
theorem Coherent.swapoff (path : String) : Coherent (s.step (.swapoff path)) := by
  show Coherent { s with mgr := (s.mgr.swapoff path).2 }
  unfold SwapManager.swapoff
  split
  · exact h
  · split
    · exact h
    next area hget =>
      split
      · exact h
      next hzero =>
        have hvalid := h.areas.valid area (mem_of_getElem? hget)
        refine ⟨h.areas.set rfl ⟨hvalid.bound, hvalid.counted⟩, ?_, h.distinct, h.filled, h.stored⟩
        intro k e hk
        refine (h.located k e hk).set hget rfl ?_
        -- an area without used slots holds no entry
        intro _ _ hused
        rw [isSlotUsed_eq_false hvalid (by omega)] at hused
        cases hused

/-- One key is swapped elsewhere or no more, and the other keys are stored in other slots. -/
theorem Coherent.set {s' : StoreState} {key loc : Nat × Nat} {o : Option SwapEntry}
    {bytes : Option (List UInt8)} (hareas : s'.mgr.AreasValid)
    (hpages : ∀ k : Nat × Nat, s'.mgr.swappedPages[k]? =
      if key = k then o else s.mgr.swappedPages[k]?)
    (hdata : ∀ l : Nat × Nat, s'.mgr.slotData[l]? = if loc = l then bytes else s.mgr.slotData[l]?)
    (hout : s'.lastOut = update s.lastOut key bytes) (hnone : o = none → bytes = none)
    (hself : ∀ e ∈ o, loc = e.location ∧ bytes.isSome ∧ s'.mgr.Located e)
    (hother : ∀ (k : Nat × Nat) (e : SwapEntry), key ≠ k → s.mgr.swappedPages[k]? = some e →
      loc ≠ e.location ∧ s'.mgr.Located e) : Coherent s' := by
  have hcases : ∀ {k : Nat × Nat} {e : SwapEntry}, s'.mgr.swappedPages[k]? = some e →
      (key = k ∧ e ∈ o) ∨ (key ≠ k ∧ s.mgr.swappedPages[k]? = some e) := by
    intro k e hk
    rw [hpages] at hk
    split_ifs at hk with hkey
    · exact .inl ⟨hkey, hk⟩
    · exact .inr ⟨hkey, hk⟩
  refine ⟨hareas, fun k e hk => ?_, fun k₁ k₂ e₁ e₂ h₁ h₂ hne => ?_, fun k e hk => ?_, fun k => ?_⟩
  · rcases hcases hk with ⟨-, he⟩ | ⟨hne, hk⟩
    · exact (hself e he).2.2
    · exact (hother k e hne hk).2
  · rcases hcases h₁ with ⟨rfl, he₁⟩ | ⟨hk₁, h₁⟩ <;> rcases hcases h₂ with ⟨rfl, he₂⟩ | ⟨hk₂, h₂⟩
    · exact absurd rfl hne
    · exact (hself e₁ he₁).1 ▸ (hother k₂ e₂ hk₂ h₂).1
    · exact (hself e₂ he₂).1 ▸ (hother k₁ e₁ hk₁ h₁).1.symm
    · exact h.distinct k₁ k₂ e₁ e₂ h₁ h₂ hne
  · rw [hdata]
    rcases hcases hk with ⟨-, he⟩ | ⟨hne, hk⟩
    · rw [if_pos (hself e he).1]
      exact (hself e he).2.1
    · rw [if_neg (hother k e hne hk).1]
      exact h.filled k e hk
  · rw [hout, hpages]
    by_cases hkey : key = k
    · rw [if_pos hkey, ← hkey, update_self]
      cases ho : o with
      | none => exact hnone ho
      | some e => rw [bind_some, hdata, if_pos (hself e ho).1]
    · rw [if_neg hkey, update_of_ne (Ne.symm hkey), h.stored k]
      cases hk : s.mgr.swappedPages[k]? with
      | none => rfl
      | some e => rw [bind_some, bind_some, hdata, if_neg (hother k e hkey hk).1]

/-- A page that is swapped out is stored in a slot of its own. -/
theorem Coherent.pageOut (pid vaddr : Nat) (data : List UInt8) :
    Coherent (s.step (.pageOut pid vaddr data)) := by
  unfold step SwapManager.pageOut
  cases halloc : s.mgr.allocSwapSlot with
  | none => exact h
  | some result =>
    obtain ⟨entry, m⟩ := result
    obtain ⟨area, area', hget, hactive, hslot, rfl⟩ :=
      allocSwapSlot_spec h.areas halloc
    have hvalid := h.areas.valid area (mem_of_getElem? hget)
    obtain ⟨-, -, hclear, hset⟩ := allocSlot_spec hslot
    have hactive' : area'.active = true := by
      rw [hset]
      exact hactive
    have hused := isSlotUsed_allocSlot hslot
    refine h.set (h.areas.set rfl (hvalid.allocSlot hslot)) (fun k => lookup_insert _ _ k _)
      (fun l => lookup_insert _ _ l _) rfl nofun ?_ fun k e _ hk => ⟨fun heq => ?_, ?_⟩
    · rintro _ ⟨⟩
      have hlt := (List.getElem?_eq_some_iff.mp hget).1
      exact ⟨rfl, rfl, area', getElem?_set_self hlt, hactive', (hused _).mpr (.inl rfl)⟩
    · -- the slot was free, so no entry of the map is stored there
      obtain ⟨a, ha, -, hold⟩ := h.located k e hk
      simp only [SwapEntry.location, Prod.mk.injEq] at heq
      rw [← heq.1, hget] at ha
      cases ha
      rw [← heq.2, isSlotUsed_iff, hclear] at hold
      simp at hold
    · exact (h.located k e hk).set hget rfl fun _ _ hold => ⟨hactive', (hused _).mpr (.inr hold)⟩

/-- A page that is swapped in is the one that was stored. -/
theorem Coherent.pageIn (pid vaddr : Nat) : Coherent (s.step (.pageIn pid vaddr)) := by
  simp only [step]
  cases hentry : s.mgr.swappedPages[(pid, vaddr)]? with
  | none =>
    rw [pageIn_of_not_swapped hentry]
    -- nothing was swapped under this key, so there is nothing to forget
    have hnone : update s.lastOut (pid, vaddr) none = s.lastOut := by
      rw [update_eq_self_iff, h.stored, hentry]
      rfl
    rw [hnone]
    exact h
  | some entry =>
    obtain ⟨area, hget, hactive, hused⟩ := h.located _ _ hentry
    have hvalid := h.areas.valid area (mem_of_getElem? hget)
    rw [pageIn_of_swapped hentry hget]
    refine h.set (h.areas.set rfl (hvalid.freeSlot entry.slot)) (fun k => lookup_erase _ _ k)
      (fun l => lookup_erase _ _ l) rfl (fun _ => rfl) nofun fun k e hne hk => ?_
    -- the keys that stay are stored elsewhere
    have hother := h.distinct _ k entry e hentry hk hne
    refine ⟨hother, (h.located k e hk).set hget rfl fun harea hact hslot => ?_⟩
    refine ⟨by simpa using hact, isSlotUsed_freeSlot (fun heq => hother ?_) hslot⟩
    simp [SwapEntry.location, harea, heq]

theorem Coherent.step (op : SwapOp) : Coherent (s.step op) := by
  cases op with
  | swapon path sizeBytes priority => exact h.swapon path sizeBytes priority
  | swapoff path => exact h.swapoff path
  | pageOut pid vaddr data => exact h.pageOut pid vaddr data
  | pageIn pid vaddr => exact h.pageIn pid vaddr

/-- Fresh calls keep the number of used swap pages equal to the number of swapped keys. -/
theorem used_step {op : SwapOp} (hfresh : s.Fresh op)
    (hused : s.mgr.usedSwapPages = s.mgr.swappedPages.size) :
    (s.step op).mgr.usedSwapPages = (s.step op).mgr.swappedPages.size := by
  cases op with
  | swapon path sizeBytes priority =>
    simp only [StoreState.step, SwapManager.swapon]
    split
    · exact hused
    · split <;> exact hused
  | swapoff path =>
    simp only [StoreState.step, SwapManager.swapoff]
    split
    · exact hused
    · split
      · exact hused
      · split <;> exact hused
  | pageOut pid vaddr data =>
    unfold StoreState.step SwapManager.pageOut
    cases halloc : s.mgr.allocSwapSlot with
    | none => exact hused
    | some result =>
      obtain ⟨entry, m⟩ := result
      rcases hfresh with hnew | hfull
      · obtain ⟨-, -, -, -, -, rfl⟩ := allocSwapSlot_spec h.areas halloc
        unfold isSwapped at hnew
        rw [TreeMap.size_insert, hused, hnew]
        rfl
      · unfold SwapManager.allocSwapSlot at halloc
        rw [bestArea_none hfull] at halloc
        cases halloc
  | pageIn pid vaddr =>
    simp only [StoreState.step]
    cases hentry : s.mgr.swappedPages[(pid, vaddr)]? with
    | none =>
      rw [pageIn_of_not_swapped hentry]
      exact hused
    | some entry =>
      obtain ⟨area, hget, -⟩ := h.located _ _ hentry
      rw [pageIn_of_swapped hentry hget]
      have hmem : s.mgr.swappedPages.contains (pid, vaddr) = true := by
        simp [TreeMap.contains_eq_isSome_getElem?, hentry]
      rw [TreeMap.size_erase, if_pos hmem, hused]

/-- Coherence and an exact counter are all a swap store promises. -/
theorem Coherent.correct (hused : s.mgr.usedSwapPages = s.mgr.swappedPages.size) :
    Correct s where
  distinct := h.distinct
  active := by
    intro k e hk
    obtain ⟨area, hget, hactive, hslot⟩ := h.located k e hk
    exact ⟨area, hget, hactive, (isSlotUsed_iff.mp hslot).1⟩
  returns := by
    intro pid vaddr
    rw [h.stored]
    cases hentry : s.mgr.swappedPages[(pid, vaddr)]? with
    | none =>
      rw [pageIn_of_not_swapped hentry]
      rfl
    | some entry =>
      obtain ⟨area, hget, -⟩ := h.located _ _ hentry
      obtain ⟨data, hdata⟩ := isSome_iff_exists.mp (h.filled _ _ hentry)
      rw [pageIn_of_swapped hentry hget, bind_some, hdata]
      rfl
  removes := by
    intro pid vaddr
    unfold isSwapped
    cases hentry : s.mgr.swappedPages[(pid, vaddr)]? with
    | none =>
      rw [pageIn_of_not_swapped hentry]
      simp [TreeMap.contains_eq_isSome_getElem?, hentry]
    | some entry =>
      obtain ⟨area, hget, -⟩ := h.located _ _ hentry
      rw [pageIn_of_swapped hentry hget]
      simp
  bits := fun area harea => (h.areas.valid area harea).counted
  used := hused

end

end StoreState

open StoreState

/-- A run that never pages out a swapped key again has a correct store in every state. -/
theorem store_correct {s : StoreState} (hreach : Reach step Fresh init s) : Correct s := by
  obtain ⟨hcoherent, hused⟩ := hreach.invariant
    (fun s => Coherent s ∧ s.mgr.usedSwapPages = s.mgr.swappedPages.size) ⟨coherent_init, rfl⟩
    fun s op hinv hfresh => ⟨hinv.1.step op, used_step hinv.1 hfresh hinv.2⟩
  exact hcoherent.correct hused

/-- Two areas, three keys and a page that comes back and goes out again. -/
theorem store_correct_three_keys :
    Correct ([SwapOp.swapon "/swap" 8192 1, .swapon "/dev/sdb" 16384 5, .pageOut 1 0x1000 [7],
      .pageOut 2 0x1000 [8, 9], .pageIn 1 0x1000, .pageOut 1 0x1000 [5], .pageOut 1 0x2000 [],
      .swapoff "/swap"].foldl step init) :=
  store_correct (Reach.start.foldl (by decide +kernel))

/-- Paging out one key twice uses two slots for one swapped key. -/
theorem pageOut_twice_leaks_slot :
    ∃ s, Reach step (fun _ _ => True) init s ∧ s.mgr.usedSwapPages = 2 ∧
      s.mgr.swappedPages.size = 1 ∧ ¬ Correct s := by
  refine ⟨[SwapOp.swapon "/swap" 8192 0, .pageOut 1 0x1000 [1], .pageOut 1 0x1000 [2]].foldl
    step init, ?_, by decide +kernel, by decide +kernel, fun h => ?_⟩
  · exact Reach.start.foldl (by simp [Admitted])
  · exact absurd h.used (by decide +kernel)

end KnoxOS.Swap
