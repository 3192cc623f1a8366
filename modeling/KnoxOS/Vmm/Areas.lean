import KnoxOS.Lib.Reach
import KnoxOS.Vmm.Space

/-!
# Well-formed areas

`find_vma` looks at one key only, which is right as long as the areas are disjoint. `WellFormed`
says that they are, that each is keyed by its start and that each is a nonempty range of pages;
`areas_wellFormed` that every run of mapping requests keeps this, as long as no request wraps
around the address space and none is placed over other areas. The placements that the kernel
chooses itself need no such condition: `placeMmap_spec` shows them free.
-/

namespace KnoxOS.Vmm

open Lib VirtualMemoryArea AddressSpace List
open Std (TreeMap)

/-- A nonempty range of whole pages. -/
structure VirtualMemoryArea.Proper (vma : VirtualMemoryArea) : Prop where
  nonempty : vma.start < vma.stop
  start_aligned : vma.start % pageSize = 0
  stop_aligned : vma.stop % pageSize = 0

/-- Two areas have no address in common. -/
def VirtualMemoryArea.Apart (a b : VirtualMemoryArea) : Prop :=
  a.stop ≤ b.start ∨ b.stop ≤ a.start

namespace AddressSpace

/-- The areas are proper, keyed by their starts and pairwise disjoint. -/
structure WellFormed (s : AddressSpace) : Prop where
  keyed : ∀ (start : Nat) (vma : VirtualMemoryArea), s.vmas[start]? = some vma → vma.start = start
  proper : ∀ (start : Nat) (vma : VirtualMemoryArea), s.vmas[start]? = some vma → vma.Proper
  disjoint : ∀ (p q : Nat) (a b : VirtualMemoryArea), s.vmas[p]? = some a → s.vmas[q]? = some b →
    p ≠ q → a.Apart b

variable {s : AddressSpace} {t : AddressSpace} {f : VirtualMemoryArea → VirtualMemoryArea}
  {flags : MmapFlags} {finish : Nat → Nat → Mm → Mm} {p : Nat} {addr : Nat}
  {vma : VirtualMemoryArea}

section

variable (h : s.WellFormed)
include h

/-- With well-formed areas the lookup finds the area that contains an address. -/
theorem WellFormed.findVma_eq_some_iff :
    s.findVma addr = some vma ↔ s.vmas[vma.start]? = some vma ∧ vma.contains addr = true := by
  unfold findVma
  cases hlast : lastLE s.vmas addr with
  | none =>
    constructor
    · intro hfind
      cases hfind
    · rintro ⟨hmem, hcontains⟩
      have hlt := lastLE_eq_none hlast _ _ hmem
      exact absurd (contains_iff.mp hcontains).1 (Nat.not_le.mpr hlt)
  | some entry =>
    obtain ⟨key, found⟩ := entry
    obtain ⟨hmem, hle, hmax⟩ := lastLE_eq_some hlast
    constructor
    · intro hfind
      by_cases hcontains : found.contains addr
      · obtain rfl : found = vma := by simpa [hcontains] using hfind
        rw [h.keyed _ _ hmem]
        exact ⟨hmem, hcontains⟩
      · simp [hcontains] at hfind
    · rintro ⟨hvma, hcontains⟩
      obtain ⟨hstart, hstop⟩ := contains_iff.mp hcontains
      have hkey : vma.start = key := by
        by_contra hne
        have hbelow := hmax _ _ hvma hstart
        have hfound := h.proper _ _ hmem
        have hkeyed := h.keyed _ _ hmem
        rcases h.disjoint _ _ _ _ hvma hmem hne with hapart | hapart
        · omega
        · have := hfound.nonempty
          omega
      rw [hkey, hmem] at hvma
      cases hvma
      simp [hcontains]

theorem WellFormed.of_vmas_eq (heq : t.vmas = s.vmas) : t.WellFormed where
  keyed := heq ▸ h.keyed
  proper := heq ▸ h.proper
  disjoint := heq ▸ h.disjoint

/-- Adding a proper area that meets no other keeps the areas well-formed; an area with the same
start is replaced. -/
theorem WellFormed.addVma (hproper : vma.Proper)
    (hapart : ∀ (p : Nat) (a : VirtualMemoryArea), s.vmas[p]? = some a →
      p ≠ vma.start → a.Apart vma) :
    (s.addVma vma).WellFormed where
  keyed := by
    intro start a ha
    obtain ⟨heq, rfl⟩ | ⟨-, ha⟩ := lookup_insert_some ha
    · exact heq
    · exact h.keyed _ _ ha
  proper := by
    intro start a ha
    obtain ⟨-, rfl⟩ | ⟨-, ha⟩ := lookup_insert_some ha
    · exact hproper
    · exact h.proper _ _ ha
  disjoint := by
    intro p q a b ha hb hne
    rcases lookup_insert_some ha with ⟨hp, rfl⟩ | ⟨hp, ha⟩ <;>
      rcases lookup_insert_some hb with ⟨hq, rfl⟩ | ⟨hq, hb⟩
    · exact absurd (hp.symm.trans hq) hne
    · exact (hapart _ _ hb hq.symm).symm
    · exact hapart _ _ ha hp.symm
    · exact h.disjoint _ _ _ _ ha hb hne

/-- Changing an area in place without moving it keeps the areas well-formed. -/
theorem WellFormed.updateVma (addr : Nat)
    (hf : ∀ vma, (f vma).start = vma.start ∧ (f vma).stop = vma.stop) :
    (s.updateVma addr f).WellFormed := by
  unfold AddressSpace.updateVma
  split
  next start vma hlast =>
    split
    · obtain ⟨hmem, -, -⟩ := lastLE_eq_some hlast
      obtain ⟨hstart, hstop⟩ := hf vma
      have hkey : (f vma).start = start := hstart.trans (h.keyed _ _ hmem)
      have hproper : (f vma).Proper := by
        obtain ⟨hne, ha, hb⟩ := h.proper _ _ hmem
        exact ⟨by rwa [hstart, hstop], by rwa [hstart], by rwa [hstop]⟩
      have hadd := h.addVma hproper fun p a ha hne => by
        have hapart := h.disjoint _ _ _ _ ha hmem (hkey ▸ hne)
        rwa [Apart, hstart, hstop]
      rw [AddressSpace.addVma, hkey] at hadd
      exact hadd
    · exact h
  next => exact h

end

/-! ## Placement -/

/-- The next placement of the mmap area lies on a page boundary of the address space. -/
structure NextAligned (s : AddressSpace) : Prop where
  lt : s.mmapNext < 2 ^ 64
  aligned : s.mmapNext % pageSize = 0

variable {size : Nat}

/-- A region is free when no area overlaps it. -/
theorem isRegionFree_iff {start : Nat} (hfits : start + size < 2 ^ 64) :
    s.isRegionFree start size = true ↔
      ∀ (p : Nat) (a : VirtualMemoryArea), s.vmas[p]? = some a →
        ¬ (a.start < start + size ∧ start < a.stop) := by
  simp only [isRegionFree, u64_of_lt hfits, all_eq_true, Bool.not_eq_true']
  constructor
  · intro hfree p a ha hover
    have hno := hfree (p, a) (mem_toList_iff.mpr ha)
    rw [overlaps_iff.mpr hover] at hno
    cases hno
  · intro hfree e he
    rw [Bool.eq_false_iff]
    intro hover
    exact hfree e.1 e.2 (mem_toList_iff.mp he) (overlaps_iff.mp hover)

/-- A placement that wraps nowhere and is free by the kernel's own test. -/
structure Free (s : AddressSpace) (vaddr size : Nat) : Prop where
  fits : vaddr + size < 2 ^ 64
  aligned : vaddr % pageSize = 0
  free : s.isRegionFree vaddr size = true

/-- What the search returns is free. -/
theorem searchRegion_spec {fuel candidate vaddr : Nat} (hsize : pageSize ≤ size)
    (hwrap : mmapRegionStart + size < 2 ^ 64) (haligned : candidate % pageSize = 0)
    (hfits : candidate + size < 2 ^ 64) (h : s.searchRegion size fuel candidate = some vaddr) :
    s.Free vaddr size := by
  induction fuel generalizing candidate with
  | zero => simp [searchRegion] at h
  | succ fuel ih =>
    unfold searchRegion at h
    split at h
    next hge =>
      rw [u64_of_lt hwrap] at hge
      -- the bound keeps the candidate above the region's start, so no page is subtracted from 0
      have hsub : subU64 candidate pageSize = candidate - pageSize := by
        unfold subU64 u64 at *
        omega
      have haligned' : (candidate - pageSize) % pageSize = 0 := by
        unfold pageSize at *
        omega
      rw [hsub] at h
      simp only at h
      split at h
      next hfree =>
        cases h
        exact ⟨by omega, haligned', hfree⟩
      next => exact ih haligned' (by omega) h
    next => cases h

/-- The result of a placement in the mmap area is free, and the next one is aligned again. -/
theorem allocateMmapRegion_spec (hnext : s.NextAligned) (size : Nat)
    (hpos : 0 < pageAlignUp size) (hwrap : mmapRegionStart + pageAlignUp size < 2 ^ 64) :
    (s.allocateMmapRegion size).2.NextAligned ∧
      (s.allocateMmapRegion size).2.vmas = s.vmas ∧
      ∀ vaddr, (s.allocateMmapRegion size).1 = some vaddr → s.Free vaddr (pageAlignUp size) := by
  have hsize : pageAlignUp size % pageSize = 0 := pageAlignUp_mod size
  have hpage : pageSize ≤ pageAlignUp size :=
    Nat.le_of_dvd hpos (Nat.dvd_of_mod_eq_zero hsize)
  unfold allocateMmapRegion
  simp only [u64_of_lt hwrap]
  split
  next => exact ⟨hnext, rfl, fun _ h => by cases h⟩
  next hge =>
    have hlt := hnext.lt
    have hsub : subU64 s.mmapNext (pageAlignUp size) = s.mmapNext - pageAlignUp size := by
      unfold subU64 u64 at *
      omega
    have haligned : (s.mmapNext - pageAlignUp size) % pageSize = 0 := by
      have := hnext.aligned
      unfold pageSize at *
      omega
    have hle : pageAlignUp size ≤ s.mmapNext := by omega
    rw [hsub]
    split
    next hfree =>
      refine ⟨⟨by simp only; omega, haligned⟩, rfl, fun vaddr h => ?_⟩
      cases h
      exact ⟨by omega, haligned, hfree⟩
    next =>
      split
      next => exact ⟨⟨by simp only; omega, haligned⟩, rfl, fun _ h => by cases h⟩
      next candidate hsearch =>
        obtain ⟨hfits, hcand, hfree⟩ := searchRegion_spec hpage hwrap haligned (by omega) hsearch
        refine ⟨⟨by simp only; omega, hcand⟩, rfl, fun vaddr h => ?_⟩
        cases h
        exact ⟨hfits, hcand, hfree⟩

/-- What a mapping request must meet: it does not wrap around, and a fixed range meets no area but
one with the same start. -/
def FitsMmap (s : AddressSpace) (addr size : Nat) (flags : MmapFlags) : Prop :=
  0 < pageAlignUp size ∧ pageAlignDown addr + pageAlignUp size < 2 ^ 64 ∧
    if flags.fixed = true ∧ addr ≠ 0 then
      ∀ e ∈ s.vmas.toList, e.1 = pageAlignDown addr ∨ e.2.stop ≤ pageAlignDown addr ∨
        pageAlignDown addr + pageAlignUp size ≤ e.2.start
    else mmapRegionStart + pageAlignUp size < 2 ^ 64

instance (s : AddressSpace) (addr size : Nat) (flags : MmapFlags) :
    Decidable (s.FitsMmap addr size flags) :=
  inferInstanceAs (Decidable (_ ∧ _ ∧ _))

theorem pageAlignUp_pageAlignUp (size : Nat) :
    pageAlignUp (pageAlignUp size) = pageAlignUp size := by
  have := pageAlignUp_mod size
  unfold pageAlignUp pageAlignDown u64 pageSize at *
  omega

/-- A place that the kernel chooses itself is free. -/
theorem placeMmap_free {vaddr : Nat} (hnext : s.NextAligned) (hfits : s.FitsMmap addr size flags)
    (hfix : ¬ (flags.fixed = true ∧ addr ≠ 0))
    (h : (s.placeMmap addr (pageAlignUp size) flags).1 = some vaddr) :
    s.Free vaddr (pageAlignUp size) := by
  obtain ⟨hpos, hplace, hregion⟩ := hfits
  rw [if_neg hfix] at hregion
  have hup := pageAlignUp_pageAlignUp size
  obtain ⟨-, -, hr⟩ := allocateMmapRegion_spec hnext (pageAlignUp size) (by rwa [hup])
    (by rwa [hup])
  rw [hup] at hr
  unfold placeMmap at h
  rw [if_neg (by simpa using hfix)] at h
  split at h
  · split at h
    next hisfree =>
      cases h
      exact ⟨hplace, pageAlignDown_mod _, hisfree⟩
    next => exact hr vaddr h
  · exact hr vaddr h

/-- A placement is aligned, does not wrap and meets no area but one with the same start. -/
theorem placeMmap_spec (hnext : s.NextAligned) (hfits : s.FitsMmap addr size flags) :
    (s.placeMmap addr (pageAlignUp size) flags).2.NextAligned ∧
      (s.placeMmap addr (pageAlignUp size) flags).2.vmas = s.vmas ∧
      ∀ vaddr, (s.placeMmap addr (pageAlignUp size) flags).1 = some vaddr →
        vaddr + pageAlignUp size < 2 ^ 64 ∧ vaddr % pageSize = 0 ∧
        ∀ (p : Nat) (a : VirtualMemoryArea), s.vmas[p]? = some a → p ≠ vaddr →
          a.stop ≤ vaddr ∨ vaddr + pageAlignUp size ≤ a.start := by
  have hfits' := hfits
  obtain ⟨hpos, hplace, hfits⟩ := hfits
  by_cases hfix : flags.fixed = true ∧ addr ≠ 0
  · unfold placeMmap
    rw [if_pos hfix] at hfits
    rw [if_pos (by simpa using hfix)]
    refine ⟨hnext, rfl, fun vaddr h => ?_⟩
    cases h
    refine ⟨hplace, pageAlignDown_mod _, fun p a hmem hne => ?_⟩
    exact (hfits (p, a) (mem_toList_iff.mpr hmem)).resolve_left hne
  · rw [if_neg hfix] at hfits
    have hup := pageAlignUp_pageAlignUp size
    obtain ⟨hn, hv, -⟩ := allocateMmapRegion_spec hnext (pageAlignUp size) (by rwa [hup])
      (by rwa [hup])
    refine ⟨?_, ?_, fun vaddr h => ?_⟩
    · unfold placeMmap
      rw [if_neg (by simpa using hfix)]
      split_ifs
      · exact hnext
      · exact hn
      · exact hn
    · unfold placeMmap
      rw [if_neg (by simpa using hfix)]
      split_ifs
      · rfl
      · exact hv
      · exact hv
    · obtain ⟨hf, ha, hfree⟩ := placeMmap_free hnext hfits' hfix h
      refine ⟨hf, ha, fun p a hmem _ => ?_⟩
      have := (isRegionFree_iff hf).mp hfree p a hmem
      omega

/-- Well-formed areas and an aligned next placement. -/
structure Tidy (s : AddressSpace) : Prop where
  areas : s.WellFormed
  next : s.NextAligned

theorem Tidy.of_eq (h : s.Tidy) (hvmas : t.vmas = s.vmas) (hnext : t.mmapNext = s.mmapNext) :
    t.Tidy :=
  ⟨h.areas.of_vmas_eq hvmas, ⟨hnext ▸ h.next.lt, hnext ▸ h.next.aligned⟩⟩

theorem Tidy.addVma (h : s.Tidy) (hproper : vma.Proper)
    (hapart : ∀ (p : Nat) (a : VirtualMemoryArea), s.vmas[p]? = some a → p ≠ vma.start →
      a.Apart vma) : (s.addVma vma).Tidy :=
  ⟨h.areas.addVma hproper hapart, ⟨h.next.lt, h.next.aligned⟩⟩

/-- A change inside an area keeps the areas tidy. -/
theorem Tidy.updateVma (h : s.Tidy) (addr : Nat)
    (hf : ∀ vma, (f vma).start = vma.start ∧ (f vma).stop = vma.stop) :
    (s.updateVma addr f).Tidy := by
  refine ⟨h.areas.updateVma addr hf, ?_⟩
  have hnext : (s.updateVma addr f).mmapNext = s.mmapNext := by
    unfold AddressSpace.updateVma
    split
    · split <;> rfl
    · rfl
  exact ⟨hnext ▸ h.next.lt, hnext ▸ h.next.aligned⟩

/-- A new space has no areas, and places its first mapping on a page boundary. -/
theorem tidy_ofL4 (pid heapSeed mmapSeed cr3 : Nat) (m : Machine) :
    (ofL4 pid heapSeed mmapSeed cr3 m).1.Tidy := by
  refine ⟨⟨?_, ?_, ?_⟩, ⟨?_, ?_⟩⟩
  · intro start vma h
    simp [ofL4] at h
  · intro start vma h
    simp [ofL4] at h
  · intro p q a b h
    simp [ofL4] at h
  · show aslrMmapEnd mmapSeed < 2 ^ 64
    unfold aslrMmapEnd mmapRegionEnd
    omega
  · show aslrMmapEnd mmapSeed % pageSize = 0
    have hoff := aslrOffset_le mmapSeed aslrMmapRange
    have hmod : aslrOffset mmapSeed aslrMmapRange % pageSize = 0 := aslrOffset_mod ..
    unfold aslrMmapEnd mmapRegionEnd
    unfold pageSize at *
    omega

end AddressSpace

/-! ## Requests -/

/-- The mmap area is the only thing that choosing a place moves. -/
theorem placeMmap_space (s : AddressSpace) (addr size : Nat) (flags : MmapFlags) :
    ∃ next, (s.placeMmap addr size flags).2 = { s with mmapNext := next } := by
  have halloc : ∃ next, (s.allocateMmapRegion size).2 = { s with mmapNext := next } := by
    unfold allocateMmapRegion
    simp only
    split
    · exact ⟨s.mmapNext, rfl⟩
    · split
      · exact ⟨_, rfl⟩
      · split <;> exact ⟨_, rfl⟩
  unfold placeMmap
  split
  · exact ⟨s.mmapNext, rfl⟩
  · split
    · split
      · exact ⟨s.mmapNext, rfl⟩
      · exact halloc
    · exact halloc

namespace Mm

variable {mm : Mm}

/-- The spaces differ in the frames they own only. -/
def SameSpace (s t : AddressSpace) : Prop := t = { s with ownedFrames := t.ownedFrames }

theorem SameSpace.refl (s : AddressSpace) : SameSpace s s := rfl

variable {s : AddressSpace} {addr start stop : Nat} {t : AddressSpace} {flags : MmapFlags}
  {size : Nat} {vma : VirtualMemoryArea}

theorem SameSpace.trans {u : AddressSpace} (h : SameSpace s t) (h' : SameSpace t u) :
    SameSpace s u := by
  unfold SameSpace at *
  rw [h', h]

theorem sameSpace_mapZeroedPage (mm : Mm) (flags : PageTableFlags) (page : Nat) :
    SameSpace mm.space (mm.mapZeroedPage flags page).2.space := by
  unfold mapZeroedPage
  split <;> rfl

/-- A loop over fresh pages changes nothing in the space but the frames it owns. -/
theorem sameSpace_mapZeroedPages (flags : PageTableFlags)
    (hfinish : ∀ page frame mm, SameSpace mm.space (finish page frame mm).space) (pages : List Nat)
    (mm : Mm) : SameSpace mm.space (mapZeroedPages flags finish pages mm).2.space := by
  induction pages generalizing mm with
  | nil => exact .refl _
  | cons page pages ih =>
    have hpage := sameSpace_mapZeroedPage mm flags page
    unfold mapZeroedPages
    split
    next h => rwa [h] at hpage
    next frame mm' h =>
      rw [h] at hpage
      exact (hpage.trans (hfinish _ _ _)).trans (ih _)

theorem sameSpace_of_mapZeroedPages {flags : PageTableFlags}
    (hfinish : ∀ page frame mm, SameSpace mm.space (finish page frame mm).space) {pages : List Nat}
    {ok : Bool} {mm' : Mm} (h : mapZeroedPages flags finish pages mm = (ok, mm')) :
    SameSpace mm.space mm'.space := by
  have hsame := sameSpace_mapZeroedPages flags hfinish pages mm
  rwa [h] at hsame

theorem tidy_of_sameSpace (h : s.Tidy) (hsame : SameSpace s t) : t.Tidy := by
  rw [hsame]
  exact h.of_eq rfl rfl

theorem sameSpace_populate (mm : Mm) (vaddr numPages : Nat) (prot : ProtFlags) :
    SameSpace mm.space (mm.populate vaddr numPages prot).2.space :=
  sameSpace_mapZeroedPages _
    (fun page _ mm => (rfl : SameSpace mm.space (mm.trackAnonPage page).space))
    _ _

theorem sameSpace_ite_populate {ok : Bool} {mm' : Mm} {vaddr numPages : Nat} {prot : ProtFlags}
    (h : (if flags.populate then mm.populate vaddr numPages prot else (true, mm)) = (ok, mm')) :
    SameSpace mm.space mm'.space := by
  split at h
  · have hsame := sameSpace_populate mm vaddr numPages prot
    rwa [h] at hsame
  · cases h
    exact .refl _

/-- Anonymous mappings. -/
theorem tidy_mmapAnonymous (h : mm.space.Tidy) (hfits : mm.space.FitsMmap addr size flags)
    (prot : ProtFlags) : (mm.mmapAnonymous addr size prot flags).2.space.Tidy := by
  obtain ⟨hnext, hvmas, hplaced⟩ := placeMmap_spec h.next hfits
  unfold mmapAnonymous
  simp only
  split
  · exact h
  · split
    next space hplace =>
      rw [hplace] at hnext hvmas
      exact ⟨h.areas.of_vmas_eq hvmas, hnext⟩
    next vaddr space hplace =>
      rw [hplace] at hnext hvmas
      have hspace : space.Tidy := ⟨h.areas.of_vmas_eq hvmas, hnext⟩
      obtain ⟨hlt, haligned, hapart⟩ := hplaced vaddr (by rw [hplace])
      split
      next mm' hpop => exact tidy_of_sameSpace hspace (sameSpace_ite_populate hpop)
      next mm' hpop =>
        have hsame := sameSpace_ite_populate hpop
        refine (tidy_of_sameSpace hspace hsame).addVma ⟨?_, haligned, ?_⟩ fun p a ha hne => ?_
        · simp only [anonVma, u64_of_lt hlt]
          have := hfits.1
          omega
        · simp only [anonVma, u64_of_lt hlt]
          have := pageAlignUp_mod size
          unfold pageSize at *
          omega
        · rw [hsame] at ha
          have hold : mm.space.vmas[p]? = some a := hvmas ▸ ha
          simpa only [Apart, anonVma, u64_of_lt hlt] using hapart p a hold hne

/-- Mapping a file keeps the areas tidy. -/
theorem tidy_mmapFile (h : mm.space.Tidy) (hfits : mm.space.FitsMmap addr size flags)
    (prot : ProtFlags) (path : String) (offset : Nat) :
    (mm.mmapFile addr size prot flags path offset).2.space.Tidy := by
  have hanon := tidy_mmapAnonymous h hfits prot
  unfold mmapFile
  split
  next heq => rwa [heq] at hanon
  next vaddr mm' heq =>
    rw [heq] at hanon
    have hupdate := hanon.updateVma vaddr (f := fun vma =>
      { vma with
        mappingType := .fileBacked
        filePath := some path
        fileOffset := offset
        flags := { vma.flags with anonymous := false } }) fun vma => ⟨rfl, rfl⟩
    simp only
    split
    · exact hupdate
    · exact hupdate

theorem tidy_mprotect (h : mm.space.Tidy) (addr size : Nat) (prot : ProtFlags) :
    (mm.mprotect addr size prot).2.space.Tidy := by
  unfold mprotect
  split
  · exact h
  · simp only
    split
    · exact h
    · split
      · rw [updatePages_space]
        exact h.updateVma _ fun vma => ⟨rfl, rfl⟩
      · exact h

/-! ### Unmapping -/

/-- The entries of a cut space are those of the space without the area, and pieces of the area
that end at `addr` or start at `stop`. -/
theorem lookup_cutVma {a : VirtualMemoryArea}
    (h : (s.cutVma start vma addr stop).vmas[p]? = some a) :
    (p ≠ start ∧ s.vmas[p]? = some a) ∨
      (p = vma.start ∧ vma.start < addr ∧ a = { vma with stop := addr }) ∨
      (p = stop ∧ stop < vma.stop ∧ a = { vma with start := stop }) := by
  have herase : ∀ {q b}, (s.vmas.erase start)[q]? = some b → q ≠ start ∧ s.vmas[q]? = some b :=
    fun hq => ⟨(lookup_erase_some hq).1.symm, (lookup_erase_some hq).2⟩
  unfold cutVma at h
  simp only at h
  split at h
  next hright =>
    obtain ⟨heq, rfl⟩ | ⟨-, h⟩ := lookup_insert_some h
    · exact .inr (.inr ⟨heq.symm, hright, rfl⟩)
    split at h
    next hleft =>
      obtain ⟨heq, rfl⟩ | ⟨-, h⟩ := lookup_insert_some h
      · exact .inr (.inl ⟨heq.symm, hleft, rfl⟩)
      · exact .inl (herase h)
    next => exact .inl (herase h)
  next =>
    split at h
    next hleft =>
      obtain ⟨heq, rfl⟩ | ⟨-, h⟩ := lookup_insert_some h
      · exact .inr (.inl ⟨heq.symm, hleft, rfl⟩)
      · exact .inl (herase h)
    next => exact .inl (herase h)

theorem cutVma_mmapNext (s : AddressSpace) (start : Nat) (vma : VirtualMemoryArea)
    (addr stop : Nat) : (s.cutVma start vma addr stop).mmapNext = s.mmapNext := by
  unfold cutVma
  simp only
  split <;> split <;> rfl

/-- Cutting a range out of an area it meets keeps the areas well-formed. -/
theorem tidy_cutVma (h : s.Tidy) (hvma : s.vmas[start]? = some vma) (hle : addr ≤ stop)
    (haddr : addr % pageSize = 0) (hstop : stop % pageSize = 0)
    (hover : vma.start < stop ∧ addr < vma.stop) : (s.cutVma start vma addr stop).Tidy := by
  obtain ⟨hne, hstart, hend⟩ := h.areas.proper _ _ hvma
  have hkey := h.areas.keyed _ _ hvma
  have hpiece : ∀ {p a b}, p ≠ start → s.vmas[p]? = some a → vma.start ≤ b.start →
      b.stop ≤ vma.stop → a.Apart b := by
    intro p a b hp ha hlow hhigh
    rcases h.areas.disjoint _ _ _ _ ha hvma hp with hbefore | hafter
    · exact .inl (hbefore.trans hlow)
    · exact .inr (hhigh.trans hafter)
  refine ⟨⟨?_, ?_, ?_⟩, ?_⟩
  · intro p a ha
    rcases lookup_cutVma ha with ⟨-, ha⟩ | ⟨rfl, -, rfl⟩ | ⟨rfl, -, rfl⟩
    · exact h.areas.keyed _ _ ha
    · rfl
    · rfl
  · intro p a ha
    rcases lookup_cutVma ha with ⟨-, ha⟩ | ⟨-, hlt, rfl⟩ | ⟨-, hlt, rfl⟩
    · exact h.areas.proper _ _ ha
    · exact ⟨hlt, hstart, haddr⟩
    · exact ⟨hlt, hstop, hend⟩
  · -- two entries: both old, one old and one piece, or the two pieces
    intro p q a b ha hb hpq
    rcases lookup_cutVma ha with ⟨hp, ha⟩ | ⟨hp, -, rfl⟩ | ⟨hp, -, rfl⟩ <;>
      rcases lookup_cutVma hb with ⟨hq, hb⟩ | ⟨hq, -, rfl⟩ | ⟨hq, -, rfl⟩
    · exact h.areas.disjoint _ _ _ _ ha hb hpq
    · exact hpiece hp ha le_rfl hover.2.le
    · exact hpiece hp ha hover.1.le le_rfl
    · exact .symm (hpiece hq hb le_rfl hover.2.le)
    · exact absurd (hp.trans hq.symm) hpq
    · exact .inl hle
    · exact .symm (hpiece hq hb hover.1.le le_rfl)
    · exact .inr hle
    · exact absurd (hp.trans hq.symm) hpq
  · have hnext := cutVma_mmapNext s start vma addr stop
    exact ⟨hnext ▸ h.next.lt, hnext ▸ h.next.aligned⟩

theorem munmapVma_space (addr stop : Nat) (h : mm.space.vmas[start]? = some vma) :
    (munmapVma addr stop mm start).space = mm.space.cutVma start vma addr stop := by
  unfold munmapVma
  split
  next hnone =>
    rw [h] at hnone
    cases hnone
  next vma' hsome =>
    rw [h] at hsome
    cases hsome
    rfl

theorem munmapVma_of_none (h : mm.space.vmas[start]? = none) :
    munmapVma addr stop mm start = mm := by
  unfold munmapVma
  split
  next => rfl
  next vma hsome =>
    rw [h] at hsome
    cases hsome

theorem lookup_cutVma_of_ne (hp : p ≠ start) (hstart : p ≠ vma.start) (hstop : p ≠ stop) :
    (s.cutVma start vma addr stop).vmas[p]? = s.vmas[p]? := by
  unfold cutVma AddressSpace.addVma
  simp only
  split_ifs <;> simp [lookup_insert, lookup_erase, hp.symm, hstart.symm, hstop.symm]

/-- The starts at which `munmap` has still to cut: they differ, and their areas meet the range. -/
structure ToCut (s : AddressSpace) (addr stop : Nat) (starts : List Nat) : Prop where
  nodup : starts.Nodup
  below : ∀ p ∈ starts, p < stop
  meets : ∀ p ∈ starts, ∀ vma, s.vmas[p]? = some vma → vma.start < stop ∧ addr < vma.stop

section

variable {starts : List Nat}

section

variable (h : ToCut mm.space addr stop (start :: starts))
    (hkeyed : ∀ (p : Nat) (a : VirtualMemoryArea), mm.space.vmas[p]? = some a → a.start = p)
include h hkeyed

/-- The pieces of a cut area are keyed by its start or by the end of the range, so the later areas
are still there. -/
theorem ToCut.later (hp : p ∈ starts) :
    (munmapVma addr stop mm start).space.vmas[p]? = mm.space.vmas[p]? := by
  cases hvma : mm.space.vmas[start]? with
  | none => rw [munmapVma_of_none hvma]
  | some vma =>
    have hne : p ≠ start := fun heq => (nodup_cons.mp h.nodup).1 (heq ▸ hp)
    have hlt := h.below p (mem_cons_of_mem _ hp)
    rw [munmapVma_space addr stop hvma]
    exact lookup_cutVma_of_ne hne (hkeyed _ _ hvma ▸ hne) (Nat.ne_of_lt hlt)

theorem ToCut.next : ToCut (munmapVma addr stop mm start).space addr stop starts where
  nodup := (nodup_cons.mp h.nodup).2
  below p hp := h.below p (mem_cons_of_mem _ hp)
  meets p hp := h.later hkeyed hp ▸ h.meets p (mem_cons_of_mem _ hp)

end

/-- The loop of `munmap` over areas that all meet the range. -/
theorem tidy_munmapVmas (hle : addr ≤ stop) (haddr : addr % pageSize = 0)
    (hstop : stop % pageSize = 0) (hcut : ToCut mm.space addr stop starts) (h : mm.space.Tidy) :
    (starts.foldl (munmapVma addr stop) mm).space.Tidy := by
  induction starts generalizing mm with
  | nil => exact h
  | cons start starts ih =>
    refine ih (hcut.next h.areas.keyed) ?_
    cases hvma : mm.space.vmas[start]? with
    | none =>
      rw [munmapVma_of_none hvma]
      exact h
    | some vma =>
      rw [munmapVma_space addr stop hvma]
      exact tidy_cutVma h hvma hle haddr hstop (hcut.meets start mem_cons_self vma hvma)

end

/-- The starts that `munmap` collects. -/
theorem toCut_overlapping
    (hkeyed : ∀ (p : Nat) (a : VirtualMemoryArea), s.vmas[p]? = some a → a.start = p)
    (addr stop : Nat) :
    ToCut s addr stop ((s.vmas.toList.filter fun e => e.2.overlaps addr stop).map (·.1)) := by
  have hsorted := (pairwise_toList s.vmas).filter fun e => e.2.overlaps addr stop
  have hmem : ∀ p ∈ (s.vmas.toList.filter fun e => e.2.overlaps addr stop).map (·.1),
      ∃ a, s.vmas[p]? = some a ∧ a.start < stop ∧ addr < a.stop := by
    intro p hp
    obtain ⟨e, hin, rfl⟩ := mem_map.mp hp
    obtain ⟨hlist, hover⟩ := mem_filter.mp hin
    exact ⟨e.2, mem_toList_iff.mp hlist, overlaps_iff.mp hover⟩
  refine ⟨List.Pairwise.map _ (fun a b hab => Nat.ne_of_lt hab) hsorted, fun p hp => ?_,
    fun p hp vma hvma => ?_⟩
  · obtain ⟨a, ha, hlt, -⟩ := hmem p hp
    exact hkeyed p a ha ▸ hlt
  · obtain ⟨a, ha, hmeets⟩ := hmem p hp
    rw [ha] at hvma
    cases hvma
    exact hmeets

theorem tidy_munmap (h : mm.space.Tidy) (hfits : pageAlignDown addr + pageAlignUp size < 2 ^ 64) :
    (mm.munmap addr size).2.space.Tidy := by
  unfold munmap
  simp only [u64_of_lt hfits]
  exact tidy_munmapVmas (Nat.le_add_right _ _) (pageAlignDown_mod _)
    (aligned_add (pageAlignDown_mod addr) (pageAlignUp_mod size))
    (toCut_overlapping h.areas.keyed _ _) h

/-! ### Stacks -/

/-- What a stack request must meet: a nonempty range of whole pages, with a page below it for the
guard, that meets no area but ones that start where the guard or the stack start. -/
def FitsStack (s : AddressSpace) (stackTop stackSize : Nat) : Prop :=
  stackTop < 2 ^ 64 ∧ stackTop % pageSize = 0 ∧ 0 < stackSize / pageSize ∧
    (stackSize / pageSize + 1) * pageSize ≤ stackTop ∧
    ∀ e ∈ s.vmas.toList, e.1 = stackTop - (stackSize / pageSize + 1) * pageSize ∨
      e.1 = stackTop - stackSize / pageSize * pageSize ∨
      e.2.stop ≤ stackTop - (stackSize / pageSize + 1) * pageSize ∨ stackTop ≤ e.2.start

instance (s : AddressSpace) (stackTop stackSize : Nat) :
    Decidable (FitsStack s stackTop stackSize) :=
  inferInstanceAs (Decidable (_ ∧ _ ∧ _ ∧ _ ∧ _))

/-- The bottom and the start of a stack of `n` pages that does not wrap. -/
theorem stack_bounds {stackTop n : Nat} (hlt : stackTop < 2 ^ 64)
    (hroom : (n + 1) * pageSize ≤ stackTop) :
    subU64 stackTop (u64 ((n + stackGuardPages) * pageSize)) = stackTop - (n + 1) * pageSize ∧
      u64 (stackTop - (n + 1) * pageSize + stackGuardPages * pageSize) =
        stackTop - n * pageSize := by
  have hsucc : (n + 1) * pageSize = n * pageSize + pageSize := Nat.succ_mul ..
  constructor
  · rw [stackGuardPages, u64_of_lt (by omega), subU64, u64]
    omega
  · rw [stackGuardPages, u64_of_lt (by omega)]
    omega

/-- Mapping a stack that fits keeps the areas tidy. -/
theorem tidy_mapStack (h : mm.space.Tidy) {stackTop stackSize : Nat}
    (hfits : FitsStack mm.space stackTop stackSize) :
    (mm.mapStack stackTop stackSize).2.space.Tidy := by
  obtain ⟨hlt, haligned, hpages, hroom, hapart⟩ := hfits
  have hps : 0 < pageSize := by unfold pageSize; omega
  set n := stackSize / pageSize with hn
  have hsucc : (n + 1) * pageSize = n * pageSize + pageSize := Nat.succ_mul ..
  obtain ⟨hbottom, hstart⟩ := stack_bounds hlt hroom
  have hmodn : n * pageSize % pageSize = 0 := Nat.mul_mod_left _ _
  have hmods : (stackTop - n * pageSize) % pageSize = 0 :=
    Nat.sub_mod_eq_zero_of_mod_eq (haligned.trans hmodn.symm)
  have hmodb : (stackTop - (n + 1) * pageSize) % pageSize = 0 :=
    Nat.sub_mod_eq_zero_of_mod_eq (haligned.trans (Nat.mul_mod_left _ _).symm)
  have hpos : 0 < n * pageSize := Nat.mul_pos hpages hps
  have hguard : (guardVma (stackTop - (n + 1) * pageSize)).stop = stackTop - n * pageSize := hstart
  -- the guard may replace an area of the same start, and stays below the one the stack replaces
  have hwith : (mm.space.addVma (guardVma (stackTop - (n + 1) * pageSize))).Tidy := by
    refine h.addVma ⟨?_, hmodb, ?_⟩ fun p a ha hne => ?_
    · rw [hguard]
      show stackTop - (n + 1) * pageSize < stackTop - n * pageSize
      omega
    · rw [hguard]
      exact hmods
    · unfold Apart
      rw [hguard]
      show a.stop ≤ stackTop - (n + 1) * pageSize ∨ stackTop - n * pageSize ≤ a.start
      have hkey := h.areas.keyed _ _ ha
      rcases hapart (p, a) (mem_toList_iff.mpr ha) with heq | heq | hlow | hhigh
      · exact absurd heq hne
      · right
        simp only at heq
        omega
      · exact .inl hlow
      · right
        simp only at hhigh
        omega
  unfold mapStack
  simp only [← hn, hbottom, hstart]
  split
  next heq =>
    have hsame := sameSpace_of_mapZeroedPages (fun _ _ _ => .refl _) heq
    exact tidy_of_sameSpace hwith hsame
  next mm' heq =>
    have hsame := sameSpace_of_mapZeroedPages (fun _ _ _ => .refl _) heq
    refine (tidy_of_sameSpace hwith hsame).addVma ⟨?_, hmods, haligned⟩ fun p a ha hne => ?_
    · show stackTop - n * pageSize < stackTop
      omega
    · rw [hsame] at ha
      obtain ⟨-, rfl⟩ | ⟨hp, ha⟩ := lookup_insert_some ha
      · exact .inl (Nat.le_of_eq hguard)
      show a.stop ≤ stackTop - n * pageSize ∨ stackTop ≤ a.start
      rcases hapart (p, a) (mem_toList_iff.mpr ha) with heq | heq | hlow | hhigh
      · exact absurd heq.symm hp
      · exact absurd heq hne
      · left
        simp only at hlow
        omega
      · exact .inr hhigh

/-! ### Fork -/

/-- The areas of `s` are areas of `t` up to their copy-on-write marks. -/
def Inherits (s t : AddressSpace) : Prop :=
  ∀ (p : Nat) (a : VirtualMemoryArea), s.vmas[p]? = some a →
    ∃ b, t.vmas[p]? = some b ∧ a = { b with cow := a.cow, refCount := a.refCount }

/-- What a child inherits from well-formed areas is well formed. -/
theorem wellFormed_of_inherits (h : t.WellFormed) (hs : Inherits s t) :
    s.WellFormed where
  keyed := by
    intro p a ha
    obtain ⟨b, hb, hab⟩ := hs p a ha
    rw [hab]
    exact h.keyed p b hb
  proper := by
    intro p a ha
    obtain ⟨b, hb, hab⟩ := hs p a ha
    obtain ⟨hne, hstart, hstop⟩ := h.proper p b hb
    rw [hab]
    exact ⟨hne, hstart, hstop⟩
  disjoint := by
    intro p q a b ha hb hpq
    obtain ⟨a', ha', haa⟩ := hs p a ha
    obtain ⟨b', hb', hbb⟩ := hs q b hb
    rw [haa, hbb]
    exact h.disjoint p q a' b' ha' hb' hpq

/-- The pages of an area change nothing in the child but its copy-on-write frames. -/
theorem forkPages_space (parentCr3 : Nat) (flags : PageTableFlags) (pages : List Nat)
    (child : Mm) :
    ∃ cow, (pages.foldl (forkPage parentCr3 flags) child).space =
      { child.space with cowPages := cow } := by
  induction pages generalizing child with
  | nil => exact ⟨child.space.cowPages, rfl⟩
  | cons page pages ih =>
    rw [foldl_cons]
    obtain ⟨cow, hcow⟩ := ih (forkPage parentCr3 flags child page)
    have hpage : ∃ cow', (forkPage parentCr3 flags child page).space =
        { child.space with cowPages := cow' } := by
      unfold forkPage
      split
      · exact ⟨child.space.cowPages, rfl⟩
      · exact ⟨_, rfl⟩
    obtain ⟨cow', hcow'⟩ := hpage
    exact ⟨cow, by rw [hcow, hcow']⟩

/-- One area of a fork adds the area, marked, and keeps everything else of the child's space but
its copy-on-write frames. -/
theorem forkVma_space (parentCr3 : Nat) (child : Mm) (vma : VirtualMemoryArea) :
    ∃ cow marked refs, (forkVma parentCr3 child vma).space =
      { child.space with
        cowPages := cow
        vmas := child.space.vmas.insert vma.start
          { vma with cow := marked, refCount := refs } } := by
  unfold forkVma
  split
  · exact ⟨child.space.cowPages, vma.cow, vma.refCount, rfl⟩
  · obtain ⟨cow, hcow⟩ := forkPages_space parentCr3
      { vma.prot.toPageFlags with writable := false } (pagesFrom vma.start vma.pageCount) child
    refine ⟨cow, true, 2, ?_⟩
    simp only [AddressSpace.addVma, hcow]

/-- The loop of `fork` over areas of the parent. -/
theorem forkVmas_spec {parent : AddressSpace} (hkeyed : ∀ (p : Nat) (a : VirtualMemoryArea),
      parent.vmas[p]? = some a → a.start = p) {vmas : List VirtualMemoryArea}
    (hvmas : ∀ vma ∈ vmas, ∃ p : Nat, parent.vmas[p]? = some vma) (child : Mm)
    (h : Inherits child.space parent) :
    Inherits (vmas.foldl (forkVma parent.cr3) child).space parent ∧
      (vmas.foldl (forkVma parent.cr3) child).space.mmapNext = child.space.mmapNext := by
  induction vmas generalizing child with
  | nil => exact ⟨h, rfl⟩
  | cons vma vmas ih =>
    rw [foldl_cons]
    obtain ⟨cow, marked, refs, hspace⟩ := forkVma_space parent.cr3 child vma
    have hstep : Inherits (forkVma parent.cr3 child vma).space parent := by
      intro p a ha
      rw [hspace] at ha
      obtain ⟨heq, rfl⟩ | ⟨-, ha⟩ := lookup_insert_some ha
      · obtain ⟨q, hq⟩ := hvmas vma (mem_cons_self ..)
        have hkey : q = p := (hkeyed q vma hq).symm.trans heq
        exact ⟨vma, hkey ▸ hq, rfl⟩
      · exact h p a ha
    obtain ⟨hinherits, hnext⟩ := ih (fun v hv => hvmas v (mem_cons_of_mem _ hv)) _ hstep
    refine ⟨hinherits, hnext.trans ?_⟩
    rw [hspace]

/-- The child of a fork has the areas of its parent. -/
theorem tidy_fork {parent child : AddressSpace} (h : parent.Tidy) {m m' : Machine}
    {childPid heapSeed mmapSeed : Nat}
    (hfork : fork parent childPid heapSeed mmapSeed m = (some child, m')) : child.Tidy := by
  unfold fork at hfork
  split at hfork
  · cases hfork
  next fresh m1 hnew =>
    have hempty : fresh.vmas = ∅ := by
      unfold AddressSpace.new at hnew
      split at hnew
      · cases hnew
      · cases hnew
        rfl
    cases hfork
    have hvmas : ∀ vma ∈ parent.vmas.toList.map (·.2), ∃ p : Nat, parent.vmas[p]? = some vma := by
      intro vma hmem
      obtain ⟨⟨p, a⟩, hin, rfl⟩ := mem_map.mp hmem
      exact ⟨p, mem_toList_iff.mp hin⟩
    have hstart : Inherits
        { fresh with brk := parent.brk, mmapNext := parent.mmapNext } parent := by
      intro p a ha
      simp [hempty] at ha
    obtain ⟨hinherits, hnext⟩ := forkVmas_spec h.areas.keyed hvmas
      ⟨{ fresh with brk := parent.brk, mmapNext := parent.mmapNext }, m1⟩ hstart
    refine ⟨wellFormed_of_inherits h.areas hinherits, ⟨?_, ?_⟩⟩
    · rw [hnext]
      exact h.next.lt
    · rw [hnext]
      exact h.next.aligned

end Mm

/-! ## Runs -/

/-- A request that adds, removes or changes areas. After a fork the run goes on with the child or
with the parent. -/
inductive AreaOp where
  | mmapAnonymous (addr size : Nat) (prot : ProtFlags) (flags : MmapFlags)
  | mmapFile (addr size : Nat) (prot : ProtFlags) (flags : MmapFlags) (path : String)
      (offset : Nat)
  | munmap (addr size : Nat)
  | mprotect (addr size : Nat) (prot : ProtFlags)
  | mapStack (stackTop stackSize : Nat)
  | fork (childPid heapSeed mmapSeed : Nat) (follow : Bool)

namespace AreaOp

def step (mm : Mm) : AreaOp → Mm
  | mmapAnonymous addr size prot flags => (mm.mmapAnonymous addr size prot flags).2
  | mmapFile addr size prot flags path offset =>
    (mm.mmapFile addr size prot flags path offset).2
  | munmap addr size => (mm.munmap addr size).2
  | mprotect addr size prot => (mm.mprotect addr size prot).2
  | mapStack stackTop stackSize => (mm.mapStack stackTop stackSize).2
  | fork childPid heapSeed mmapSeed follow =>
    match Mm.fork mm.space childPid heapSeed mmapSeed mm.m with
    | (some child, m) => if follow then ⟨child, m⟩ else { mm with m := m }
    | (none, m) => { mm with m := m }

/-- No request wraps around the address space, and no range given by the caller is placed over
areas of another start. -/
def Fits (mm : Mm) : AreaOp → Prop
  | mmapAnonymous addr size _ flags => mm.space.FitsMmap addr size flags
  | mmapFile addr size _ flags _ _ => mm.space.FitsMmap addr size flags
  | munmap addr size => pageAlignDown addr + pageAlignUp size < 2 ^ 64
  | mprotect _ _ _ => True
  | mapStack stackTop stackSize => Mm.FitsStack mm.space stackTop stackSize
  | fork _ _ _ _ => True

instance (mm : Mm) : (op : AreaOp) → Decidable (Fits mm op)
  | mmapAnonymous addr size _ flags | mmapFile addr size _ flags _ _ =>
    inferInstanceAs (Decidable (mm.space.FitsMmap addr size flags))
  | munmap _ _ => inferInstanceAs (Decidable (_ < _))
  | mapStack stackTop stackSize =>
    inferInstanceAs (Decidable (Mm.FitsStack mm.space stackTop stackSize))
  | mprotect .. | fork .. => inferInstanceAs (Decidable True)

/-- Every request that fits keeps the areas tidy. -/
theorem tidy_step {mm : Mm} {op : AreaOp} (h : mm.space.Tidy) (hfits : Fits mm op) :
    (step mm op).space.Tidy := by
  cases op with
  | mmapAnonymous addr size prot flags => exact Mm.tidy_mmapAnonymous h hfits prot
  | mmapFile addr size prot flags path offset =>
    exact Mm.tidy_mmapFile h hfits prot path offset
  | munmap addr size => exact Mm.tidy_munmap h hfits
  | mprotect addr size prot => exact Mm.tidy_mprotect h addr size prot
  | mapStack stackTop stackSize => exact Mm.tidy_mapStack h hfits
  | fork childPid heapSeed mmapSeed follow =>
    simp only [step]
    split
    next child m hfork =>
      split
      · exact Mm.tidy_fork h hfork
      · exact h
    next => exact h

end AreaOp

/-- In every state that a new address space reaches by requests that fit, every area is keyed by
its own start, is a nonempty range of whole pages and is disjoint from every other, and the lookup
finds an area for exactly the addresses that lie in one. -/
theorem areas_wellFormed {pid heapSeed mmapSeed cr3 : Nat} {m : Machine} {mm : Mm}
    (hrun : Reach AreaOp.step AreaOp.Fits
      ⟨(AddressSpace.ofL4 pid heapSeed mmapSeed cr3 m).1,
        (AddressSpace.ofL4 pid heapSeed mmapSeed cr3 m).2⟩ mm) :
    mm.space.WellFormed ∧ ∀ addr, (mm.space.findVma addr).isSome ↔
      ∃ (p : Nat) (vma : VirtualMemoryArea), mm.space.vmas[p]? = some vma ∧
        vma.contains addr = true := by
  have htidy : mm.space.Tidy := hrun.invariant (fun mm => mm.space.Tidy)
    (tidy_ofL4 pid heapSeed mmapSeed cr3 m) fun _ _ h hok => AreaOp.tidy_step h hok
  refine ⟨htidy.areas, fun addr => ⟨fun h => ?_, fun ⟨p, vma, hvma, hcontains⟩ => ?_⟩⟩
  · obtain ⟨vma, hfind⟩ := Option.isSome_iff_exists.mp h
    obtain ⟨hmem, hcontains⟩ := htidy.areas.findVma_eq_some_iff.mp hfind
    exact ⟨_, vma, hmem, hcontains⟩
  · rw [Option.isSome_iff_exists]
    refine ⟨vma, htidy.areas.findVma_eq_some_iff.mpr ⟨?_, hcontains⟩⟩
    rw [htidy.areas.keyed p vma hvma]
    exact hvma

/-- A machine with sixteen frames and an empty kernel template. -/
def smallMachine : Machine where
  pool := PhysicalFramePool.new.addRange 0x100000 16
  mem := fun _ _ => 0
  swap := .new
  kernelL4 := 0x1000
  wxPolicy := .strict
  fileBytes := fun _ _ => []

/-- A new address space on the small machine, with its L4 table in frame `0x2000`. -/
def smallMm : Mm :=
  ⟨(AddressSpace.ofL4 1 0 0 0x2000 smallMachine).1, (AddressSpace.ofL4 1 0 0 0x2000 smallMachine).2⟩

/-- Requests that fit: a populated mapping, a hint that is taken, a hole in the first mapping, a
stack, and a fork. -/
def fittingRequests : List AreaOp :=
  [.mmapAnonymous 0 0x3000 .rw ⟨false, true, false, true⟩,
    .mmapAnonymous 0x50000000 0x1000 .rw ⟨false, true, false, false⟩,
    .munmap 0x6fffffffe000 0x1000,
    .mapStack 0x60000000 0x1000,
    .fork 2 0 0 true]

/-- Five areas after a run of requests that fit. -/
theorem areas_wellFormed_five_requests :
    Admitted AreaOp.step AreaOp.Fits smallMm fittingRequests ∧
      (fittingRequests.foldl AreaOp.step smallMm).space.vmas.size = 5 ∧
      (fittingRequests.foldl AreaOp.step smallMm).space.WellFormed := by
  have hadmitted : Admitted AreaOp.step AreaOp.Fits smallMm fittingRequests := by decide +kernel
  exact ⟨hadmitted, by decide +kernel, (areas_wellFormed (Reach.start.foldl hadmitted)).1⟩

/-- A fixed mapping in the middle of another leaves both areas in place, and the lookup misses the
last page of the first. -/
theorem fixed_mapping_overlaps :
    ∃ requests : List AreaOp,
      requests = [.mmapAnonymous 0x50000000 0x3000 .rw ⟨false, true, true, false⟩,
        .mmapAnonymous 0x50001000 0x1000 .rw ⟨false, true, true, false⟩] ∧
      ¬ (requests.foldl AreaOp.step smallMm).space.WellFormed ∧
      (∃ vma, (requests.foldl AreaOp.step smallMm).space.vmas[0x50000000]? = some vma ∧
        vma.contains 0x50002000 = true) ∧
      (requests.foldl AreaOp.step smallMm).space.findVma 0x50002000 = none := by
  refine ⟨_, rfl, ?_, ?_, ?_⟩
  · intro hwf
    have hapart := hwf.disjoint 0x50000000 0x50001000
      (Mm.anonVma 0x50000000 0x3000 .rw ⟨false, true, true, false⟩)
      (Mm.anonVma 0x50001000 0x1000 .rw ⟨false, true, true, false⟩)
      (by decide +kernel) (by decide +kernel) (by decide)
    revert hapart
    unfold Apart
    decide +kernel
  · exact ⟨Mm.anonVma 0x50000000 0x3000 .rw ⟨false, true, true, false⟩, by decide +kernel,
      by decide +kernel⟩
  · decide +kernel

end KnoxOS.Vmm
