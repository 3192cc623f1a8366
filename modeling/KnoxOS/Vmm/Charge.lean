import KnoxOS.Sched.Cgroups
import KnoxOS.Vmm.Areas
import KnoxOS.Vmm.Kernel

/-!
# Charged memory

`mmap`, `mmap_file`, `munmap` and `brk` of `mm/vmm/space.rs` with the cgroup charges they make.
`Exact` says that the usage of a process's group is the length of its mapped areas and its heap;
`usage_exact` that it holds in every state of a run that asks for whole pages, unmaps mapped pages
only and keeps the break above the heap's start. `munmap_refunds_unmapped` unmaps nothing and is
refunded.
-/

namespace KnoxOS.Vmm

open Lib Sched List AddressSpace
open Std (TreeMap)

/-- The kernel with its cgroups. -/
structure ChargedKernel where
  kernel : Kernel
  cgroups : Cgroups

namespace ChargedKernel

/-- What `mmap` and `mmap_file` share: the size asked for is charged first and refunded when the
request fails. -/
def chargeRequest (k : ChargedKernel) (pid size prot : Nat) (request : Mm → Option Nat × Mm) :
    Int × ChargedKernel :=
  if checkWxViolation k.kernel.m.wxPolicy (.fromMmapProt prot) then (-13, k)
  else
    match k.cgroups.tryCharge pid size with
    | (.error _, cgroups) => (-12, { k with cgroups := cgroups })
    | (.ok (), cgroups) =>
      match k.kernel.onSpace pid none request with
      | (some vaddr, kernel) => (asI64 vaddr, ⟨kernel, cgroups⟩)
      | (none, kernel) => (-12, ⟨kernel, cgroups.uncharge pid size⟩)

def mmap (k : ChargedKernel) (pid addr size prot flags : Nat) : Int × ChargedKernel :=
  k.chargeRequest pid size prot
    (·.mmapAnonymous addr size (.fromMmapProt prot) (.fromLinux flags))

def mmapFile (k : ChargedKernel) (pid addr size prot flags : Nat) (path : String)
    (offset : Nat) : Int × ChargedKernel :=
  k.chargeRequest pid size prot
    (·.mmapFile addr size (.fromMmapProt prot) (.fromLinux flags) path offset)

/-- The size is refunded whatever was mapped in the range. -/
def munmap (k : ChargedKernel) (pid addr size : Nat) : Int × ChargedKernel :=
  match k.kernel.onSpace pid false (·.munmap addr size) with
  | (true, kernel) => (0, ⟨kernel, k.cgroups.uncharge pid size⟩)
  | (false, kernel) => (-22, { k with kernel := kernel })

/-- The refund of `brk`, from the old break, the break asked for and the result. -/
def refundBrk (cgroups : Cgroups) (pid old newBrk : Nat) (result : Int) : Cgroups :=
  let grows := newBrk ≠ 0 ∧ newBrk > old
  if result < 0 then if grows then cgroups.uncharge pid (newBrk - old) else cgroups
  else
    let now := result.toNat
    if grows ∧ now ≤ old then cgroups.uncharge pid (newBrk - old)
    else if now < old then cgroups.uncharge pid (old - now)
    else cgroups

def brk (k : ChargedKernel) (pid newBrk : Nat) : Int × ChargedKernel :=
  match k.kernel.spaces[pid]? with
  | none => (-12, k)
  | some s =>
    match if newBrk ≠ 0 ∧ newBrk > s.brk then k.cgroups.tryCharge pid (newBrk - s.brk)
      else (.ok (), k.cgroups) with
    | (.error _, cgroups) => (asI64 s.brk, { k with cgroups := cgroups })
    | (.ok (), cgroups) =>
      let (result, kernel) := k.kernel.onSpace pid (-12) fun mm =>
        let (r, mm) := mm.brk newBrk
        (asI64 r, mm)
      (result, ⟨kernel, refundBrk cgroups pid s.brk newBrk result⟩)

/-- The outcome of a charge. -/
def charged (k : ChargedKernel) (pid bytes : Nat) : Bool :=
  (k.cgroups.tryCharge pid bytes).1.toBool

end ChargedKernel

/-! ## Lengths -/

/-- The areas that `mmap` and `mmap_file` make. -/
def VirtualMemoryArea.isMmap (vma : VirtualMemoryArea) : Bool :=
  vma.mappingType = .anonymous ∨ vma.mappingType = .fileBacked ∨ vma.mappingType = .shared

/-- The bytes of an mmap area in `[addr, stop)`. -/
def VirtualMemoryArea.mmapBytesIn (addr stop : Nat) (vma : VirtualMemoryArea) : Nat :=
  if vma.isMmap then min vma.stop stop - max vma.start addr else 0

/-- The length of an mmap area. -/
def VirtualMemoryArea.mmapBytes (vma : VirtualMemoryArea) : Nat :=
  if vma.isMmap then vma.stop - vma.start else 0

namespace AddressSpace

/-- The total length of the mmap areas. -/
def mmapBytes (s : AddressSpace) : Nat := sumBy VirtualMemoryArea.mmapBytes s.vmas

/-- The length of the mmap areas within `[addr, stop)`. -/
def mmapBytesIn (s : AddressSpace) (addr stop : Nat) : Nat :=
  sumBy (VirtualMemoryArea.mmapBytesIn addr stop) s.vmas

variable {s : AddressSpace} {newBrk result : Nat} {start addr : Nat} {vma : VirtualMemoryArea}

theorem mmapBytes_insert (h : s.vmas[start]? = none) (vma : VirtualMemoryArea) :
    sumBy VirtualMemoryArea.mmapBytes (s.vmas.insert start vma) = s.mmapBytes + vma.mmapBytes := by
  have hsum := sumBy_insert VirtualMemoryArea.mmapBytes s.vmas start vma
  rw [h] at hsum
  exact hsum

theorem cutVma_brk (s : AddressSpace) (start : Nat) (vma : VirtualMemoryArea) (addr stop : Nat) :
    (s.cutVma start vma addr stop).brk = s.brk := by
  unfold cutVma
  simp only
  split <;> split <;> rfl

theorem updateVma_eq (h : s.vmas[addr]? = some vma) (hcontains : vma.contains addr = true)
    (f : VirtualMemoryArea → VirtualMemoryArea) :
    s.updateVma addr f = { s with vmas := s.vmas.insert addr (f vma) } := by
  unfold updateVma
  rw [lastLE_self h]
  simp only [hcontains, if_true]

/-- Cutting a range out of an area takes away the bytes of the area in the range. -/
theorem mmapBytes_cutVma (h : s.Tidy) {stop : Nat} (hvma : s.vmas[start]? = some vma)
    (hle : addr ≤ stop) (hover : vma.start < stop ∧ addr < vma.stop) :
    (s.cutVma start vma addr stop).mmapBytes + vma.mmapBytesIn addr stop = s.mmapBytes := by
  have hkey := h.areas.keyed _ _ hvma
  have herase := sumBy_erase VirtualMemoryArea.mmapBytes s.vmas start
  rw [hvma] at herase
  have hleft : (s.vmas.erase start)[vma.start]? = none := by
    rw [lookup_erase, if_pos hkey.symm]
  -- an area that starts inside the cut one would overlap it
  have hright : stop < vma.stop → (s.vmas.erase start)[stop]? = none := by
    intro hlt
    rw [lookup_erase, if_neg (by omega)]
    cases hother : s.vmas[stop]? with
    | none => rfl
    | some other =>
      have hkey' := h.areas.keyed _ _ hother
      have hne' := (h.areas.proper _ _ hother).nonempty
      have hapart := h.areas.disjoint _ _ _ _ hother hvma (by omega)
      unfold VirtualMemoryArea.Apart at hapart
      omega
  have hpieces : (s.cutVma start vma addr stop).mmapBytes =
      sumBy VirtualMemoryArea.mmapBytes (s.vmas.erase start) +
        (if vma.start < addr then { vma with stop := addr }.mmapBytes else 0) +
        (if vma.stop > stop then { vma with start := stop }.mmapBytes else 0) := by
    have hsumLeft := sumBy_insert VirtualMemoryArea.mmapBytes (s.vmas.erase start) vma.start
      { vma with stop := addr }
    rw [hleft] at hsumLeft
    have hsumRight := sumBy_insert VirtualMemoryArea.mmapBytes (s.vmas.erase start) stop
      { vma with start := stop }
    have hsumBoth := sumBy_insert VirtualMemoryArea.mmapBytes
      ((s.vmas.erase start).insert vma.start { vma with stop := addr }) stop
      { vma with start := stop }
    rw [lookup_insert, if_neg (by omega)] at hsumBoth
    simp only [Option.elim] at hsumLeft
    unfold cutVma addVma mmapBytes
    by_cases hlt : vma.start < addr <;> by_cases hgt : vma.stop > stop
    · rw [hright hgt] at hsumBoth
      simp only [Option.elim] at hsumBoth
      simp only [if_pos hlt, if_pos hgt]
      omega
    · simp only [if_pos hlt, if_neg hgt]
      omega
    · rw [hright hgt] at hsumRight
      simp only [Option.elim] at hsumRight
      simp only [if_neg hlt, if_pos hgt]
      omega
    · simp only [if_neg hlt, if_neg hgt]
      omega
  have hpieceLeft : { vma with stop := addr }.mmapBytes =
      if vma.isMmap then addr - vma.start else 0 := rfl
  have hpieceRight : { vma with start := stop }.mmapBytes =
      if vma.isMmap then vma.stop - stop else 0 := rfl
  rw [hpieces, mmapBytes, ← herase, hpieceLeft, hpieceRight, VirtualMemoryArea.mmapBytesIn]
  simp only [Option.elim, VirtualMemoryArea.mmapBytes]
  by_cases hmmap : vma.isMmap
  · split_ifs <;> omega
  · simp [hmmap]

/-- The areas that miss a range have no bytes in it. -/
theorem sum_filter_overlaps (addr stop : Nat) (entries : List (Nat × VirtualMemoryArea)) :
    ((entries.filter fun e => e.2.overlaps addr stop).map
        fun e => e.2.mmapBytesIn addr stop).sum =
      (entries.map fun e => e.2.mmapBytesIn addr stop).sum := by
  induction entries with
  | nil => rfl
  | cons e entries ih =>
    by_cases hover : e.2.overlaps addr stop = true
    · rw [filter_cons, if_pos hover, map_cons, map_cons, sum_cons,
        sum_cons, ih]
    · have hzero : e.2.mmapBytesIn addr stop = 0 := by
        rw [VirtualMemoryArea.overlaps_iff] at hover
        unfold VirtualMemoryArea.mmapBytesIn
        split_ifs
        · omega
        · rfl
      rw [filter_cons, if_neg hover, map_cons, sum_cons, hzero, Nat.zero_add, ih]

end AddressSpace

/-! ## What the requests do to the lengths -/

namespace Mm

variable {mm : Mm} {addr size : Nat} {flags : MmapFlags}

/-- The loop of `munmap` takes from every area the bytes it has in the range, and leaves the break
alone. -/
theorem mmapBytes_munmapVmas {stop : Nat} (hle : addr ≤ stop) (haddr : addr % pageSize = 0)
    (hstop : stop % pageSize = 0) {starts : List Nat} (hcut : ToCut mm.space addr stop starts)
    (h : mm.space.Tidy) :
    (starts.foldl (munmapVma addr stop) mm).space.mmapBytes +
        (starts.map fun p =>
          (mm.space.vmas[p]?).elim 0 (VirtualMemoryArea.mmapBytesIn addr stop)).sum =
      mm.space.mmapBytes ∧ (starts.foldl (munmapVma addr stop) mm).space.brk = mm.space.brk := by
  induction starts generalizing mm with
  | nil => exact ⟨rfl, rfl⟩
  | cons start starts ih =>
    rw [foldl_cons, map_cons, sum_cons]
    have hrest := ih (hcut.next h.areas.keyed)
    rw [map_congr_left fun p hp => by rw [hcut.later h.areas.keyed hp]] at hrest
    cases hvma : mm.space.vmas[start]? with
    | none =>
      rw [munmapVma_of_none hvma] at hrest ⊢
      rw [Option.elim, Nat.zero_add]
      exact hrest h
    | some vma =>
      have hmeets := hcut.meets start mem_cons_self vma hvma
      have hbytes := mmapBytes_cutVma h hvma hle hmeets
      rw [munmapVma_space addr stop hvma] at hrest
      obtain ⟨hsum, hbrk⟩ := hrest (tidy_cutVma h hvma hle haddr hstop hmeets)
      refine ⟨?_, hbrk.trans (cutVma_brk ..)⟩
      rw [Option.elim]
      omega

/-- What `mmap_file` makes of the area that `mmap_anonymous` recorded. -/
def fileArea (path : String) (offset : Nat) (vma : VirtualMemoryArea) : VirtualMemoryArea :=
  { vma with
    mappingType := .fileBacked
    filePath := some path
    fileOffset := offset
    flags := { vma.flags with anonymous := false } }

/-- Mapping a file is an anonymous mapping whose area changes its kind. -/
theorem mmapFile_space (mm : Mm) (addr size : Nat) (prot : ProtFlags) (flags : MmapFlags)
    (path : String) (offset : Nat) :
    let r := mm.mmapAnonymous addr size prot flags
    (mm.mmapFile addr size prot flags path offset).1 = r.1 ∧
      (mm.mmapFile addr size prot flags path offset).2.space =
        r.1.elim r.2.space fun vaddr => r.2.space.updateVma vaddr (fileArea path offset) := by
  unfold mmapFile
  split
  · next heq => rw [heq]; exact ⟨rfl, rfl⟩
  · next heq =>
      rw [heq]
      simp only
      split <;> exact ⟨rfl, rfl⟩

/-- Moving the break leaves the areas alone. The new break is the one asked for, rounded up, or the
old one when that lies beyond the heap or when memory runs out. -/
theorem brk_cases {mm' : Mm} (hrun : mm.brk newBrk = (result, mm')) :
    mm'.space.vmas = mm.space.vmas ∧ mm'.space.mmapNext = mm.space.mmapNext ∧
      mm'.space.brk = result ∧
      (result = mm.space.brk ∨
        newBrk ≠ 0 ∧ result = pageAlignUp newBrk ∧ pageAlignUp newBrk ≤ heapMax) := by
  unfold brk at hrun
  by_cases hne : newBrk = 0
  · rw [if_pos hne] at hrun
    cases hrun
    exact ⟨rfl, rfl, rfl, .inl rfl⟩
  extract_lets rounded oldEnd newEnd shrunk at hrun
  split_ifs at hrun with hmax hgrow hshrink
  · obtain ⟨rfl, rfl⟩ := Prod.mk.inj hrun
    exact ⟨rfl, rfl, rfl, .inl rfl⟩
  · split at hrun
    · next heq =>
        have hsame := sameSpace_of_mapZeroedPages (fun _ _ _ => .refl _) heq
        obtain ⟨rfl, rfl⟩ := Prod.mk.inj hrun
        rw [hsame]
        exact ⟨rfl, rfl, rfl, .inl rfl⟩
    · next mm₁ heq =>
        have hsame := sameSpace_of_mapZeroedPages (fun _ _ _ => .refl _) heq
        obtain ⟨rfl, rfl⟩ := Prod.mk.inj hrun
        rw [hsame]
        exact ⟨rfl, rfl, rfl, .inr ⟨hne, rfl, Nat.le_of_not_lt hmax⟩⟩
  · obtain ⟨rfl, rfl⟩ := Prod.mk.inj hrun
    have hsame : shrunk.space = mm.space := unmapPages_space ..
    have hvmas : shrunk.space.vmas = mm.space.vmas := by rw [hsame]
    have hnext : shrunk.space.mmapNext = mm.space.mmapNext := by rw [hsame]
    exact ⟨hvmas, hnext, rfl, .inr ⟨hne, rfl, Nat.le_of_not_lt hmax⟩⟩
  · obtain ⟨rfl, rfl⟩ := Prod.mk.inj hrun
    exact ⟨rfl, rfl, rfl, .inr ⟨hne, rfl, Nat.le_of_not_lt hmax⟩⟩

variable (h : mm.space.Tidy)
include h

/-- Unmapping takes away the mmap bytes of the range. -/
theorem mmapBytes_munmap (hfits : pageAlignDown addr + pageAlignUp size < 2 ^ 64) :
    (mm.munmap addr size).2.space.mmapBytes +
        mm.space.mmapBytesIn (pageAlignDown addr) (pageAlignDown addr + pageAlignUp size) =
      mm.space.mmapBytes ∧ (mm.munmap addr size).2.space.brk = mm.space.brk := by
  have hloop := mmapBytes_munmapVmas (Nat.le_add_right _ _) (pageAlignDown_mod addr)
    (aligned_add (pageAlignDown_mod addr) (pageAlignUp_mod size))
    (toCut_overlapping h.areas.keyed _ _) h
  have hvalue : ∀ e ∈ mm.space.vmas.toList.filter fun e =>
        e.2.overlaps (pageAlignDown addr) (pageAlignDown addr + pageAlignUp size),
      (mm.space.vmas[e.1]?).elim 0 (VirtualMemoryArea.mmapBytesIn (pageAlignDown addr)
        (pageAlignDown addr + pageAlignUp size)) =
      e.2.mmapBytesIn (pageAlignDown addr) (pageAlignDown addr + pageAlignUp size) := by
    intro e he
    rw [mem_toList_iff.mp (mem_filter.mp he).1, Option.elim]
  rw [map_map, Function.comp_def, map_congr_left hvalue, sum_filter_overlaps] at hloop
  unfold munmap
  simp only [u64_of_lt hfits]
  exact hloop

/-- What a mapping request must meet to be charged for what it maps: it fits, asks for whole pages,
and a fixed one replaces no area. -/
def Whole (s : AddressSpace) (addr size : Nat) (flags : MmapFlags) : Prop :=
  s.FitsMmap addr size flags ∧ size % pageSize = 0 ∧
    (flags.fixed = true ∧ addr ≠ 0 → (s.vmas[pageAlignDown addr]?).isNone = true)

instance (s : AddressSpace) (addr size : Nat) (flags : MmapFlags) :
    Decidable (Whole s addr size flags) :=
  inferInstanceAs (Decidable (_ ∧ _ ∧ _))

/-- A request keeps the areas tidy and the break in place, and maps `size` bytes or none. -/
structure Maps (s : AddressSpace) (size : Nat) (r : Option Nat × Mm) : Prop where
  tidy : r.2.space.Tidy
  brk : r.2.space.brk = s.brk
  none : r.1 = none → r.2.space.mmapBytes = s.mmapBytes
  some : ∀ vaddr, r.1 = some vaddr → r.2.space.mmapBytes = s.mmapBytes + size

variable (hwhole : Whole mm.space addr size flags) (hlt : size < 2 ^ 64)
include hwhole hlt

omit hlt in
/-- A request for whole pages at a place where no area starts adds an area of their length. -/
theorem mmapAnonymous_cases (hlt64 : size < 2 ^ 64) (prot : ProtFlags) :
    let r := mm.mmapAnonymous addr size prot flags
    r.2.space.brk = mm.space.brk ∧
      ((r.1 = none ∧ r.2.space.vmas = mm.space.vmas) ∨
        ∃ vaddr vma, r.1 = some vaddr ∧ mm.space.vmas[vaddr]? = none ∧
          r.2.space.vmas = mm.space.vmas.insert vaddr vma ∧ vma.mmapBytes = size ∧
          vma.start = vaddr ∧ vma.stop = vaddr + size) := by
  obtain ⟨hfits, haligned, hfresh⟩ := hwhole
  obtain ⟨-, -, hplaced⟩ := placeMmap_spec h.next hfits
  obtain ⟨next, hnext⟩ := placeMmap_space mm.space addr (pageAlignUp size) flags
  have habsent : ∀ vaddr, (mm.space.placeMmap addr (pageAlignUp size) flags).1 = .some vaddr →
      mm.space.vmas[vaddr]? = .none := by
    intro vaddr hplace
    by_cases hfix : flags.fixed = true ∧ addr ≠ 0
    · have hat : vaddr = pageAlignDown addr := by
        unfold placeMmap at hplace
        rw [if_pos (by simpa using hfix)] at hplace
        exact (Option.some.inj hplace).symm
      rw [hat]
      exact Option.isNone_iff_eq_none.mp (hfresh hfix)
    · obtain ⟨hroom, -, hfree⟩ := placeMmap_free h.next hfits hfix hplace
      cases hold : mm.space.vmas[vaddr]? with
      | none => rfl
      | some a =>
        have hkey := h.areas.keyed _ _ hold
        have hne := (h.areas.proper _ _ hold).nonempty
        have hmiss := (isRegionFree_iff hroom).mp hfree _ _ hold
        have hpos := hfits.1
        omega
  have hsize : pageAlignUp size = size := pageAlignUp_of_aligned haligned hlt64
  unfold mmapAnonymous
  simp only
  split
  · exact ⟨rfl, .inl ⟨rfl, rfl⟩⟩
  · split
    · next space hplace =>
        rw [hplace] at hnext
        subst hnext
        exact ⟨rfl, .inl ⟨rfl, rfl⟩⟩
    · next vaddr space hplace =>
        rw [hplace] at hnext hplaced habsent
        obtain ⟨hlt, -, -⟩ := hplaced vaddr rfl
        subst hnext
        split
        · next mm' hpop =>
            have hsame := sameSpace_ite_populate hpop
            rw [hsame]
            exact ⟨rfl, .inl ⟨rfl, rfl⟩⟩
        · next mm' hpop =>
            have hsame := sameSpace_ite_populate hpop
            have hstop : (anonVma vaddr (pageAlignUp size) prot flags).stop =
                vaddr + pageAlignUp size := u64_of_lt hlt
            refine ⟨?_, .inr ⟨vaddr, anonVma vaddr (pageAlignUp size) prot flags, rfl,
              habsent vaddr rfl, ?_, ?_, rfl, by omega⟩⟩
            · simp only [addVma]
              rw [hsame]
            · rw [hsame]
              rfl
            · have hmmap : (anonVma vaddr (pageAlignUp size) prot flags).isMmap = true := by
                simp only [VirtualMemoryArea.isMmap, anonVma]
                split_ifs <;> rfl
              rw [VirtualMemoryArea.mmapBytes, if_pos hmmap, hstop]
              show vaddr + pageAlignUp size - vaddr = size
              omega

/-- An anonymous mapping maps its size or nothing. -/
theorem maps_mmapAnonymous (prot : ProtFlags) :
    Maps mm.space size (mm.mmapAnonymous addr size prot flags) := by
  obtain ⟨hbrk, hcases⟩ := mmapAnonymous_cases h hwhole hlt prot
  refine ⟨tidy_mmapAnonymous h hwhole.1 prot, hbrk, fun hnone => ?_, fun vaddr hsome => ?_⟩
  · rcases hcases with ⟨-, hvmas⟩ | ⟨vaddr, vma, hsome, -⟩
    · rw [mmapBytes, hvmas, mmapBytes]
    · rw [hnone] at hsome
      cases hsome
  · rcases hcases with ⟨hnone, -⟩ | ⟨vaddr, vma, -, habsent, hvmas, hbytes, -⟩
    · rw [hnone] at hsome
      cases hsome
    · rw [mmapBytes, hvmas, mmapBytes_insert habsent, hbytes]

/-- Mapping a file turns the new area into a file-backed one of the same length. -/
theorem maps_mmapFile (prot : ProtFlags) (path : String) (offset : Nat) :
    Maps mm.space size (mm.mmapFile addr size prot flags path offset) := by
  obtain ⟨hbrk, hcases⟩ := mmapAnonymous_cases h hwhole hlt prot
  have hanon := maps_mmapAnonymous h hwhole hlt prot
  obtain ⟨hresult, hspace⟩ := mmapFile_space mm addr size prot flags path offset
  have hpos : 0 < size := by
    have hup := hwhole.1.1
    rwa [pageAlignUp_of_aligned hwhole.2.1 hlt] at hup
  obtain ⟨hnone, -⟩ | ⟨vaddr, vma, hsome, -, hvmas, hbytes, hstart, hstop⟩ := hcases
  · rw [hnone] at hresult hspace
    refine ⟨tidy_mmapFile h hwhole.1 prot path offset, hspace ▸ hbrk,
      fun _ => hspace ▸ hanon.none hnone, fun vaddr hsome => ?_⟩
    rw [hresult] at hsome
    cases hsome
  · set r := mm.mmapAnonymous addr size prot flags
    rw [hsome] at hresult hspace
    have hlook : r.2.space.vmas[vaddr]? = some vma := by
      rw [hvmas, lookup_insert, if_pos rfl]
    rw [Option.elim, updateVma_eq hlook
      (VirtualMemoryArea.contains_iff.mpr (by omega))] at hspace
    refine ⟨tidy_mmapFile h hwhole.1 prot path offset, hspace ▸ hbrk,
      fun hnone => ?_, fun v hv => ?_⟩
    · rw [hresult] at hnone
      cases hnone
    have hsum := sumBy_insert VirtualMemoryArea.mmapBytes r.2.space.vmas vaddr
      (fileArea path offset vma)
    rw [hlook, Option.elim] at hsum
    have hlength : (fileArea path offset vma).mmapBytes = size := by
      show vma.stop - vma.start = size
      omega
    have hold : sumBy VirtualMemoryArea.mmapBytes r.2.space.vmas = mm.space.mmapBytes + size :=
      hanon.some vaddr hsome
    rw [hspace]
    show sumBy VirtualMemoryArea.mmapBytes (r.2.space.vmas.insert vaddr _) = _
    omega

end Mm

/-! ## Runs -/

namespace ChargedKernel

/-- The usage of the group that the process is charged to. -/
def usage (k : ChargedKernel) (pid : Nat) : Nat :=
  (k.cgroups.find pid).elim 0 fun e => e.2.memory.usageBytes

/-- The usage of the process's group is the length of its mmap areas and of its heap, which starts
at `base`; a limit bounds both. -/
def Exact (k : ChargedKernel) (pid base : Nat) (path : String) : Prop :=
  ∃ s cg, k.kernel.spaces[pid]? = some s ∧ k.cgroups.Attached pid path cg ∧
    (cg.memory.usageBytes : Int) = s.mmapBytes + ((s.brk : Int) - base) ∧
    (0 ≤ cg.memory.limitBytes → s.mmapBytes + ((s.brk : Int) - base) ≤ cg.memory.limitBytes)

/-- `Exact` with what keeps it: tidy areas and a break on a page boundary of the heap. -/
structure Balanced (k : ChargedKernel) (pid base : Nat) (path : String) (s : AddressSpace)
    (cg : CGroup) : Prop where
  space : k.kernel.spaces[pid]? = some s
  attached : k.cgroups.Attached pid path cg
  tidy : s.Tidy
  base_le : base ≤ s.brk
  brk_le : s.brk ≤ heapMax
  brk_aligned : s.brk % pageSize = 0
  usage_eq : cg.memory.usageBytes = s.mmapBytes + (s.brk - base)
  within : 0 ≤ cg.memory.limitBytes → (cg.memory.usageBytes : Int) ≤ cg.memory.limitBytes

variable {k : ChargedKernel} {pid base : Nat} {path : String} {s : AddressSpace} {cg : CGroup}

theorem onSpace_eq {α : Type} {kernel : Kernel} (hs : kernel.spaces[pid]? = some s) (absent : α)
    (f : Mm → α × Mm) :
    (kernel.onSpace pid absent f).1 = (f ⟨s, kernel.m⟩).1 ∧
      (kernel.onSpace pid absent f).2.spaces[pid]? = some (f ⟨s, kernel.m⟩).2.space := by
  unfold Kernel.onSpace
  rw [hs]
  exact ⟨rfl, by simp only [lookup_insert, if_true]⟩

theorem asI64_of_le_heapMax {n : Nat} (h : n ≤ heapMax) : asI64 n = n := by
  have hlt : n < 2 ^ 63 := Nat.lt_of_le_of_lt h (by unfold heapMax; omega)
  rw [asI64, if_pos hlt]

/-- The refund of a move of the break that ends at `now`: all of the charge when the break did not
grow as asked, what the heap shrank by otherwise. -/
theorem refundBrk_eq (cgroups : Cgroups) (pid newBrk : Nat) {old now : Nat} (hnow : now ≤ heapMax) :
    refundBrk cgroups pid old newBrk (asI64 now) =
      if (newBrk ≠ 0 ∧ newBrk > old) ∧ now ≤ old then cgroups.uncharge pid (newBrk - old)
      else if now < old then cgroups.uncharge pid (old - now) else cgroups := by
  rw [asI64_of_le_heapMax hnow, refundBrk]
  simp only [if_neg (Int.not_lt.mpr (Int.natCast_nonneg now)), Int.toNat_natCast]

variable (h : k.Balanced pid base path s cg)
include h

theorem Balanced.exact : k.Exact pid base path := by
  have husage := h.usage_eq
  have hbase := h.base_le
  refine ⟨s, cg, h.space, h.attached, by omega, fun hlimit => ?_⟩
  have hwithin := h.within hlimit
  omega

theorem Balanced.usage : k.usage pid = cg.memory.usageBytes := by
  unfold ChargedKernel.usage
  rw [h.attached.find_eq, Option.elim]

/-- A charged request that maps its size or nothing keeps the balance. -/
theorem Balanced.chargeRequest {size prot : Nat}
    {request : Mm → Option Nat × Mm} (hfits : cg.memory.usageBytes + size < 2 ^ 64)
    (hmaps : k.charged pid size = true → Mm.Maps s size (request ⟨s, k.kernel.m⟩)) :
    ∃ s' cg', (k.chargeRequest pid size prot request).2.Balanced pid base path s' cg' := by
  obtain ⟨cg', hattached, hlimit, hcases⟩ := h.attached.tryCharge hfits
  have hwithin := h.within
  unfold ChargedKernel.chargeRequest
  split
  · exact ⟨s, cg, h⟩
  · cases hcharge : k.cgroups.tryCharge pid size with
    | mk outcome cgroups =>
      rw [hcharge] at hattached hcases
      cases outcome with
      | error e =>
        obtain ⟨hok, -⟩ | ⟨-, husage⟩ := hcases
        · cases hok
        · exact ⟨s, cg', h.space, hattached, h.tidy, h.base_le, h.brk_le, h.brk_aligned,
            husage.trans h.usage_eq, by rw [hlimit, husage]; exact hwithin⟩
      | ok u =>
        have hcharged : k.charged pid size = true := by
          unfold charged
          rw [hcharge]
          rfl
        obtain ⟨htidy, hbrk, hnone, hsome⟩ := hmaps hcharged
        obtain ⟨hresult, hspace⟩ := onSpace_eq h.space (none : Option Nat) request
        obtain ⟨-, husage, hbound⟩ | ⟨herror, -⟩ := hcases
        · cases hreq : k.kernel.onSpace pid none request with
          | mk r kernel =>
            rw [hreq] at hresult hspace
            have husage' := h.usage_eq
            cases r with
            | none =>
              have hbytes := hnone hresult.symm
              refine ⟨_, _, hspace, hattached.uncharge size, htidy, hbrk ▸ h.base_le,
                hbrk ▸ h.brk_le, hbrk ▸ h.brk_aligned, ?_, ?_⟩
              · show cg'.memory.usageBytes - size = _
                omega
              · show 0 ≤ cg'.memory.limitBytes → ((cg'.memory.usageBytes - size : Nat) : Int) ≤
                  cg'.memory.limitBytes
                intro hpos
                omega
            | some vaddr =>
              have hbytes := hsome vaddr hresult.symm
              refine ⟨_, cg', hspace, hattached, htidy, hbrk ▸ h.base_le,
                hbrk ▸ h.brk_le, hbrk ▸ h.brk_aligned, by omega, fun hpos => ?_⟩
              rw [hlimit] at hpos ⊢
              exact hbound hpos
        · cases herror

/-- Unmapping mapped bytes only keeps the balance. -/
theorem Balanced.munmap {addr size : Nat} (hfits : pageAlignDown addr + pageAlignUp size < 2 ^ 64)
    (hmapped : s.mmapBytesIn (pageAlignDown addr) (pageAlignDown addr + pageAlignUp size) = size) :
    ∃ s' cg', (k.munmap pid addr size).2.Balanced pid base path s' cg' := by
  have htidy : (Mm.munmap ⟨s, k.kernel.m⟩ addr size).2.space.Tidy := Mm.tidy_munmap h.tidy hfits
  obtain ⟨hbytes, hbrk⟩ :=
    @Mm.mmapBytes_munmap ⟨s, k.kernel.m⟩ addr size h.tidy hfits
  obtain ⟨hresult, hspace⟩ := onSpace_eq h.space false (·.munmap addr size)
  unfold ChargedKernel.munmap
  cases hreq : k.kernel.onSpace pid false (·.munmap addr size) with
  | mk ok kernel =>
    rw [hreq] at hresult hspace
    -- the call itself never fails
    have hok : ok = true := hresult
    subst hok
    have husage := h.usage_eq
    refine ⟨_, _, hspace, h.attached.uncharge size, htidy, hbrk ▸ h.base_le, hbrk ▸ h.brk_le,
      hbrk ▸ h.brk_aligned, ?_, fun hlimit => ?_⟩
    · show cg.memory.usageBytes - size = _
      simp only at hbytes hbrk
      omega
    · have hwithin := h.within hlimit
      show ((cg.memory.usageBytes - size : Nat) : Int) ≤ cg.memory.limitBytes
      omega

/-- What a move of the break must meet: it asks for a page boundary when it grows, and stays above
the heap's start when it shrinks. -/
def FairBrk (s : AddressSpace) (base newBrk : Nat) : Prop :=
  newBrk ≠ 0 → newBrk < 2 ^ 64 ∧
    (heapMax < pageAlignUp newBrk ∨
      if s.brk < newBrk then newBrk % pageSize = 0 else base ≤ pageAlignUp newBrk)

instance (s : AddressSpace) (base newBrk : Nat) : Decidable (FairBrk s base newBrk) :=
  inferInstanceAs (Decidable (_ → _))

theorem Balanced.brk_place {mm' : Mm} (hrun : Mm.brk ⟨s, k.kernel.m⟩ newBrk = (result, mm')) :
    result ≤ heapMax ∧ result % pageSize = 0 := by
  obtain ⟨-, -, -, hsame | ⟨-, hmove, hmax⟩⟩ := Mm.brk_cases hrun
  · rw [hsame]
    exact ⟨h.brk_le, h.brk_aligned⟩
  · rw [hmove]
    exact ⟨hmax, pageAlignUp_mod newBrk⟩

/-- The state after a move of the break to `result`, once the charge and the refund left the group
at `cg'`. -/
theorem Balanced.settleBrk {mm' : Mm} (hrun : Mm.brk ⟨s, k.kernel.m⟩ newBrk = (result, mm'))
    {cgroups refunded : Cgroups}
    (hrefund : refundBrk cgroups pid s.brk newBrk (asI64 result) = refunded) {cg' : CGroup}
    (hattached : refunded.Attached pid path cg') (hlow : base ≤ result)
    (husage : cg'.memory.usageBytes = s.mmapBytes + (result - base))
    (hwithin : 0 ≤ cg'.memory.limitBytes → (cg'.memory.usageBytes : Int) ≤ cg'.memory.limitBytes) :
    let moved := k.kernel.onSpace pid (-12) fun mm => (asI64 (mm.brk newBrk).1, (mm.brk newBrk).2)
    ∃ s' cg'', ChargedKernel.Balanced
      ⟨moved.2, refundBrk cgroups pid s.brk newBrk moved.1⟩ pid base path s' cg'' := by
  subst hrefund
  obtain ⟨hvmas, hnext, hmoved, -⟩ := Mm.brk_cases hrun
  have hbytes : mm'.space.mmapBytes = s.mmapBytes := by
    unfold mmapBytes
    rw [hvmas]
  obtain ⟨hmax, haligned⟩ := h.brk_place hrun
  obtain ⟨hfirst, hspace⟩ := onSpace_eq h.space (-12 : Int)
    fun mm => (asI64 (mm.brk newBrk).1, (mm.brk newBrk).2)
  rw [hrun] at hfirst hspace
  exact ⟨mm'.space, cg', hspace, hfirst ▸ hattached, h.tidy.of_eq hvmas hnext, hmoved ▸ hlow,
    hmoved ▸ hmax, hmoved ▸ haligned, by rw [hbytes, hmoved]; exact husage, hwithin⟩

/-- A fair `brk` keeps the books balanced. -/
theorem Balanced.brk {newBrk : Nat} (hfits : cg.memory.usageBytes + (newBrk - s.brk) < 2 ^ 64)
    (hfair : FairBrk s base newBrk) :
    ∃ s' cg', (k.brk pid newBrk).2.Balanced pid base path s' cg' := by
  have husage := h.usage_eq
  have hbase := h.base_le
  have hbrk := h.brk_le
  cases hrun : Mm.brk ⟨s, k.kernel.m⟩ newBrk with
  | mk result mm' =>
  obtain ⟨-, -, -, hresult⟩ := Mm.brk_cases hrun
  have hle := (h.brk_place hrun).1
  unfold ChargedKernel.brk
  rw [h.space]
  by_cases hgrows : newBrk ≠ 0 ∧ newBrk > s.brk
  · obtain ⟨cg', hattached, hlimit, hcases⟩ := h.attached.tryCharge hfits
    simp only [if_pos hgrows]
    cases hcharge : k.cgroups.tryCharge pid (newBrk - s.brk) with
    | mk outcome cgroups =>
    rw [hcharge] at hattached hcases
    cases outcome with
    | error e =>
      obtain ⟨hok, -⟩ | ⟨-, hsame⟩ := hcases
      · cases hok
      · exact ⟨s, cg', h.space, hattached, h.tidy, hbase, hbrk, h.brk_aligned,
          hsame.trans husage, by rw [hlimit, hsame]; exact h.within⟩
    | ok u =>
      obtain ⟨-, hcharged, hbound⟩ | ⟨herror, -⟩ := hcases
      · have hrefund := @refundBrk_eq cgroups pid newBrk s.brk _ hle
        rcases hresult with hsame | ⟨hne, hmove, hmax⟩
        · -- the break stays, and the whole charge is given back
          rw [if_pos ⟨hgrows, Nat.le_of_eq hsame⟩] at hrefund
          refine h.settleBrk hrun hrefund (hattached.uncharge _) (hsame ▸ hbase) ?_
            fun hpos => ?_
          · show cg'.memory.usageBytes - (newBrk - s.brk) = _
            simp only at hsame
            omega
          · have hwithin := h.within (hlimit ▸ hpos)
            show ((cg'.memory.usageBytes - (newBrk - s.brk) : Nat) : Int) ≤
              cg'.memory.limitBytes
            omega
        · -- the break is the one asked for, and so is the charge
          obtain ⟨hlt, hbeyond | hexact⟩ := hfair hne
          · omega
          · rw [if_pos hgrows.2] at hexact
            rw [pageAlignUp_of_aligned hexact hlt] at hmove
            rw [if_neg (by omega), if_neg (by omega)] at hrefund
            exact h.settleBrk hrun hrefund hattached (by omega) (by omega) fun hpos =>
              hlimit ▸ hbound (hlimit ▸ hpos)
      · cases herror
  · simp only [if_neg hgrows]
    have hrefund := @refundBrk_eq k.cgroups pid newBrk s.brk _ hle
    rw [if_neg fun hboth => hgrows hboth.1] at hrefund
    rcases hresult with hsame | ⟨hne, hmove, hmax⟩
    · simp only at hsame
      rw [if_neg (by omega)] at hrefund
      exact h.settleBrk hrun hrefund h.attached (by omega) (by omega) h.within
    · obtain ⟨-, hbeyond | hlow⟩ := hfair hne
      · omega
      · have hbelow : newBrk ≤ s.brk := by omega
        rw [if_neg (by omega)] at hlow
        have hshrunk : pageAlignUp newBrk ≤ s.brk := pageAlignUp_le hbelow h.brk_aligned
        split_ifs at hrefund with hless
        · refine h.settleBrk hrun hrefund (h.attached.uncharge _) (by omega) ?_ fun hpos => ?_
          · show cg.memory.usageBytes - (s.brk - result) = _
            omega
          · have hwithin := h.within hpos
            show ((cg.memory.usageBytes - (s.brk - result) : Nat) : Int) ≤ cg.memory.limitBytes
            omega
        · exact h.settleBrk hrun hrefund h.attached (by omega) (by omega) h.within

end ChargedKernel

/-- The calls that charge and refund memory. -/
inductive ChargedOp where
  | mmap (addr size prot flags : Nat)
  | mmapFile (addr size prot flags : Nat) (path : String) (offset : Nat)
  | munmap (addr size : Nat)
  | brk (newBrk : Nat)

namespace ChargedOp

open ChargedKernel

/-- A call of the process. -/
def step (pid : Nat) (k : ChargedKernel) : ChargedOp → ChargedKernel
  | mmap addr size prot flags => (k.mmap pid addr size prot flags).2
  | mmapFile addr size prot flags path offset =>
    (k.mmapFile pid addr size prot flags path offset).2
  | munmap addr size => (k.munmap pid addr size).2
  | brk newBrk => (k.brk pid newBrk).2

/-- A mapping request that the policy refuses, or whose charge stays in range and that, unless the
charge is refused, asks for whole pages. -/
def FairMmap (pid : Nat) (k : ChargedKernel) (addr size prot flags : Nat) : Prop :=
  checkWxViolation k.kernel.m.wxPolicy (.fromMmapProt prot) = true ∨
    k.usage pid + size < 2 ^ 64 ∧
      (k.charged pid size = true →
        ∀ s ∈ k.kernel.spaces[pid]?, Mm.Whole s addr size (.fromLinux flags))

instance (pid : Nat) (k : ChargedKernel) (addr size prot flags : Nat) :
    Decidable (FairMmap pid k addr size prot flags) :=
  inferInstanceAs (Decidable (_ ∨ _))

/-- The calls that are charged for what they do: mappings of whole pages, unmappings of mapped
bytes, and moves of the break by whole pages above the heap's start. -/
def Fair (pid base : Nat) (k : ChargedKernel) : ChargedOp → Prop
  | mmap addr size prot flags => FairMmap pid k addr size prot flags
  | mmapFile addr size prot flags _ _ => FairMmap pid k addr size prot flags
  | munmap addr size => ∀ s ∈ k.kernel.spaces[pid]?,
      pageAlignDown addr + pageAlignUp size < 2 ^ 64 ∧
        s.mmapBytesIn (pageAlignDown addr) (pageAlignDown addr + pageAlignUp size) = size
  | brk newBrk => ∀ s ∈ k.kernel.spaces[pid]?,
      k.usage pid + (newBrk - s.brk) < 2 ^ 64 ∧ FairBrk s base newBrk

instance (pid base : Nat) (k : ChargedKernel) : (op : ChargedOp) → Decidable (Fair pid base k op)
  | mmap addr size prot flags | mmapFile addr size prot flags _ _ =>
    inferInstanceAs (Decidable (FairMmap pid k addr size prot flags))
  | munmap _ _ => inferInstanceAs (Decidable (∀ s ∈ k.kernel.spaces[pid]?, _ ∧ _ = _))
  | brk newBrk => inferInstanceAs
      (Decidable (∀ s ∈ k.kernel.spaces[pid]?, _ ∧ FairBrk s base newBrk))

variable {k : ChargedKernel} {pid base : Nat} {path : String} {s : AddressSpace} {cg : CGroup}

/-- A fair mapping request keeps the balance when its method maps whole requests. -/
theorem balanced_fairMmap (h : k.Balanced pid base path s cg) {addr size prot flags : Nat}
    (hfair : FairMmap pid k addr size prot flags) {request : Mm → Option Nat × Mm}
    (hmaps : Mm.Whole s addr size (.fromLinux flags) → size < 2 ^ 64 →
      Mm.Maps s size (request ⟨s, k.kernel.m⟩)) :
    ∃ s' cg', (k.chargeRequest pid size prot request).2.Balanced pid base path s' cg' := by
  rcases hfair with hrefused | ⟨hfits, hwhole⟩
  · unfold chargeRequest
    rw [if_pos hrefused]
    exact ⟨s, cg, h⟩
  · have hlt : size < 2 ^ 64 := Nat.lt_of_le_of_lt (Nat.le_add_left ..) hfits
    exact h.chargeRequest (h.usage ▸ hfits) fun hcharged => hmaps (hwhole hcharged s h.space) hlt

/-- A fair call keeps the books balanced. -/
theorem balanced_step (h : k.Balanced pid base path s cg) {op : ChargedOp}
    (hfair : Fair pid base k op) : ∃ s' cg', (step pid k op).Balanced pid base path s' cg' := by
  cases op with
  | mmap addr size prot flags =>
    exact balanced_fairMmap h hfair fun hwhole hlt =>
      @Mm.maps_mmapAnonymous ⟨s, k.kernel.m⟩ _ _ _ h.tidy hwhole hlt _
  | mmapFile addr size prot flags file offset =>
    exact balanced_fairMmap h hfair fun hwhole hlt =>
      @Mm.maps_mmapFile ⟨s, k.kernel.m⟩ _ _ _ h.tidy hwhole hlt _ _ _
  | munmap addr size =>
    obtain ⟨hfits, hmapped⟩ := hfair s h.space
    exact h.munmap hfits hmapped
  | brk newBrk =>
    obtain ⟨hfits, hbreak⟩ := hfair s h.space
    exact h.brk (h.usage ▸ hfits) hbreak

end ChargedOp

/-- A new address space in a group without usage is balanced. -/
theorem ChargedKernel.balanced_new {k : ChargedKernel} {pid heapSeed mmapSeed cr3 : Nat}
    {m : Machine} {path : String} {cg : CGroup}
    (hspace : k.kernel.spaces[pid]? = some (ofL4 pid heapSeed mmapSeed cr3 m).1)
    (hattached : k.cgroups.Attached pid path cg) (hzero : cg.memory.usageBytes = 0) :
    k.Balanced pid (aslrHeapStart heapSeed) path (ofL4 pid heapSeed mmapSeed cr3 m).1
      cg where
  space := hspace
  attached := hattached
  tidy := tidy_ofL4 ..
  base_le := Nat.le_refl _
  brk_le := by
    show aslrHeapStart heapSeed ≤ heapMax
    have hoff := aslrOffset_le heapSeed aslrHeapRange
    unfold aslrHeapStart heapStart heapMax
    unfold aslrHeapRange at *
    omega
  brk_aligned := by
    exact aligned_add (by unfold heapStart pageSize; rfl) (aslrOffset_mod ..)
  usage_eq := by
    rw [hzero]
    show 0 = 0 + (aslrHeapStart heapSeed - aslrHeapStart heapSeed)
    omega
  within := by omega

/-- In every state that a new process in one v1 group without usage reaches by fair calls, the
usage of the group is the length of the process's mmap areas and its heap, and a limit of the group
bounds them. -/
theorem usage_exact {k₀ k : ChargedKernel} {pid heapSeed mmapSeed cr3 : Nat} {m : Machine}
    {path : String} {cg : CGroup}
    (hspace : k₀.kernel.spaces[pid]? = some (AddressSpace.ofL4 pid heapSeed mmapSeed cr3 m).1)
    (hattached : k₀.cgroups.Attached pid path cg) (hzero : cg.memory.usageBytes = 0)
    (hrun : Reach (ChargedOp.step pid) (ChargedOp.Fair pid (aslrHeapStart heapSeed)) k₀ k) :
    k.Exact pid (aslrHeapStart heapSeed) path := by
  obtain ⟨s, cg', hbalanced⟩ := hrun.invariant
    (fun k => ∃ s cg, k.Balanced pid (aslrHeapStart heapSeed) path s cg)
    ⟨_, _, ChargedKernel.balanced_new hspace hattached hzero⟩
    fun _ _ ⟨_, _, h⟩ hfair => ChargedOp.balanced_step h hfair
  exact hbalanced.exact

/-- A new process on the small machine, in a group with a limit of four pages. -/
def smallCharged : ChargedKernel where
  kernel :=
    { m := smallMm.m
      spaces := (∅ : TreeMap Nat AddressSpace).insert 1 smallMm.space
      cr3ExtraRefs := ∅
      pageLocked := fun _ _ => false }
  cgroups :=
    { v1 := (∅ : TreeMap String CGroup).insert "/small"
        { pids := [1], memory := { limitBytes := 0x4000 } }
      v2 := Cgroup2Table.new }

/-- The process is in the small group. -/
theorem smallCharged_attached : smallCharged.cgroups.Attached 1 "/small"
    { pids := [1], memory := { limitBytes := 0x4000 } } where
  lookup := by decide +kernel
  mem := by decide
  only q other hq _ := by
    have hq' : ((∅ : TreeMap String CGroup).insert "/small"
      { pids := [1], memory := { limitBytes := 0x4000 } })[q]? = some other := hq
    rw [lookup_insert] at hq'
    split_ifs at hq' with heq
    · exact heq.symm
    · simp at hq'

/-- Fair calls: two mappings, growth and shrinking of the heap, a request beyond the limit, and the
first page of the first mapping unmapped. -/
def fairCalls : List ChargedOp :=
  [.mmap 0 0x2000 3 0x22, .mmapFile 0 0x1000 1 2 "/f" 0, .brk 0x40001000, .brk 0x40000800,
    .mmap 0 0x1000 3 0x22, .munmap 0x6fffffffe000 0x1000, .brk 0x40000000]

/-- Seven fair calls end with two pages charged. -/
theorem usage_exact_seven_calls :
    Admitted (ChargedOp.step 1) (ChargedOp.Fair 1 (aslrHeapStart 0)) smallCharged fairCalls ∧
      (fairCalls.foldl (ChargedOp.step 1) smallCharged).usage 1 = 0x2000 ∧
      (fairCalls.foldl (ChargedOp.step 1) smallCharged).Exact 1 (aslrHeapStart 0) "/small" := by
  have hadmitted : Admitted (ChargedOp.step 1) (ChargedOp.Fair 1 (aslrHeapStart 0)) smallCharged
      fairCalls := by decide +kernel
  have hspace : smallCharged.kernel.spaces[1]? =
      some (ofL4 1 0 0 0x2000 smallMachine).1 := by
    rfl
  exact ⟨hadmitted, by decide +kernel,
    usage_exact hspace smallCharged_attached rfl (Reach.start.foldl hadmitted)⟩

/-- Two mappings up to the limit, with an unmapping of a free range between them. -/
def unmappingFree : List ChargedOp :=
  [.mmap 0 0x4000 3 0x22, .munmap 0x50000000 0x4000, .mmap 0 0x4000 3 0x22]

/-- Unmapping a range where nothing is mapped gives back the charge of a mapping elsewhere, and
the group can map twice its limit. -/
theorem munmap_refunds_unmapped :
    ∃ k, Reach (ChargedOp.step 1) (fun _ _ => True) smallCharged k ∧
      k.usage 1 = 0x4000 ∧ (k.kernel.spaces[1]?).map AddressSpace.mmapBytes = some 0x8000 ∧
      ¬ k.Exact 1 (aslrHeapStart 0) "/small" := by
  refine ⟨_, Reach.free unmappingFree, by decide +kernel, by decide +kernel, ?_⟩
  rintro ⟨s, cg, hs, hattached, husage, -⟩
  have hspace : ((unmappingFree.foldl (ChargedOp.step 1) smallCharged).kernel.spaces[1]?).map
      (fun s => (s.mmapBytes, s.brk)) = some (0x8000, aslrHeapStart 0) := by decide +kernel
  have hgroup : ((unmappingFree.foldl (ChargedOp.step 1) smallCharged).cgroups.v1["/small"]?).map
      (fun cg => cg.memory.usageBytes) = some 0x4000 := by decide +kernel
  rw [hs] at hspace
  rw [hattached.lookup] at hgroup
  simp only [Option.map_some, Option.some.injEq, Prod.mk.injEq] at hspace hgroup
  omega

end KnoxOS.Vmm
