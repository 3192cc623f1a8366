import KnoxOS.Vmm.PageTable

/-!
# Address spaces

The methods of `AddressSpace` in `mm/vmm/space.rs`. A method runs on an `Mm`, the address space
together with the machine, with the table of address spaces locked.
-/

namespace KnoxOS.Vmm

open Lib Swap
open Std (TreeMap)

/-- A process's address space. -/
structure AddressSpace where
  pid : Nat
  /-- The frame of the L4 table. -/
  cr3 : Nat
  /-- The areas, keyed by their start. -/
  vmas : TreeMap Nat VirtualMemoryArea
  brk : Nat
  mmapNext : Nat
  /-- The frames that dropping the space frees. -/
  ownedFrames : List Nat
  /-- The frame to copy at the next write to a page. -/
  cowPages : TreeMap Nat Nat

namespace AddressSpace

def addVma (s : AddressSpace) (vma : VirtualMemoryArea) : AddressSpace :=
  { s with vmas := s.vmas.insert vma.start vma }

/-- The area that contains an address, looked for at the largest key below the address only. -/
def findVma (s : AddressSpace) (addr : Nat) : Option VirtualMemoryArea :=
  match lastLE s.vmas addr with
  | some (_, vma) => if vma.contains addr then some vma else none
  | none => none

/-- What a caller of `find_vma_mut` does: change the area that `findVma` finds, in place. -/
def updateVma (s : AddressSpace) (addr : Nat) (f : VirtualMemoryArea → VirtualMemoryArea) :
    AddressSpace :=
  match lastLE s.vmas addr with
  | some (start, vma) =>
    if vma.contains addr then { s with vmas := s.vmas.insert start (f vma) } else s
  | none => s

/-- What `munmap` does with an area that meets `[addr, stop)`: take it out and put back what lies
outside. -/
def cutVma (s : AddressSpace) (start : Nat) (vma : VirtualMemoryArea) (addr stop : Nat) :
    AddressSpace :=
  let s := { s with vmas := s.vmas.erase start }
  let s := if vma.start < addr then s.addVma { vma with stop := addr } else s
  if vma.stop > stop then s.addVma { vma with start := stop } else s

/-- No area meets `[start, start + size)`. -/
def isRegionFree (s : AddressSpace) (start size : Nat) : Bool :=
  s.vmas.toList.all fun e => !e.2.overlaps start (u64 (start + size))

/-- The downward search of `allocate_mmap_region`. There are `2 ^ 52` pages, so a search that uses
up its fuel would not end. -/
def searchRegion (s : AddressSpace) (size : Nat) : Nat → Nat → Option Nat
  | 0, _ => none
  | fuel + 1, candidate =>
    if candidate ≥ u64 (mmapRegionStart + size) then
      let candidate := subU64 candidate pageSize
      if s.isRegionFree candidate size then some candidate
      else searchRegion s size fuel candidate
    else none

/-- Choose a region of the mmap area, top down. -/
def allocateMmapRegion (s : AddressSpace) (size : Nat) : Option Nat × AddressSpace :=
  let size := pageAlignUp size
  if s.mmapNext < u64 (mmapRegionStart + size) then (none, s)
  else
    let s := { s with mmapNext := subU64 s.mmapNext size }
    if s.isRegionFree s.mmapNext size then (some s.mmapNext, s)
    else
      match s.searchRegion size (2 ^ 52) s.mmapNext with
      | none => (none, s)
      | some candidate => (some candidate, { s with mmapNext := candidate })

/-- Where `mmap_anonymous` places `size` bytes. -/
def placeMmap (s : AddressSpace) (addr size : Nat) (flags : MmapFlags) :
    Option Nat × AddressSpace :=
  if flags.fixed && addr != 0 then (some (pageAlignDown addr), s)
  else if addr ≠ 0 then
    if s.isRegionFree (pageAlignDown addr) size then (some (pageAlignDown addr), s)
    else s.allocateMmapRegion size
  else s.allocateMmapRegion size

/-- A space around a zeroed L4 frame: the kernel slots are shared and the layout randomised. -/
def ofL4 (pid heapSeed mmapSeed cr3 : Nat) (m : Machine) : AddressSpace × Machine :=
  (⟨pid, cr3, ∅, aslrHeapStart heapSeed, aslrMmapEnd mmapSeed, [], ∅⟩,
    m.cloneKernelMappings cr3)

/-- A new empty address space. -/
def new (pid heapSeed mmapSeed : Nat) (m : Machine) : Option AddressSpace × Machine :=
  match m.allocatePageTableFrame with
  | (none, m) => (none, m)
  | (some cr3, m) =>
    let (s, m) := ofL4 pid heapSeed mmapSeed cr3 m
    (some s, m)

/-- Dropping a space frees its frames and then its L4 table. -/
def drop (s : AddressSpace) (m : Machine) : Machine :=
  let m := s.ownedFrames.foldl Machine.freePhysicalFrame m
  if s.cr3 ≠ 0 then m.freePhysicalFrame s.cr3 else m

end AddressSpace

/-- `n` pages from `start` on. -/
def pagesFrom (start n : Nat) : List Nat := (List.range n).map fun i => u64 (start + i * pageSize)

/-- An address space together with the machine. -/
structure Mm where
  space : AddressSpace
  m : Machine

namespace Mm

/-- The pages a loop unmaps. -/
@[irreducible] def unmapPages (mm : Mm) (pages : List Nat) : Mm :=
  { mm with m := pages.foldl (fun m page => m.unmapPage mm.space.cr3 page) mm.m }

/-- The pages whose flags a loop replaces. -/
@[irreducible] def updatePages (mm : Mm) (flags : PageTableFlags) (pages : List Nat) : Mm :=
  { mm with m := pages.foldl (fun m page => m.updatePageFlags mm.space.cr3 page flags) mm.m }

/-- Unmapping pages keeps the areas. -/
@[simp] theorem unmapPages_space (mm : Mm) (pages : List Nat) :
    (mm.unmapPages pages).space = mm.space := by
  unfold unmapPages
  rfl

@[simp] theorem updatePages_space (mm : Mm) (flags : PageTableFlags) (pages : List Nat) :
    (mm.updatePages flags pages).space = mm.space := by
  unfold updatePages
  rfl

/-- Remember a page as a candidate for eviction. -/
def trackAnonPage (mm : Mm) (page : Nat) : Mm :=
  { mm with m := { mm.m with swap := mm.m.swap.trackAnonPage mm.space.pid page } }

def own (mm : Mm) (frame : Nat) : Mm :=
  { mm with space := { mm.space with ownedFrames := mm.space.ownedFrames ++ [frame] } }

def mapPage (mm : Mm) (page frame : Nat) (flags : PageTableFlags) : Mm :=
  { mm with m := mm.m.mapPageInTable mm.space.cr3 page frame flags }

def setMem (mm : Mm) (mem : PhysMem) : Mm := { mm with m := { mm.m with mem := mem } }

/-- The body that every loop over fresh pages shares: allocate a frame, own it, map it and zero
it. The result is the frame, or none when there is none to allocate. -/
def mapZeroedPage (mm : Mm) (flags : PageTableFlags) (page : Nat) : Option Nat × Mm :=
  match mm.m.allocatePhysicalFrame with
  | (none, m) => (none, { mm with m := m })
  | (some frame, m) =>
    let mm := ({ mm with m := m }.own frame).mapPage page frame flags
    (some frame, mm.setMem (mm.m.mem.zeroFrame frame))

/-- A loop over fresh pages that ends at the first page without a frame; `finish` is what the loop
does with a page after it has been zeroed. -/
def mapZeroedPages (flags : PageTableFlags) (finish : Nat → Nat → Mm → Mm) :
    List Nat → Mm → Bool × Mm
  | [], mm => (true, mm)
  | page :: pages, mm =>
    match mm.mapZeroedPage flags page with
    | (none, mm) => (false, mm)
    | (some frame, mm) => mapZeroedPages flags finish pages (finish page frame mm)

/-- The area that `mmap_anonymous` records. -/
def anonVma (vaddr size : Nat) (prot : ProtFlags) (flags : MmapFlags) : VirtualMemoryArea where
  start := vaddr
  stop := u64 (vaddr + size)
  prot := prot
  mappingType := if flags.shared then .shared else .anonymous
  flags := flags
  filePath := none
  fileOffset := 0
  cow := false
  refCount := 1

/-- The loop of `mmap_anonymous` with `MAP_POPULATE`. -/
def populate (mm : Mm) (vaddr numPages : Nat) (prot : ProtFlags) : Bool × Mm :=
  mapZeroedPages prot.toPageFlags (fun page _ mm => mm.trackAnonPage page)
    (pagesFrom vaddr numPages) mm

/-- Map anonymous pages, at once with `populate` and at the first fault without. -/
def mmapAnonymous (mm : Mm) (addr size : Nat) (prot : ProtFlags) (flags : MmapFlags) :
    Option Nat × Mm :=
  let size := pageAlignUp size
  if checkWxViolation mm.m.wxPolicy prot then (none, mm)
  else
    match mm.space.placeMmap addr size flags with
    | (none, space) => (none, { mm with space := space })
    | (some vaddr, space) =>
      let mm := { mm with space := space }
      match if flags.populate then mm.populate vaddr (size / pageSize) prot else (true, mm) with
      | (false, mm) => (none, mm)
      | (true, mm) =>
        (some vaddr, { mm with space := mm.space.addVma (anonVma vaddr size prot flags) })

/-- One round of the populate loop of `mmap_file`: page `i` takes its bytes from the file. -/
def fillPage (cr3 : Nat) (path : String) (offset vaddr : Nat) (m : Machine) (i : Nat) : Machine :=
  match getMappedFrame m.mem cr3 (u64 (vaddr + i * pageSize)) with
  | none => m
  | some frame => m.fillFileBackedPage path (u64 (offset + i * pageSize)) frame

def fillPages (mm : Mm) (path : String) (offset vaddr : Nat) (pages : Nat) : Mm :=
  { mm with m := (List.range pages).foldl (fillPage mm.space.cr3 path offset vaddr) mm.m }

/-- Map a file. -/
def mmapFile (mm : Mm) (addr size : Nat) (prot : ProtFlags) (flags : MmapFlags) (path : String)
    (offset : Nat) : Option Nat × Mm :=
  match mm.mmapAnonymous addr size prot flags with
  | (none, mm) => (none, mm)
  | (some vaddr, mm) =>
    let mm := { mm with space := mm.space.updateVma vaddr fun vma =>
      { vma with
        mappingType := .fileBacked
        filePath := some path
        fileOffset := offset
        flags := { vma.flags with anonymous := false } } }
    if flags.populate then
      (some vaddr, mm.fillPages path offset vaddr (pageAlignUp size / pageSize))
    else (some vaddr, mm)

/-- The pages that an area shares with `[addr, stop)`. -/
def overlapPages (vma : VirtualMemoryArea) (addr stop : Nat) : List Nat :=
  let unmapStart := max vma.start addr
  let unmapEnd := min vma.stop stop
  pagesFrom unmapStart (subU64 unmapEnd unmapStart / pageSize)

/-- One round of the loop of `munmap`: unmap the pages that an area shares with `[addr, stop)` and
cut them out of the area. -/
def munmapVma (addr stop : Nat) (mm : Mm) (start : Nat) : Mm :=
  match mm.space.vmas[start]? with
  | none => mm
  | some vma =>
    { space := mm.space.cutVma start vma addr stop
      m := (mm.unmapPages (overlapPages vma addr stop)).m }

/-- Unmap a range. -/
def munmap (mm : Mm) (addr size : Nat) : Bool × Mm :=
  let addr := pageAlignDown addr
  let stop := u64 (addr + pageAlignUp size)
  let toRemove := (mm.space.vmas.toList.filter fun e => e.2.overlaps addr stop).map (·.1)
  (true, toRemove.foldl (munmapVma addr stop) mm)

/-- Change the protection of a range that lies in one area; the whole area takes it. -/
def mprotect (mm : Mm) (addr size : Nat) (prot : ProtFlags) : Bool × Mm :=
  if checkWxViolation mm.m.wxPolicy prot then (false, mm)
  else
    let addr := pageAlignDown addr
    let size := pageAlignUp size
    match mm.space.findVma addr with
    | none => (false, mm)
    | some vma =>
      if vma.start ≤ addr ∧ vma.stop ≥ u64 (addr + size) then
        let mm := { mm with space := mm.space.updateVma addr fun vma => { vma with prot := prot } }
        (true, mm.updatePages prot.toPageFlags (pagesFrom addr (size / pageSize)))
      else (false, mm)

/-- Move the program break. -/
def brk (mm : Mm) (newBrk : Nat) : Nat × Mm :=
  if newBrk = 0 then (mm.space.brk, mm)
  else
    let newBrk := pageAlignUp newBrk
    if newBrk > heapMax then (mm.space.brk, mm)
    else
      let oldEnd := pageAlignUp mm.space.brk
      let newEnd := pageAlignUp newBrk
      if newBrk > mm.space.brk then
        match mapZeroedPages .pwuNx (fun _ _ mm => mm)
            (pagesFrom oldEnd (subU64 newEnd oldEnd / pageSize)) mm with
        | (false, mm) => (mm.space.brk, mm)
        | (true, mm) => (newBrk, { mm with space := { mm.space with brk := newBrk } })
      else if newBrk < mm.space.brk then
        let mm := mm.unmapPages (pagesFrom newEnd (subU64 oldEnd newEnd / pageSize))
        (newBrk, { mm with space := { mm.space with brk := newBrk } })
      else (newBrk, { mm with space := { mm.space with brk := newBrk } })

/-- The area of the guard page below a stack. -/
def guardVma (stackBottom : Nat) : VirtualMemoryArea where
  start := stackBottom
  stop := u64 (stackBottom + stackGuardPages * pageSize)
  prot := .none
  mappingType := .guard
  flags := ⟨false, true, true, false⟩
  filePath := none
  fileOffset := 0
  cow := false
  refCount := 1

/-- The area of a stack. -/
def stackVma (stackStart stackTop : Nat) : VirtualMemoryArea where
  start := stackStart
  stop := stackTop
  prot := .rw
  mappingType := .stack
  flags := ⟨false, true, true, true⟩
  filePath := none
  fileOffset := 0
  cow := false
  refCount := 1

/-- Map a stack below `stackTop`, with a guard area below it. -/
def mapStack (mm : Mm) (stackTop stackSize : Nat) : Option Nat × Mm :=
  let stackPages := stackSize / pageSize
  let stackBottom := subU64 stackTop (u64 ((stackPages + stackGuardPages) * pageSize))
  let stackStart := u64 (stackBottom + stackGuardPages * pageSize)
  match mapZeroedPages .pwuNx (fun _ _ mm => mm) (pagesFrom stackStart stackPages)
      { mm with space := mm.space.addVma (guardVma stackBottom) } with
  | (false, mm) => (none, mm)
  | (true, mm) =>
    (some stackTop, { mm with space := mm.space.addVma (stackVma stackStart stackTop) })

/-! ## Fork -/

/-- One page of `fork`: the child maps the parent's frame, both lose write access, and the child
remembers the frame to copy. The `Mm` is the child's. -/
def forkPage (parentCr3 : Nat) (flags : PageTableFlags) (child : Mm) (page : Nat) : Mm :=
  match getMappedFrame child.m.mem parentCr3 page with
  | none => child
  | some frame =>
    let child := child.mapPage page frame flags
    { space := { child.space with cowPages := child.space.cowPages.insert page frame }
      m := child.m.updatePageFlags parentCr3 page flags }

/-- One area of `fork`; a guard area is only copied. -/
def forkVma (parentCr3 : Nat) (child : Mm) (vma : VirtualMemoryArea) : Mm :=
  if vma.mappingType = .guard then { child with space := child.space.addVma vma }
  else
    let flags := { vma.prot.toPageFlags with writable := false }
    let child := (pagesFrom vma.start vma.pageCount).foldl (forkPage parentCr3 flags) child
    { child with space := child.space.addVma { vma with cow := true, refCount := 2 } }

/-- Fork an address space copy-on-write. The parent's own `cowPages` are neither read nor
extended. -/
def fork (parent : AddressSpace) (childPid heapSeed mmapSeed : Nat) (m : Machine) :
    Option AddressSpace × Machine :=
  match AddressSpace.new childPid heapSeed mmapSeed m with
  | (none, m) => (none, m)
  | (some child, m) =>
    let child := { child with brk := parent.brk, mmapNext := parent.mmapNext }
    let result := (parent.vmas.toList.map (·.2)).foldl (forkVma parent.cr3) ⟨child, m⟩
    (some result.space, result.m)

/-! ## Page faults -/

/-- The flags for a page that a fault brings back: those of its area, or writable and executable
where no area covers it. -/
def faultFlags (s : AddressSpace) (page : Nat) : PageTableFlags :=
  match s.findVma page with
  | some vma => vma.prot.toPageFlags
  | none => .pwu

/-- Resolve a write to a copy-on-write page. -/
def handleCowFault (mm : Mm) (faultAddr : Nat) : Bool × Mm :=
  let page := pageAlignDown faultAddr
  match mm.space.cowPages[page]? with
  | none => (false, mm)
  | some original =>
    match mm.m.allocatePhysicalFrame with
    | (none, m) => (false, { mm with m := m })
    | (some frame, m) =>
      let mm := { mm with m := m }.own frame
      let mm := mm.setMem (mm.m.mem.copyFrame original frame)
      let flags := faultFlags mm.space page
      let mm := (mm.unmapPages [page]).mapPage page frame flags
      (true, { mm with space := { mm.space with cowPages := mm.space.cowPages.erase page } })

/-- Bring a swapped page back. -/
def handleSwapIn (mm : Mm) (faultAddr : Nat) : Bool × Mm :=
  let page := pageAlignDown faultAddr
  if !mm.m.swap.isSwapped mm.space.pid page then (false, mm)
  else
    match mm.m.allocatePhysicalFrameRaw with
    | (none, m) => (false, { mm with m := m })
    | (some frame, m) =>
      match m.swap.pageIn mm.space.pid page with
      | (none, swap) =>
        (false, { mm with m := { m with swap := swap, pool := m.pool.freeFrame frame } })
      | (some data, swap) =>
        let mm := { mm with m := { m with swap := swap } }.own frame
        let mm := mm.setMem (mm.m.mem.writeFrame frame 0 data)
        (true, (mm.mapPage page frame (faultFlags mm.space page)).trackAnonPage page)

/-- Back a page of an area that has no frame yet. -/
def handleDemandFault (mm : Mm) (faultAddr : Nat) : Bool × Mm :=
  let page := pageAlignDown faultAddr
  match mm.space.findVma page with
  | none => (false, mm)
  | some vma =>
    match vma.mappingType with
    | .guard | .text | .kernel => (false, mm)
    | _ =>
      if (getMappedFrame mm.m.mem mm.space.cr3 page).isSome then (false, mm)
      else
        match mm.mapZeroedPage vma.prot.toPageFlags page with
        | (none, mm) => (false, mm)
        | (some frame, mm) =>
          if vma.mappingType = .fileBacked then
            match vma.filePath with
            | none => (true, mm)
            | some path =>
              let offset := u64 (vma.fileOffset + subU64 page vma.start)
              (true, { mm with m := mm.m.fillFileBackedPage path offset frame })
          else (true, mm.trackAnonPage page)

/-- The order in which a fault is tried: copy-on-write, swap, demand. -/
def handlePageFault (mm : Mm) (faultAddr : Nat) (isWrite : Bool) : Bool × Mm :=
  let (handled, mm) := if isWrite then mm.handleCowFault faultAddr else (false, mm)
  if handled then (true, mm)
  else
    let (handled, mm) := mm.handleSwapIn faultAddr
    if handled then (true, mm)
    else mm.handleDemandFault faultAddr

end Mm

end KnoxOS.Vmm
