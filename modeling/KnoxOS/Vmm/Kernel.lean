import KnoxOS.Vmm.Space

/-!
# The table of address spaces

The functions of `mm/vmm/space.rs` on the table of address spaces, with `reclaim_anonymous` of
`mm/swap.rs` and `sys_mprotect` of `mm/mmap.rs`. Inserting an address space under a process that
has one drops the old one, as `BTreeMap::insert` does. The words that address-space randomisation
draws are arguments. The calls that charge a cgroup are in `Charge`.
-/

namespace KnoxOS.Vmm

open Lib Swap
open Std (TreeMap)

/-- The machine with every address space. `cr3ExtraRefs` counts the holders of a shared L4 beyond
the first, and `pageLocked` is what `is_page_locked` answers. -/
structure Kernel where
  m : Machine
  spaces : TreeMap Nat AddressSpace
  cr3ExtraRefs : TreeMap Nat Nat
  pageLocked : Nat → Nat → Bool

/-- A `u64` read as an `i64`. -/
def asI64 (n : Nat) : Int := if n < 2 ^ 63 then n else (n : Int) - 2 ^ 64

namespace Kernel

def cr3IsShared (k : Kernel) (cr3 : Nat) : Bool := (k.cr3ExtraRefs[cr3]?).getD 0 > 0

def cr3Unshare (k : Kernel) (cr3 : Nat) : Kernel :=
  match k.cr3ExtraRefs[cr3]? with
  | none => k
  | some n =>
    if n > 1 then { k with cr3ExtraRefs := k.cr3ExtraRefs.insert cr3 (n - 1) }
    else { k with cr3ExtraRefs := k.cr3ExtraRefs.erase cr3 }

/-- Run a method on a process's address space. -/
def onSpace {α : Type} (k : Kernel) (pid : Nat) (absent : α) (f : Mm → α × Mm) : α × Kernel :=
  match k.spaces[pid]? with
  | none => (absent, k)
  | some s =>
    let (r, mm) := f ⟨s, k.m⟩
    (r, { k with m := mm.m, spaces := k.spaces.insert pid mm.space })

/-- Put a space into the table; the one it replaces is dropped. -/
def insertSpace (k : Kernel) (pid : Nat) (s : AddressSpace) : Kernel :=
  { k with
    spaces := k.spaces.insert pid s
    m := match k.spaces[pid]? with
      | none => k.m
      | some old => old.drop k.m }

/-! ## Swapping out and reclaim -/

/-- Move a mapped page to swap and free its frame. -/
def swapOutPage (k : Kernel) (pid vaddr : Nat) : Bool × Kernel :=
  let page := pageAlignDown vaddr
  match k.spaces[pid]? with
  | none => (false, k)
  | some s =>
    match getMappedFrame k.m.mem s.cr3 page with
    | none => (false, k)
    | some phys =>
      match k.m.swap.pageOut pid page (readUserPage k.m.mem s.cr3 page) with
      | (none, swap) => (false, { k with m := { k.m with swap := swap } })
      | (some _, swap) =>
        let m := { k.m with swap := swap }.unmapPage s.cr3 page
        let s := { s with ownedFrames := s.ownedFrames.filter (· ≠ phys) }
        (true, { k with
          m := m.freePhysicalFrame phys
          spaces := k.spaces.insert pid s })

/-- Page out up to `n` candidates. -/
def reclaimAnonymous : Nat → Kernel → Kernel
  | 0, k => k
  | n + 1, k =>
    match k.m.swap.selectVictim with
    | none => k
    | some (page, swap) =>
      let k := { k with m := { k.m with swap := swap } }
      if k.pageLocked page.pid page.virtAddr then reclaimAnonymous n k
      else reclaimAnonymous n (k.swapOutPage page.pid page.virtAddr).2

/-- Allocate a frame with the table of address spaces unlocked, so that reclaim takes effect. -/
def allocatePhysicalFrame (k : Kernel) : Option Nat × Kernel :=
  match k.m.pool.allocate with
  | (some frame, pool) => (some frame, { k with m := { k.m with pool := pool } })
  | (none, _) =>
    let k := reclaimAnonymous 16 k
    match k.m.pool.allocate with
    | (frame, pool) => (frame, { k with m := { k.m with pool := pool } })

/-- `AddressSpace::new` with the table unlocked. -/
def newSpace (k : Kernel) (pid heapSeed mmapSeed : Nat) : Option AddressSpace × Kernel :=
  match k.allocatePhysicalFrame with
  | (none, k) => (none, k)
  | (some cr3, k) =>
    let (s, m) := AddressSpace.ofL4 pid heapSeed mmapSeed cr3
      { k.m with mem := k.m.mem.zeroFrame cr3 }
    (some s, { k with m := m })

/-! ## Life of an address space -/

def createAddressSpace (k : Kernel) (pid heapSeed mmapSeed : Nat) : Bool × Kernel :=
  match k.newSpace pid heapSeed mmapSeed with
  | (none, k) => (false, k)
  | (some s, k) => (true, k.insertSpace pid s)

/-- Drop a process's address space. While others hold its L4, its frames pass to the first of
them instead. -/
def destroyAddressSpace (k : Kernel) (pid : Nat) : Kernel :=
  match k.spaces[pid]? with
  | none => k
  | some dying =>
    let k := { k with spaces := k.spaces.erase pid }
    if dying.cr3 ≠ 0 && k.cr3IsShared dying.cr3 then
      let k := k.cr3Unshare dying.cr3
      match k.spaces.toList.find? (·.2.cr3 = dying.cr3) with
      | none => k
      | some (sibPid, sib) =>
        let sib := { sib with ownedFrames := sib.ownedFrames ++ dying.ownedFrames }
        { k with spaces := k.spaces.insert sibPid sib }
    else { k with m := dying.drop k.m }

/-- The new space is built before the old one is dropped, as when a space is created. -/
def replaceAddressSpace (k : Kernel) (pid heapSeed mmapSeed : Nat) : Bool × Kernel :=
  k.createAddressSpace pid heapSeed mmapSeed

def forkAddressSpace (k : Kernel) (parentPid childPid heapSeed mmapSeed : Nat) : Bool × Kernel :=
  match k.spaces[parentPid]? with
  | none => (false, k)
  | some parent =>
    match Mm.fork parent childPid heapSeed mmapSeed k.m with
    | (none, m) => (false, { k with m := m })
    | (some child, m) => (true, { k with m := m }.insertSpace childPid child)

/-! ## Requests of a process -/

def handlePageFault (k : Kernel) (pid faultAddr : Nat) (isWrite : Bool) : Bool × Kernel :=
  k.onSpace pid false (·.handlePageFault faultAddr isWrite)

/-- `sys_mprotect`. -/
def mprotect (k : Kernel) (pid addr length prot : Nat) : Int × Kernel :=
  if prot / 8 ≠ 0 then (-22, k)
  else if checkWxViolation k.m.wxPolicy (.fromMmapProt prot) then (-13, k)
  else
    k.onSpace pid (-3) fun mm =>
      let (ok, mm) := mm.mprotect addr (pageAlignUp length) (.fromMmapProt prot)
      (if ok then 0 else -12, mm)

/-- A store by user code. It takes effect where the page is mapped for the user and writable, and
faults elsewhere. -/
def userStore (k : Kernel) (pid vaddr : Nat) (byte : UInt8) : Kernel :=
  match k.spaces[pid]? with
  | none => k
  | some s =>
    match translation k.m.mem s.cr3 vaddr with
    | some (0, entry) =>
      if (entryFlags entry).userAccessible && (entryFlags entry).writable then
        { k with m := { k.m with
          mem := k.m.mem.writeFrame (entryAddr entry) (vaddr % pageSize) [byte] } }
      else k
    | _ => k

end Kernel

end KnoxOS.Vmm
