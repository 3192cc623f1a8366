import KnoxOS.Vmm.Layout

/-!
# Mapping types, protections and virtual memory areas

The data of `mm/vmm/region.rs`, with the page-table flags a protection stands for and the W^X
policy of `security/hardening.rs`.
-/

namespace KnoxOS.Vmm

open Lib

inductive MappingType where
  | text | data | heap | stack | guard | anonymous | fileBacked | shared | kernel
deriving DecidableEq, Repr

/-- The flag bits of a page-table entry that the kernel sets or reads on a 4 KiB page. -/
structure PageTableFlags where
  present : Bool
  writable : Bool
  userAccessible : Bool
  noExecute : Bool
deriving DecidableEq, Repr

namespace PageTableFlags

/-- `PRESENT | WRITABLE | USER_ACCESSIBLE`. -/
def pwu : PageTableFlags := ⟨true, true, true, false⟩

/-- `PRESENT | WRITABLE | USER_ACCESSIBLE | NO_EXECUTE`. -/
def pwuNx : PageTableFlags := ⟨true, true, true, true⟩

/-- The bits of the flags in an entry. -/
def bits (f : PageTableFlags) : Nat :=
  f.noExecute.toNat <<< 63 ||| (f.userAccessible.toNat <<< 2 ||| f.writable.toNat <<< 1 |||
    f.present.toNat)

end PageTableFlags

structure ProtFlags where
  read : Bool
  write : Bool
  execute : Bool
deriving DecidableEq, Repr

namespace ProtFlags

def rw : ProtFlags := ⟨true, true, false⟩
def none : ProtFlags := ⟨false, false, false⟩

/-- The page-table flags of a protection. -/
def toPageFlags (p : ProtFlags) : PageTableFlags := ⟨true, p.write, true, !p.execute⟩

/-- Decode the `prot` argument of `mmap`. -/
def fromMmapProt (prot : Nat) : ProtFlags where
  read := prot &&& 0x1 != 0
  write := prot &&& 0x2 != 0
  execute := prot &&& 0x4 != 0

end ProtFlags

inductive WxPolicy where
  | permissive | strict | jitCompat
deriving DecidableEq, Repr

/-- A writable and executable mapping is refused under the strict policy only. -/
def checkWxViolation (policy : WxPolicy) (p : ProtFlags) : Bool :=
  if !p.write || !p.execute then false
  else
    match policy with
    | .strict => true
    | .permissive | .jitCompat => false

structure MmapFlags where
  shared : Bool
  anonymous : Bool
  fixed : Bool
  populate : Bool
deriving DecidableEq, Repr

/-- Decode the `flags` argument of `mmap`. -/
def MmapFlags.fromLinux (flags : Nat) : MmapFlags where
  shared := flags &&& 0x01 != 0
  anonymous := flags &&& 0x20 != 0
  fixed := flags &&& 0x10 != 0
  populate := flags &&& 0x08000 != 0

/-- A contiguous region of one protection; `stop` is the first address behind it. -/
structure VirtualMemoryArea where
  start : Nat
  stop : Nat
  prot : ProtFlags
  mappingType : MappingType
  flags : MmapFlags
  filePath : Option String
  fileOffset : Nat
  cow : Bool
  refCount : Nat
deriving DecidableEq, Repr

namespace VirtualMemoryArea

def pageCount (vma : VirtualMemoryArea) : Nat := subU64 vma.stop vma.start / pageSize

def contains (vma : VirtualMemoryArea) (addr : Nat) : Bool :=
  addr ≥ vma.start && addr < vma.stop

/-- The test of `munmap` and `is_region_free`: the area meets `[start, stop)`. -/
def overlaps (vma : VirtualMemoryArea) (start stop : Nat) : Bool :=
  vma.start < stop && vma.stop > start

theorem contains_iff {vma : VirtualMemoryArea} {addr : Nat} :
    vma.contains addr = true ↔ vma.start ≤ addr ∧ addr < vma.stop := by
  simp [contains]

/-- An area overlaps a range when each starts before the other ends. -/
theorem overlaps_iff {vma : VirtualMemoryArea} {start stop : Nat} :
    vma.overlaps start stop = true ↔ vma.start < stop ∧ start < vma.stop := by
  simp [overlaps]

end VirtualMemoryArea

end KnoxOS.Vmm
