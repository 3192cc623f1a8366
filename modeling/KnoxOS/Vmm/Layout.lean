import KnoxOS.Lib.Word

/-!
# User virtual-address layout

The constants of `mm/vmm/layout.rs`, the page-alignment helpers and the bases that address-space
randomisation picks. Sums are reduced with `u64`, since the kernel is built without overflow
checks.
-/

namespace KnoxOS.Vmm

open Lib

@[irreducible] def pageSize : Nat := 4096

def heapStart : Nat := 0x40000000
def heapMax : Nat := 0xC0000000

def mmapRegionStart : Nat := 0x200000000000
def mmapRegionEnd : Nat := 0x700000000000

def stackGuardPages : Nat := 1

def aslrMmapRange : Nat := 0x10000000000
def aslrHeapRange : Nat := 0x10000000

/-- A page-aligned offset in `[0, range)`. `seed` is the word that the xorshift generator
delivers, which the model takes as an input. -/
def aslrOffset (seed range : Nat) : Nat :=
  if range / pageSize = 0 then 0 else seed % (range / pageSize) * pageSize

def aslrMmapEnd (seed : Nat) : Nat := mmapRegionEnd - aslrOffset seed aslrMmapRange
def aslrHeapStart (seed : Nat) : Nat := heapStart + aslrOffset seed aslrHeapRange

/-- `addr & !(PAGE_SIZE - 1)`. -/
def pageAlignDown (addr : Nat) : Nat := addr / pageSize * pageSize

/-- `(addr + PAGE_SIZE - 1) & !(PAGE_SIZE - 1)`, which wraps to `0` in the last page. -/
def pageAlignUp (addr : Nat) : Nat := pageAlignDown (u64 (addr + pageSize - 1))

/-- Rounding down gives a page boundary. -/
@[simp] theorem pageAlignDown_mod (addr : Nat) : pageAlignDown addr % pageSize = 0 := by
  simp [pageAlignDown, pageSize]

/-- Rounding down leaves a page boundary where it is. -/
theorem pageAlignDown_of_aligned {addr : Nat} (h : addr % pageSize = 0) :
    pageAlignDown addr = addr := by
  simp only [pageAlignDown, pageSize] at *; omega

/-- Rounding up leaves a page boundary where it is. -/
theorem pageAlignUp_of_aligned {addr : Nat} (h : addr % pageSize = 0) (hlt : addr < 2 ^ 64) :
    pageAlignUp addr = addr := by
  simp only [pageAlignUp, pageAlignDown, pageSize, u64] at *
  omega

/-- Rounding up does not pass a page boundary that bounds the address. -/
theorem pageAlignUp_le {a b : Nat} (h : a ≤ b) (hb : b % pageSize = 0) : pageAlignUp a ≤ b := by
  simp only [pageAlignUp, pageAlignDown, pageSize, u64] at *
  omega

/-- The sum of two page boundaries is one. -/
theorem aligned_add {a b : Nat} (ha : a % pageSize = 0) (hb : b % pageSize = 0) :
    (a + b) % pageSize = 0 := by
  rw [Nat.add_mod, ha, hb, Nat.zero_mod]

/-- The random offset keeps the bases page-aligned. -/
theorem aslrOffset_mod (seed range : Nat) : aslrOffset seed range % pageSize = 0 := by
  unfold aslrOffset
  split
  · rfl
  · exact Nat.mul_mod_left _ _

/-- The random offset stays in the range that it is picked from. -/
theorem aslrOffset_le (seed range : Nat) : aslrOffset seed range ≤ range := by
  unfold aslrOffset
  split
  · exact Nat.zero_le _
  next hpos =>
    have hlt := Nat.mod_lt seed (Nat.pos_of_ne_zero hpos)
    exact Nat.le_trans (Nat.mul_le_mul_right _ (Nat.le_of_lt hlt)) (Nat.div_mul_le_self _ _)

/-- Rounding up gives a page boundary, also where it wraps. -/
@[simp] theorem pageAlignUp_mod (addr : Nat) : pageAlignUp addr % pageSize = 0 :=
  pageAlignDown_mod _

end KnoxOS.Vmm
