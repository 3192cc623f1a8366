import KnoxOS.Swap.Manager
import KnoxOS.Vmm.Frame
import KnoxOS.Vmm.Region

/-!
# Physical memory and page tables

The walks of `mm/vmm/page_table.rs` over the four levels of x86-64 page tables. Physical memory is
byte-addressed, frame by frame, and a page table is a frame read as 512 little-endian words, so a
table and a data page that share a frame overwrite each other here as they do on the machine. The
source writes the levels out one below the other; here a walk recurses on the number of levels
below a table, `3` at the root. TLB flushes are left out, and with them the panic of `VirtAddr::new`
in `unmap_page_in_table` and `update_page_flags_in_table` on an address that is not canonical.
-/

namespace KnoxOS.Vmm

open Lib Swap

/-- Physical memory: the byte at an offset in the frame of a page-aligned physical address. -/
def PhysMem : Type := Nat → Nat → UInt8

namespace PhysMem

/-- Entry `i` of the page table in frame `table`. -/
@[irreducible] def readEntry (mem : PhysMem) (table i : Nat) : Nat :=
  leWord fun k => mem table (8 * i + k)

def writeEntry (mem : PhysMem) (table i entry : Nat) : PhysMem := fun f o =>
  if f = table ∧ o / 8 = i then wordByte entry (o % 8) else mem f o

def zeroFrame (mem : PhysMem) (frame : Nat) : PhysMem := fun f o =>
  if f = frame then 0 else mem f o

def copyFrame (mem : PhysMem) (src dst : Nat) : PhysMem := fun f o =>
  if f = dst then mem src o else mem f o

/-- Copy bytes into a frame from offset `start` on, as far as they fit. -/
def writeFrame (mem : PhysMem) (frame start : Nat) (data : List UInt8) : PhysMem := fun f o =>
  if f = frame ∧ start ≤ o ∧ o < start + data.length ∧ o < pageSize then byteAt data (o - start)
  else mem f o

/-- The bytes of a frame. -/
def readFrame (mem : PhysMem) (frame : Nat) : List UInt8 := bytesFrom (mem frame) 0 pageSize

end PhysMem

/-! ## Entries -/

/-- The frame an entry points to, in bits 12 to 51. -/
def entryAddr (entry : Nat) : Nat := entry / pageSize % 2 ^ 40 * pageSize

/-- An entry of level 2 or 3 that maps a large page. -/
def entryHuge (entry : Nat) : Bool := entry.testBit 7

def entryFlags (entry : Nat) : PageTableFlags where
  present := entry.testBit 0
  writable := entry.testBit 1
  userAccessible := entry.testBit 2
  noExecute := entry.testBit 63

/-- `set_addr`: an entry for a frame. -/
def mkEntry (addr : Nat) (flags : PageTableFlags) : Nat := addr ||| flags.bits

/-- The index into a table with `n` levels below it. -/
def tableIdx (n vaddr : Nat) : Nat := (vaddr >>> (12 + 9 * n)) &&& 0x1FF

/-! ## Reading walks -/

/-- Where a walk ends: at an unused entry, at a large page, or in a level-1 table. -/
inductive Walk where
  | unused
  | huge (level entry : Nat)
  | table (l1 : Nat)
deriving DecidableEq

/-- The walk of the readers, which stops at a large page of level 3 or 2. -/
def walk (mem : PhysMem) : Nat → Nat → Nat → Walk
  | 0, table, _ => .table table
  | n + 1, table, vaddr =>
    let entry := mem.readEntry table (tableIdx (n + 1) vaddr)
    if entry = 0 then .unused
    else if n + 1 < 3 ∧ entryHuge entry then .huge (n + 1) entry
    else walk mem n (entryAddr entry) vaddr

/-- The entry that translates `vaddr`, with its level. -/
def translation (mem : PhysMem) (cr3 vaddr : Nat) : Option (Nat × Nat) :=
  match walk mem 3 cr3 vaddr with
  | .unused => none
  | .huge level entry => some (level, entry)
  | .table l1 =>
    let entry := mem.readEntry l1 (tableIdx 0 vaddr)
    if entry = 0 then none else some (0, entry)

/-- The frame mapped at an address; a large page gives its base. -/
def getMappedFrame (mem : PhysMem) (cr3 vaddr : Nat) : Option Nat :=
  (translation mem cr3 vaddr).map fun t => entryAddr t.2

/-- The physical page of a page-aligned address. -/
def translateVaddr (mem : PhysMem) (cr3 vaddr : Nat) : Option Nat :=
  (translation mem cr3 vaddr).map fun t =>
    if t.1 = 0 then entryAddr t.2 else entryAddr t.2 + vaddr % 2 ^ (12 + 9 * t.1)

/-- The bytes `read_user_memory` delivers for a page: an unmapped page reads as zeros. -/
def readUserPage (mem : PhysMem) (cr3 page : Nat) : List UInt8 :=
  match translateVaddr mem cr3 page with
  | some phys => mem.readFrame phys
  | none => List.replicate pageSize 0

/-! ## Writing walks -/

/-- The walk of `unmap_page_in_table` and `update_page_flags_in_table`, which does not look for
large pages. -/
def findTable (mem : PhysMem) : Nat → Nat → Nat → Option Nat
  | 0, table, _ => some table
  | n + 1, table, vaddr =>
    let entry := mem.readEntry table (tableIdx (n + 1) vaddr)
    if entry = 0 then none else findTable mem n (entryAddr entry) vaddr

def unmapPageInTable (mem : PhysMem) (cr3 vaddr : Nat) : PhysMem :=
  match findTable mem 3 cr3 vaddr with
  | none => mem
  | some l1 => mem.writeEntry l1 (tableIdx 0 vaddr) 0

def updatePageFlagsInTable (mem : PhysMem) (cr3 vaddr : Nat) (flags : PageTableFlags) :
    PhysMem :=
  match findTable mem 3 cr3 vaddr with
  | none => mem
  | some l1 =>
    let entry := mem.readEntry l1 (tableIdx 0 vaddr)
    if entry = 0 then mem
    else mem.writeEntry l1 (tableIdx 0 vaddr) (mkEntry (entryAddr entry) flags)

/-- The machine that the address spaces share. `kernelL4` is the frame of the kernel L4 template
and `fileBytes` what the page cache or the VFS delivers for a page of a file. -/
structure Machine where
  pool : PhysicalFramePool
  mem : PhysMem
  swap : SwapManager
  kernelL4 : Nat
  wxPolicy : WxPolicy
  fileBytes : String → Nat → List UInt8

namespace Machine

/-- `reclaim_anonymous` with the address-space table locked: `swap_out_page` fails at its
`try_lock`, so the victims only leave the candidates. -/
def dropVictims : Nat → SwapManager → SwapManager
  | 0, swap => swap
  | n + 1, swap =>
    match swap.selectVictim with
    | none => swap
    | some (_, swap) => dropVictims n swap

/-- Allocate a frame with the address-space table locked. When the pool is empty nothing that
runs under the lock returns a frame to it: shrinking the page cache frees kernel heap, reclaim
finds the table locked and the OOM killer only marks its victim. -/
def allocatePhysicalFrame (m : Machine) : Option Nat × Machine :=
  match m.pool.allocate with
  | (some frame, pool) => (some frame, { m with pool := pool })
  | (none, pool) => (none, { m with pool := pool, swap := dropVictims 16 m.swap })

/-- Allocate without reclaim. -/
def allocatePhysicalFrameRaw (m : Machine) : Option Nat × Machine :=
  match m.pool.allocate with
  | (some frame, pool) => (some frame, { m with pool := pool })
  | (none, pool) => (none, { m with pool := pool })

/-- Wipe a frame and return it to the pool. -/
def freePhysicalFrame (m : Machine) (frame : Nat) : Machine :=
  { m with mem := m.mem.zeroFrame frame, pool := m.pool.freeFrame frame }

/-- Allocate a zeroed frame for a new page table. -/
def allocatePageTableFrame (m : Machine) : Option Nat × Machine :=
  match m.allocatePhysicalFrame with
  | (none, m) => (none, m)
  | (some frame, m) => (some frame, { m with mem := m.mem.zeroFrame frame })

/-- The levels of `map_page_in_table` above the last: find the level-1 table, creating missing
tables on the way. Large pages are looked for below the root only. -/
def ensureTables : Nat → Machine → Nat → Nat → Option Nat × Machine
  | 0, m, table, _ => (some table, m)
  | n + 1, m, table, vaddr =>
    let idx := tableIdx (n + 1) vaddr
    let entry := m.mem.readEntry table idx
    if entry = 0 then
      match m.allocatePageTableFrame with
      | (none, m) => (none, m)
      | (some frame, m) =>
        let mem := m.mem.writeEntry table idx (mkEntry frame .pwu)
        ensureTables n { m with mem := mem } (entryAddr (mem.readEntry table idx)) vaddr
    else if n + 1 < 3 ∧ entryHuge entry then (none, m)
    else ensureTables n m (entryAddr entry) vaddr

/-- Map one page; without a frame for a missing table, or under a large page, nothing is
mapped. -/
def mapPageInTable (m : Machine) (cr3 vaddr frame : Nat) (flags : PageTableFlags) : Machine :=
  match ensureTables 3 m cr3 vaddr with
  | (none, m) => m
  | (some l1, m) =>
    { m with mem := m.mem.writeEntry l1 (tableIdx 0 vaddr) (mkEntry frame flags) }

/-- Share the used slots of the kernel L4 template with a new L4; the slots are copied
independently of each other. -/
def cloneKernelMappings (m : Machine) (newCr3 : Nat) : Machine :=
  { m with mem := fun f o =>
      if f = newCr3 ∧ o < pageSize ∧ m.mem.readEntry m.kernelL4 (o / 8) ≠ 0 then m.mem m.kernelL4 o
      else m.mem f o }

/-- Fill a frame from a file. -/
def fillFileBackedPage (m : Machine) (path : String) (fileOffset frame : Nat) : Machine :=
  { m with mem := m.mem.writeFrame frame 0 (m.fileBytes path fileOffset) }

def unmapPage (m : Machine) (cr3 vaddr : Nat) : Machine :=
  { m with mem := unmapPageInTable m.mem cr3 vaddr }

def updatePageFlags (m : Machine) (cr3 vaddr : Nat) (flags : PageTableFlags) : Machine :=
  { m with mem := updatePageFlagsInTable m.mem cr3 vaddr flags }

end Machine

/-! ## Bytes and entries of a frame -/

namespace PhysMem

/-- A 64-bit entry reads back as it was written. -/
theorem readEntry_writeEntry_self (mem : PhysMem) (table i : Nat) {entry : Nat}
    (h : entry < 2 ^ 64) : (mem.writeEntry table i entry).readEntry table i = entry := by
  have hbytes : ∀ k < 8, mem.writeEntry table i entry table (8 * i + k) = wordByte entry k := by
    intro k hk
    have hdiv : (8 * i + k) / 8 = i := by omega
    have hmod : (8 * i + k) % 8 = k := by omega
    simp [writeEntry, hdiv, hmod]
  rw [readEntry, leWord_congr hbytes, leWord_wordByte h]

/-- Writing one entry leaves every other entry of every table. -/
theorem readEntry_writeEntry_ne (mem : PhysMem) {table i t j : Nat} (entry : Nat)
    (h : ¬ (t = table ∧ j = i)) :
    (mem.writeEntry table i entry).readEntry t j = mem.readEntry t j := by
  rw [readEntry, readEntry]
  refine leWord_congr fun k hk => ?_
  have hdiv : (8 * j + k) / 8 = j := by omega
  simp [writeEntry, hdiv, h]

/-- Writing an entry leaves the other frames. -/
theorem writeEntry_of_ne (mem : PhysMem) {table f : Nat} (i entry : Nat) (h : f ≠ table) :
    mem.writeEntry table i entry f = mem f := by
  funext o
  simp [writeEntry, h]

/-- An entry depends on the frame of its table only. -/
theorem readEntry_congr {mem mem' : PhysMem} {table : Nat} (h : mem' table = mem table) (i : Nat) :
    mem'.readEntry table i = mem.readEntry table i := by
  rw [readEntry, readEntry, h]

/-- Every entry of a zeroed table is empty. -/
@[simp] theorem readEntry_zeroFrame (mem : PhysMem) (frame i : Nat) :
    (mem.zeroFrame frame).readEntry frame i = 0 := by
  simp [readEntry, zeroFrame]

/-- Zeroing a frame leaves the others. -/
theorem zeroFrame_of_ne (mem : PhysMem) {frame f : Nat} (h : f ≠ frame) :
    mem.zeroFrame frame f = mem f := by
  funext o
  simp [zeroFrame, h]

/-- Writing bytes into a frame leaves the others. -/
theorem writeFrame_of_ne (mem : PhysMem) {frame f : Nat} (start : Nat) (data : List UInt8)
    (h : f ≠ frame) : mem.writeFrame frame start data f = mem f := by
  funext o
  simp [writeFrame, h]

end PhysMem

/-- An address that an entry can point to: page-aligned and below `2 ^ 52`. -/
def FrameAddr (f : Nat) : Prop := f % pageSize = 0 ∧ f < 2 ^ 52

/-- A frame address has no bit where an entry keeps its flags. -/
theorem FrameAddr.testBit {f i : Nat} (h : FrameAddr f) (hi : i < 12 ∨ 52 ≤ i) :
    f.testBit i = false := by
  obtain ⟨hmod, hlt⟩ := h
  rcases hi with hi | hi
  · have hmod12 : f % 2 ^ 12 = 0 := by
      unfold pageSize at hmod
      exact hmod
    have hbit := Nat.testBit_mod_two_pow f 12 i
    rw [hmod12] at hbit
    simpa [hi] using hbit.symm
  · exact Nat.testBit_lt_two_pow (Nat.lt_of_lt_of_le hlt (Nat.pow_le_pow_right (by decide) hi))

/-- The address of an entry is its bits 12 to 51. -/
theorem testBit_entryAddr (e i : Nat) :
    (entryAddr e).testBit i = (decide (12 ≤ i ∧ i < 52) && e.testBit i) := by
  have hps : pageSize = 2 ^ 12 := by unfold pageSize; rfl
  rw [entryAddr, hps, Nat.testBit_mul_two_pow, Nat.testBit_mod_two_pow, Nat.testBit_div_two_pow]
  by_cases hlow : 12 ≤ i
  · have hhigh : i - 12 < 40 ↔ i < 52 := by omega
    simp [hlow, hhigh]
  · simp [hlow]

/-- Whatever an entry holds, its address field is that of a frame. -/
theorem frameAddr_entryAddr (e : Nat) : FrameAddr (entryAddr e) := by
  unfold FrameAddr entryAddr pageSize
  omega

/-- Of the flags only bits 0, 1, 2 and 63 are ever set. -/
theorem PageTableFlags.testBit_bits (f : PageTableFlags) {i : Nat} (h : 3 ≤ i) (h' : i ≠ 63) :
    f.bits.testBit i = false := by
  have hbool : ∀ (b : Bool) (j : Nat), 1 ≤ j → b.toNat.testBit j = false := fun b j hj =>
    Nat.testBit_lt_two_pow (Nat.lt_of_lt_of_le (Bool.toNat_lt b) (Nat.le_self_pow (by omega) 2))
  simp only [bits, Nat.testBit_or, Nat.testBit_shiftLeft]
  rw [hbool f.userAccessible _ (by omega), hbool f.writable _ (by omega),
    hbool f.present _ (by omega)]
  by_cases hhigh : 63 ≤ i
  · rw [hbool f.noExecute _ (by omega)]
    simp
  · simp [hhigh]

section

variable {a : Nat} (h : FrameAddr a) (f : PageTableFlags)
include h

/-- An entry gives back its frame … -/
theorem entryAddr_mkEntry : entryAddr (mkEntry a f) = a := by
  refine Nat.eq_of_testBit_eq fun i => ?_
  rw [testBit_entryAddr, mkEntry, Nat.testBit_or]
  by_cases hi : 12 ≤ i ∧ i < 52
  · rw [f.testBit_bits (by omega) (by omega)]
    simp [hi]
  · rw [h.testBit (by omega)]
    simp [hi]

/-- … and its flags. -/
theorem entryFlags_mkEntry : entryFlags (mkEntry a f) = f := by
  simp only [entryFlags, mkEntry, Nat.testBit_or, h.testBit (show 0 < 12 ∨ 52 ≤ 0 by decide),
    h.testBit (show 1 < 12 ∨ 52 ≤ 1 by decide), h.testBit (show 2 < 12 ∨ 52 ≤ 2 by decide),
    h.testBit (show 63 < 12 ∨ 52 ≤ 63 by decide), Bool.false_or]
  rcases f with ⟨p, w, u, x⟩
  revert p w u x
  decide

/-- The kernel makes no entry for a huge page. -/
theorem entryHuge_mkEntry : entryHuge (mkEntry a f) = false := by
  rw [entryHuge, mkEntry, Nat.testBit_or, h.testBit (by decide),
    f.testBit_bits (by decide) (by decide)]
  rfl

/-- An entry fits the 64-bit word that holds it. -/
theorem mkEntry_lt : mkEntry a f < 2 ^ 64 := by
  refine Nat.or_lt_two_pow (Nat.lt_of_lt_of_le h.2 (by decide)) ?_
  rcases f with ⟨p, w, u, x⟩
  revert p w u x
  decide

end

/-- A present entry is never taken for an empty one. -/
theorem mkEntry_ne_zero {a : Nat} (h : FrameAddr a) {f : PageTableFlags} (hf : f.present = true) :
    mkEntry a f ≠ 0 := by
  intro hzero
  have hflags := entryFlags_mkEntry h f
  rw [hzero] at hflags
  rw [← hflags] at hf
  simp [entryFlags] at hf

end KnoxOS.Vmm
