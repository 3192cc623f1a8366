import KnoxOS.Lib.Bitmap
import KnoxOS.Lib.Bytes
import KnoxOS.Lib.Map

/-!
# The swap manager

The swap areas, packed swap entries and page tables of `mm/swap.rs`. An area hands out slots by
scanning its bitmap for the first clear bit; a `SwapEntry` packs an area and a slot into the 64
bits of a page-table entry; the manager maps `(pid, vaddr)` to entries and slots to page contents.
-/

namespace KnoxOS.Swap

open Lib Std

def pageSize : Nat := 4096

def maxSwapAreas : Nat := 32

/-- A swap area; bit `i` of `slotMap` says that slot `i` is used. -/
structure SwapArea where
  path : String
  totalSlots : Nat
  usedSlots : Nat
  priority : Int
  active : Bool
  slotMap : List (BitVec 8)
deriving DecidableEq

namespace SwapArea

def new (path : String) (totalPages : Nat) (priority : Int) : SwapArea where
  path := path
  totalSlots := totalPages
  usedSlots := 0
  priority := priority
  active := false
  slotMap := List.replicate ((totalPages + 7) / 8) 0#8

/-- The bit loop of `alloc_slot` over one byte: `some none` when the slots end inside the byte,
`some (some slot)` at the first clear bit and `none` to go on with the next byte. -/
def scanByte (byte : BitVec 8) (byteIdx totalSlots : Nat) : Nat → Nat → Option (Option Nat)
  | 0, _ => none
  | fuel + 1, bit =>
    if byteIdx * 8 + bit ≥ totalSlots then some none
    else if byte &&& (1#8 <<< bit) = 0 then some (some (byteIdx * 8 + bit))
    else scanByte byte byteIdx totalSlots fuel (bit + 1)

/-- The byte loop of `alloc_slot`. -/
def scanMap (totalSlots : Nat) : List (BitVec 8) → Nat → Option Nat
  | [], _ => none
  | byte :: bytes, byteIdx =>
    if byte ≠ 0xFF#8 then
      match scanByte byte byteIdx totalSlots 8 0 with
      | some result => result
      | none => scanMap totalSlots bytes (byteIdx + 1)
    else scanMap totalSlots bytes (byteIdx + 1)

/-- Allocate the first free slot. -/
def allocSlot (area : SwapArea) : Option (Nat × SwapArea) :=
  match scanMap area.totalSlots area.slotMap 0 with
  | none => none
  | some slot =>
    some (slot, { area with
      slotMap := Bitmap.set area.slotMap slot
      usedSlots := area.usedSlots + 1 })

def isSlotUsed (area : SwapArea) (slot : Nat) : Bool :=
  if slot ≥ area.totalSlots then false else Bitmap.test area.slotMap slot

/-- Free a slot; a slot out of range or already free is left alone. -/
def freeSlot (area : SwapArea) (slot : Nat) : SwapArea :=
  if area.isSlotUsed slot then
    { area with slotMap := Bitmap.clear area.slotMap slot, usedSlots := area.usedSlots - 1 }
  else area

def freeSlots (area : SwapArea) : Nat := area.totalSlots - area.usedSlots

end SwapArea

/-- A swapped page's 64-bit page-table entry: bit 1 set, the area in bits 2 to 6, the slot in
bits 7 to 63. -/
structure SwapEntry where
  val : Nat
deriving DecidableEq

namespace SwapEntry

def new (areaId slot : Nat) : SwapEntry :=
  ⟨(1 <<< 1) ||| ((areaId &&& 0x1F) <<< 2) ||| (slot <<< 7 % 2 ^ 64)⟩

def areaId (e : SwapEntry) : Nat := (e.val >>> 2) &&& 0x1F

def slot (e : SwapEntry) : Nat := e.val >>> 7

end SwapEntry

/-- A page that may be chosen for eviction. -/
structure PageInfo where
  virtAddr : Nat
  pid : Nat
  accessCount : Nat
  lastAccessTick : Nat
  pinned : Bool
deriving DecidableEq

structure SwapManager where
  areas : List SwapArea
  totalSwapPages : Nat
  usedSwapPages : Nat
  /-- The entry of every swapped `(pid, vaddr)`. -/
  swappedPages : TreeMap (Nat × Nat) SwapEntry
  /-- The contents of every `(area, slot)`. -/
  slotData : TreeMap (Nat × Nat) (List UInt8)
  lruPages : List PageInfo

namespace SwapManager

def new : SwapManager := ⟨[], 0, 0, ∅, ∅, []⟩

/-- Activate a swap area of `sizeBytes`. -/
def swapon (m : SwapManager) (path : String) (sizeBytes : UInt64) (priority : Int) :
    Except String Nat × SwapManager :=
  if m.areas.length ≥ maxSwapAreas then (.error "too many swap areas", m)
  else
    let totalPages := sizeBytes.toNat / pageSize
    if totalPages = 0 then (.error "swap area too small", m)
    else
      (.ok m.areas.length, { m with
        areas := m.areas ++ [{ SwapArea.new path totalPages priority with active := true }]
        totalSwapPages := m.totalSwapPages + totalPages })

/-- Deactivate the first active area of that path, unless it holds pages. -/
def swapoff (m : SwapManager) (path : String) : Except String Unit × SwapManager :=
  match m.areas.findIdx? (fun a => a.path == path && a.active) with
  | none => (.error "swap area not found or not active", m)
  | some i =>
    match m.areas[i]? with
    | none => (.error "swap area not found or not active", m)
    | some a =>
      if a.usedSlots > 0 then
        (.error "swap area has pages in use, page them in first", m)
      else
        (.ok (), { m with
          areas := m.areas.set i { a with active := false }
          totalSwapPages := m.totalSwapPages - a.totalSlots })

/-- The loop of `alloc_swap_slot`: the first area of the highest priority with a free slot. -/
def bestArea : List SwapArea → Nat → Option (Nat × Int) → Option (Nat × Int)
  | [], _, best => best
  | area :: areas, i, best =>
    if !area.active || area.freeSlots = 0 then bestArea areas (i + 1) best
    else
      match best with
      | none => bestArea areas (i + 1) (some (i, area.priority))
      | some (j, bp) =>
        if area.priority > bp then bestArea areas (i + 1) (some (i, area.priority))
        else bestArea areas (i + 1) (some (j, bp))

/-- Take a slot of the best area. -/
def allocSwapSlot (m : SwapManager) : Option (SwapEntry × SwapManager) :=
  match bestArea m.areas 0 none with
  | none => none
  | some (idx, _) =>
    match m.areas[idx]? with
    | none => none
    | some area =>
      match area.allocSlot with
      | none => none
      | some (slot, area) =>
        some (SwapEntry.new idx slot, { m with
          areas := m.areas.set idx area
          usedSwapPages := m.usedSwapPages + 1 })

/-- Free the slot of an entry. -/
def freeSwapSlot (m : SwapManager) (entry : SwapEntry) : SwapManager :=
  match m.areas[entry.areaId]? with
  | none => m
  | some area =>
    { m with
      areas := m.areas.set entry.areaId (area.freeSlot entry.slot)
      usedSwapPages := m.usedSwapPages - 1 }

/-- Store a page in a swap slot and remember where. -/
def pageOut (m : SwapManager) (pid vaddr : Nat) (data : List UInt8) :
    Option SwapEntry × SwapManager :=
  match m.allocSwapSlot with
  | none => (none, m)
  | some (entry, m) =>
    (some entry, { m with
      slotData := m.slotData.insert (entry.areaId, entry.slot) (padTo pageSize data)
      swappedPages := m.swappedPages.insert (pid, vaddr) entry })

/-- Give a swapped page back and free its slot. -/
def pageIn (m : SwapManager) (pid vaddr : Nat) : Option (List UInt8) × SwapManager :=
  match m.swappedPages[(pid, vaddr)]? with
  | none => (none, m)
  | some entry =>
    let data := (m.slotData[(entry.areaId, entry.slot)]?).getD (List.replicate pageSize 0)
    (some data, { m with
      swappedPages := m.swappedPages.erase (pid, vaddr)
      slotData := m.slotData.erase (entry.areaId, entry.slot) }.freeSwapSlot entry)

def isSwapped (m : SwapManager) (pid vaddr : Nat) : Bool :=
  m.swappedPages.contains (pid, vaddr)

/-- Remember a page as a candidate for eviction, unless it is pinned. -/
def trackPage (m : SwapManager) (info : PageInfo) : SwapManager :=
  if info.pinned then m else { m with lruPages := m.lruPages ++ [info] }

/-- The loop of `select_victim`: the first unpinned page of the lowest score. -/
def victimIdx : List PageInfo → Nat → Nat → Option Nat → Option Nat
  | [], _, _, best => best
  | page :: pages, i, bestScore, best =>
    if page.pinned then victimIdx pages (i + 1) bestScore best
    else if page.accessCount * 1000 + page.lastAccessTick < bestScore then
      victimIdx pages (i + 1) (page.accessCount * 1000 + page.lastAccessTick) (some i)
    else victimIdx pages (i + 1) bestScore best

/-- Take the page to evict next out of the candidates. -/
def selectVictim (m : SwapManager) : Option (PageInfo × SwapManager) :=
  match victimIdx m.lruPages 0 (2 ^ 64 - 1) none with
  | none => none
  | some i =>
    match m.lruPages[i]? with
    | none => none
    | some page => some (page, { m with lruPages := m.lruPages.eraseIdx i })

/-- Remember an anonymous page of a process as a candidate for eviction. -/
def trackAnonPage (m : SwapManager) (pid vaddr : Nat) : SwapManager :=
  m.trackPage ⟨vaddr, pid, 0, 0, false⟩

end SwapManager

end KnoxOS.Swap
