import KnoxOS.Lib.Word
import Mathlib.Data.List.Nodup

/-!
# The slab tier of the kernel heap

`mm/slab.rs`. A slab is one page cut into slots of a power-of-two size, with a list of its free
slots; a cache holds the slabs of one size class and takes new pages from the fallback heap. The
fallback heap is a crate outside the source: its state is the list of blocks it has handed out, and
its answers are arguments. The statistics counters are left out.

`Puts` says what a call can do to the slabs, and the spec lemmas `alloc_cases`, `free_of_taken` and
`free_of_clear` reduce every call to it.
-/

namespace KnoxOS.Heap

open Lib List

/-- The size and alignment of an allocation. -/
structure Layout where
  size : Nat
  align : Nat
  align_pow : ∃ k, align = 2 ^ k
  deriving DecidableEq

/-- A block of memory; the fallback heap gives every block at least one byte. -/
structure Block where
  ptr : Nat
  layout : Layout
  deriving DecidableEq

/-- One past the last byte. -/
def Block.stop (b : Block) : Nat := b.ptr + max b.layout.size 1

/-- Two blocks have no byte in common. -/
def Block.Apart (a b : Block) : Prop := a.stop ≤ b.ptr ∨ b.stop ≤ a.ptr

instance (a b : Block) : Decidable (a.Apart b) := inferInstanceAs (Decidable (_ ∨ _))

/-! ## The fallback heap -/

/-- The linked-list heap, as the blocks it has handed out. -/
structure Fallback where
  blocks : List Block

namespace Fallback

/-- Allocate a block; `answer` is the pointer that the heap finds, `0` for none. -/
def alloc (h : Fallback) (answer : Nat) (layout : Layout) : Nat × Fallback :=
  if answer = 0 then (0, h) else (answer, ⟨⟨answer, layout⟩ :: h.blocks⟩)

def dealloc (h : Fallback) (ptr : Nat) (layout : Layout) : Fallback :=
  ⟨h.blocks.erase ⟨ptr, layout⟩⟩

/-- What the linked-list heap guarantees: null, or an aligned block apart from every block handed
out. -/
def Serves (h : Fallback) (answer : Nat) (layout : Layout) : Prop :=
  answer = 0 ∨ answer % layout.align = 0 ∧ ∀ b ∈ h.blocks, b.Apart ⟨answer, layout⟩

instance (h : Fallback) (answer : Nat) (layout : Layout) : Decidable (h.Serves answer layout) :=
  inferInstanceAs (Decidable (_ ∨ _))

end Fallback

/-! ## Slabs -/

/-- The size classes. -/
def sizeClasses : List Nat := [8, 16, 32, 64, 128, 256, 512, 1024, 2048, 4096]

def slabPageSize : Nat := 4096

def maxSlabsPerClass : Nat := 64

/-- The layout of a slab's page. -/
def pageLayout : Layout := ⟨slabPageSize, slabPageSize, 12, rfl⟩

/-- A page divided into slots. The free ones are listed in the order they are taken in. -/
structure Slab where
  base : Nat
  objSize : Nat
  capacity : Nat
  allocated : Nat
  freelist : List Nat
  deriving DecidableEq

namespace Slab

def new (base objSize : Nat) : Slab where
  base := base
  objSize := objSize
  capacity := slabPageSize / objSize
  allocated := 0
  freelist := List.range (slabPageSize / objSize)

def alloc (s : Slab) : Option (Nat × Slab) :=
  match s.freelist with
  | [] => none
  | idx :: rest =>
    some (s.base + idx * s.objSize, { s with freelist := rest, allocated := s.allocated + 1 })

def contains (s : Slab) (ptr : Nat) : Bool :=
  ptr ≥ s.base ∧ ptr < s.base + s.capacity * s.objSize

/-- Put a slot back; nothing happens for an address that is no slot. -/
def free (s : Slab) (ptr : Nat) : Bool × Slab :=
  if ptr < s.base ∨ ptr ≥ s.base + s.capacity * s.objSize then (false, s)
  else if (ptr - s.base) % s.objSize ≠ 0 then (false, s)
  else
    (true, { s with
      freelist := (ptr - s.base) / s.objSize :: s.freelist
      allocated := subU64 s.allocated 1 })

def isFull (s : Slab) : Bool := s.freelist.isEmpty

end Slab

/-- The slabs of one size class. -/
structure SlabCache where
  objSize : Nat
  slabs : List Slab

namespace SlabCache

def new (objSize : Nat) : SlabCache := ⟨objSize, []⟩

/-- The loop of `alloc` over the slabs: the first that is not full serves the object. -/
def allocPartial : List Slab → Option (Nat × List Slab)
  | [] => none
  | s :: rest =>
    if s.isFull then (allocPartial rest).map fun (ptr, rest) => (ptr, s :: rest)
    else s.alloc.map fun (ptr, s) => (ptr, s :: rest)

/-- Allocate an object, from a new page if every slab is full. The page comes from the global
allocator, which the lock held here sends on to the fallback heap. -/
def alloc (c : SlabCache) (h : Fallback) (page : Nat) : Option Nat × SlabCache × Fallback :=
  match allocPartial c.slabs with
  | some (ptr, slabs) => (some ptr, { c with slabs := slabs }, h)
  | none =>
    if c.slabs.length ≥ maxSlabsPerClass then (none, c, h)
    else
      match h.alloc page pageLayout with
      | (0, h) => (none, c, h)
      | (base, h) =>
        let slab := Slab.new base c.objSize
        match slab.alloc with
        | none => (none, { c with slabs := c.slabs ++ [slab] }, h)
        | some (ptr, slab) => (some ptr, { c with slabs := c.slabs ++ [slab] }, h)

/-- The loop of `free`: the first slab that contains the address takes it, whatever its `free`
answers. -/
def freeIn (ptr : Nat) : List Slab → Option (List Slab)
  | [] => none
  | s :: rest =>
    if s.contains ptr then some ((s.free ptr).2 :: rest)
    else (freeIn ptr rest).map (s :: ·)

def free (c : SlabCache) (ptr : Nat) : Bool × SlabCache :=
  match freeIn ptr c.slabs with
  | some slabs => (true, { c with slabs := slabs })
  | none => (false, c)

end SlabCache

/-- The caches, which are there once `init` has run. -/
structure SlabAllocator where
  caches : List SlabCache
  initialized : Bool

/-- The class of an allocation size. -/
def findClass (size : Nat) : Option Nat := sizeClasses.findIdx? (size ≤ ·)

namespace SlabAllocator

def new : SlabAllocator := ⟨[], false⟩

def init (t : SlabAllocator) : SlabAllocator :=
  ⟨t.caches ++ sizeClasses.map SlabCache.new, true⟩

def alloc (t : SlabAllocator) (h : Fallback) (page size : Nat) :
    Option Nat × SlabAllocator × Fallback :=
  if !t.initialized then (none, t, h)
  else
    match findClass size with
    | none => (none, t, h)
    | some idx =>
      match t.caches[idx]? with
      | none => (none, t, h)
      | some cache =>
        let (result, cache, h) := cache.alloc h page
        (result, { t with caches := t.caches.set idx cache }, h)

def free (t : SlabAllocator) (ptr size : Nat) : Bool × SlabAllocator :=
  if !t.initialized then (false, t)
  else
    match findClass size with
    | none => (false, t)
    | some idx =>
      match t.caches[idx]? with
      | none => (false, t)
      | some cache =>
        let (result, cache) := cache.free ptr
        (result, { t with caches := t.caches.set idx cache })

/-- Every slab, with the position of its cache. -/
def entries (t : SlabAllocator) : List (Nat × Slab) :=
  t.caches.zipIdx.flatMap fun e => e.1.slabs.map (e.2, ·)

/-- The slab is one of the cache at `i`. -/
def Has (t : SlabAllocator) (i : Nat) (s : Slab) : Prop :=
  ∃ c, t.caches[i]? = some c ∧ s ∈ c.slabs

end SlabAllocator

/-! ## Well-formed slabs -/

/-- The slots tile an aligned page, and the free ones are listed once each. -/
structure Slab.Good (s : Slab) : Prop where
  size_pow : ∃ k, 3 ≤ k ∧ k ≤ 12 ∧ s.objSize = 2 ^ k
  tiles : s.capacity * s.objSize = slabPageSize
  aligned : s.base % slabPageSize = 0
  nodup : s.freelist.Nodup
  lt : ∀ idx ∈ s.freelist, idx < s.capacity

namespace SlabAllocator

/-- The caches follow the size classes, and distinct slabs lie in distinct pages. -/
structure Sane (t : SlabAllocator) : Prop where
  ready : t.caches ≠ [] → t.initialized = true
  classes : t.caches = [] ∨ ∃ rest, t.caches.map (·.objSize) = sizeClasses ++ rest
  pow : ∀ n ∈ t.caches.map (·.objSize), ∃ k, 3 ≤ k ∧ k ≤ 12 ∧ n = 2 ^ k
  good : ∀ i s, t.Has i s → s.Good ∧ (t.caches.map (·.objSize))[i]? = some s.objSize
  pages : (t.entries.map (·.2.base)).Nodup

/-- A slot of the cache at `i` that is not free. -/
def Taken (t : SlabAllocator) (i ptr : Nat) : Prop :=
  ∃ s idx, t.Has i s ∧ idx < s.capacity ∧ idx ∉ s.freelist ∧ ptr = s.base + idx * s.objSize

/-- A slot that is free. -/
def PutBack (t : SlabAllocator) (ptr : Nat) : Prop :=
  ∃ i s idx, t.Has i s ∧ idx ∈ s.freelist ∧ ptr = s.base + idx * s.objSize

/-- The slabs `out` of the cache at `i` give way to `s'`, and the slabs `kept` stay. -/
structure Puts (t t' : SlabAllocator) (i : Nat) (out : List Slab) (s' : Slab)
    (kept : List (Nat × Slab)) : Prop where
  initialized : t'.initialized = t.initialized
  sizes : t'.caches.map (·.objSize) = t.caches.map (·.objSize)
  old : t.entries.Perm (out.map (i, ·) ++ kept)
  new : t'.entries.Perm ((i, s') :: kept)

variable {t t' : SlabAllocator} {h : Fallback} {i : Nat} {c : SlabCache} {s s' : Slab}

theorem has_iff : t.Has i s ↔ (i, s) ∈ t.entries := by
  simp [Has, entries, mem_zipIdx_iff_getElem?]

section

variable (hc : t.caches[i]? = some c)
include hc

theorem set_self : t.caches.set i c = t.caches := by
  obtain ⟨hlt, rfl⟩ := List.getElem?_eq_some_iff.mp hc
  exact List.set_getElem_self hlt

/-- Changing the list of a cache changes what stands at one place. -/
theorem puts_set {before out after : List Slab} (hslabs : c.slabs = before ++ out ++ after)
    (s' : Slab) : ∃ kept, t.Puts
      { t with caches := t.caches.set i { c with slabs := before ++ s' :: after } } i out s'
        kept := by
  obtain ⟨hlt, hget⟩ := List.getElem?_eq_some_iff.mp hc
  obtain ⟨l₁, l₂, hl, hlen, hset⟩ : ∃ l₁ l₂, t.caches = l₁ ++ t.caches[i] :: l₂ ∧
      l₁.length = i ∧ t.caches.set i { c with slabs := before ++ s' :: after } =
        l₁ ++ { c with slabs := before ++ s' :: after } :: l₂ := exists_of_set hlt
  rw [hget] at hl
  refine ⟨l₁.zipIdx.flatMap (fun e => e.1.slabs.map (e.2, ·)) ++ before.map (i, ·) ++
    after.map (i, ·) ++ (l₂.zipIdx (i + 1)).flatMap fun e => e.1.slabs.map (e.2, ·),
    rfl, ?_, ?_, ?_⟩
  · show (t.caches.set i _).map _ = _
    rw [hset, hl]
    simp
  · refine perm_iff_count.mpr fun e => ?_
    simp [entries, hl, hlen, hslabs, zipIdx_append, count_append]
    omega
  · refine perm_iff_count.mpr fun e => ?_
    simp [entries, hset, hlen, zipIdx_append, count_append, count_cons]
    omega

end

end SlabAllocator

/-! ## Slots -/

/-- Distinct slots of a slab do not overlap. -/
theorem Slab.slot_apart (s : Slab) {a b : Nat} (hne : a ≠ b) :
    a * s.objSize + s.objSize ≤ b * s.objSize ∨ b * s.objSize + s.objSize ≤ a * s.objSize := by
  rcases Nat.lt_or_gt_of_ne hne with hlt | hlt
  · left
    rw [← Nat.succ_mul]
    exact Nat.mul_le_mul_right _ hlt
  · right
    rw [← Nat.succ_mul]
    exact Nat.mul_le_mul_right _ hlt

namespace Slab.Good

variable {s s' : Slab}

theorem objSize_pos (h : s.Good) : 0 < s.objSize := by
  obtain ⟨k, -, -, hk⟩ := h.size_pow
  rw [hk]
  exact Nat.two_pow_pos k

variable {idx : Nat}

section

variable (h : s.Good)
include h

theorem slot_le (hlt : idx < s.capacity) : idx * s.objSize + s.objSize ≤ slabPageSize := by
  rw [← h.tiles, ← Nat.succ_mul]
  exact Nat.mul_le_mul_right _ hlt

theorem base_eq {ptr : Nat} (hlow : s.base ≤ ptr) (hhigh : ptr < s.base + slabPageSize) :
    s.base = ptr / slabPageSize * slabPageSize := by
  have haligned := h.aligned
  unfold slabPageSize at *
  omega

theorem contains_iff {ptr : Nat} :
    s.contains ptr = true ↔ s.base ≤ ptr ∧ ptr < s.base + slabPageSize := by
  rw [Slab.contains, h.tiles]
  simp

theorem contains_slot (hlt : idx < s.capacity) : s.contains (s.base + idx * s.objSize) = true := by
  have hslot := h.slot_le hlt
  have hpos := h.objSize_pos
  rw [h.contains_iff]
  omega

/-- Freeing a slot lists it first. -/
theorem free_slot (hlt : idx < s.capacity) :
    s.free (s.base + idx * s.objSize) =
      (true, { s with freelist := idx :: s.freelist, allocated := subU64 s.allocated 1 }) := by
  have hslot := h.slot_le hlt
  have hpos := h.objSize_pos
  have hoff : s.base + idx * s.objSize - s.base = idx * s.objSize := by omega
  unfold Slab.free
  rw [h.tiles, if_neg (by omega), hoff, Nat.mul_mod_left, if_neg (by simp),
    Nat.mul_div_cancel _ hpos]

end

/-- A new slab is well formed, with every slot free. -/
theorem new {base size : Nat} (hbase : base % slabPageSize = 0)
    (hsize : ∃ k, 3 ≤ k ∧ k ≤ 12 ∧ size = 2 ^ k) : (Slab.new base size).Good where
  size_pow := hsize
  tiles := by
    obtain ⟨k, -, hk, hpow⟩ := hsize
    rw [hpow]
    exact Nat.div_mul_cancel (Nat.pow_dvd_pow (n := 12) 2 hk)
  aligned := hbase
  nodup := nodup_range
  lt _ hidx := mem_range.mp hidx

/-- Taking the first free slot keeps a slab well formed. -/
theorem take (h : s.Good) {rest : List Nat} (hfree : s.freelist = idx :: rest) (allocated : Nat) :
    Slab.Good { s with freelist := rest, allocated := allocated } where
  size_pow := h.size_pow
  tiles := h.tiles
  aligned := h.aligned
  nodup := (nodup_cons.mp (hfree ▸ h.nodup)).2
  lt a ha := h.lt a (hfree ▸ mem_cons_of_mem _ ha)

/-- Putting back a slot that is not free keeps a slab well formed. -/
theorem put (h : s.Good) (hlt : idx < s.capacity) (hnot : idx ∉ s.freelist) (allocated : Nat) :
    Slab.Good { s with freelist := idx :: s.freelist, allocated := allocated } where
  size_pow := h.size_pow
  tiles := h.tiles
  aligned := h.aligned
  nodup := nodup_cons.mpr ⟨hnot, h.nodup⟩
  lt a ha := by
    rcases mem_cons.mp ha with rfl | ha
    · exact hlt
    · exact h.lt a ha

end Slab.Good

namespace SlabAllocator

variable {t t' : SlabAllocator} {i : Nat} {s s' : Slab} {j ptr size : Nat} {out : List Slab}
  {kept : List (Nat × Slab)}

/-- An address lies in one slab only. -/
theorem Sane.slab_unique (h : t.Sane) {x y : Slab} (hx : t.Has i x) (hy : t.Has j y)
    (hxp : x.contains ptr = true) (hyp : y.contains ptr = true) : x = y := by
  have hxg := (h.good i x hx).1
  have hyg := (h.good j y hy).1
  rw [hxg.contains_iff] at hxp
  rw [hyg.contains_iff] at hyp
  have hbase : x.base = y.base :=
    (hxg.base_eq hxp.1 hxp.2).trans (hyg.base_eq hyp.1 hyp.2).symm
  exact congrArg Prod.snd
    (inj_on_of_nodup_map h.pages (has_iff.mp hx) (has_iff.mp hy) hbase)

theorem Puts.has (hp : t.Puts t' i out s' kept) : t'.Has j s ↔ j = i ∧ s = s' ∨ (j, s) ∈ kept := by
  rw [has_iff, hp.new.mem_iff, mem_cons, Prod.mk.injEq]

theorem Puts.had (hp : t.Puts t' i out s' kept) : t.Has j s ↔ j = i ∧ s ∈ out ∨ (j, s) ∈ kept := by
  rw [has_iff, hp.old.mem_iff, mem_append]
  simp [and_comm, eq_comm]

/-- A well-formed slab in a page of its own keeps the caches sane. -/
theorem Puts.sane (h : t.Sane) (hp : t.Puts t' i out s' kept) (hgood : s'.Good)
    (hsize : (t.caches.map (·.objSize))[i]? = some s'.objSize)
    (hpage : ∀ e ∈ kept, e.2.base ≠ s'.base) : t'.Sane := by
  have hempty : t'.caches = [] ↔ t.caches = [] := by
    rw [← map_eq_nil_iff (f := (·.objSize)), hp.sizes, map_eq_nil_iff]
  refine ⟨fun hne => ?_, ?_, hp.sizes ▸ h.pow, fun j x hx => ?_, ?_⟩
  · rw [hp.initialized]
    exact h.ready fun heq => hne (hempty.mpr heq)
  · rw [hempty, hp.sizes]
    exact h.classes
  · rw [hp.sizes]
    rcases hp.has.mp hx with ⟨rfl, rfl⟩ | hkept
    · exact ⟨hgood, hsize⟩
    · exact h.good j x (hp.had.mpr (.inr hkept))
  · have hold := (hp.old.map (·.2.base)).nodup_iff.mp h.pages
    rw [map_append] at hold
    refine (hp.new.map _).nodup_iff.mpr (nodup_cons.mpr ⟨fun hmem => ?_, hold.of_append_right⟩)
    obtain ⟨e, he, heq⟩ := mem_map.mp hmem
    exact hpage e he heq

/-- A slab that changes its free slots only keeps the caches sane. -/
theorem Puts.sane_of_slots (h : t.Sane) (hp : t.Puts t' i [s] s' kept) (hgood : s'.Good)
    (hbase : s'.base = s.base) (hsize : s'.objSize = s.objSize) : t'.Sane := by
  have hold := (hp.old.map (·.2.base)).nodup_iff.mp h.pages
  have hself := (h.good i s (hp.had.mpr (.inl ⟨rfl, mem_singleton_self s⟩))).2
  refine hp.sane h hgood (hsize ▸ hself) fun e he heq => ?_
  exact (nodup_cons.mp hold).1 (mem_map.mpr ⟨e, he, heq.trans hbase⟩)

/-- A slot stays taken, where the slabs that give way hand it on. -/
theorem Puts.taken (hp : t.Puts t' i out s' kept) (h : t.Taken j ptr)
    (hout : ∀ s ∈ out, ∀ idx < s.capacity, idx ∉ s.freelist → ptr = s.base + idx * s.objSize →
      idx < s'.capacity ∧ idx ∉ s'.freelist ∧ ptr = s'.base + idx * s'.objSize) :
    t'.Taken j ptr := by
  obtain ⟨x, idx, hx, hlt, hnot, hptr⟩ := h
  rcases hp.had.mp hx with ⟨rfl, hx⟩ | hkept
  · exact ⟨s', idx, hp.has.mpr (.inl ⟨rfl, rfl⟩), hout x hx idx hlt hnot hptr⟩
  · exact ⟨x, idx, hp.has.mpr (.inr hkept), hlt, hnot, hptr⟩

theorem Sane.contains_of_taken (h : t.Sane) (htaken : t.Taken j ptr) :
    ∃ x, t.Has j x ∧ x.contains ptr = true := by
  obtain ⟨x, idx, hx, hlt, -, rfl⟩ := htaken
  exact ⟨x, hx, (h.good j x hx).1.contains_slot hlt⟩

/-- A free slot is not taken. -/
theorem Sane.not_taken (h : t.Sane) (hs : t.Has i s) {idx : Nat} (hfree : idx ∈ s.freelist)
    (j : Nat) : ¬ t.Taken j (s.base + idx * s.objSize) := by
  rintro ⟨x, idx', hx, hlt, hnot, hptr⟩
  have hgood := (h.good i s hs).1
  have hin := hgood.contains_slot (hgood.lt idx hfree)
  have hxs : x = s := h.slab_unique hx hs (hptr ▸ (h.good j x hx).1.contains_slot hlt) hin
  subst hxs
  have hidx : idx = idx' :=
    Nat.eq_of_mul_eq_mul_right hgood.objSize_pos (Nat.add_left_cancel hptr)
  exact hnot (hidx ▸ hfree)

theorem sane_new : new.Sane := by
  refine ⟨fun hne => absurd rfl hne, .inl rfl, fun n hn => ?_, fun i s hs => ?_, nodup_nil⟩
  · cases hn
  · obtain ⟨c, hc, -⟩ := hs
    cases hc

/-- The classes are the powers of two from 8 to a page. -/
theorem sizeClasses_pow {n : Nat} (h : n ∈ sizeClasses) : ∃ k, 3 ≤ k ∧ k ≤ 12 ∧ n = 2 ^ k := by
  have hclasses : sizeClasses = (range 10).map fun k => 2 ^ (k + 3) := by decide
  rw [hclasses] at h
  obtain ⟨k, hk, rfl⟩ := mem_map.mp h
  have hlt := mem_range.mp hk
  exact ⟨k + 3, by omega, by omega, rfl⟩

theorem entries_init (t : SlabAllocator) : t.init.entries = t.entries := by
  simp [entries, SlabAllocator.init, SlabCache.new, sizeClasses, zipIdx_append]

theorem has_init : t.init.Has i s ↔ t.Has i s := by
  rw [has_iff, has_iff, entries_init]

theorem Taken.init (h : t.Taken j ptr) : t.init.Taken j ptr := by
  obtain ⟨s, idx, hs, hrest⟩ := h
  exact ⟨s, idx, has_init.mpr hs, hrest⟩

/-- Initialising adds empty caches behind those that are there. -/
theorem Sane.init (h : t.Sane) : t.init.Sane := by
  have hsizes : t.init.caches.map (·.objSize) = t.caches.map (·.objSize) ++ sizeClasses := by
    rw [SlabAllocator.init, map_append]
    rfl
  refine ⟨fun _ => rfl, .inr ?_, fun n hn => ?_, fun i s hs => ?_, entries_init t ▸ h.pages⟩
  · rw [hsizes]
    rcases h.classes with hnil | ⟨rest, hrest⟩
    · exact ⟨[], by simp [hnil]⟩
    · exact ⟨rest ++ sizeClasses, by simp [hrest]⟩
  · rw [hsizes, mem_append] at hn
    rcases hn with hn | hn
    · exact h.pow n hn
    · exact sizeClasses_pow hn
  · obtain ⟨hgood, hsize⟩ := h.good i s (has_init.mp hs)
    refine ⟨hgood, ?_⟩
    rw [hsizes, List.getElem?_append_left (List.getElem?_eq_some_iff.mp hsize).1, hsize]

/-! ## Size classes -/

/-- The class of a size is the first power of two from 8 that holds it. -/
theorem findClass_eq_some (h : findClass size = some i) :
    ∃ n, sizeClasses[i]? = some n ∧ size ≤ n := by
  obtain ⟨hlt, hle, -⟩ := findIdx?_eq_some_iff_getElem.mp h
  exact ⟨sizeClasses[i], getElem?_eq_getElem hlt, by simpa using hle⟩

theorem le_of_findClass (h : findClass size = some i) : size ≤ 4096 := by
  obtain ⟨n, hn, hle⟩ := findClass_eq_some h
  have hmax : ∀ n ∈ sizeClasses, n ≤ 4096 := by decide
  exact Nat.le_trans hle (hmax n (mem_of_getElem? hn))

/-- The slabs of a class have the class's size. -/
theorem Sane.size_le (h : t.Sane) (hclass : findClass size = some i) (hs : t.Has i s) :
    size ≤ s.objSize := by
  obtain ⟨n, hn, hle⟩ := findClass_eq_some hclass
  have hsize := (h.good i s hs).2
  rcases h.classes with hnil | ⟨rest, hrest⟩
  · rw [hnil] at hsize
    cases hsize
  · rw [hrest, List.getElem?_append_left (List.getElem?_eq_some_iff.mp hn).1, hn] at hsize
    exact Option.some.inj hsize ▸ hle

/-! ## What the calls do -/

/-- The loop of `alloc` takes the first free slot of a slab, or finds every slab full. -/
theorem allocPartial_cases (slabs : List Slab) :
    SlabCache.allocPartial slabs = none ∨
      ∃ before s after idx rest, slabs = before ++ s :: after ∧ s.freelist = idx :: rest ∧
        SlabCache.allocPartial slabs = some (s.base + idx * s.objSize,
          before ++ { s with freelist := rest, allocated := s.allocated + 1 } :: after) := by
  induction slabs with
  | nil => exact .inl rfl
  | cons s rest ih =>
    unfold SlabCache.allocPartial
    cases hfree : s.freelist with
    | nil =>
      have hfull : s.isFull = true := by simp [Slab.isFull, hfree]
      rw [if_pos hfull]
      rcases ih with hnone | ⟨before, s', after, idx, rest', hslabs, hfree', heq⟩
      · left
        rw [hnone]
        rfl
      · right
        refine ⟨s :: before, s', after, idx, rest', by rw [hslabs]; rfl, hfree', ?_⟩
        rw [heq]
        rfl
    | cons idx rest' =>
      have hfull : ¬ s.isFull = true := by simp [Slab.isFull, hfree]
      rw [if_neg hfull]
      refine .inr ⟨[], s, rest, idx, rest', rfl, hfree, ?_⟩
      rw [Slab.alloc, hfree]
      rfl

/-- The loop of `free` puts the address back into the first slab that contains it. -/
theorem freeIn_cases (ptr : Nat) (slabs : List Slab) :
    (SlabCache.freeIn ptr slabs = none ∧ ∀ s ∈ slabs, ¬ s.contains ptr = true) ∨
      ∃ before s after, slabs = before ++ s :: after ∧ s.contains ptr = true ∧
        SlabCache.freeIn ptr slabs = some (before ++ (s.free ptr).2 :: after) := by
  induction slabs with
  | nil => exact .inl ⟨rfl, fun s hs => nomatch hs⟩
  | cons s rest ih =>
    unfold SlabCache.freeIn
    by_cases hin : s.contains ptr = true
    · rw [if_pos hin]
      exact .inr ⟨[], s, rest, rfl, hin, rfl⟩
    · rw [if_neg hin]
      rcases ih with ⟨hnone, hout⟩ | ⟨before, s', after, hslabs, hin', heq⟩
      · left
        rw [hnone]
        refine ⟨rfl, fun x hx => ?_⟩
        rcases mem_cons.mp hx with rfl | hx
        · exact hin
        · exact hout x hx
      · right
        refine ⟨s :: before, s', after, by rw [hslabs]; rfl, hin', ?_⟩
        rw [heq]
        rfl

/-- A cache fails to allocate and stays as it was, or takes the first free slot of a slab, of a new
one if the others are full. -/
theorem cache_alloc_cases (c : SlabCache) (hpow : ∃ k, 3 ≤ k ∧ k ≤ 12 ∧ c.objSize = 2 ^ k)
    (heap : Fallback) (page : Nat) :
    c.alloc heap page = (none, c, heap) ∨
      ∃ slabs heap' before s after idx rest,
        (slabs = c.slabs ∧ heap' = heap ∨ page ≠ 0 ∧
          slabs = c.slabs ++ [Slab.new page c.objSize] ∧
          heap' = ⟨⟨page, pageLayout⟩ :: heap.blocks⟩) ∧
        slabs = before ++ [s] ++ after ∧ s.freelist = idx :: rest ∧
        c.alloc heap page = (some (s.base + idx * s.objSize),
          { c with slabs :=
              before ++ { s with freelist := rest, allocated := s.allocated + 1 } :: after },
          heap') := by
  unfold SlabCache.alloc
  rcases allocPartial_cases c.slabs with hfull | ⟨before, s, after, idx, rest, hslabs, hfree, heq⟩
  · rw [hfull]
    simp only
    by_cases hmany : c.slabs.length ≥ maxSlabsPerClass
    · exact .inl (if_pos hmany)
    · rw [if_neg hmany]
      by_cases hnull : page = 0
      · left
        rw [Fallback.alloc, if_pos hnull]
        rfl
      · -- a slab of a class has at least one slot
        have hslots : ∃ idx rest, (Slab.new page c.objSize).freelist = idx :: rest := by
          obtain ⟨k, -, hk, hpow⟩ := hpow
          have hpos : slabPageSize / c.objSize ≠ 0 := by
            rw [hpow]
            exact Nat.div_ne_zero_iff.mpr ⟨by simp, Nat.pow_le_pow_right (by omega) hk⟩
          exact exists_cons_of_ne_nil (mt range_eq_nil.mp hpos)
        obtain ⟨idx, rest, hfree⟩ := hslots
        refine .inr ⟨_, _, c.slabs, _, [], idx, rest, .inr ⟨hnull, rfl, rfl⟩,
          (append_nil _).symm, hfree, ?_⟩
        have halloc : (Slab.new page c.objSize).alloc = some (page + idx * c.objSize,
            { Slab.new page c.objSize with freelist := rest, allocated := 1 }) := by
          rw [Slab.alloc, hfree]
          rfl
        rw [Fallback.alloc, if_neg hnull]
        split
        · next heq => exact absurd (Prod.mk.inj heq).1 hnull
        · next heq =>
            obtain ⟨rfl, rfl⟩ := Prod.mk.inj heq
            simp only [halloc]
            rfl
  · rw [heq]
    exact .inr ⟨_, heap, before, s, after, idx, rest, .inl ⟨rfl, rfl⟩, by simp [hslabs], hfree, rfl⟩

/-- Before a slot of the cache at `i` is taken, the slab tier is as it was or has a new slab in the
page from the heap. -/
inductive Grown (t : SlabAllocator) (heap : Fallback) (page i : Nat) :
    SlabAllocator → Fallback → Prop where
  | same : Grown t heap page i t heap
  | page {t' : SlabAllocator} {n : Nat} {kept : List (Nat × Slab)} (hne : page ≠ 0)
      (hsize : (t.caches.map (·.objSize))[i]? = some n)
      (hp : t.Puts t' i [] (Slab.new page n) kept) :
      Grown t heap page i t' ⟨⟨page, pageLayout⟩ :: heap.blocks⟩

/-- An allocation fails and changes nothing, or takes the first free slot of a slab. -/
theorem alloc_cases (h : t.Sane) (heap : Fallback) (page size : Nat) :
    t.alloc heap page size = (none, t, heap) ∨
      ∃ i t₁ heap' s idx rest t' kept, findClass size = some i ∧ Grown t heap page i t₁ heap' ∧
        s.freelist = idx :: rest ∧
        t₁.Puts t' i [s] { s with freelist := rest, allocated := s.allocated + 1 } kept ∧
        t.alloc heap page size = (some (s.base + idx * s.objSize), t', heap') := by
  unfold SlabAllocator.alloc
  by_cases hinit : t.initialized = true
  swap
  · exact .inl (by simp [hinit])
  rw [if_neg (by simp [hinit])]
  split
  · exact .inl rfl
  · next i hclass =>
      split
      · exact .inl rfl
      · next c hc =>
          have hsize : (t.caches.map (·.objSize))[i]? = some c.objSize := by
            rw [getElem?_map, hc]
            rfl
          have hpow := h.pow c.objSize (mem_of_getElem? hsize)
          rcases cache_alloc_cases c hpow heap page with heq |
            ⟨slabs, heap', before, s, after, idx, rest, hgrown, hslabs, hfree, heq⟩
          · left
            rw [heq]
            simp only [set_self hc]
          · right
            -- the slot is taken once the slabs are those of `t₁`
            let t₁ : SlabAllocator := { t with caches := t.caches.set i { c with slabs := slabs } }
            have hc₁ : t₁.caches[i]? = some { c with slabs := slabs } :=
              List.getElem?_set_self (List.getElem?_eq_some_iff.mp hc).1
            obtain ⟨kept, hp⟩ := puts_set hc₁ hslabs
              { s with freelist := rest, allocated := s.allocated + 1 }
            refine ⟨i, t₁, heap', s, idx, rest, _, kept, hclass, ?_, hfree, hp, ?_⟩
            · rcases hgrown with ⟨rfl, rfl⟩ | ⟨hne, rfl, rfl⟩
              · have hsame : t₁ = t := by
                  show { t with caches := t.caches.set i c } = t
                  rw [set_self hc]
                rw [hsame]
                exact .same
              · have hplace : c.slabs = c.slabs ++ [] ++ [] := by simp
                obtain ⟨kept', hp'⟩ := puts_set hc hplace (Slab.new page c.objSize)
                exact .page hne hsize hp'
            · rw [heq]
              simp [t₁, List.set_set]

/-- Freeing a taken slot of the class puts it back. -/
theorem free_of_taken (h : t.Sane) (hclass : findClass size = some i) (htaken : t.Taken i ptr) :
    ∃ s idx t' kept, idx < s.capacity ∧ idx ∉ s.freelist ∧ ptr = s.base + idx * s.objSize ∧
      t.Puts t' i [s]
        { s with freelist := idx :: s.freelist, allocated := subU64 s.allocated 1 } kept ∧
      t.free ptr size = (true, t') := by
  obtain ⟨s, idx, hs, hlt, hnot, rfl⟩ := htaken
  have hgood := (h.good i s hs).1
  obtain ⟨c, hc, hmem⟩ := hs
  have hinit : t.initialized = true := h.ready fun hnil => by rw [hnil] at hc; cases hc
  have hin := hgood.contains_slot hlt
  unfold SlabAllocator.free SlabCache.free
  rw [if_neg (by simp [hinit]), hclass]
  simp only [hc]
  rcases freeIn_cases (s.base + idx * s.objSize) c.slabs with ⟨-, hout⟩ |
    ⟨before, x, after, hslabs, hx, heq⟩
  · exact absurd hin (hout s hmem)
  · have hxs : x = s := h.slab_unique ⟨c, hc, by rw [hslabs]; simp⟩ ⟨c, hc, hmem⟩ hx hin
    subst hxs
    rw [hgood.free_slot hlt] at heq
    rw [heq]
    have hplace : c.slabs = before ++ [x] ++ after := by simp [hslabs]
    obtain ⟨kept, hp⟩ := puts_set hc hplace
      { x with freelist := idx :: x.freelist, allocated := subU64 x.allocated 1 }
    exact ⟨x, idx, _, kept, hlt, hnot, rfl, hp, rfl⟩

/-- Freeing an address outside every slab changes nothing. -/
theorem free_of_clear (hclear : ∀ i s, t.Has i s → ¬ s.contains ptr = true) (size : Nat) :
    t.free ptr size = (false, t) := by
  unfold SlabAllocator.free SlabCache.free
  split
  · rfl
  · split
    · rfl
    · next i hclass =>
        split
        · rfl
        · next c hc =>
            rcases freeIn_cases ptr c.slabs with ⟨heq, -⟩ | ⟨before, x, after, hslabs, hx, -⟩
            · rw [heq]
              simp only [set_self hc]
            · exact absurd hx (hclear i x ⟨c, hc, by rw [hslabs]; simp⟩)

end SlabAllocator

end KnoxOS.Heap
