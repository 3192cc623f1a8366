import KnoxOS.Heap.Slab
import KnoxOS.Lib.Reach
import Mathlib.Data.List.Pairwise

/-!
# The two tiers of the kernel heap

`TieredAllocator` of `mm/allocator.rs`: small objects go to the slab tier when its lock is free, and
everything else to the fallback heap. Each call takes the outcome of `try_lock` and the answers of
the fallback heap as arguments. The allocations that the slab tier's own vectors make while it
holds its lock are calls with the lock taken.

`tiers_agree` says that in every run in which the lock is free whenever a slab object is freed,
every object goes back to the tier it came from, slab objects do not overlap and are aligned.
`locked_free_reaches_fallback` frees a slab object while the lock is taken.
-/

namespace KnoxOS.Heap

open Lib List Block SlabAllocator

/-- The two tiers. -/
inductive Tier where
  | slab
  | fallback
  deriving DecidableEq, Repr

/-- The slab tier and the fallback heap. -/
structure TieredAllocator where
  slab : SlabAllocator
  fallback : Fallback

def nextPowerOfTwo (n : Nat) : Nat := if n ≤ 1 then 1 else 2 ^ (Nat.log2 (n - 1) + 1)

namespace TieredAllocator

/-- `slab_alloc`; without the lock there is no object. -/
def slabAlloc (a : TieredAllocator) (lock : Bool) (page size : Nat) :
    Option Nat × TieredAllocator :=
  if lock then
    let (result, slab, fallback) := a.slab.alloc a.fallback page size
    (result, ⟨slab, fallback⟩)
  else (none, a)

/-- `slab_free`; without the lock nothing is freed. -/
def slabFree (a : TieredAllocator) (lock : Bool) (ptr size : Nat) : Bool × TieredAllocator :=
  if lock then
    let (result, slab) := a.slab.free ptr size
    (result, { a with slab := slab })
  else (false, a)

/-- The fallback branch of `alloc`. -/
def fallbackAlloc (a : TieredAllocator) (block : Nat) (layout : Layout) :
    Nat × Tier × TieredAllocator :=
  let (ptr, fallback) := a.fallback.alloc block layout
  (ptr, .fallback, { a with fallback := fallback })

/-- Allocate, with the tier that served the request. -/
def alloc (a : TieredAllocator) (layout : Layout) (lock : Bool) (page block : Nat) :
    Nat × Tier × TieredAllocator :=
  if layout.size ≤ 4096 ∧ layout.align ≤ max (nextPowerOfTwo layout.size) 8 then
    match a.slabAlloc lock page layout.size with
    | (some ptr, a) => (ptr, .slab, a)
    | (none, a) => a.fallbackAlloc block layout
  else a.fallbackAlloc block layout

/-- Deallocate, with the tier that took the object. -/
def dealloc (a : TieredAllocator) (ptr : Nat) (layout : Layout) (lock : Bool) :
    Tier × TieredAllocator :=
  let (freed, b) := if layout.size ≤ 4096 then a.slabFree lock ptr layout.size else (false, a)
  if freed then (.slab, b)
  else (.fallback, { b with fallback := b.fallback.dealloc ptr layout })

end TieredAllocator

/-! ## Runs -/

/-- An outstanding allocation with the tier that served it. -/
structure Live extends Block where
  tier : Tier
  deriving DecidableEq

/-- The allocator with its outstanding allocations. -/
structure HeapRun where
  tiers : TieredAllocator
  live : List Live

/-- Calls of the allocator, with the outcome of `try_lock` and the fallback heap's answers to the
slab tier's request for a page and to the request itself. -/
inductive HeapOp where
  | init
  | alloc (layout : Layout) (lock : Bool) (page block : Nat)
  | dealloc (ptr : Nat) (layout : Layout) (lock : Bool)

namespace HeapOp

def step (r : HeapRun) : HeapOp → HeapRun
  | init => { r with tiers := { r.tiers with slab := r.tiers.slab.init } }
  | alloc layout lock page block =>
    let (ptr, tier, tiers) := r.tiers.alloc layout lock page block
    ⟨tiers, if ptr = 0 then r.live else ⟨⟨ptr, layout⟩, tier⟩ :: r.live⟩
  | dealloc ptr layout lock =>
    ⟨(r.tiers.dealloc ptr layout lock).2, r.live.filter fun b => b.toBlock ≠ ⟨ptr, layout⟩⟩

/-- The contract of the calls: the fallback heap serves fresh aligned blocks, and an outstanding
allocation is freed with its own pointer and layout. -/
def Legal (r : HeapRun) : HeapOp → Prop
  | init => True
  | alloc layout _ page block =>
    r.tiers.fallback.Serves page pageLayout ∧ r.tiers.fallback.Serves block layout
  | dealloc ptr layout _ => ∃ b ∈ r.live, b.toBlock = ⟨ptr, layout⟩

instance (r : HeapRun) : (op : HeapOp) → Decidable (Legal r op)
  | init => inferInstanceAs (Decidable True)
  | alloc layout _ page block => inferInstanceAs (Decidable (
      r.tiers.fallback.Serves page pageLayout ∧ r.tiers.fallback.Serves block layout))
  | dealloc ptr layout _ => inferInstanceAs (Decidable (∃ b ∈ r.live, b.toBlock = ⟨ptr, layout⟩))

/-- The lock is free when a slab object is freed. -/
def Unlocked (r : HeapRun) : HeapOp → Prop
  | dealloc ptr layout lock =>
    ∀ b ∈ r.live, b.toBlock = ⟨ptr, layout⟩ → b.tier = .slab → lock = true
  | _ => True

instance (r : HeapRun) : (op : HeapOp) → Decidable (Unlocked r op)
  | init => inferInstanceAs (Decidable True)
  | alloc _ _ _ _ => inferInstanceAs (Decidable True)
  | dealloc ptr layout lock => inferInstanceAs (Decidable (
      ∀ b ∈ r.live, b.toBlock = ⟨ptr, layout⟩ → b.tier = .slab → lock = true))

end HeapOp

/-! ## The invariant -/

theorem Block.Apart.symm {a b : Block} (h : a.Apart b) : b.Apart a := Or.symm h

instance : Std.Symm Block.Apart := ⟨fun _ _ => Block.Apart.symm⟩

/-- The page of a slab. -/
def Slab.page (s : Slab) : Block := ⟨s.base, pageLayout⟩

/-- What the tiers keep between calls. -/
structure HeapRun.Tidy (r : HeapRun) : Prop where
  sane : r.tiers.slab.Sane
  apart : r.tiers.fallback.blocks.Pairwise Block.Apart
  page : ∀ e ∈ r.tiers.slab.entries, e.2.page ∈ r.tiers.fallback.blocks
  fromFallback : ∀ b ∈ r.live, b.tier = .fallback →
    b.toBlock ∈ r.tiers.fallback.blocks ∧ ∀ e ∈ r.tiers.slab.entries, e.2.base ≠ b.ptr
  fromSlab : ∀ b ∈ r.live, b.tier = .slab → ∃ i, findClass b.layout.size = some i ∧
    r.tiers.slab.Taken i b.ptr ∧ b.layout.align ≤ max (nextPowerOfTwo b.layout.size) 8
  ptrs : (r.live.map fun b => b.ptr).Nodup

open HeapOp

namespace HeapRun.Tidy

variable {r : HeapRun} {ptr : Nat} {rest : List Nat} {s : Slab} {b : Live} {i : Nat}
  {layout : Layout} {t' : SlabAllocator} {kept : List (Nat × Slab)}

theorem not_contains (hgood : s.Good) {b : Block} (h : s.page.Apart b) :
    ¬ s.contains b.ptr = true := by
  rw [hgood.contains_iff]
  unfold Apart stop Slab.page pageLayout at h
  simp only at h
  omega

section

variable (h : r.Tidy)
include h

/-- An object of the fallback heap lies in no slab. -/
theorem clear_of_fallback (hb : b ∈ r.live) (htier : b.tier = .fallback)
    (hs : r.tiers.slab.Has i s) : ¬ s.contains b.ptr = true := by
  obtain ⟨hblock, hbase⟩ := h.fromFallback b hb htier
  have hmem := has_iff.mp hs
  have hne : s.page ≠ b.toBlock := fun heq => hbase _ hmem (congrArg ptr heq)
  exact not_contains (h.sane.good i s hs).1 (h.apart.forall (h.page _ hmem) hblock hne)

/-- A block that the fallback heap serves is apart from every page: its pointer is in no slab and is
no page. -/
theorem fresh_of_serves (hserves : ∀ b ∈ r.tiers.fallback.blocks, b.Apart ⟨ptr, layout⟩) :
    (∀ i s, r.tiers.slab.Has i s → ¬ s.contains ptr = true) ∧
      ∀ e ∈ r.tiers.slab.entries, e.2.base ≠ ptr := by
  refine ⟨fun i s hs => ?_, fun e he heq => ?_⟩
  · exact not_contains (h.sane.good i s hs).1 (hserves _ (h.page _ (has_iff.mp hs)))
  · have hapart := hserves _ (h.page e he)
    unfold Apart stop Slab.page at hapart
    simp only at hapart
    omega

theorem sublist {live : List Live} (hsub : live.Sublist r.live) :
    Tidy { r with live := live } where
  sane := h.sane
  apart := h.apart
  page := h.page
  fromFallback b hb := h.fromFallback b (hsub.subset hb)
  fromSlab b hb := h.fromSlab b (hsub.subset hb)
  ptrs := h.ptrs.sublist (hsub.map _)

/-- A slab is put in, in the page of the one that gives way or a new one; slots in use stay taken.
-/
theorem put {out : List Slab} {s' : Slab} {blocks : List Block}
    (hp : r.tiers.slab.Puts t' i out s' kept) (hsane : t'.Sane)
    (hblocks : ∀ b ∈ r.tiers.fallback.blocks, b ∈ blocks) (hapart : blocks.Pairwise Block.Apart)
    (hpage : s'.page ∈ blocks) (hbase : ∀ b ∈ r.live, b.tier = .fallback → s'.base ≠ b.ptr)
    (htaken : ∀ b ∈ r.live, b.tier = .slab → ∀ j, r.tiers.slab.Taken j b.ptr → t'.Taken j b.ptr) :
    Tidy { r with tiers := ⟨t', ⟨blocks⟩⟩ } := by
  have hentries : ∀ e ∈ t'.entries, e = (i, s') ∨ e ∈ r.tiers.slab.entries := fun e he =>
    (mem_cons.mp (hp.new.mem_iff.mp he)).imp_right fun hkept =>
      hp.old.mem_iff.mpr (mem_append_right _ hkept)
  refine ⟨hsane, hapart, fun e he => ?_, fun b hb htier => ?_, fun b hb htier => ?_, h.ptrs⟩
  · rcases hentries e he with rfl | hold
    · exact hpage
    · exact hblocks _ (h.page e hold)
  · obtain ⟨hblock, hclear⟩ := h.fromFallback b hb htier
    refine ⟨hblocks _ hblock, fun e he => ?_⟩
    rcases hentries e he with rfl | hold
    · exact hbase b hb htier
    · exact hclear e hold
  · obtain ⟨j, hclass, hj, halign⟩ := h.fromSlab b hb htier
    exact ⟨j, hclass, htaken b hb htier j hj, halign⟩

/-- A slab changes its free slots, and every slot in use stays taken. -/
theorem setSlots {slots : List Nat} {n : Nat}
    (hp : r.tiers.slab.Puts t' i [s] { s with freelist := slots, allocated := n } kept)
    (hgood : Slab.Good { s with freelist := slots, allocated := n })
    (hkeep : ∀ b ∈ r.live, b.tier = .slab → ∀ idx, idx ∉ s.freelist →
      b.ptr = s.base + idx * s.objSize → idx ∉ slots) :
    Tidy { r with tiers := { r.tiers with slab := t' } } := by
  have hs := has_iff.mp (hp.had.mpr (.inl ⟨rfl, mem_singleton_self s⟩))
  refine h.put hp (hp.sane_of_slots h.sane hgood rfl rfl) (fun b hb => hb) h.apart (h.page _ hs)
    (fun b hb htier => (h.fromFallback b hb htier).2 _ hs) fun b hb htier j hj => ?_
  refine hp.taken hj fun x hx idx hlt hnot hptr => ?_
  cases mem_singleton.mp hx
  exact ⟨hlt, hkeep b hb htier idx hnot hptr, hptr⟩

/-- A slab is added in a page that the fallback heap served. -/
theorem add {page n : Nat} (hp : r.tiers.slab.Puts t' i [] (Slab.new page n) kept)
    (hsize : (r.tiers.slab.caches.map (·.objSize))[i]? = some n) (hne : page ≠ 0)
    (hpage : r.tiers.fallback.Serves page pageLayout) :
    Tidy { r with tiers := ⟨t', ⟨⟨page, pageLayout⟩ :: r.tiers.fallback.blocks⟩⟩ } := by
  obtain ⟨haligned, hserves⟩ := hpage.resolve_left hne
  have hsane : t'.Sane := by
    refine hp.sane h.sane (.new haligned (h.sane.pow n (mem_of_getElem? hsize))) hsize
      fun e he => ?_
    exact (h.fresh_of_serves hserves).2 e (hp.old.mem_iff.mpr (mem_append_right _ he))
  refine h.put hp hsane (fun b hb => mem_cons_of_mem _ hb)
    (pairwise_cons.mpr ⟨fun b hb => (hserves b hb).symm, h.apart⟩) (mem_cons_self ..)
    (fun b hb htier heq => ?_) fun b hb htier j hj => hp.taken hj nofun
  have hapart := hserves _ (h.fromFallback b hb htier).1
  unfold Apart stop at hapart
  simp only [pageLayout] at hapart
  have hptr : page = b.ptr := heq
  omega

/-- A new object of the fallback heap. -/
theorem consFallback (hserves : ∀ b ∈ r.tiers.fallback.blocks, b.Apart ⟨ptr, layout⟩) :
    Tidy ⟨{ r.tiers with fallback := ⟨⟨ptr, layout⟩ :: r.tiers.fallback.blocks⟩ },
      ⟨⟨ptr, layout⟩, .fallback⟩ :: r.live⟩ where
  sane := h.sane
  apart := pairwise_cons.mpr ⟨fun b hb => (hserves b hb).symm, h.apart⟩
  page e he := mem_cons_of_mem _ (h.page e he)
  fromFallback b hb htier := by
    rcases mem_cons.mp hb with rfl | hb
    · exact ⟨mem_cons_self .., (h.fresh_of_serves hserves).2⟩
    · obtain ⟨hblock, hbase⟩ := h.fromFallback b hb htier
      exact ⟨mem_cons_of_mem _ hblock, hbase⟩
  fromSlab b hb htier := by
    rcases mem_cons.mp hb with rfl | hb
    · cases htier
    · exact h.fromSlab b hb htier
  ptrs := by
    refine nodup_cons.mpr ⟨fun hmem => ?_, h.ptrs⟩
    obtain ⟨b, hb, heq⟩ := mem_map.mp hmem
    cases htier : b.tier with
    | slab =>
      obtain ⟨i, -, htaken, -⟩ := h.fromSlab b hb htier
      obtain ⟨x, hx, hin⟩ := h.sane.contains_of_taken htaken
      simp only at heq
      exact (h.fresh_of_serves hserves).1 i x hx (heq ▸ hin)
    | fallback =>
      have hapart := hserves _ (h.fromFallback b hb htier).1
      unfold Apart stop at hapart
      simp only at hapart heq
      omega

/-- The fallback heap takes back an object of its own. -/
theorem dropFallback (hb : b ∈ r.live) (htier : b.tier = .fallback) :
    Tidy ⟨{ r.tiers with fallback := r.tiers.fallback.dealloc b.ptr b.layout },
      r.live.filter fun x => x.toBlock ≠ b.toBlock⟩ where
  sane := h.sane
  apart := h.apart.sublist erase_sublist
  page e he := by
    refine (mem_erase_of_ne fun heq => ?_).mpr (h.page e he)
    exact (h.fromFallback b hb htier).2 e he (congrArg ptr heq)
  fromFallback x hx hxt := by
    obtain ⟨hmem, hne⟩ := mem_filter.mp hx
    obtain ⟨hblock, hbase⟩ := h.fromFallback x hmem hxt
    exact ⟨(mem_erase_of_ne (by simpa using hne)).mpr hblock, hbase⟩
  fromSlab x hx := h.fromSlab x (mem_filter.mp hx).1
  ptrs := h.ptrs.sublist (filter_sublist.map _)

/-! ### Steps -/

theorem init : (step r .init).Tidy := by
  have hentries : (step r .init).tiers.slab.entries = r.tiers.slab.entries := entries_init _
  refine ⟨h.sane.init, h.apart, ?_, ?_, fun b hb htier => ?_, h.ptrs⟩
  · rw [hentries]
    exact h.page
  · rw [hentries]
    exact h.fromFallback
  · obtain ⟨j, hclass, htaken, halign⟩ := h.fromSlab b hb htier
    exact ⟨j, hclass, htaken.init, halign⟩

section

variable (halign : layout.align ≤ max (nextPowerOfTwo layout.size) 8)
  (hclass : findClass layout.size = some i)
include halign hclass

/-- A new slab object. -/
theorem consSlab (htaken : r.tiers.slab.Taken i ptr) (hfresh : ∀ b ∈ r.live, b.ptr ≠ ptr) :
    Tidy { r with live := ⟨⟨ptr, layout⟩, .slab⟩ :: r.live } where
  sane := h.sane
  apart := h.apart
  page := h.page
  fromFallback b hb htier := by
    rcases mem_cons.mp hb with rfl | hb
    · cases htier
    · exact h.fromFallback b hb htier
  fromSlab b hb htier := by
    rcases mem_cons.mp hb with rfl | hb
    · exact ⟨i, hclass, htaken, halign⟩
    · exact h.fromSlab b hb htier
  ptrs := by
    refine nodup_cons.mpr ⟨fun hmem => ?_, h.ptrs⟩
    obtain ⟨b, hb, heq⟩ := mem_map.mp hmem
    exact hfresh b hb heq

/-- An object in a free slot. -/
theorem takeSlot {idx n : Nat} (hfree : s.freelist = idx :: rest)
    (hp : r.tiers.slab.Puts t' i [s] { s with freelist := rest, allocated := n } kept) :
    Tidy ⟨⟨t', r.tiers.fallback⟩, ⟨⟨s.base + idx * s.objSize, layout⟩, .slab⟩ :: r.live⟩ := by
  have hs : r.tiers.slab.Has i s := hp.had.mpr (.inl ⟨rfl, mem_singleton_self s⟩)
  have hgood := (h.sane.good i s hs).1
  have hmem : idx ∈ s.freelist := hfree ▸ mem_cons_self ..
  have hrest : idx ∉ rest := (nodup_cons.mp (hfree ▸ hgood.nodup)).1
  have htidy := h.setSlots hp (hgood.take hfree _) fun _ _ _ k hk _ hin =>
    hk (hfree ▸ mem_cons_of_mem _ hin)
  refine htidy.consSlab halign hclass
    ⟨_, idx, hp.has.mpr (.inl ⟨rfl, rfl⟩), hgood.lt idx hmem, hrest, rfl⟩ fun b hb heq => ?_
  cases htier : b.tier with
  | slab =>
    obtain ⟨j, -, htaken, -⟩ := h.fromSlab b hb htier
    rw [heq] at htaken
    exact h.sane.not_taken hs hmem j htaken
  | fallback =>
    have hclear := h.clear_of_fallback hb htier hs
    rw [heq] at hclear
    exact hclear (hgood.contains_slot (hgood.lt idx hmem))

omit hclass in
/-- The slab tier's answer to a request: none, with nothing changed, or a new object. -/
theorem slabAlloc {page : Nat} (hpage : r.tiers.fallback.Serves page pageLayout) (lock : Bool) :
    r.tiers.slabAlloc lock page layout.size = (none, r.tiers) ∨
      ∃ ptr tiers, r.tiers.slabAlloc lock page layout.size = (some ptr, tiers) ∧
        Tidy ⟨tiers, ⟨⟨ptr, layout⟩, .slab⟩ :: r.live⟩ := by
  unfold TieredAllocator.slabAlloc
  cases lock with
  | false => exact .inl rfl
  | true =>
    rcases alloc_cases h.sane r.tiers.fallback page layout.size with heq |
      ⟨i, t₁, heap', s, idx, rest, t', kept, hclass, hgrown, hfree, hp, heq⟩
    · left
      rw [heq]
      rfl
    · right
      have htidy : Tidy { r with tiers := ⟨t₁, heap'⟩ } := by
        cases hgrown with
        | same => exact h
        | page hne hsize hp' => exact h.add hp' hsize hne hpage
      exact ⟨_, ⟨t', heap'⟩, by rw [heq]; rfl, htidy.takeSlot halign hclass hfree hp⟩

end

/-- A block of the fallback heap is a new object of that tier. -/
theorem fallbackAlloc {block : Nat} (hserves : r.tiers.fallback.Serves block layout) :
    Tidy ⟨(r.tiers.fallbackAlloc block layout).2.2,
      if (r.tiers.fallbackAlloc block layout).1 = 0 then r.live
      else ⟨⟨(r.tiers.fallbackAlloc block layout).1, layout⟩, .fallback⟩ :: r.live⟩ := by
  unfold TieredAllocator.fallbackAlloc Fallback.alloc
  by_cases hnull : block = 0
  · simp only [if_pos hnull, if_true]
    exact h
  · simp only [if_neg hnull]
    exact h.consFallback (hserves.resolve_left hnull).2

/-- An allocation keeps the tiers tidy. -/
theorem alloc {page block : Nat} (lock : Bool) (hpage : r.tiers.fallback.Serves page pageLayout)
    (hblock : r.tiers.fallback.Serves block layout) :
    (step r (.alloc layout lock page block)).Tidy := by
  have hfallback := h.fallbackAlloc hblock
  simp only [step, TieredAllocator.alloc]
  by_cases hsmall : layout.size ≤ 4096 ∧ layout.align ≤ max (nextPowerOfTwo layout.size) 8
  · simp only [if_pos hsmall]
    rcases h.slabAlloc hsmall.2 hpage lock with heq | ⟨ptr, tiers, heq, htidy⟩
    · simp only [heq]
      exact hfallback
    · simp only [heq]
      split_ifs with hnull
      · exact htidy.sublist (sublist_cons_self ..)
      · exact htidy
  · simp only [if_neg hsmall]
    exact hfallback

/-- An object goes back to the tier it came from, a slab object to its slot. -/
theorem dealloc (hb : b ∈ r.live) {lock : Bool} (hlock : b.tier = .slab → lock = true) :
    (r.tiers.dealloc b.ptr b.layout lock).1 = b.tier ∧
      (b.tier = .slab → (r.tiers.dealloc b.ptr b.layout lock).2.slab.PutBack b.ptr) ∧
      (step r (.dealloc b.ptr b.layout lock)).Tidy := by
  cases htier : b.tier with
  | slab =>
    obtain ⟨i, hclass, htaken, -⟩ := h.fromSlab b hb htier
    obtain ⟨s, idx, t', kept, hlt, hnot, hptr, hp, heq⟩ :=
      free_of_taken h.sane hclass htaken
    have hgood := (h.sane.good i s (hp.had.mpr (.inl ⟨rfl, mem_singleton_self s⟩))).1
    have hrun : r.tiers.dealloc b.ptr b.layout lock = (.slab, { r.tiers with slab := t' }) := by
      have hsmall : b.layout.size ≤ 4096 := le_of_findClass hclass
      unfold TieredAllocator.dealloc TieredAllocator.slabFree
      simp only [hlock htier, if_true, if_pos hsmall, heq]
    refine ⟨by rw [hrun], fun _ => ?_, ?_⟩
    · rw [hrun]
      exact ⟨i, _, idx, hp.has.mpr (.inl ⟨rfl, rfl⟩), mem_cons_self .., hptr⟩
    · show HeapRun.Tidy ⟨(r.tiers.dealloc b.ptr b.layout lock).2, _⟩
      rw [hrun]
      have hrest := h.sublist (filter_sublist (l := r.live)
        (p := fun x => x.toBlock ≠ b.toBlock))
      refine hrest.setSlots hp (hgood.put hlt hnot _) fun x hx hxt k hk hkptr hin => ?_
      -- the slot that is put back is the one of another object
      obtain ⟨hmem, hne⟩ := mem_filter.mp hx
      rcases mem_cons.mp hin with rfl | hin
      · have hxb : x = b := inj_on_of_nodup_map h.ptrs hmem hb (hkptr.trans hptr.symm)
        subst hxb
        simp at hne
      · exact hk hin
  | fallback =>
    have hrun : r.tiers.dealloc b.ptr b.layout lock = (.fallback,
        { r.tiers with fallback := r.tiers.fallback.dealloc b.ptr b.layout }) := by
      have hclear := free_of_clear
        (fun i s hs => h.clear_of_fallback hb htier (i := i) (s := s) hs) b.layout.size
      unfold TieredAllocator.dealloc TieredAllocator.slabFree
      cases lock <;> split_ifs <;> simp [hclear]
    refine ⟨by rw [hrun], fun hslab => (by cases hslab), ?_⟩
    show HeapRun.Tidy ⟨(r.tiers.dealloc b.ptr b.layout lock).2, _⟩
    rw [hrun]
    exact h.dropFallback hb htier

theorem step {op : HeapOp} (hlegal : Legal r op) (hunlocked : Unlocked r op) :
    (step r op).Tidy := by
  cases op with
  | init => exact h.init
  | alloc layout lock page block => exact h.alloc lock hlegal.1 hlegal.2
  | dealloc ptr layout lock =>
    obtain ⟨b, hb, heq⟩ := hlegal
    obtain ⟨rfl, rfl⟩ := Block.mk.inj heq
    exact (h.dealloc hb (hunlocked b hb rfl)).2.2

end

/-! ### What the invariant says -/

theorem nextPowerOfTwo_le {n k : Nat} (h : n ≤ 2 ^ k) : nextPowerOfTwo n ≤ 2 ^ k := by
  unfold nextPowerOfTwo
  split_ifs with hone
  · exact Nat.one_le_two_pow
  · refine Nat.pow_le_pow_right (by omega) ((Nat.log2_lt (by omega)).mpr ?_)
    omega

/-- A slab object is aligned as its layout asks. -/
theorem aligned (h : r.Tidy) (hb : b ∈ r.live) (htier : b.tier = .slab) :
    b.layout.align ∣ b.ptr := by
  obtain ⟨i, hclass, ⟨s, idx, hs, hlt, -, hptr⟩, halign⟩ := h.fromSlab b hb htier
  have hgood := (h.sane.good i s hs).1
  have hsize := h.sane.size_le hclass hs
  obtain ⟨k, hlow, hhigh, hk⟩ := hgood.size_pow
  obtain ⟨j, hj⟩ := b.layout.align_pow
  rw [hk] at hsize
  -- the alignment is a power of two below the size of the slots, so it divides them
  have hle : b.layout.align ≤ 2 ^ k := by
    refine Nat.le_trans halign (Nat.max_le.mpr ⟨nextPowerOfTwo_le hsize, ?_⟩)
    exact Nat.pow_le_pow_right (n := 2) (by omega) hlow
  have hobj : b.layout.align ∣ s.objSize := by
    rw [hj] at hle ⊢
    rw [hk]
    exact Nat.pow_dvd_pow 2 ((Nat.pow_le_pow_iff_right (by omega)).mp hle)
  have hbase : s.objSize ∣ s.base := by
    refine Nat.dvd_trans ?_ (Nat.dvd_of_mod_eq_zero hgood.aligned)
    rw [← hgood.tiles]
    exact Nat.dvd_mul_left ..
  rw [hptr]
  exact Nat.dvd_trans hobj (Nat.dvd_add hbase (Nat.dvd_mul_left ..))

/-- Two slab objects do not overlap. -/
theorem apart_of_ne (h : r.Tidy) {a : Live} (ha : a ∈ r.live) (hb : b ∈ r.live)
    (hat : a.tier = .slab) (hbt : b.tier = .slab) (hne : a.ptr ≠ b.ptr) :
    a.toBlock.Apart b.toBlock := by
  obtain ⟨i, haclass, ⟨s, idx, hs, hlt, -, hptr⟩, -⟩ := h.fromSlab a ha hat
  obtain ⟨j, hbclass, ⟨x, idx', hx, hlt', -, hptr'⟩, -⟩ := h.fromSlab b hb hbt
  have hgood := (h.sane.good i s hs).1
  have hgood' := (h.sane.good j x hx).1
  have hsize := h.sane.size_le haclass hs
  have hsize' := h.sane.size_le hbclass hx
  unfold Apart stop
  rw [hptr, hptr'] at hne ⊢
  by_cases hsame : s = x
  · subst hsame
    have hidx : idx ≠ idx' := fun heq => hne (by rw [heq])
    have hapart := s.slot_apart hidx
    omega
  · have hbase : s.base ≠ x.base := fun heq =>
      hsame (congrArg Prod.snd
        (inj_on_of_nodup_map h.sane.pages (has_iff.mp hs) (has_iff.mp hx) heq))
    have hslot := hgood.slot_le hlt
    have hslot' := hgood'.slot_le hlt'
    have haligned := hgood.aligned
    have haligned' := hgood'.aligned
    unfold slabPageSize at *
    omega

end HeapRun.Tidy

/-- Freeing the object now, with the lock free or taken, gives it back to the tier it came from, and
a slab object to its slot. -/
def HeapRun.Routed (r : HeapRun) (b : Live) (lock : Bool) : Prop :=
  (r.tiers.dealloc b.ptr b.layout lock).1 = b.tier ∧
    (b.tier = .slab → (r.tiers.dealloc b.ptr b.layout lock).2.slab.PutBack b.ptr)

/-- In every state of a run in which the lock is free whenever a slab object is freed, slab objects
do not overlap and are aligned as their layouts ask, and freeing any object, a slab object with the
lock free, gives it back to the tier it came from. -/
theorem tiers_agree {r : HeapRun}
    (hrun : Reach HeapOp.step (fun r op => HeapOp.Legal r op ∧ HeapOp.Unlocked r op)
      ⟨⟨.new, ⟨[]⟩⟩, []⟩ r) :
    (r.live.filter (·.tier = .slab)).Pairwise (fun a b => a.toBlock.Apart b.toBlock) ∧
      (∀ b ∈ r.live, b.tier = .slab → b.layout.align ∣ b.ptr) ∧
      ∀ b ∈ r.live, ∀ lock, (b.tier = .slab → lock = true) → r.Routed b lock := by
  have htidy : r.Tidy := by
    refine hrun.invariant HeapRun.Tidy ?_ fun r op h hok => h.step hok.1 hok.2
    refine ⟨sane_new, Pairwise.nil, fun s hs => ?_, fun b hb => ?_,
      fun b hb => ?_, nodup_nil⟩
    · cases hs
    · cases hb
    · cases hb
  refine ⟨?_, fun b hb htier => htidy.aligned hb htier, fun b hb lock hlock => ?_⟩
  · have hptrs : r.live.Pairwise fun a b => a.ptr ≠ b.ptr := pairwise_map.mp htidy.ptrs
    refine (hptrs.sublist filter_sublist).imp_of_mem fun ha hb hne => ?_
    obtain ⟨ha, hat⟩ := mem_filter.mp ha
    obtain ⟨hb, hbt⟩ := mem_filter.mp hb
    exact htidy.apart_of_ne ha hb (by simpa using hat) (by simpa using hbt) hne
  · obtain ⟨htier, hslot, -⟩ := htidy.dealloc hb hlock
    exact ⟨htier, hslot⟩

/-- Twenty-four bytes aligned to eight. -/
def smallLayout : Layout := ⟨24, 8, 3, rfl⟩

/-- Two objects while the lock is free, one while it is taken, and the first freed. -/
def unlockedCalls : List HeapOp :=
  [.init, .alloc smallLayout true 0x10000 0, .alloc smallLayout true 0 0,
    .alloc smallLayout false 0 0x20000, .dealloc 0x10000 smallLayout true]

theorem tiers_agree_three_objects :
    Admitted HeapOp.step (fun r op => HeapOp.Legal r op ∧ HeapOp.Unlocked r op)
        ⟨⟨.new, ⟨[]⟩⟩, []⟩ unlockedCalls ∧
      (unlockedCalls.foldl HeapOp.step ⟨⟨.new, ⟨[]⟩⟩, []⟩).live =
        [⟨⟨0x20000, smallLayout⟩, .fallback⟩, ⟨⟨0x10020, smallLayout⟩, .slab⟩] ∧
      (unlockedCalls.foldl HeapOp.step ⟨⟨.new, ⟨[]⟩⟩, []⟩).Routed
        ⟨⟨0x20000, smallLayout⟩, .fallback⟩ false := by
  have hadmitted : Admitted step (fun r op => Legal r op ∧ Unlocked r op)
      ⟨⟨.new, ⟨[]⟩⟩, []⟩ unlockedCalls := by decide +kernel
  have hlive : (unlockedCalls.foldl step ⟨⟨.new, ⟨[]⟩⟩, []⟩).live =
      [⟨⟨0x20000, smallLayout⟩, .fallback⟩, ⟨⟨0x10020, smallLayout⟩, .slab⟩] := by
    decide +kernel
  refine ⟨hadmitted, hlive, (tiers_agree (Reach.start.foldl hadmitted)).2.2 _ ?_ false ?_⟩
  · exact mem_cons_self ..
  · intro hslab
    cases hslab

/-- A slab object freed while the lock is taken reaches the fallback heap, which never gave it out.
-/
theorem locked_free_reaches_fallback :
    ∃ r, Reach HeapOp.step HeapOp.Legal ⟨⟨.new, ⟨[]⟩⟩, []⟩ r ∧
      ∃ b ∈ r.live, b.tier = .slab ∧ b.toBlock ∉ r.tiers.fallback.blocks ∧
        (r.tiers.dealloc b.ptr b.layout false).1 = .fallback ∧ ¬ r.Routed b false := by
  have hadmitted : Admitted step Legal ⟨⟨.new, ⟨[]⟩⟩, []⟩
      [.init, .alloc smallLayout true 0x10000 0] := by decide +kernel
  refine ⟨_, Reach.start.foldl hadmitted, ⟨⟨0x10000, smallLayout⟩, .slab⟩, by decide +kernel, rfl,
    by decide +kernel, by decide +kernel, fun hrouted => ?_⟩
  have hfallback : ((([.init, .alloc smallLayout true 0x10000 0] : List HeapOp).foldl step
      ⟨⟨.new, ⟨[]⟩⟩, []⟩).tiers.dealloc 0x10000 smallLayout false).1 = .fallback := by
    decide +kernel
  have heq := hrouted.1
  rw [hfallback] at heq
  cases heq

end KnoxOS.Heap
