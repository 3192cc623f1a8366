import KnoxOS.Vmm.Areas
import KnoxOS.Vmm.Refine

/-!
# The methods of an address space as moves of the memory manager

Each method of `AddressSpace`, run on a good machine and given addresses in private slots, moves
the abstract memory manager. A `Scene` fixes what the methods of one space leave alone, `At` ties
an `Mm` to a configuration, and `Leads` says that a method goes from one such pair to another.
-/

namespace KnoxOS.Vmm

open Lib Mm List

/-! ## Private areas -/

/-- The addresses from `start` up to `stop` lie in slots that the template leaves unused. -/
structure Boot.PrivateRange (b : Boot) (start stop : Nat) : Prop where
  le : start ≤ stop
  lt : stop < 2 ^ 64
  slots : ∀ v, start ≤ v → v < stop → b.Private v

/-- The areas of a space, keyed by their starts, and the pages it has to copy are private. -/
structure Placed (b : Boot) (s : AddressSpace) : Prop where
  keyed : ∀ (p : Nat) (a : VirtualMemoryArea), s.vmas[p]? = some a → a.start = p
  areas : ∀ (p : Nat) (a : VirtualMemoryArea), s.vmas[p]? = some a →
    b.PrivateRange a.start a.stop
  cow : ∀ p f : Nat, s.cowPages[p]? = some f → b.Private p

section

variable {b : Boot} {s t : AddressSpace} {start addr : Nat}

theorem mem_pagesFrom {n v : Nat} :
    v ∈ pagesFrom start n ↔ ∃ i < n, u64 (start + i * pageSize) = v := by
  simp [pagesFrom]

theorem Boot.PrivateRange.pages {stop n : Nat} (h : b.PrivateRange start stop)
    (hn : start + n * pageSize ≤ stop) : ∀ v ∈ pagesFrom start n, b.Private v := by
  intro v hv
  obtain ⟨i, hi, rfl⟩ := mem_pagesFrom.mp hv
  have hlt := h.lt
  unfold pageSize at *
  rw [u64_of_lt (by omega)]
  exact h.slots _ (by omega) (by omega)

/-- Cutting an area touches neither tables nor frames. -/
theorem cutVma_fields (s : AddressSpace) (start : Nat) (vma : VirtualMemoryArea)
    (addr stop : Nat) : (s.cutVma start vma addr stop).cr3 = s.cr3 ∧
      (s.cutVma start vma addr stop).ownedFrames = s.ownedFrames ∧
      (s.cutVma start vma addr stop).cowPages = s.cowPages := by
  unfold AddressSpace.cutVma
  simp only
  split <;> split <;> exact ⟨rfl, rfl, rfl⟩

variable {vma : VirtualMemoryArea} (h : Placed b s)
include h

theorem Placed.of_eq (hvmas : t.vmas = s.vmas) (hcow : t.cowPages = s.cowPages) : Placed b t :=
  ⟨hvmas ▸ h.keyed, hvmas ▸ h.areas, hcow ▸ h.cow⟩

theorem Placed.addVma (hvma : b.PrivateRange vma.start vma.stop) : Placed b (s.addVma vma) where
  keyed p a ha := by
    obtain ⟨heq, rfl⟩ | ⟨-, ha⟩ := lookup_insert_some ha
    · exact heq
    · exact h.keyed p a ha
  areas p a ha := by
    obtain ⟨-, rfl⟩ | ⟨-, ha⟩ := lookup_insert_some ha
    · exact hvma
    · exact h.areas p a ha
  cow := h.cow

/-- Changing an area in place, but for its bounds. -/
theorem Placed.updateVma (addr : Nat) {f : VirtualMemoryArea → VirtualMemoryArea}
    (hf : ∀ vma, (f vma).start = vma.start ∧ (f vma).stop = vma.stop) :
    Placed b (s.updateVma addr f) := by
  unfold AddressSpace.updateVma
  split
  next start vma hlast =>
    split
    · have hvma := (lastLE_eq_some hlast).1
      have hkey := h.keyed start vma hvma
      have hinsert : s.vmas.insert start (f vma) = s.vmas.insert (f vma).start (f vma) := by
        rw [(hf vma).1, hkey]
      have harea : b.PrivateRange (f vma).start (f vma).stop := by
        rw [(hf vma).1, (hf vma).2]
        exact h.areas start vma hvma
      exact (h.addVma harea).of_eq hinsert rfl
    · exact h
  next => exact h

/-- Cutting a range out of an area leaves private pieces. -/
theorem Placed.cutVma {stop : Nat} (hvma : s.vmas[start]? = some vma)
    (hmeets : vma.start < stop ∧ addr < vma.stop) : Placed b (s.cutVma start vma addr stop) := by
  obtain ⟨hle, hlt, hslots⟩ := h.areas start vma hvma
  refine ⟨fun p a ha => ?_, fun p a ha => ?_, fun p f hf =>
    h.cow p f ((cutVma_fields s start vma addr stop).2.2 ▸ hf)⟩
  · rcases lookup_cutVma ha with ⟨-, ha⟩ | ⟨hp, -, rfl⟩ | ⟨hp, -, rfl⟩
    · exact h.keyed p a ha
    · exact hp.symm
    · exact hp.symm
  · rcases lookup_cutVma ha with ⟨-, ha⟩ | ⟨-, hleft, rfl⟩ | ⟨-, hright, rfl⟩
    · exact h.areas p a ha
    · exact ⟨Nat.le_of_lt hleft, Nat.lt_trans hmeets.2 hlt, fun v hv hv' =>
        hslots v hv (Nat.lt_trans hv' hmeets.2)⟩
    · exact ⟨Nat.le_of_lt hright, hlt, fun v hv =>
        hslots v (Nat.le_trans (Nat.le_of_lt hmeets.1) hv)⟩

omit h in
/-- The area found for an address is an area of the space that contains it. -/
theorem findVma_eq_some (h : s.findVma addr = some vma) :
    ∃ p : Nat, s.vmas[p]? = some vma ∧ vma.start ≤ addr ∧ addr < vma.stop := by
  unfold AddressSpace.findVma at h
  split at h
  next start vma' hlast =>
    split at h
    next hcontains =>
      cases h
      exact ⟨start, (lastLE_eq_some hlast).1, VirtualMemoryArea.contains_iff.mp hcontains⟩
    next => cases h
  next => cases h

theorem Placed.private_of_findVma (hfind : s.findVma addr = some vma) : b.Private addr := by
  obtain ⟨p, hvma, hle, hlt⟩ := findVma_eq_some hfind
  exact (h.areas p vma hvma).slots addr hle hlt

end

/-! ## An address space in a configuration -/

/-- What the methods of one space leave alone: the kernel template, the root of the space, the
frames of the other spaces, and whether write access is only granted apart. -/
structure Scene where
  boot : Boot
  root : Nat
  rest : Multiset Nat
  apart : Prop

/-- The space is one of the live spaces of the configuration. -/
structure At (x : Scene) (cfg : Config) (mm : Mm) : Prop where
  m : cfg.m = mm.m
  cr3 : mm.space.cr3 = x.root
  live : x.root ∈ cfg.live
  owned : cfg.owned = x.rest + (mm.space.ownedFrames : Multiset Nat)
  good : Good x.boot cfg
  placed : Placed x.boot mm.space

/-- The memory manager has moved, and with it the space and no other. -/
structure Follows (x : Scene) (cfg cfg' : Config) (mm' : Mm) : Prop where
  now : At x cfg' mm'
  live : cfg'.live = cfg.live
  steps : ViewSteps x.apart (view x.boot cfg) (view x.boot cfg')
  spares : cfg.Spares x.boot x.root cfg'

/-- From wherever it is, the space moves to `mm'`. -/
def Leads (x : Scene) (mm mm' : Mm) : Prop :=
  ∀ cfg, At x cfg mm → ∃ cfg', Follows x cfg cfg' mm'

section

variable {x : Scene} {cfg cfg' cfg'' : Config} {mm mm' mm'' : Mm}

theorem At.refl (h : At x cfg mm) : Follows x cfg cfg mm := ⟨h, rfl, .refl, .refl⟩

theorem Follows.trans (h : Follows x cfg cfg' mm') (h' : Follows x cfg' cfg'' mm'') :
    Follows x cfg cfg'' mm'' :=
  ⟨h'.now, h'.live.trans h.live, Relation.ReflTransGen.trans h.steps h'.steps,
    h.spares.trans h'.spares⟩

theorem Follows.next (h : Follows x cfg cfg' mm') (h' : Leads x mm' mm'') :
    ∃ cfg'', Follows x cfg cfg'' mm'' := by
  obtain ⟨cfg'', hlast⟩ := h' cfg' h.now
  exact ⟨cfg'', h.trans hlast⟩

theorem Leads.refl (x : Scene) (mm : Mm) : Leads x mm mm := fun cfg h => ⟨cfg, h.refl⟩

theorem Leads.trans (h : Leads x mm mm') (h' : Leads x mm' mm'') : Leads x mm mm'' := by
  intro cfg hat
  obtain ⟨cfg', hfirst⟩ := h cfg hat
  exact hfirst.next h'

variable {vma : VirtualMemoryArea} {pages : List Nat} {vaddr : Nat} {m : Machine}
  {f stop addr size : Nat} {flags : PageTableFlags} {prot : ProtFlags}

theorem allocatePhysicalFrame_eq_some {m' : Machine} (h : m.allocatePhysicalFrame = (some f, m')) :
    ∃ pool, m.pool.allocate = (some f, pool) ∧ m' = { m with pool := pool } := by
  unfold Machine.allocatePhysicalFrame at h
  split at h
  next pool hpool =>
    cases h
    exact ⟨pool, hpool, rfl⟩
  next => cases h

/-! ### The primitives -/

section

variable (h : At x cfg mm)
include h

theorem At.setSpace {s : AddressSpace} (hcr3 : s.cr3 = mm.space.cr3)
    (howned : s.ownedFrames = mm.space.ownedFrames) (hplaced : Placed x.boot s) :
    Follows x cfg cfg { mm with space := s } := by
  refine ⟨⟨h.m, hcr3.trans h.cr3, h.live, ?_, h.good, hplaced⟩, rfl, .refl, .refl⟩
  rw [howned]
  exact h.owned

theorem At.addVma (hvma : x.boot.PrivateRange vma.start vma.stop) :
    Follows x cfg cfg { mm with space := mm.space.addVma vma } :=
  h.setSpace rfl rfl (h.placed.addVma hvma)

theorem At.updateVma (addr : Nat) {f : VirtualMemoryArea → VirtualMemoryArea}
    (hf : ∀ vma, (f vma).start = vma.start ∧ (f vma).stop = vma.stop) :
    Follows x cfg cfg { mm with space := mm.space.updateVma addr f } := by
  refine h.setSpace ?_ ?_ (h.placed.updateVma addr hf)
  all_goals
    unfold AddressSpace.updateVma
    split
    · split <;> rfl
    · rfl

theorem At.mem_owned (hf : f ∈ mm.space.ownedFrames) : f ∈ cfg.owned := by
  rw [h.owned]
  exact Multiset.mem_add.mpr (.inr hf)

theorem At.setMachine (hs : SameSpaces cfg cfg') (hm : cfg'.m = m)
    (hmoves : Moves x.apart x.boot x.root cfg cfg') : Follows x cfg cfg' { mm with m := m } :=
  ⟨⟨hm, h.cr3, hs.live ▸ h.live, hs.owned ▸ h.owned, hmoves.good, h.placed⟩, hs.live, hmoves.steps,
    hmoves.spares⟩

/-- Writing outside the tables, or changing what is neither memory nor pool. -/
theorem At.write (htemplate : m.kernelL4 = mm.m.kernelL4) (hpool : m.pool = mm.m.pool)
    (htables : ∀ t ∈ (view x.boot cfg).tables, m.mem t = mm.m.mem t)
    (hdata : ∀ c p f, c ≠ x.root → (view x.boot cfg).frame c p = some f → m.mem f = mm.m.mem f) :
    ∃ cfg', Follows x cfg cfg' { mm with m := m } ∧ view x.boot cfg' = view x.boot cfg := by
  rw [← h.m] at htemplate hpool htables hdata
  obtain ⟨hgood, hview⟩ := h.good.write htemplate hpool htables
  refine ⟨{ cfg with m := m }, h.setMachine ⟨rfl, rfl⟩ rfl ⟨hgood, ?_, fun c p hc => ⟨?_, fun f =>
    hdata c p f hc⟩⟩, hview⟩
  · rw [hview]
    exact .refl
  · rw [hview]

/-- Only the space maps the frame, if any does. -/
def Scene.Alone (x : Scene) (cfg : Config) (f : Nat) : Prop :=
  ∀ c p, (view x.boot cfg).frame c p = some f → c = x.root

/-- Writing to a frame of the space. -/
theorem At.setMem (hf : f ∈ mm.space.ownedFrames) (halone : x.Alone cfg f) (mem : PhysMem)
    (hmem : ∀ g, g ≠ f → mem g = mm.m.mem g) :
    ∃ cfg', Follows x cfg cfg' (mm.setMem mem) ∧ view x.boot cfg' = view x.boot cfg := by
  obtain ⟨-, htable⟩ := h.good.sound.used f (.inl (h.mem_owned hf))
  exact h.write rfl rfl (fun t ht => hmem t fun heq => htable (heq ▸ ht))
    fun c p g hc hg => hmem g fun heq => hc (halone c p (heq ▸ hg))

/-- Without a free frame only the candidates for eviction change. -/
theorem At.allocate_none (halloc : mm.m.allocatePhysicalFrame = (none, m)) :
    ∃ cfg', Follows x cfg cfg' { mm with m := m } := by
  unfold Machine.allocatePhysicalFrame at halloc
  split at halloc
  next => cases halloc
  next pool hpool =>
    cases halloc
    obtain ⟨cfg', hfollows, -⟩ := h.write
      (m := { mm.m with pool := pool, swap := Machine.dropVictims 16 mm.m.swap }) rfl
      (PhysicalFramePool.allocate_none hpool).1 (fun _ _ => rfl) fun _ _ _ _ _ => rfl
    exact ⟨cfg', hfollows⟩

/-- A frame from the pool becomes a frame of the space that nothing maps. -/
theorem At.own {pool : PhysicalFramePool} (halloc : mm.m.pool.allocate = (some f, pool)) :
    ∃ cfg', Follows x cfg cfg' ({ mm with m := { mm.m with pool := pool } }.own f) ∧
      (view x.boot cfg').Unmapped f := by
  obtain ⟨cfg', hm, hlive, howned, hmoves, hun⟩ := h.good.own x.apart x.root (h.m ▸ halloc)
  refine ⟨cfg', ⟨⟨?_, h.cr3, hlive ▸ h.live, ?_, hmoves.good, h.placed.of_eq rfl rfl⟩, hlive,
    hmoves.steps, hmoves.spares⟩, hun⟩
  · rw [hm, h.m]
    rfl
  · show cfg'.owned = x.rest + ((mm.space.ownedFrames ++ [f] : List Nat) : Multiset Nat)
    rw [howned, h.owned, ← Multiset.coe_add, ← add_assoc, Multiset.coe_singleton,
      ← Multiset.singleton_add, add_comm]

/-- Mapping a page to a frame of the space that nothing maps. -/
theorem At.mapPage {page : Nat} (hpage : x.boot.Private page) (hf : f ∈ mm.space.ownedFrames)
    (hun : (view x.boot cfg).Unmapped f) (hflags : flags.present = true) :
    ∃ cfg', Follows x cfg cfg' (mm.mapPage page f flags) ∧ x.Alone cfg' f := by
  obtain ⟨cfg', hs, hm, hmoves⟩ := h.good.mapPage h.live hpage (h.mem_owned hf) hun hflags
  rw [h.m, ← h.cr3] at hm
  refine ⟨cfg', h.setMachine hs hm hmoves, fun c p hmap => ?_⟩
  by_contra hc
  exact hun c p ((hmoves.spares c p hc).1 ▸ hmap)

/-- Unmapping a list of pages; what is still mapped was mapped before. -/
theorem At.unmapPages (pages : List Nat) (hpages : ∀ v ∈ pages, x.boot.Private v) :
    ∃ cfg', Follows x cfg cfg' (mm.unmapPages pages) ∧ ∀ d p f,
      (view x.boot cfg').frame d p = some f → (view x.boot cfg).frame d p = some f := by
  unfold Mm.unmapPages
  induction pages generalizing cfg mm with
  | nil => exact ⟨cfg, h.refl, fun _ _ _ => id⟩
  | cons v pages ih =>
    obtain ⟨cfg₁, hs, hm, hmoves, hfewer⟩ := h.good.unmapPage h.live (hpages v mem_cons_self)
    rw [h.m, ← h.cr3] at hm
    have hone := h.setMachine hs hm hmoves
    obtain ⟨cfg₂, hrest, hfewer'⟩ := ih hone.now fun w hw => hpages w (mem_cons_of_mem v hw)
    exact ⟨cfg₂, hone.trans hrest, fun d p f hf => hfewer d p f (hfewer' d p f hf)⟩

/-- Re-flagging a list of pages. -/
theorem At.updatePages (flags : PageTableFlags) (hpages : ∀ v ∈ pages, x.boot.Private v)
    (hflags : flags.present = true)
    (hok : x.apart → flags.writable = true → ∀ v ∈ pages, (view x.boot cfg).Alone x.root (vpn v)) :
    ∃ cfg', Follows x cfg cfg' (mm.updatePages flags pages) := by
  unfold Mm.updatePages
  induction pages generalizing cfg mm with
  | nil => exact ⟨cfg, h.refl⟩
  | cons v pages ih =>
    obtain ⟨cfg₁, hs, hm, hmoves, hframes⟩ := h.good.updatePage h.live (hpages v mem_cons_self)
      hflags fun hapart hwrite => hok hapart hwrite v mem_cons_self
    rw [h.m, ← h.cr3] at hm
    have hone := h.setMachine hs hm hmoves
    obtain ⟨cfg₂, hrest⟩ := ih hone.now (fun w hw => hpages w (mem_cons_of_mem v hw))
      fun hapart hwrite w hw => by
        simp only [Mappings.Alone, hframes]
        exact hok hapart hwrite w (mem_cons_of_mem v hw)
    exact ⟨cfg₂, hone.trans hrest⟩

/-! ### Fresh pages -/

/-- A fresh page: the frame it gets becomes a frame of the space. -/
theorem At.mapZeroedPage {page : Nat} (hpage : x.boot.Private page) (hflags : flags.present = true)
    {r : Option Nat} (hrun : mm.mapZeroedPage flags page = (r, mm')) :
    ∃ cfg', Follows x cfg cfg' mm' ∧ ∀ f ∈ r, f ∈ mm'.space.ownedFrames ∧ x.Alone cfg' f := by
  unfold Mm.mapZeroedPage at hrun
  split at hrun
  next m halloc =>
    cases hrun
    obtain ⟨cfg', hfollows⟩ := h.allocate_none halloc
    exact ⟨cfg', hfollows, fun f hf => by cases hf⟩
  next frame m halloc =>
    obtain ⟨pool, hpool, rfl⟩ := allocatePhysicalFrame_eq_some halloc
    obtain ⟨cfg₁, hown, hun⟩ := h.own hpool
    have hmem : frame ∈ ({ mm with m := { mm.m with pool := pool } }.own frame).space.ownedFrames :=
      mem_append_right _ (mem_singleton_self frame)
    obtain ⟨cfg₂, hmap, halone⟩ := hown.now.mapPage hpage hmem hun hflags
    obtain ⟨cfg₃, hzero, hview⟩ := hmap.now.setMem hmem halone _ fun g hg =>
      PhysMem.zeroFrame_of_ne _ hg
    cases hrun
    refine ⟨cfg₃, (hown.trans hmap).trans hzero, fun f hf => ?_⟩
    cases hf
    exact ⟨hmem, fun c p hp => halone c p (hview ▸ hp)⟩

end

theorem leads_trackAnonPage (page : Nat) : Leads x mm (mm.trackAnonPage page) := by
  intro cfg h
  obtain ⟨cfg', hfollows, -⟩ := h.write
    (m := { mm.m with swap := mm.m.swap.trackAnonPage mm.space.pid page }) rfl rfl
    (fun _ _ => rfl) fun _ _ _ _ _ => rfl
  exact ⟨cfg', hfollows⟩

/-- A loop over fresh pages. -/
theorem leads_mapZeroedPages {finish : Nat → Nat → Mm → Mm}
    (hfinish : ∀ page frame mm, Leads x mm (finish page frame mm))
    (hflags : flags.present = true) (hpages : ∀ v ∈ pages, x.boot.Private v) {ok : Bool}
    (hrun : mapZeroedPages flags finish pages mm = (ok, mm')) : Leads x mm mm' := by
  induction pages generalizing mm with
  | nil =>
    cases hrun
    exact .refl x _
  | cons page pages ih =>
    intro cfg h
    have hpage := hpages page mem_cons_self
    unfold mapZeroedPages at hrun
    split at hrun
    next mm₁ hone =>
      cases hrun
      obtain ⟨cfg₁, hfollows, -⟩ := h.mapZeroedPage hpage hflags hone
      exact ⟨cfg₁, hfollows⟩
    next frame mm₁ hone =>
      obtain ⟨cfg₁, hfirst, -⟩ := h.mapZeroedPage hpage hflags hone
      exact hfirst.next ((hfinish page frame mm₁).trans
        (ih (fun v hv => hpages v (mem_cons_of_mem _ hv)) hrun))

/-! ### Mapping -/

/-- Where the kernel places a mapping is private. -/
def PlacesPrivate (b : Boot) (s : AddressSpace) (addr size : Nat) (flags : MmapFlags) : Prop :=
  ∀ vaddr, (s.placeMmap addr (pageAlignUp size) flags).1 = some vaddr →
    b.PrivateRange vaddr (vaddr + pageAlignUp size)

/-- Populating a private range maps fresh pages in it. -/
theorem leads_populate {numPages : Nat} {flags : MmapFlags}
    (hrange : x.boot.PrivateRange vaddr stop) (hpages : vaddr + numPages * pageSize ≤ stop)
    {ok : Bool}
    (hrun : (if flags.populate then mm.populate vaddr numPages prot else (true, mm)) = (ok, mm')) :
    Leads x mm mm' := by
  split at hrun
  · exact leads_mapZeroedPages (fun page _ _ => leads_trackAnonPage page) rfl (hrange.pages hpages)
      hrun
  · cases hrun
    exact .refl x mm

/-- Anonymous mappings, lazy or populated. -/
theorem leads_mmapAnonymous (prot : ProtFlags) {flags : MmapFlags}
    (hplace : PlacesPrivate x.boot mm.space addr size flags) :
    Leads x mm (mm.mmapAnonymous addr size prot flags).2 := by
  intro cfg h
  unfold Mm.mmapAnonymous
  simp only
  split
  next => exact ⟨cfg, h.refl⟩
  next =>
    obtain ⟨next, hspace⟩ := placeMmap_space mm.space addr (pageAlignUp size) flags
    have hmoved : Follows x cfg cfg
        { mm with space := (mm.space.placeMmap addr (pageAlignUp size) flags).2 } := by
      rw [hspace]
      exact h.setSpace rfl rfl (h.placed.of_eq rfl rfl)
    split
    next space heq =>
      rw [heq] at hmoved
      exact ⟨cfg, hmoved⟩
    next vaddr space heq =>
      have hrange := hplace vaddr (by rw [heq])
      rw [heq] at hmoved
      have hdiv : vaddr + pageAlignUp size / pageSize * pageSize ≤ vaddr + pageAlignUp size :=
        Nat.add_le_add_left (Nat.div_mul_le_self ..) _
      split
      next mm₁ hpop => exact hmoved.next (leads_populate hrange hdiv hpop)
      next mm₁ hpop =>
        obtain ⟨cfg₁, hfollows⟩ := hmoved.next (leads_populate hrange hdiv hpop)
        refine ⟨cfg₁, hfollows.trans (hfollows.now.addVma ?_)⟩
        show x.boot.PrivateRange vaddr (u64 (vaddr + pageAlignUp size))
        rw [u64_of_lt hrange.lt]
        exact hrange

/-! ### Unmapping and protecting -/

/-- The pages that an area shares with a range it meets are pages of the area. -/
theorem private_overlapPages {b : Boot} (hvma : b.PrivateRange vma.start vma.stop)
    (hle : addr ≤ stop) (hmeets : vma.start < stop ∧ addr < vma.stop) :
    ∀ v ∈ overlapPages vma addr stop, b.Private v := by
  obtain ⟨hstart, hlt, hslots⟩ := hvma
  have hrange : b.PrivateRange (max vma.start addr) (min vma.stop stop) :=
    ⟨by omega, by omega, fun v hv hv' => hslots v (by omega) (by omega)⟩
  refine hrange.pages ?_
  have hsub : subU64 (min vma.stop stop) (max vma.start addr) =
      min vma.stop stop - max vma.start addr := by
    rw [subU64, u64]
    omega
  rw [hsub]
  have hdiv := Nat.div_mul_le_self (min vma.stop stop - max vma.start addr) pageSize
  omega

/-- One round of `munmap` on an area that the range meets. -/
theorem At.munmapVma (h : At x cfg mm) {start : Nat} (hvma : mm.space.vmas[start]? = some vma)
    (hle : addr ≤ stop) (hmeets : vma.start < stop ∧ addr < vma.stop) :
    ∃ cfg', Follows x cfg cfg' (Mm.munmapVma addr stop mm start) := by
  obtain ⟨cfg', hunmap, -⟩ := h.unmapPages _
    (private_overlapPages (h.placed.areas start vma hvma) hle hmeets)
  obtain ⟨hcr3, howned, -⟩ := cutVma_fields mm.space start vma addr stop
  have hcut := hunmap.now.setSpace (s := mm.space.cutVma start vma addr stop)
    (by rw [unmapPages_space, hcr3]) (by rw [unmapPages_space, howned])
    (h.placed.cutVma hvma hmeets)
  rw [Mm.munmapVma, hvma]
  exact ⟨cfg', hunmap.trans hcut⟩

/-- The loop of `munmap` over areas that all meet the range. -/
theorem leads_munmapVmas (hle : addr ≤ stop) {starts : List Nat}
    (hcut : ToCut mm.space addr stop starts) :
    Leads x mm (starts.foldl (Mm.munmapVma addr stop) mm) := by
  induction starts generalizing mm with
  | nil => exact .refl x mm
  | cons start starts ih =>
    intro cfg h
    have hlater := ih (hcut.next h.placed.keyed)
    cases hvma : mm.space.vmas[start]? with
    | none =>
      rw [munmapVma_of_none hvma] at hlater
      rw [foldl_cons, munmapVma_of_none hvma]
      exact hlater cfg h
    | some vma =>
      obtain ⟨cfg₁, hfirst⟩ := h.munmapVma hvma hle (hcut.meets start mem_cons_self vma hvma)
      exact hfirst.next hlater

theorem leads_munmap (hfits : pageAlignDown addr + pageAlignUp size < 2 ^ 64) :
    Leads x mm (mm.munmap addr size).2 := by
  intro cfg h
  unfold Mm.munmap
  simp only [u64_of_lt hfits]
  exact leads_munmapVmas (Nat.le_add_right _ _) (toCut_overlapping h.placed.keyed _ _) cfg h

/-- The pages whose flags `mprotect` replaces. -/
def protectPages (addr size : Nat) : List Nat :=
  pagesFrom (pageAlignDown addr) (pageAlignUp size / pageSize)

/-- Changing the protection is a sequence of abstract changes. -/
theorem At.mprotect (h : At x cfg mm) (hfits : pageAlignDown addr + pageAlignUp size < 2 ^ 64)
    (hok : x.apart → prot.write = true →
      ∀ v ∈ protectPages addr size, (view x.boot cfg).Alone x.root (vpn v)) :
    ∃ cfg', Follows x cfg cfg' (mm.mprotect addr size prot).2 := by
  unfold Mm.mprotect
  split
  next => exact ⟨cfg, h.refl⟩
  next =>
    simp only [u64_of_lt hfits]
    split
    next => exact ⟨cfg, h.refl⟩
    next vma hfind =>
      split
      next hinside =>
        obtain ⟨p, hvma, hle, hlt⟩ := findVma_eq_some hfind
        obtain ⟨-, hstop, hslots⟩ := h.placed.areas p vma hvma
        have hrange : x.boot.PrivateRange (pageAlignDown addr) vma.stop :=
          ⟨Nat.le_of_lt hlt, hstop, fun v hv hv' => hslots v (Nat.le_trans hle hv) hv'⟩
        have hupdate := h.updateVma (pageAlignDown addr) (f := fun vma => { vma with prot := prot })
          fun _ => ⟨rfl, rfl⟩
        have hdiv := Nat.div_mul_le_self (pageAlignUp size) pageSize
        have hpages : ∀ v ∈ protectPages addr size, x.boot.Private v := hrange.pages (by omega)
        obtain ⟨cfg', hflags⟩ := hupdate.now.updatePages prot.toPageFlags hpages rfl hok
        exact ⟨cfg', hupdate.trans hflags⟩
      next => exact ⟨cfg, h.refl⟩

/-! ### The break -/

/-- The pages that a new break maps or unmaps are private. -/
def BreaksPrivate (b : Boot) (s : AddressSpace) (newBrk : Nat) : Prop :=
  let newEnd := pageAlignUp (pageAlignUp newBrk)
  let oldEnd := pageAlignUp s.brk
  (pageAlignUp newBrk > s.brk →
    ∀ v ∈ pagesFrom oldEnd (subU64 newEnd oldEnd / pageSize), b.Private v) ∧
  (pageAlignUp newBrk < s.brk →
    ∀ v ∈ pagesFrom newEnd (subU64 oldEnd newEnd / pageSize), b.Private v)

/-- Moving the break maps or unmaps private pages. -/
theorem leads_brk {newBrk : Nat} (hprivate : BreaksPrivate x.boot mm.space newBrk) :
    Leads x mm (mm.brk newBrk).2 := by
  have hmove : ∀ mm n, Leads x mm { mm with space := { mm.space with brk := n } } :=
    fun mm n cfg h => ⟨cfg, h.setSpace rfl rfl (h.placed.of_eq rfl rfl)⟩
  unfold Mm.brk
  split
  next => exact .refl x mm
  next =>
    extract_lets newBrk' oldEnd newEnd shrunk
    split
    next => exact .refl x mm
    next =>
      split
      next hgrow =>
        have hpages := hprivate.1 hgrow
        split
        next mm₁ hrun => exact leads_mapZeroedPages (fun _ _ => .refl x) rfl hpages hrun
        next mm₁ hrun =>
          exact (leads_mapZeroedPages (fun _ _ => .refl x) rfl hpages hrun).trans (hmove mm₁ _)
      next =>
        split
        next hshrink =>
          have hpages : ∀ v ∈ pagesFrom newEnd (subU64 oldEnd newEnd / pageSize),
              x.boot.Private v := hprivate.2 hshrink
          have hunmap : Leads x mm shrunk := by
            intro cfg h
            obtain ⟨cfg₁, hfollows, -⟩ := h.unmapPages _ hpages
            exact ⟨cfg₁, hfollows⟩
          exact hunmap.trans (hmove shrunk _)
        next => exact hmove mm _

/-! ### Faults -/

variable {faultAddr page : Nat} {handled : Bool}

theorem faultFlags_present (s : AddressSpace) (page : Nat) :
    (faultFlags s page).present = true := by
  unfold faultFlags
  split <;> rfl

/-- Resolving a write to a page that a fork shared. -/
theorem leads_handleCowFault (hrun : mm.handleCowFault faultAddr = (handled, mm')) :
    Leads x mm mm' := by
  intro cfg h
  unfold handleCowFault at hrun
  simp only at hrun
  split at hrun
  next =>
    cases hrun
    exact ⟨cfg, h.refl⟩
  next original hcow =>
    have hpage := h.placed.cow _ _ hcow
    split at hrun
    next m halloc =>
      cases hrun
      exact h.allocate_none halloc
    next frame m halloc =>
      cases hrun
      obtain ⟨pool, hpool, rfl⟩ := allocatePhysicalFrame_eq_some halloc
      obtain ⟨cfg₁, hown, hun⟩ := h.own hpool
      set owning := { mm with m := { mm.m with pool := pool } }.own frame
      have hmem : frame ∈ owning.space.ownedFrames :=
        mem_append_right _ (mem_singleton_self frame)
      obtain ⟨cfg₂, hcopy, hview⟩ := hown.now.setMem hmem (fun c p hp => absurd hp (hun c p))
        (owning.m.mem.copyFrame original frame) fun g hg => by
          funext o
          simp [PhysMem.copyFrame, hg]
      obtain ⟨cfg₃, hunmap, hfewer⟩ := hcopy.now.unmapPages
        [pageAlignDown faultAddr] fun v hv => mem_singleton.mp hv ▸ hpage
      have hun₃ : (view x.boot cfg₃).Unmapped frame :=
        fun c p hmap => hun c p (hview ▸ hfewer c p _ hmap)
      obtain ⟨cfg₄, hmap, -⟩ := hunmap.now.mapPage hpage (by rwa [unmapPages_space]) hun₃
        (faultFlags_present _ _)
      have hdone := hmap.now.setSpace (s := { owning.space with
        cowPages := owning.space.cowPages.erase (pageAlignDown faultAddr) })
        (by rw [Mm.mapPage, unmapPages_space]; rfl) (by rw [Mm.mapPage, unmapPages_space]; rfl)
        ⟨h.placed.keyed, h.placed.areas, fun p f hf => h.placed.cow p f (lookup_erase_some hf).2⟩
      refine ⟨cfg₄, (((hown.trans hcopy).trans hunmap).trans hmap).trans ?_⟩
      simp only [Mm.mapPage, unmapPages_space] at hdone ⊢
      exact hdone

/-- Dropped victims leave the swapped pages as they are. -/
theorem isSwapped_dropVictims (n : Nat) (swap : Swap.SwapManager) (pid v : Nat) :
    (Machine.dropVictims n swap).isSwapped pid v = swap.isSwapped pid v := by
  induction n generalizing swap with
  | zero => rfl
  | succ n ih =>
    unfold Machine.dropVictims
    split
    next => rfl
    next page swap' hvictim =>
      rw [ih]
      unfold Swap.SwapManager.selectVictim at hvictim
      split at hvictim
      · cases hvictim
      · split at hvictim
        · cases hvictim
        · cases hvictim
          rfl

/-- A copy-on-write fault that is not handled forgets no swapped page. -/
theorem handleCowFault_swap (h : mm.handleCowFault faultAddr = (false, mm')) :
    mm'.space = mm.space ∧ ∀ pid v, mm'.m.swap.isSwapped pid v = mm.m.swap.isSwapped pid v := by
  unfold handleCowFault Machine.allocatePhysicalFrame at h
  simp only at h
  split at h
  next =>
    cases h
    exact ⟨rfl, fun _ _ => rfl⟩
  next =>
    split at h
    next halloc =>
      split at halloc
      next => cases halloc
      next =>
        cases halloc
        cases h
        exact ⟨rfl, isSwapped_dropVictims 16 _⟩
    next => cases h

/-- Backing a page of an area for the first time. -/
theorem leads_handleDemandFault : Leads x mm (mm.handleDemandFault faultAddr).2 := by
  intro cfg h
  unfold handleDemandFault
  simp only
  split
  next => exact ⟨cfg, h.refl⟩
  next vma hfind =>
    have hpage := h.placed.private_of_findVma hfind
    split
    next => exact ⟨cfg, h.refl⟩
    next => exact ⟨cfg, h.refl⟩
    next => exact ⟨cfg, h.refl⟩
    next =>
      split
      next => exact ⟨cfg, h.refl⟩
      next =>
        split
        next mm₁ hrun =>
          obtain ⟨cfg₁, hfollows, -⟩ := h.mapZeroedPage hpage rfl hrun
          exact ⟨cfg₁, hfollows⟩
        next frame mm₁ hrun =>
          obtain ⟨cfg₁, hfollows, hframe⟩ := h.mapZeroedPage hpage rfl hrun
          split
          · split
            next => exact ⟨cfg₁, hfollows⟩
            next path _ =>
              obtain ⟨hmem, halone⟩ := hframe frame rfl
              obtain ⟨cfg₂, hfill, -⟩ := hfollows.now.setMem hmem halone
                (mm₁.m.mem.writeFrame frame 0 _) fun g hg => PhysMem.writeFrame_of_ne _ _ _ hg
              exact ⟨cfg₂, hfollows.trans hfill⟩
          · exact hfollows.next (leads_trackAnonPage _)

/-- A fault at a page that is not in swap. -/
theorem leads_handlePageFault (isWrite : Bool)
    (hswap : mm.m.swap.isSwapped mm.space.pid (pageAlignDown faultAddr) = false) :
    Leads x mm (mm.handlePageFault faultAddr isWrite).2 := by
  unfold handlePageFault
  cases hfirst : if isWrite then mm.handleCowFault faultAddr else (false, mm) with
  | mk handled mm₁ =>
    have hcow : Leads x mm mm₁ := by
      split at hfirst
      · exact leads_handleCowFault hfirst
      · cases hfirst
        exact .refl x mm
    cases handled with
    | true => exact hcow
    | false =>
      have hkept : mm₁.m.swap.isSwapped mm₁.space.pid (pageAlignDown faultAddr) = false := by
        split at hfirst
        · obtain ⟨hspace, hkept⟩ := handleCowFault_swap hfirst
          rwa [hkept, hspace]
        · cases hfirst
          exact hswap
      have hin : mm₁.handleSwapIn faultAddr = (false, mm₁) := by
        simp only [handleSwapIn, hkept, Bool.not_false, if_true]
      simp only [hin]
      exact hcow.trans leads_handleDemandFault

/-! ### Fork -/

variable {c : Nat} {child : Mm}

/-- One page of a fork. -/
theorem At.forkPage (h : At x cfg child) (hc : c ∈ cfg.live) (hne : c ≠ x.root)
    (hpage : x.boot.Private page) (hflags : flags.present = true)
    (hwrite : flags.writable = false) :
    ∃ cfg', Follows x cfg cfg' (forkPage c flags child page) := by
  unfold Mm.forkPage
  split
  next => exact ⟨cfg, h.refl⟩
  next frame hframe =>
    rw [← h.m, h.good.typed.getMappedFrame_eq hpage (h.good.roots c hc),
      Option.map_eq_some_iff] at hframe
    obtain ⟨entry, hentry, rfl⟩ := hframe
    obtain ⟨cfg', hs, hm, hmoves⟩ := h.good.sharePage hc hpage hne h.live hentry hflags hwrite
    rw [h.m, ← h.cr3] at hm
    have hshared := h.setMachine hs hm hmoves
    refine ⟨cfg', hshared.trans (hshared.now.setSpace rfl rfl
      ⟨h.placed.keyed, h.placed.areas, fun p f hf => ?_⟩)⟩
    obtain ⟨rfl, -⟩ | ⟨-, hf⟩ := lookup_insert_some hf
    · exact hpage
    · exact h.placed.cow p f hf

/-- Sharing the pages with a child is a sequence of abstract shares. -/
theorem At.forkPages (h : At x cfg child) (hc : c ∈ cfg.live) (hne : c ≠ x.root)
    (flags : PageTableFlags) (hflags : flags.present = true) (hwrite : flags.writable = false)
    {pages : List Nat} (hpages : ∀ v ∈ pages, x.boot.Private v) :
    ∃ cfg', Follows x cfg cfg' (pages.foldl (Mm.forkPage c flags) child) := by
  induction pages generalizing cfg child with
  | nil => exact ⟨cfg, h.refl⟩
  | cons page pages ih =>
    obtain ⟨cfg₁, hfirst⟩ := h.forkPage hc hne (hpages page mem_cons_self) hflags hwrite
    obtain ⟨cfg₂, hlast⟩ := ih hfirst.now (hfirst.live ▸ hc)
      fun v hv => hpages v (mem_cons_of_mem _ hv)
    exact ⟨cfg₂, hfirst.trans hlast⟩

/-- The loop of a fork over areas of the parent. -/
theorem At.forkVmas (h : At x cfg child) (hc : c ∈ cfg.live) (hne : c ≠ x.root)
    {vmas : List VirtualMemoryArea}
    (hvmas : ∀ a ∈ vmas, x.boot.PrivateRange a.start a.stop) :
    ∃ cfg', Follows x cfg cfg' (vmas.foldl (forkVma c) child) := by
  induction vmas generalizing cfg child with
  | nil => exact ⟨cfg, h.refl⟩
  | cons vma vmas ih =>
    have hrange := hvmas vma mem_cons_self
    obtain ⟨cfg₁, hfirst⟩ : ∃ cfg₁, Follows x cfg cfg₁ (forkVma c child vma) := by
      unfold forkVma
      split
      · exact ⟨cfg, h.addVma hrange⟩
      · have hpages : ∀ v ∈ pagesFrom vma.start vma.pageCount, x.boot.Private v := by
          refine hrange.pages ?_
          have hsub : subU64 vma.stop vma.start = vma.stop - vma.start := by
            have := hrange.le
            have := hrange.lt
            rw [subU64, u64]
            omega
          have hdiv := Nat.div_mul_le_self (vma.stop - vma.start) pageSize
          have := hrange.le
          rw [VirtualMemoryArea.pageCount, hsub]
          omega
        obtain ⟨cfg₁, hforked⟩ := h.forkPages hc hne
          { vma.prot.toPageFlags with writable := false } rfl rfl hpages
        exact ⟨cfg₁, hforked.trans (hforked.now.addVma hrange)⟩
    obtain ⟨cfg₂, hlast⟩ := ih hfirst.now (hfirst.live ▸ hc)
      fun a ha => hvmas a (mem_cons_of_mem _ ha)
    exact ⟨cfg₂, hfirst.trans hlast⟩

end

end KnoxOS.Vmm
