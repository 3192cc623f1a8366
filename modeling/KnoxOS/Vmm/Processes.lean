import KnoxOS.Vmm.Calls
import KnoxOS.Vmm.Charge

/-!
# The processes and the memory manager

`Sees` ties a kernel to a configuration of the abstract memory manager: the live roots and the owned
frames are those of the spaces in the table. New spaces, exits, forks, the calls and faults of a
process and the stores of its code keep the kernel tied, move the memory manager and spare the
other processes.
-/

namespace KnoxOS.Vmm

open Lib List
open Std (TreeMap)

/-! ## The table of spaces -/

/-- The frames that the spaces of a table own. -/
def ownedBy (spaces : TreeMap Nat AddressSpace) : Multiset Nat :=
  (spaces.toList.map fun e => (e.2.ownedFrames : Multiset Nat)).sum

/-- The roots and the frames are those of the spaces in the table, each root of one space. -/
structure Covers (b : Boot) (spaces : TreeMap Nat AddressSpace)
    (live : Set Nat) (owned : Multiset Nat) : Prop where
  live : ∀ c, c ∈ live ↔ ∃ (pid : Nat) (s : AddressSpace), spaces[pid]? = some s ∧ s.cr3 = c
  owned : owned = ownedBy spaces
  placed : ∀ (pid : Nat) (s : AddressSpace), spaces[pid]? = some s → Placed b s
  distinct : ∀ (p q : Nat) (s t : AddressSpace), spaces[p]? = some s → spaces[q]? = some t →
    s.cr3 = t.cr3 → p = q

section

variable {b : Boot} {spaces : TreeMap Nat AddressSpace} {pid : Nat}
  {s : AddressSpace} {live : Set Nat} {owned : Multiset Nat}

theorem ownedBy_of_perm {l : List (Nat × AddressSpace)} (h : spaces.toList.Perm l) :
    ownedBy spaces = (l.map fun e => (e.2.ownedFrames : Multiset Nat)).sum :=
  (h.map _).sum_eq

theorem ownedBy_of_lookup (h : spaces[pid]? = some s) :
    ownedBy spaces = ownedBy (spaces.erase pid) + (s.ownedFrames : Multiset Nat) := by
  rw [ownedBy_of_perm (perm_toList_of_lookup h), add_comm]
  rfl

/-- A space leaves with its root and its frames. -/
theorem Covers.erase (h : Covers b spaces live owned) (hs : spaces[pid]? = some s) :
    Covers b (spaces.erase pid) (live \ {s.cr3}) (ownedBy (spaces.erase pid)) := by
  refine ⟨fun c => ?_, rfl, fun q t ht => h.placed q t (lookup_erase_some ht).2,
    fun p q t u ht hu => h.distinct p q t u (lookup_erase_some ht).2 (lookup_erase_some hu).2⟩
  rw [Set.mem_sdiff, Set.mem_singleton_iff, h.live]
  constructor
  · rintro ⟨⟨q, t, ht, rfl⟩, hne⟩
    have hq : pid ≠ q := by
      rintro rfl
      rw [hs] at ht
      cases ht
      exact hne rfl
    exact ⟨q, t, by rwa [lookup_erase, if_neg hq], rfl⟩
  · rintro ⟨q, t, ht, rfl⟩
    obtain ⟨hq, ht⟩ := lookup_erase_some ht
    exact ⟨⟨q, t, ht, rfl⟩, fun heq => hq (h.distinct q pid t s ht hs heq).symm⟩

/-- Removing a pid that has no space changes nothing. -/
theorem Covers.erase_absent (h : Covers b spaces live owned) (habsent : spaces[pid]? = none) :
    Covers b (spaces.erase pid) live owned := by
  have hsame : ∀ q : Nat, (spaces.erase pid)[q]? = spaces[q]? := by
    intro q
    rw [lookup_erase]
    split_ifs with hq
    · rw [← hq, habsent]
    · rfl
  exact ⟨by simpa only [hsame] using h.live, h.owned.trans (ownedBy_of_perm
    (perm_toList_erase habsent)).symm, by simpa only [hsame] using h.placed,
    by simpa only [hsame] using h.distinct⟩

/-- A space joins the table where the other spaces do not use its root. -/
theorem Covers.insert (h : Covers b (spaces.erase pid) live owned) (hfresh : s.cr3 ∉ live)
    (hplaced : Placed b s) : Covers b (spaces.insert pid s) (live ∪ {s.cr3})
      (owned + (s.ownedFrames : Multiset Nat)) := by
  have hother : ∀ (q : Nat) (t : AddressSpace), pid ≠ q → spaces[q]? = some t →
      (spaces.erase pid)[q]? = some t := by
    intro q t hq ht
    rwa [lookup_erase, if_neg hq]
  have hne : ∀ (q : Nat) (t : AddressSpace), pid ≠ q → spaces[q]? = some t → t.cr3 ≠ s.cr3 :=
    fun q t hq ht heq => hfresh (heq ▸ (h.live _).mpr ⟨q, t, hother q t hq ht, rfl⟩)
  refine ⟨fun c => ?_, ?_, fun q t ht => ?_, fun p q t u ht hu heq => ?_⟩
  · rw [Set.mem_union, Set.mem_singleton_iff, h.live]
    constructor
    · rintro (⟨q, t, ht, rfl⟩ | rfl)
      · obtain ⟨hq, ht⟩ := lookup_erase_some ht
        exact ⟨q, t, by rwa [lookup_insert, if_neg hq], rfl⟩
      · exact ⟨pid, s, by rw [lookup_insert, if_pos rfl], rfl⟩
    · rintro ⟨q, t, ht, rfl⟩
      obtain ⟨-, rfl⟩ | ⟨hq, ht⟩ := lookup_insert_some ht
      · exact .inr rfl
      · exact .inl ⟨q, t, hother q t hq ht, rfl⟩
  · rw [h.owned, ownedBy_of_perm (perm_toList_insert spaces pid s), add_comm]
    rfl
  · obtain ⟨-, rfl⟩ | ⟨hq, ht⟩ := lookup_insert_some ht
    · exact hplaced
    · exact h.placed q t (hother q t hq ht)
  · obtain ⟨rfl, rfl⟩ | ⟨hp, ht⟩ := lookup_insert_some ht <;>
      obtain ⟨rfl, rfl⟩ | ⟨hq, hu⟩ := lookup_insert_some hu
    · rfl
    · exact absurd heq.symm (hne q u hq hu)
    · exact absurd heq (hne p t hp ht)
    · exact h.distinct p q t u (hother p t hp ht) (hother q u hq hu) heq

end

/-! ## A kernel and its configuration -/

/-- The configuration describes the kernel, in which no L4 table is shared. -/
structure Kernel.Sees (b : Boot) (k : Kernel) (cfg : Config) : Prop where
  m : cfg.m = k.m
  good : Good b cfg
  covers : Covers b k.spaces cfg.live cfg.owned
  unshared : ∀ c, k.cr3IsShared c = false

/-- The scene of a space of the table. -/
def Kernel.scene (k : Kernel) (b : Boot) (apart : Prop) (pid : Nat) (s : AddressSpace) : Scene :=
  ⟨b, s.cr3, ownedBy (k.spaces.erase pid), apart⟩

/-- The process maps a private page to the frame. -/
def Kernel.Maps (k : Kernel) (b : Boot) (pid v f : Nat) : Prop :=
  ∃ s, k.spaces[pid]? = some s ∧ b.Private v ∧ getMappedFrame k.m.mem s.cr3 v = some f

/-- No process but `pid` maps the frame. -/
def Kernel.OnlyMappedBy (k : Kernel) (b : Boot) (pid f : Nat) : Prop :=
  ∀ q v, k.Maps b q v f → q = pid

/-- No other process maps a frame that the process owns. -/
def Kernel.OwnsAlone (k : Kernel) (b : Boot) (pid : Nat) : Prop :=
  ∀ s, k.spaces[pid]? = some s → ∀ f ∈ s.ownedFrames, k.OnlyMappedBy b pid f

/-- The processes other than `pid` keep their spaces and read the same. -/
def Kernel.Spares (b : Boot) (pid : Nat) (k k' : Kernel) : Prop :=
  ∀ (q : Nat) (t : AddressSpace), q ≠ pid → k.spaces[q]? = some t → k'.spaces[q]? = some t ∧
    ∀ v, b.Private v → readUserPage k'.m.mem t.cr3 v = readUserPage k.m.mem t.cr3 v

/-- The kernel goes on to one that a configuration describes. If write access is exclusive, only
`pid` notices. -/
def Kernel.Goes (apart : Prop) (b : Boot) (cfg : Config) (pid : Nat) (k k' : Kernel) : Prop :=
  ∃ cfg', k'.Sees b cfg' ∧ ViewSteps apart (view b cfg) (view b cfg') ∧
    ((view b cfg).Exclusive Writable → k.Spares b pid k')

section

variable {b : Boot} {apart : Prop} {k : Kernel} {cfg cfg' : Config} {pid : Nat} {s : AddressSpace}

section

variable (h : k.Sees b cfg)
include h

theorem Kernel.Sees.stays : k.Goes apart b cfg pid k :=
  ⟨cfg, h, .refl, fun _ _ _ _ ht => ⟨ht, fun _ _ => rfl⟩⟩

section

variable (hs : k.spaces[pid]? = some s)
include hs

theorem Kernel.Sees.live : s.cr3 ∈ cfg.live := (h.covers.live _).mpr ⟨pid, s, hs, rfl⟩

theorem Kernel.Sees.root_ne (q : Nat) (t : AddressSpace) (hq : q ≠ pid)
    (ht : k.spaces[q]? = some t) : t.cr3 ≠ s.cr3 :=
  fun heq => hq (h.covers.distinct q pid t s ht hs heq)

/-- Private addresses are translated as the view says. -/
theorem Kernel.Sees.translateVaddr_eq {v : Nat} (hv : b.Private v) :
    translateVaddr k.m.mem s.cr3 v = (view b cfg).frame s.cr3 (vpn v) := by
  have htrans := h.good.typed.translation_eq hv (h.good.roots _ (h.live hs))
  rw [view_frame (h.live hs) hv, ← h.m, translateVaddr, htrans]
  cases leaf cfg.m.mem s.cr3 v <;> rfl

theorem Kernel.Sees.at (apart : Prop) : At (k.scene b apart pid s) cfg ⟨s, k.m⟩ := by
  refine ⟨h.m, rfl, h.live hs, ?_, h.good, h.covers.placed pid s hs⟩
  rw [h.covers.owned, ownedBy_of_lookup hs]
  rfl

/-- The kernel after a space has moved. -/
theorem Kernel.Sees.setSpace {mm : Mm} (hfollows : Follows (k.scene b apart pid s) cfg cfg' mm) :
    Kernel.Sees b { k with m := mm.m, spaces := k.spaces.insert pid mm.space } cfg' := by
  have hnow := hfollows.now
  have hcr3 : mm.space.cr3 = s.cr3 := hnow.cr3
  have hcovers := (h.covers.erase hs).insert (s := mm.space)
    (by rw [hcr3]; exact fun hc => hc.2 rfl) hnow.placed
  rw [hcr3, Set.sdiff_union_of_subset (Set.singleton_subset_iff.mpr (h.live hs)), ← hfollows.live]
    at hcovers
  refine ⟨hnow.m, hnow.good, ?_, h.unshared⟩
  rw [hnow.owned]
  exact hcovers

end

/-- Writing outside the tables, or changing what is neither memory nor pool. -/
theorem Kernel.Sees.write {m : Machine} (htemplate : m.kernelL4 = k.m.kernelL4)
    (hpool : m.pool = k.m.pool) (htables : ∀ t ∈ (view b cfg).tables, m.mem t = k.m.mem t) :
    Kernel.Sees b { k with m := m } { cfg with m := m } ∧
      view b { cfg with m := m } = view b cfg := by
  rw [← h.m] at htemplate hpool htables
  obtain ⟨hgood, hview⟩ := h.good.write htemplate hpool htables
  exact ⟨⟨rfl, hgood, h.covers, h.unshared⟩, hview⟩

/-- What spares the roots of the other processes spares them. -/
theorem Kernel.Sees.goes {k' : Kernel} {root : Nat} (h' : k'.Sees b cfg')
    (hsteps : ViewSteps apart (view b cfg) (view b cfg'))
    (hspares : (view b cfg).Exclusive Writable → cfg.Spares b root cfg')
    (hroot : ∀ (q : Nat) (t : AddressSpace), q ≠ pid → k.spaces[q]? = some t → t.cr3 ≠ root)
    (hspaces : ∀ q : Nat, q ≠ pid → k'.spaces[q]? = k.spaces[q]?) : k.Goes apart b cfg pid k' := by
  refine ⟨cfg', h', hsteps, fun hexcl q t hq ht => ?_⟩
  have ht' : k'.spaces[q]? = some t := (hspaces q hq).trans ht
  refine ⟨ht', fun v hv => ?_⟩
  obtain ⟨hframe, hmem⟩ := hspares hexcl t.cr3 (vpn v) (hroot q t hq ht)
  rw [readUserPage, readUserPage, h'.translateVaddr_eq ht' hv, h.translateVaddr_eq ht hv, hframe]
  cases hpage : (view b cfg).frame t.cr3 (vpn v) with
  | none => rfl
  | some f =>
    have hsame := hmem f hpage
    rw [h.m, h'.m] at hsame
    exact congrArg (fun frame => bytesFrom frame 0 pageSize) hsame

end

/-! ## Calls on one space -/

/-- The requests and faults of a process. -/
inductive SpaceCall where
  | mmap (addr size prot flags : Nat)
  | munmap (addr size : Nat)
  | mprotect (addr length prot : Nat)
  | brk (newBrk : Nat)
  | fault (addr : Nat) (isWrite : Bool)

namespace SpaceCall

def run (k : ChargedKernel) (pid : Nat) : SpaceCall → ChargedKernel
  | mmap addr size prot flags => (k.mmap pid addr size prot flags).2
  | munmap addr size => (k.munmap pid addr size).2
  | mprotect addr length prot => { k with kernel := (k.kernel.mprotect pid addr length prot).2 }
  | brk newBrk => (k.brk pid newBrk).2
  | fault addr isWrite => { k with kernel := (k.kernel.handlePageFault pid addr isWrite).2 }

/-- The addresses of the call lie in private slots, and a fault is not for a page in swap. -/
def Admissible (b : Boot) (mm : Mm) : SpaceCall → Prop
  | mmap addr size _ flags => PlacesPrivate b mm.space addr size (.fromLinux flags)
  | munmap addr size => pageAlignDown addr + pageAlignUp size < 2 ^ 64
  | mprotect addr length _ => pageAlignDown addr + pageAlignUp (pageAlignUp length) < 2 ^ 64
  | brk newBrk => BreaksPrivate b mm.space newBrk
  | fault addr _ => mm.m.swap.isSwapped mm.space.pid (pageAlignDown addr) = false

/-- Where `mprotect` gives write access, no other space maps the frames. -/
def GrantsAlone (view : View) (root : Nat) : SpaceCall → Prop
  | mprotect addr length prot => (ProtFlags.fromMmapProt prot).write = true →
    ∀ v ∈ protectPages addr (pageAlignUp length), view.Alone root (vpn v)
  | _ => True

/-- Where a method leads a space, there the kernel goes. -/
theorem onSpace_goes {α : Type} (h : k.Sees b cfg) (absent : α) {f : Mm → α × Mm}
    (hf : ∀ s, k.spaces[pid]? = some s →
      ∃ cfg', Follows (k.scene b apart pid s) cfg cfg' (f ⟨s, k.m⟩).2) :
    k.Goes apart b cfg pid (k.onSpace pid absent f).2 := by
  unfold Kernel.onSpace
  split
  next => exact h.stays
  next s hs =>
    obtain ⟨cfg', hfollows⟩ := hf s hs
    exact h.goes (h.setSpace hs hfollows) hfollows.steps (fun _ => hfollows.spares) (h.root_ne hs)
      fun q hq => by rw [lookup_insert, if_neg hq.symm]

/-- Every call keeps the kernel tied and moves the memory manager. -/
theorem goes {k : ChargedKernel} {c : SpaceCall} (h : k.kernel.Sees b cfg)
    (hadm : ∀ s, k.kernel.spaces[pid]? = some s → c.Admissible b ⟨s, k.kernel.m⟩)
    (hgrants : apart → ∀ s, k.kernel.spaces[pid]? = some s → c.GrantsAlone (view b cfg) s.cr3) :
    k.kernel.Goes apart b cfg pid (c.run k pid).kernel := by
  have hleads : ∀ {α : Type} (absent : α) {f : Mm → α × Mm}, (∀ s,
      k.kernel.spaces[pid]? = some s → Leads (k.kernel.scene b apart pid s) ⟨s, k.kernel.m⟩
        (f ⟨s, k.kernel.m⟩).2) → k.kernel.Goes apart b cfg pid (k.kernel.onSpace pid absent f).2 :=
    fun absent _ hf => onSpace_goes h absent fun s hs => hf s hs cfg (h.at hs apart)
  cases c with
  | mmap addr size prot flags =>
    have hgoes := hleads none (f := fun mm => mm.mmapAnonymous addr size (.fromMmapProt prot)
      (.fromLinux flags)) fun s hs => leads_mmapAnonymous _ (hadm s hs)
    simp only [run, ChargedKernel.mmap, ChargedKernel.chargeRequest]
    split
    next => exact h.stays
    next =>
      split
      next => exact h.stays
      next =>
        split
        next hrun => rwa [hrun] at hgoes
        next hrun => rwa [hrun] at hgoes
  | munmap addr size =>
    have hgoes := hleads false (f := (·.munmap addr size)) fun s hs => leads_munmap (hadm s hs)
    simp only [run, ChargedKernel.munmap]
    split
    next hrun => rwa [hrun] at hgoes
    next hrun => rwa [hrun] at hgoes
  | mprotect addr length prot =>
    simp only [run, Kernel.mprotect]
    split_ifs
    · exact h.stays
    · exact h.stays
    · exact onSpace_goes h _ fun s hs =>
        (h.at hs apart).mprotect (hadm s hs) fun hapart => hgrants hapart s hs
  | brk newBrk =>
    simp only [run, ChargedKernel.brk]
    split
    next => exact h.stays
    next =>
      split
      next => exact h.stays
      next => exact hleads _ fun s hs => leads_brk (hadm s hs)
  | fault addr isWrite => exact hleads _ fun s hs => leads_handlePageFault isWrite (hadm s hs)

end SpaceCall

/-! ## Spaces come and go -/

section

variable (h : k.Sees b cfg)
include h

theorem Kernel.Sees.frame {v : Nat} (hs : k.spaces[pid]? = some s) (hv : b.Private v) :
    getMappedFrame k.m.mem s.cr3 v = (view b cfg).frame s.cr3 (vpn v) := by
  rw [view_frame (h.live hs) hv, ← h.m,
    h.good.typed.getMappedFrame_eq hv (h.good.roots _ (h.live hs))]

/-- A frame that one process maps alone is mapped below its root. -/
theorem Kernel.Sees.root_eq {d p f : Nat} (hs : k.spaces[pid]? = some s)
    (honly : k.OnlyMappedBy b pid f) (hmap : (view b cfg).frame d p = some f) : d = s.cr3 := by
  obtain ⟨hlive, hvpn, hp⟩ := view_frame_eq_some hmap
  obtain ⟨q, t, ht, rfl⟩ := (h.covers.live d).mp hlive
  obtain rfl := honly q _ ⟨t, ht, hp, by rw [h.frame ht hp, hvpn, hmap]⟩
  rw [hs] at ht
  cases ht
  rfl

theorem Kernel.Sees.drop_eq (hs : k.spaces[pid]? = some s) (m : Machine) :
    s.drop m = (s.ownedFrames.foldl Machine.freePhysicalFrame m).freePhysicalFrame s.cr3 := by
  have hroot := h.good.roots _ (h.live hs)
  have hpos := (h.good.typed.node_frame s.cr3 (by rw [hroot]; simp)).2
  exact if_pos (Nat.ne_of_gt hpos)

theorem Kernel.Sees.destroyAddressSpace_eq (hs : k.spaces[pid]? = some s) :
    k.destroyAddressSpace pid = { k with
      spaces := k.spaces.erase pid
      m := (s.ownedFrames.foldl Machine.freePhysicalFrame k.m).freePhysicalFrame s.cr3 } := by
  have hshared : Kernel.cr3IsShared { k with spaces := k.spaces.erase pid } s.cr3 = false :=
    h.unshared s.cr3
  simp only [Kernel.destroyAddressSpace, hs, hshared, Bool.and_false, Bool.false_eq_true, if_false,
    h.drop_eq hs]

/-- A process exits. -/
theorem Kernel.Sees.exit (apart : Prop) (halone : k.OwnsAlone b pid) :
    k.Goes apart b cfg pid (k.destroyAddressSpace pid) := by
  cases hs : k.spaces[pid]? with
  | none =>
    simp only [Kernel.destroyAddressSpace, hs]
    exact h.stays
  | some s =>
    obtain ⟨cfg', hm, hlive, howned, hmoves⟩ := h.good.drop (h.live hs)
      (h.covers.owned.trans (ownedBy_of_lookup hs)) apart
      fun d p f hmap hf => h.root_eq hs (halone s hs f hf) hmap
    rw [h.destroyAddressSpace_eq hs]
    refine h.goes ⟨by rw [hm, h.m], hmoves.good, ?_, h.unshared⟩ hmoves.steps
      (fun _ => hmoves.spares) (h.root_ne hs) fun q hq => by rw [lookup_erase, if_neg hq.symm]
    rw [hlive, howned]
    exact h.covers.erase hs

/-- An empty space on a new root. -/
theorem Kernel.Sees.spawn {f : Nat} {pool : PhysicalFramePool} (apart : Prop) (root : Nat)
    (halloc : k.m.pool.allocate = (some f, pool)) (hcr3 : s.cr3 = f) (hframes : s.ownedFrames = [])
    (hplaced : Placed b s) :
    ∃ cfg', f ∉ cfg.live ∧ cfg'.live = cfg.live ∪ {f} ∧ Moves apart b root cfg cfg' ∧
      At ⟨b, f, cfg.owned, apart⟩ cfg'
        ⟨s, { k.m with pool := pool, mem := k.m.mem.zeroFrame f }.cloneKernelMappings f⟩ := by
  obtain ⟨cfg', hm, hlive, howned, hnew, hmoves⟩ := h.good.spawn apart root (h.m ▸ halloc) rfl
  refine ⟨cfg', hnew, hlive, hmoves,
    ⟨by rw [hm, h.m], hcr3, by rw [hlive]; exact .inr rfl, ?_, hmoves.good, hplaced⟩⟩
  rw [howned, hframes]
  exact (add_zero _).symm

/-- A space on a new root joins the table. -/
theorem Kernel.Sees.join {f : Nat} {cfg'' : Config} {mm : Mm} (habsent : k.spaces[pid]? = none)
    (hnew : f ∉ cfg.live) (hlive : cfg'.live = cfg.live ∪ {f}) (hmoves : Moves apart b f cfg cfg')
    (hfollows : Follows ⟨b, f, cfg.owned, apart⟩ cfg' cfg'' mm) :
    k.Goes apart b cfg pid ({ k with m := mm.m }.insertSpace pid mm.space) := by
  have hnow := hfollows.now
  have hcr3 : mm.space.cr3 = f := hnow.cr3
  simp only [Kernel.insertSpace, habsent]
  refine h.goes ⟨hnow.m, hnow.good, ?_, h.unshared⟩ (hmoves.steps.trans hfollows.steps)
    (fun _ => hmoves.spares.trans hfollows.spares) (fun _ _ _ ht heq => hnew (heq ▸ h.live ht))
    fun q hq => by rw [lookup_insert, if_neg hq.symm]
  rw [hfollows.live, hlive, hnow.owned, ← hcr3]
  exact (h.covers.erase_absent habsent).insert (by rwa [hcr3]) hnow.placed

omit h in
theorem placed_ofL4 (b : Boot) (pid heapSeed mmapSeed cr3 : Nat) (m : Machine) :
    Placed b (AddressSpace.ofL4 pid heapSeed mmapSeed cr3 m).1 :=
  ⟨fun p a ha => by simp [AddressSpace.ofL4] at ha, fun p a ha => by simp [AddressSpace.ofL4] at ha,
    fun p f hf => by simp [AddressSpace.ofL4] at hf⟩

/-- A process gets a space while the pool has a frame; the space it had is dropped. -/
theorem Kernel.Sees.create {heapSeed mmapSeed : Nat} (hfree : (k.m.pool.allocate).1 ≠ none)
    (halone : k.OwnsAlone b pid) :
    k.Goes apart b cfg pid (k.createAddressSpace pid heapSeed mmapSeed).2 := by
  obtain ⟨f, hf⟩ := Option.ne_none_iff_exists'.mp hfree
  have halloc : k.m.pool.allocate = (some f, k.m.pool.allocate.2) := by rw [← hf]
  have hspawn := fun root => h.spawn apart root halloc
    (s := (AddressSpace.ofL4 pid heapSeed mmapSeed f k.m).1) rfl rfl (placed_ofL4 ..)
  unfold Kernel.createAddressSpace Kernel.newSpace Kernel.allocatePhysicalFrame
  rw [halloc]
  cases hold : k.spaces[pid]? with
  | none =>
    obtain ⟨cfg', hnew, hlive, hspawned, hat⟩ := hspawn f
    exact h.join hold hnew hlive hspawned hat.refl
  | some old =>
    obtain ⟨cfg', hnew, hlive, hspawned, hat⟩ := hspawn old.cr3
    obtain ⟨cfg'', hm, hlive', howned, hmoves⟩ := hat.good.drop (c := old.cr3)
      (by rw [hlive]; exact .inl (h.live hold))
      (hat.owned.trans ((add_zero _).trans (h.covers.owned.trans (ownedBy_of_lookup hold)))) apart
      fun d p g hmap hg => by_contra fun hd => hd (h.root_eq hold (halone old hold g hg)
        ((hspawned.spares d p hd).1 ▸ hmap))
    refine h.goes ⟨?_, hmoves.good, ?_, h.unshared⟩ (hspawned.steps.trans hmoves.steps)
      (fun _ => hspawned.spares.trans hmoves.spares) (h.root_ne hold)
      fun q hq => (lookup_insert ..).trans (if_neg hq.symm)
    · simp only [Kernel.insertSpace, hold, h.drop_eq hold]
      rw [hm, hat.m]
      rfl
    · have hne : old.cr3 ∉ ({f} : Set Nat) := fun heq => hnew (heq ▸ h.live hold)
      rw [hlive', hlive, Set.union_sdiff_distrib, Set.sdiff_singleton_eq_self hne, howned,
        ← add_zero (ownedBy _)]
      exact (h.covers.erase hold).insert (fun hf => hnew hf.1) hat.placed

/-- A process forks. -/
theorem Kernel.Sees.fork {parent child heapSeed mmapSeed : Nat}
    (habsent : k.spaces[child]? = none) :
    k.Goes apart b cfg child (k.forkAddressSpace parent child heapSeed mmapSeed).2 := by
  unfold Kernel.forkAddressSpace
  split
  next => exact h.stays
  next ps hps =>
    cases halloc : k.m.pool.allocate with
    | mk frame pool =>
      cases frame with
      | none =>
        simp only [Mm.fork, AddressSpace.new, allocatePageTableFrame_of_none halloc]
        obtain ⟨hsees, hview⟩ := h.write
          (m := { k.m with pool := pool, swap := Machine.dropVictims 16 k.m.swap }) rfl
          (PhysicalFramePool.allocate_none halloc).1 fun _ _ => rfl
        exact ⟨_, hsees, hview ▸ .refl, fun _ _ _ _ ht => ⟨ht, fun _ _ => rfl⟩⟩
      | some f =>
        obtain ⟨cfg₁, hnew, hlive, hspawned, hat⟩ := h.spawn apart f halloc
          (s := ⟨child, f, ∅, ps.brk, ps.mmapNext, [], ∅⟩) rfl rfl
          ((placed_ofL4 b child 0 0 f k.m).of_eq rfl rfl)
        have hareas : ∀ a ∈ ps.vmas.toList.map (·.2), b.PrivateRange a.start a.stop := by
          intro a ha
          obtain ⟨⟨p, a⟩, hin, rfl⟩ := mem_map.mp ha
          exact (h.covers.placed parent ps hps).areas p a (mem_toList_iff.mp hin)
        have hparent : ps.cr3 ∈ cfg₁.live := by
          rw [hlive]
          exact .inl (h.live hps)
        have hne : ps.cr3 ≠ f := by
          rintro rfl
          exact hnew (h.live hps)
        obtain ⟨cfg₂, hforked⟩ := hat.forkVmas hparent hne hareas
        simp only [Mm.fork, AddressSpace.new, allocatePageTableFrame_of_some halloc]
        exact h.join habsent hnew hlive hspawned hforked

/-- A process stores a byte. -/
theorem Kernel.Sees.store {vaddr : Nat} (byte : UInt8) (hv : b.Private vaddr) :
    k.Goes apart b cfg pid (k.userStore pid vaddr byte) := by
  cases hs : k.spaces[pid]? with
  | none =>
    simp only [userStore, hs]
    exact h.stays
  | some s =>
    have htrans := h.good.typed.translation_eq hv (h.good.roots _ (h.live hs))
    rw [h.m] at htrans
    cases hleaf : leaf k.m.mem s.cr3 vaddr with
    | none =>
      simp only [userStore, hs, htrans, hleaf, Option.map_none]
      exact h.stays
    | some entry =>
      simp only [userStore, hs, htrans, hleaf, Option.map_some]
      split_ifs with hwrite
      · set m : Machine := { k.m with
          mem := k.m.mem.writeFrame (entryAddr entry) (vaddr % pageSize) [byte] }
        have hmap : (view b cfg).maps s.cr3 (vpn vaddr) = some (decode entry) := by
          rw [view_maps (h.live hs) hv, h.m, hleaf]
          rfl
        obtain ⟨-, htable⟩ := h.good.sound.used (entryAddr entry)
          (.inr ⟨_, _, Mappings.frame_eq_some.mpr ⟨_, hmap⟩⟩)
        have hmem : ∀ g, g ≠ entryAddr entry → m.mem g = k.m.mem g :=
          fun g hg => PhysMem.writeFrame_of_ne _ _ _ hg
        obtain ⟨hsees, hview⟩ := h.write (m := m) rfl rfl
          fun t ht => hmem t fun heq => htable (heq ▸ ht)
        refine h.goes hsees (hview ▸ .refl) (fun hexcl c p hc => ⟨by rw [hview], fun f hf => ?_⟩)
          (h.root_ne hs) fun _ _ => rfl
        rw [h.m]
        refine hmem f ?_
        rintro rfl
        exact hc (hexcl _ _ _ _ _ _ hmap (Bool.and_eq_true_iff.mp hwrite).2 hf)
      · exact h.stays

end

end

end KnoxOS.Vmm
