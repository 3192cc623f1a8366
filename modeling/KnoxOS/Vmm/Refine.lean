import KnoxOS.Lib.Mappings
import KnoxOS.Vmm.Tables

/-!
# The machine as a memory manager

A typed machine, the roots of its live address spaces and the frames they own are seen as the
abstract memory manager of `Mappings`: `view` reads the maps off the page tables. Each primitive
of the kernel, allocating a frame, editing a page, writing to a data frame, creating a root,
freeing frames, moves the view by steps of the abstract manager and keeps the machine `Good`.
-/

namespace KnoxOS.Vmm

open Function Lib Option

/-- A machine with the places of its tables, the roots in use and the frames that spaces own. -/
structure Config where
  m : Machine
  node : Nat → Option Node
  live : Set Nat
  owned : Multiset Nat

/-- Pages are 36-bit page numbers, attributes the flags of an entry. -/
abbrev View : Type := Mappings Nat Nat PageTableFlags

/-- The frame and the flags of an entry. -/
def decode (entry : Nat) : Nat × PageTableFlags := (entryAddr entry, entryFlags entry)

theorem decode_mkEntry {f : Nat} (hf : FrameAddr f) (flags : PageTableFlags) :
    decode (mkEntry f flags) = (f, flags) := by
  rw [decode, entryAddr_mkEntry hf, entryFlags_mkEntry hf]

open scoped Classical in
/-- The abstract memory manager that a machine implements: the private pages of its live roots. -/
noncomputable def view (b : Boot) (cfg : Config) : View where
  maps c p :=
    if c ∈ cfg.live ∧ p < 2 ^ 36 ∧ b.Private (p * pageSize) then
      (leaf cfg.m.mem c (p * pageSize)).map decode
    else none
  live := cfg.live
  free := { f | f ∈ cfg.m.pool.freeFrames }
  tables := { f | cfg.node f ≠ none ∨ ∃ n, b.Table n f }
  owned := cfg.owned

/-- The machine is typed, its live roots are roots and its frames are kept apart. -/
structure Good (b : Boot) (cfg : Config) : Prop where
  typed : Typed b cfg.m cfg.node
  roots : ∀ c ∈ cfg.live, IsRoot cfg.node c
  sound : (view b cfg).Sound
  onePage : (view b cfg).OnePage
  owned_frame : ∀ f ∈ cfg.owned, FrameAddr f ∧ 0 < f

section

variable {b : Boot} {cfg cfg' : Config} {apart : Prop} {pool : PhysicalFramePool}
  {root c p v f : Nat} {flags : PageTableFlags}

theorem view_maps (hc : c ∈ cfg.live) (hv : b.Private v) :
    (view b cfg).maps c (vpn v) = (leaf cfg.m.mem c v).map decode := by
  have hvpn : vpn (vpn v * pageSize) = vpn v := vpn_mul (vpn_lt v)
  have hcond : c ∈ cfg.live ∧ vpn v < 2 ^ 36 ∧ b.Private (vpn v * pageSize) :=
    ⟨hc, vpn_lt v, private_vpn hvpn.symm hv⟩
  simp only [view, hcond, if_true, and_self]
  rw [leaf_vpn _ _ hvpn]

theorem view_frame (hc : c ∈ cfg.live) (hv : b.Private v) :
    (view b cfg).frame c (vpn v) = (leaf cfg.m.mem c v).map entryAddr := by
  rw [Mappings.frame, view_maps hc hv, map_map]
  rfl

theorem view_frame_eq_some (h : (view b cfg).frame c p = some f) :
    c ∈ cfg.live ∧ vpn (p * pageSize) = p ∧ b.Private (p * pageSize) := by
  obtain ⟨a, ha⟩ := Mappings.frame_eq_some.mp h
  simp only [view] at ha
  split at ha
  next hcond => exact ⟨hcond.1, vpn_mul hcond.2.1, hcond.2.2⟩
  next => cases ha

/-- Two configurations with the same leaves on a page of live roots have the same view of it. -/
theorem view_maps_congr (hlive : c ∈ cfg'.live ↔ c ∈ cfg.live)
    (hleaf : c ∈ cfg.live → p < 2 ^ 36 → b.Private (p * pageSize) →
      leaf cfg'.m.mem c (p * pageSize) = leaf cfg.m.mem c (p * pageSize)) :
    (view b cfg').maps c p = (view b cfg).maps c p := by
  simp only [view]
  by_cases hcond : c ∈ cfg.live ∧ p < 2 ^ 36 ∧ b.Private (p * pageSize)
  · rw [if_pos hcond, if_pos ⟨hlive.mpr hcond.1, hcond.2⟩,
      hleaf hcond.1 hcond.2.1 hcond.2.2]
  · rw [if_neg hcond, if_neg fun h => hcond ⟨hlive.mp h.1, h.2⟩]

/-- The flags give write access. -/
abbrev Writable (flags : PageTableFlags) : Prop := flags.writable = true

/-- Steps of the abstract manager. With `apart`, pages get write access only where no other space
maps their frames. -/
abbrev ViewSteps (apart : Prop) : View → View → Prop := Mappings.Steps Writable apart

/-- All spaces but that of `root` map the same frames, and these hold the same. -/
def Config.Spares (b : Boot) (root : Nat) (cfg cfg' : Config) : Prop :=
  ∀ c p, c ≠ root → (view b cfg').frame c p = (view b cfg).frame c p ∧
    ∀ f, (view b cfg).frame c p = some f → cfg'.m.mem f = cfg.m.mem f

theorem Config.Spares.refl : cfg.Spares b root cfg :=
  fun _ _ _ => ⟨rfl, fun _ _ => rfl⟩

theorem Config.Spares.trans {cfg'' : Config} (h : cfg.Spares b root cfg')
    (h' : cfg'.Spares b root cfg'') : cfg.Spares b root cfg'' := by
  intro c p hc
  obtain ⟨hframe, hmem⟩ := h c p hc
  obtain ⟨hframe', hmem'⟩ := h' c p hc
  exact ⟨hframe'.trans hframe, fun f hf => (hmem' f (hframe.trans hf)).trans (hmem f hf)⟩

/-- A good configuration has moved by steps of the abstract manager to a good one, on behalf of the
space of `root`. -/
structure Moves (apart : Prop) (b : Boot) (root : Nat) (cfg cfg' : Config) : Prop where
  good : Good b cfg'
  steps : ViewSteps apart (view b cfg) (view b cfg')
  spares : cfg.Spares b root cfg'

/-- The configurations differ in their machines and tables only. -/
structure SameSpaces (cfg cfg' : Config) : Prop where
  live : cfg'.live = cfg.live
  owned : cfg'.owned = cfg.owned

section

variable (h : Good b cfg)
include h

theorem Good.used_plain (hf : (view b cfg).Used f) : cfg.node f = none ∧ ∀ n, ¬ b.Table n f := by
  obtain ⟨-, htables⟩ := h.sound.used f hf
  refine ⟨?_, fun n hn => htables (.inr ⟨n, hn⟩)⟩
  by_contra hne
  exact htables (.inl hne)

theorem Good.moves (htyped : Typed b cfg'.m cfg'.node)
    (hroots : ∀ c ∈ cfg'.live, IsRoot cfg'.node c) (howned : ∀ f ∈ cfg'.owned, FrameAddr f ∧ 0 < f)
    (hsteps : ViewSteps apart (view b cfg) (view b cfg')) (hspares : cfg.Spares b root cfg') :
    Moves apart b root cfg cfg' :=
  ⟨⟨htyped, hroots, h.sound.steps hsteps, h.onePage.steps hsteps, howned⟩, hsteps, hspares⟩

/-- Writing outside the tables, or changing what is neither memory nor pool, keeps the view. -/
theorem Good.write {m : Machine} (htemplate : m.kernelL4 = cfg.m.kernelL4)
    (hpool : m.pool = cfg.m.pool) (htables : ∀ t ∈ (view b cfg).tables, m.mem t = cfg.m.mem t) :
    Good b { cfg with m := m } ∧ view b { cfg with m := m } = view b cfg := by
  have hkeeps : ∀ t c n q, cfg.node t = some ⟨c, n, q⟩ → m.mem t = cfg.m.mem t :=
    fun t c n q ht => htables t (.inl (by rw [ht]; simp))
  have hview : view b { cfg with m := m } = view b cfg := by
    refine Mappings.ext (funext₂ fun c p => view_maps_congr .rfl fun hc _ hp =>
      h.typed.leaf_congr hp (h.roots c hc) fun t => hkeeps t c) rfl ?_ rfl rfl
    simp only [view, hpool]
  refine ⟨⟨?_, h.roots, hview ▸ h.sound, hview ▸ h.onePage, h.owned_frame⟩, hview⟩
  exact h.typed.of_mem htemplate hpool (fun t c n q ht => hkeeps t c (n + 1) q ht)
    fun n f hf => htables f (.inr ⟨n, hf⟩)

end

/-! ## Editing pages -/

/-- The view with the new pages, before frames have become tables. -/
noncomputable def midView (b : Boot) (cfg cfg' : Config) : View :=
  { view b cfg' with free := (view b cfg).free, tables := (view b cfg).tables }

section

variable {X : Nat → Nat → Prop} (h : Good b cfg) (hs : SameSpaces cfg cfg')
    (hE : Edits b cfg.m cfg'.m cfg.node cfg'.node X)
include h hE

/-- The frames of new tables leave the pool. -/
theorem Good.takes : ViewSteps apart (midView b cfg cfg') (view b cfg') := by
  refine .single (.take { f | cfg'.node f ≠ none ∧ cfg.node f = none } ∅
    (fun f hf => hE.added f hf.1 hf.2) (Set.empty_subset _) ?_ ?_ (Set.union_empty _).symm rfl rfl)
  · ext f
    show f ∈ cfg'.m.pool.freeFrames ↔
      f ∈ cfg.m.pool.freeFrames ∧ ¬ (cfg'.node f ≠ none ∧ cfg.node f = none)
    rw [hE.free]
    constructor
    · rintro ⟨hf, hnone⟩
      exact ⟨hf, fun hnot => hnot.1 hnone⟩
    · rintro ⟨hf, hnot⟩
      refine ⟨hf, ?_⟩
      by_contra hne
      exact hnot ⟨hne, (h.typed.free_plain f hf).1⟩
  · ext f
    show (cfg'.node f ≠ none ∨ ∃ n, b.Table n f) ↔
      (cfg.node f ≠ none ∨ ∃ n, b.Table n f) ∨ (cfg'.node f ≠ none ∧ cfg.node f = none)
    by_cases hnode : cfg.node f = none
    · simp only [hnode, ne_eq, not_true_eq_false, false_or, and_true]
      exact or_comm
    · rw [hE.keeps f hnode]
      simp only [hnode, ne_eq, not_false_eq_true, true_or]

include hs

theorem Good.edit_maps (hX : ¬ X c p) : (view b cfg').maps c p = (view b cfg).maps c p := by
  refine view_maps_congr (by rw [hs.live]) fun hc hp hpriv => ?_
  exact hE.leaf_eq c _ (h.roots c hc) hpriv (by rwa [vpn_mul hp])

/-- An edit of one space moves the view. -/
theorem Good.edit_moves (hfirst : ViewSteps apart (view b cfg) (midView b cfg cfg'))
    (hframes : ∀ c p, c ≠ root → (view b cfg').frame c p = (view b cfg).frame c p) :
    Moves apart b root cfg cfg' := by
  refine h.moves hE.typed (fun c hc => (hE.root_iff c).mpr (h.roots c (hs.live ▸ hc))) ?_
    (hfirst.trans (h.takes hE)) fun c p hc => ⟨hframes c p hc, fun f hf => ?_⟩
  · rw [hs.owned]
    exact h.owned_frame
  · have hused : (view b cfg).Used f := .inr ⟨c, p, hf⟩
    exact hE.data f (h.sound.used f hused).1 (h.used_plain hused).1

end

/-- The entries that a page of the view may get. -/
abbrev PageEntry (apart : Prop) : View → Nat → Nat → Option (Nat × PageTableFlags) → Prop :=
  Mappings.Entry Writable apart

section

variable (h : Good b cfg) (hc : c ∈ cfg.live) (hv : b.Private v)
include h hc hv

/-- The edit of one page. -/
theorem Good.editPage (hs : SameSpaces cfg cfg')
    (hE : Edits b cfg.m cfg'.m cfg.node cfg'.node (OnePage c v))
    (hentry : PageEntry apart (view b cfg) c (vpn v) ((leaf cfg'.m.mem c v).map decode)) :
    Moves apart b c cfg cfg' := by
  refine h.edit_moves hs hE (.single (.edit c (vpn v) hc ?_
    (fun d p hne => h.edit_maps hs hE hne) rfl rfl hs.live hs.owned))
    fun d p hd => Mappings.frame_congr (h.edit_maps hs hE fun he => hd he.1)
  show PageEntry apart (view b cfg) c (vpn v) ((view b cfg').maps c (vpn v))
  rwa [view_maps (hs.live ▸ hc) hv]

/-- Mapping a page to an owned frame that is mapped nowhere. -/
theorem Good.mapPage (hf : f ∈ cfg.owned) (hun : (view b cfg).Unmapped f)
    (hflags : flags.present = true) :
    ∃ cfg', SameSpaces cfg cfg' ∧ cfg'.m = cfg.m.mapPageInTable c v f flags ∧
      Moves apart b c cfg cfg' := by
  have hframe := (h.owned_frame f hf).1
  obtain ⟨node', hE, hleaf⟩ := h.typed.mapPageInTable_spec hv (h.roots c hc) hframe hflags
  refine ⟨{ cfg with m := cfg.m.mapPageInTable c v f flags, node := node' }, ⟨rfl, rfl⟩, rfl,
    h.editPage hc hv ⟨rfl, rfl⟩ hE ?_⟩
  rcases hleaf with hleaf | hleaf
  · rw [hleaf, map_some, decode_mkEntry hframe]
    exact .fresh hf hun
  · rw [hleaf, ← view_maps hc hv]
    exact .kept

/-- Unmapping a page. -/
theorem Good.unmapPage : ∃ cfg', SameSpaces cfg cfg' ∧ cfg'.m = cfg.m.unmapPage c v ∧
    Moves apart b c cfg cfg' ∧
      ∀ d p f, (view b cfg').frame d p = some f → (view b cfg).frame d p = some f := by
  obtain ⟨hE, hleaf⟩ := h.typed.unmapPage_spec hv (h.roots c hc)
  set cfg' : Config := { cfg with m := cfg.m.unmapPage c v }
  have hs : SameSpaces cfg cfg' := ⟨rfl, rfl⟩
  have hc' : c ∈ cfg'.live := hc
  refine ⟨cfg', hs, rfl, h.editPage hc hv hs hE ?_, fun d p f hf => ?_⟩
  · rw [hleaf]
    exact .gone
  · by_cases hdp : d = c ∧ p = vpn v
    · obtain ⟨rfl, rfl⟩ := hdp
      rw [view_frame hc' hv, hleaf] at hf
      cases hf
    · rwa [Mappings.frame_congr (h.edit_maps hs hE hdp)] at hf

/-- Re-flagging a page keeps all frames. -/
theorem Good.updatePage (hflags : flags.present = true)
    (hok : apart → flags.writable = true → (view b cfg).Alone c (vpn v)) :
    ∃ cfg', SameSpaces cfg cfg' ∧ cfg'.m = cfg.m.updatePageFlags c v flags ∧
      Moves apart b c cfg cfg' ∧ ∀ d p, (view b cfg').frame d p = (view b cfg).frame d p := by
  obtain ⟨hE, hleaf⟩ := h.typed.updatePageFlags_spec hv (h.roots c hc) hflags
  set cfg' : Config := { cfg with m := cfg.m.updatePageFlags c v flags }
  have hs : SameSpaces cfg cfg' := ⟨rfl, rfl⟩
  have hc' : c ∈ cfg'.live := hc
  refine ⟨cfg', hs, rfl, h.editPage hc hv hs hE ?_, fun d p => ?_⟩
  · rw [hleaf]
    cases hold : leaf cfg.m.mem c v with
    | none => exact .gone
    | some entry =>
      rw [map_some, map_some, decode_mkEntry (frameAddr_entryAddr entry)]
      exact .reflagged (by rw [view_frame hc hv, hold]; rfl) hok
  · by_cases hdp : d = c ∧ p = vpn v
    · obtain ⟨rfl, rfl⟩ := hdp
      rw [view_frame hc' hv, view_frame hc hv, hleaf, map_map]
      congr 1
      exact funext fun entry => entryAddr_mkEntry (frameAddr_entryAddr entry) flags
    · exact Mappings.frame_congr (h.edit_maps hs hE hdp)

/-- What `fork` does with a mapped page: the child maps the frame and both lose write access. When
there is no frame for a table of the child, only the parent's page changes. -/
theorem Good.sharePage {d entry : Nat} (hne : c ≠ d) (hd : d ∈ cfg.live)
    (hentry : leaf cfg.m.mem c v = some entry) (hflags : flags.present = true)
    (hwrite : flags.writable = false) :
    ∃ cfg', SameSpaces cfg cfg' ∧
      cfg'.m = (cfg.m.mapPageInTable d v (entryAddr entry) flags).updatePageFlags c v flags ∧
      Moves apart b d cfg cfg' := by
  have hframe := frameAddr_entryAddr entry
  obtain ⟨node', hmap, hchild⟩ := h.typed.mapPageInTable_spec hv (h.roots d hd) hframe hflags
  have hc' : IsRoot node' c := (hmap.root_iff c).mpr (h.roots c hc)
  have hd' : IsRoot node' d := (hmap.root_iff d).mpr (h.roots d hd)
  obtain ⟨hupdate, hparent⟩ := hmap.typed.updatePageFlags_spec hv hc' hflags
  set cfg' : Config := { cfg with
    m := (cfg.m.mapPageInTable d v (entryAddr entry) flags).updatePageFlags c v flags
    node := node' }
  have hs : SameSpaces cfg cfg' := ⟨rfl, rfl⟩
  have hE : Edits b cfg.m cfg'.m cfg.node cfg'.node fun e p => (e = c ∨ e = d) ∧ p = vpn v :=
    (hmap.mono fun e p he => ⟨.inr he.1, he.2⟩).trans
      (hupdate.mono fun e p he => ⟨.inl he.1, he.2⟩)
  have hparent' : (view b cfg').maps c (vpn v) = some (entryAddr entry, flags) := by
    rw [view_maps (hs.live ▸ hc) hv, hparent, hmap.leaf_eq c v (h.roots c hc) hv fun he => hne he.1,
      hentry]
    exact congrArg some (decode_mkEntry hframe flags)
  have hchild' : (view b cfg').maps d (vpn v) = (view b cfg).maps d (vpn v) ∨
      (view b cfg').maps d (vpn v) = some (entryAddr entry, flags) := by
    rw [view_maps (hs.live ▸ hd) hv, hupdate.leaf_eq d v hd' hv fun he => hne he.1.symm,
      view_maps hd hv]
    refine hchild.symm.imp (congrArg (Option.map decode)) fun hchild => ?_
    rw [hchild]
    exact congrArg some (decode_mkEntry hframe flags)
  have hold : (view b cfg).frame c (vpn v) = some (entryAddr entry) := by
    rw [view_frame hc hv, hentry]
    rfl
  have hkept : ∀ e p, ¬ (e = c ∧ p = vpn v) → ¬ (e = d ∧ p = vpn v) →
      (view b cfg').maps e p = (view b cfg).maps e p := by
    intro e p hec hed
    refine h.edit_maps hs hE ?_
    rintro ⟨rfl | rfl, rfl⟩
    · exact hec ⟨rfl, rfl⟩
    · exact hed ⟨rfl, rfl⟩
  -- the parent gives up write access first
  let mid : View := { view b cfg with
    maps := fun e p => if e = c ∧ p = vpn v then some (entryAddr entry, flags)
      else (view b cfg).maps e p }
  have hself : mid.maps c (vpn v) = some (entryAddr entry, flags) := if_pos ⟨rfl, rfl⟩
  have hother : ∀ e p, ¬ (e = c ∧ p = vpn v) → mid.maps e p = (view b cfg).maps e p :=
    fun e p he => if_neg he
  have hfirst : Mappings.Step Writable apart (view b cfg) mid := by
    refine .edit c (vpn v) hc ?_ hother rfl rfl rfl rfl
    rw [hself]
    exact .reflagged hold (by simp [hwrite])
  refine ⟨cfg', hs, rfl, h.edit_moves hs hE (.tail (.single hfirst)
    (.edit d (vpn v) hd ?_ (fun e p he => ?_) rfl rfl rfl rfl)) fun e p he => ?_⟩
  · show PageEntry apart mid d (vpn v) ((view b cfg').maps d (vpn v))
    rcases hchild' with hchild' | hchild'
    · rw [hchild', ← hother d (vpn v) fun he => hne he.1.symm]
      exact .kept
    · rw [hchild']
      exact .shared hself (by simp [hwrite]) (by simp [hwrite])
  · show (view b cfg').maps e p = mid.maps e p
    by_cases hec : e = c ∧ p = vpn v
    · obtain ⟨rfl, rfl⟩ := hec
      rw [hparent', hself]
    · rw [hother e p hec]
      exact hkept e p hec he
  · by_cases hec : e = c ∧ p = vpn v
    · obtain ⟨rfl, rfl⟩ := hec
      rw [hold, Mappings.frame, hparent']
      rfl
    · exact Mappings.frame_congr (hkept e p hec fun hed => he hed.1)

end

/-! ## Frames leave and enter the pool -/

section

variable (h : Good b cfg)
include h

/-- A frame that leaves the pool becomes owned; no space maps it. -/
theorem Good.own (apart : Prop) (root : Nat) (halloc : cfg.m.pool.allocate = (some f, pool)) :
    ∃ cfg', cfg'.m = { cfg.m with pool := pool } ∧ cfg'.live = cfg.live ∧
      cfg'.owned = f ::ₘ cfg.owned ∧ Moves apart b root cfg cfg' ∧ (view b cfg').Unmapped f := by
  obtain ⟨hin, hfresh, hpool, hfree⟩ := h.typed.toFreeFrames.allocate (fun _ _ => rfl) halloc
  refine ⟨⟨{ cfg.m with pool := pool }, cfg.node, cfg.live, f ::ₘ cfg.owned⟩, rfl, rfl, rfl,
    h.moves ⟨h.typed.toTrees, hpool, h.typed.template⟩ h.roots (fun g hg => ?_)
      (.single (.own f hin ?_ rfl rfl rfl rfl)) fun _ _ _ => ⟨rfl, fun _ _ => rfl⟩,
    h.sound.unmapped_of_free hin⟩
  · rcases Multiset.mem_cons.mp hg with rfl | hg
    · exact hfresh.frame
    · exact h.owned_frame g hg
  · ext g
    exact hfree g

/-! ## Roots come and go -/

/-- A new root: a fresh frame that shares the kernel slots. -/
theorem Good.spawn (apart : Prop) (root : Nat) {m : Machine}
    (halloc : cfg.m.pool.allocate = (some f, pool))
    (hm : m = { cfg.m with pool := pool, mem := cfg.m.mem.zeroFrame f }.cloneKernelMappings f) :
    ∃ cfg', cfg'.m = m ∧ cfg'.live = cfg.live ∪ {f} ∧ cfg'.owned = cfg.owned ∧
      f ∉ cfg.live ∧ Moves apart b root cfg cfg' := by
  obtain ⟨hin, hfresh, -, hfree⟩ :=
    h.typed.toFreeFrames.allocate (fun g _ => Eq.refl (cfg.node g)) halloc
  obtain ⟨htyped, hempty⟩ := h.typed.spawn halloc hm
  have hnone : ∀ c, IsRoot cfg.node c → c ≠ f := by
    rintro c hc rfl
    rw [IsRoot, hfresh.no_node] at hc
    cases hc
  have hnew : f ∉ cfg.live := fun hf => hnone f (h.roots f hf) rfl
  set cfg' : Config := ⟨m, update cfg.node f (some ⟨f, 3, 0⟩), cfg.live ∪ {f}, cfg.owned⟩
  have hmem : ∀ g, g ≠ f → cfg'.m.mem g = cfg.m.mem g := by
    intro g hg
    rw [show cfg'.m = m from rfl, hm]
    exact cloneKernelMappings_of_ne (m := { cfg.m with pool := pool }) hg
  have hmaps : (view b cfg').maps = (view b cfg).maps := by
    funext c p
    by_cases hcf : c = f
    · subst hcf
      simp only [view, hnew, false_and, if_false]
      split
      next hcond => rw [show cfg'.m = m from rfl, hempty _ hcond.2.2, map_none]
      next => rfl
    · refine view_maps_congr ⟨fun hc => hc.resolve_right hcf, .inl⟩ fun hc _ hp =>
        h.typed.leaf_congr hp (h.roots c hc) fun t n q ht => ?_
      refine hmem t ?_
      rintro rfl
      rw [hfresh.no_node] at ht
      cases ht
  refine ⟨cfg', rfl, rfl, rfl, hnew, h.moves htyped (fun c hc => ?_) h.owned_frame (.single
    (.take {f} {f} (Set.singleton_subset_iff.mpr hin) subset_rfl ?_ ?_ rfl rfl hmaps))
    fun c p _ => ⟨Mappings.frame_congr (congrFun₂ hmaps c p), fun g hg => hmem g ?_⟩⟩
  · rcases hc with hc | rfl
    · exact (update_of_ne (hnone c (h.roots c hc)) ..).trans (h.roots c hc)
    · exact update_self ..
  · ext g
    show g ∈ m.pool.freeFrames ↔ g ∈ cfg.m.pool.freeFrames ∧ g ≠ f
    rw [hm]
    exact hfree g
  · ext g
    show (update cfg.node f (some ⟨f, 3, 0⟩) g ≠ none ∨ ∃ n, b.Table n g) ↔
      (cfg.node g ≠ none ∨ ∃ n, b.Table n g) ∨ g = f
    by_cases hgf : g = f
    · simp [hgf]
    · simp [hgf]
  · rintro rfl
    exact h.sound.unmapped_of_free hin c p hg

section

variable {frames : List Nat} {rest : Multiset Nat} (hc : c ∈ cfg.live)
  (howned : cfg.owned = rest + (frames : Multiset Nat))
include hc howned

/-- The frames of a space go back to the pool with its tables. -/
theorem Good.drops : Drops b cfg.m
    ((frames.foldl Machine.freePhysicalFrame cfg.m).freePhysicalFrame c) cfg.node c frames := by
  have hnodup := h.sound.owned_nodup
  rw [show (view b cfg).owned = cfg.owned from rfl, howned, Multiset.nodup_add] at hnodup
  have hin : ∀ f ∈ frames, f ∈ cfg.owned := fun f hf =>
    howned ▸ Multiset.mem_add.mpr (.inr hf)
  refine h.typed.drops (h.roots c hc) (Multiset.coe_nodup.mp hnodup.2.1) (fun f hf => ?_)
    fun f hf => (h.sound.used f (.inl (hin f hf))).1
  obtain ⟨hnode, hboot⟩ := h.used_plain (.inl (hin f hf))
  exact ⟨h.owned_frame f (hin f hf), hnode, hboot⟩

/-- A root dies, and the frames of its space, which no other space maps, are freed before it. -/
theorem Good.drop (apart : Prop)
    (hothers : ∀ d p f, (view b cfg).frame d p = some f → f ∈ frames → d = c) :
    ∃ cfg', cfg'.m = (frames.foldl Machine.freePhysicalFrame cfg.m).freePhysicalFrame c ∧
      cfg'.live = cfg.live \ {c} ∧ cfg'.owned = rest ∧ Moves apart b c cfg cfg' := by
  obtain ⟨htyped, hfree, hmem, hleaf⟩ := h.drops hc howned
  set cfg' : Config := ⟨(frames.foldl Machine.freePhysicalFrame cfg.m).freePhysicalFrame c,
    update cfg.node c none, cfg.live \ {c}, rest⟩ with hcfg'
  have hempty : ∀ p, (view b cfg').maps c p = none := fun p => by simp [view, hcfg']
  have hkept : ∀ d p, d ≠ c → (view b cfg').maps d p = (view b cfg).maps d p := fun d p hd =>
    view_maps_congr ⟨And.left, fun hlive => ⟨hlive, hd⟩⟩ fun hlive _ hp =>
      hleaf d _ hd (h.roots d hlive) hp
  refine ⟨cfg', rfl, rfl, rfl, h.moves htyped (fun d hd => ?_) (fun f hf => ?_) (.single
    (.drop c frames hc howned rfl ?_ hfree (fun f hf d p hmap => ?_) hempty hkept)) fun d p hd =>
      ⟨Mappings.frame_congr (hkept d p hd), fun f hf => hmem f (fun hin =>
        hd (hothers d p f hf hin)) ?_⟩⟩
  · exact (update_of_ne hd.2 ..).trans (h.roots d hd.1)
  · exact h.owned_frame f (howned ▸ Multiset.mem_add.mpr (.inl hf))
  · ext g
    show (update cfg.node c none g ≠ none ∨ ∃ n, b.Table n g) ↔
      (cfg.node g ≠ none ∨ ∃ n, b.Table n g) ∧ g ≠ c
    by_cases hgc : g = c
    · have hboot : ∀ n, ¬ b.Table n c := fun n hn => by
        have hroot := h.roots c hc
        rw [IsRoot, h.typed.boot_plain n c hn] at hroot
        cases hroot
      simp [hgc, hboot]
    · simp [hgc]
  · have hd : d ≠ c := by
      rintro rfl
      rw [Mappings.frame, hempty] at hmap
      cases hmap
    exact hd (hothers d p f (Mappings.frame_congr (hkept d p hd) ▸ hmap) hf)
  · rintro rfl
    exact (h.sound.used f (.inr ⟨d, p, hf⟩)).2 (h.sound.live_tables f hc)

end

end

end

end KnoxOS.Vmm
