import KnoxOS.Vmm.Processes

/-!
# Runs of the memory manager

What holds of the address spaces along every run, in any order of calls and for any processes:
frames stay apart, kernel mappings stay as the template has them, and what one process does is not
seen by another.
-/

namespace KnoxOS.Vmm

open Lib

section

variable {b : Boot} {apart : Prop} {k k₀ : ChargedKernel} {cfg : Config} {pid : Nat}
  {s : AddressSpace}

/-- What happens to the address spaces. -/
inductive VmCall where
  | create (pid heapSeed mmapSeed : Nat)
  | replace (pid heapSeed mmapSeed : Nat)
  | exit (pid : Nat)
  | fork (parent child heapSeed mmapSeed : Nat)
  | call (pid : Nat) (c : SpaceCall)
  | store (pid vaddr : Nat) (byte : UInt8)

namespace VmCall

def run (k : ChargedKernel) : VmCall → ChargedKernel
  | create pid heapSeed mmapSeed =>
    { k with kernel := (k.kernel.createAddressSpace pid heapSeed mmapSeed).2 }
  | replace pid heapSeed mmapSeed =>
    { k with kernel := (k.kernel.replaceAddressSpace pid heapSeed mmapSeed).2 }
  | exit pid => { k with kernel := k.kernel.destroyAddressSpace pid }
  | fork parent child heapSeed mmapSeed =>
    { k with kernel := (k.kernel.forkAddressSpace parent child heapSeed mmapSeed).2 }
  | call pid c => c.run k pid
  | store pid vaddr byte => { k with kernel := k.kernel.userStore pid vaddr byte }

/-- The process that notices. -/
def process : VmCall → Nat
  | create pid _ _ | replace pid _ _ | exit pid | fork _ pid _ _ | call pid _ | store pid _ _ => pid

/-- A space is created while the pool has a frame and dropped while no other space maps its frames,
a fork takes an unused process number, and user addresses are private. -/
def Admissible (b : Boot) (k : ChargedKernel) : VmCall → Prop
  | create pid _ _ | replace pid _ _ =>
    (k.kernel.m.pool.allocate).1 ≠ none ∧ k.kernel.OwnsAlone b pid
  | exit pid => k.kernel.OwnsAlone b pid
  | fork _ child _ _ => k.kernel.spaces[child]? = none
  | call pid c => ∀ s, k.kernel.spaces[pid]? = some s → c.Admissible b ⟨s, k.kernel.m⟩
  | store _ vaddr _ => b.Private vaddr

/-- Where `mprotect` gives write access, no other process maps the frames. -/
def GrantsAlone (b : Boot) (k : ChargedKernel) : VmCall → Prop
  | call pid (.mprotect addr length prot) => (ProtFlags.fromMmapProt prot).write = true →
    ∀ v ∈ protectPages addr (pageAlignUp length), ∀ f, k.kernel.Maps b pid v f →
      k.kernel.OnlyMappedBy b pid f
  | _ => True

/-- The condition on the kernel, on the abstract spaces. -/
theorem GrantsAlone.view {c : SpaceCall} (halone : (call pid c).GrantsAlone b k)
    (h : k.kernel.Sees b cfg) (hs : k.kernel.spaces[pid]? = some s) :
    c.GrantsAlone (view b cfg) s.cr3 := by
  cases c with
  | mprotect addr length prot =>
    intro hwrite v hv f d p hself hother
    obtain ⟨-, hvpn, hpv⟩ := view_frame_eq_some hself
    have hpriv := private_vpn hvpn hpv
    rw [← h.frame hs hpriv] at hself
    exact h.root_eq hs (halone hwrite v hv f ⟨s, hs, hpriv, hself⟩) hother
  | _ => trivial

/-- An admissible call goes on to a kernel that a configuration describes. -/
theorem goes (h : k.kernel.Sees b cfg) {op : VmCall} (hadm : op.Admissible b k)
    (hgrants : apart → op.GrantsAlone b k) :
    k.kernel.Goes apart b cfg op.process (op.run k).kernel := by
  cases op with
  | create pid heapSeed mmapSeed => exact h.create hadm.1 hadm.2
  | replace pid heapSeed mmapSeed => exact h.create hadm.1 hadm.2
  | exit pid => exact h.exit apart hadm
  | fork parent child heapSeed mmapSeed => exact h.fork hadm
  | call pid c => exact SpaceCall.goes h hadm fun hapart s hs => (hgrants hapart).view h hs
  | store pid vaddr byte => exact h.store byte hadm

end VmCall

/-- The kernel before the first space is created: the pool has aligned frames that are no tables of
the template, each once. -/
structure Booted (b : Boot) (k : Kernel) : Prop where
  spaces : k.spaces = ∅
  template : k.m.kernelL4 = b.l4
  mem : k.m.mem = b.mem
  unshared : ∀ c, k.cr3IsShared c = false
  aligned : k.m.pool.AllAligned
  nodup : k.m.pool.freeFrames.Nodup
  bound : ∀ f ∈ k.m.pool.freeFrames, 0 < f ∧ f < 2 ^ 52
  plain : ∀ f ∈ k.m.pool.freeFrames, ∀ n, ¬ b.Table n f

/-- The kernel at boot is described by a configuration without processes. -/
theorem Booted.sees {k : Kernel} (h : Booted b k) : k.Sees b ⟨k.m, fun _ => none, ∅, 0⟩ := by
  have htyped : Typed b k.m fun _ => none :=
    { template := h.template
      boot_mem := fun n f _ => by rw [h.mem]
      boot_plain := fun _ _ _ => rfl
      node_frame := fun f hf => absurd rfl hf
      pool_aligned := h.aligned
      free_nodup := h.nodup
      free_bound := h.bound
      free_plain := fun f hf => ⟨rfl, h.plain f hf⟩
      root_kernel := fun _ hf => by cases hf
      linked := fun _ _ _ _ _ hf => by cases hf }
  have hnone : ∀ c p f, (view b ⟨k.m, fun _ => none, ∅, 0⟩).frame c p ≠ some f :=
    fun c p f hf => (view_frame_eq_some hf).1
  have hsound : (view b ⟨k.m, fun _ => none, ∅, 0⟩).Sound := by
    refine ⟨fun c p f hf => absurd hf (hnone c p f), ?_, Multiset.nodup_zero,
      fun c hc => hc.elim, ?_⟩
    · rintro f (hf | ⟨c, p, hf⟩)
      · exact absurd hf (Multiset.notMem_zero f)
      · exact absurd hf (hnone c p f)
    · rintro f hf (hmem | ⟨n, hn⟩)
      · exact hmem rfl
      · exact h.plain f hf n hn
  exact ⟨rfl, ⟨htyped, by simp, hsound, fun c p d q f hf => absurd hf (hnone c p f), by simp⟩,
    ⟨by simp [h.spaces], by rw [h.spaces]; rfl, by simp [h.spaces], by simp [h.spaces]⟩,
    h.unshared⟩

/-- Along every run the kernel is described, and if write access is granted apart, a frame that one
space may write to is mapped by no other. -/
theorem Booted.run (hboot : Booted b k₀.kernel) (apart : Prop) {ok : ChargedKernel → VmCall → Prop}
    (hok : ∀ k op, ok k op → op.Admissible b k ∧ (apart → op.GrantsAlone b k))
    (hreach : Reach VmCall.run ok k₀ k) : ∃ cfg, k.kernel.Sees b cfg ∧
      (apart → (view b cfg).Exclusive Writable) := by
  refine hreach.invariant
    (fun k => ∃ cfg, k.kernel.Sees b cfg ∧ (apart → (view b cfg).Exclusive Writable))
    ⟨_, hboot.sees, fun _ => by simp [Mappings.Exclusive, view]⟩ ?_
  rintro k op ⟨cfg, hsees, hexcl⟩ hadm
  obtain ⟨cfg', hsees', hsteps, -⟩ := VmCall.goes hsees (hok k op hadm).1 (hok k op hadm).2
  refine ⟨cfg', hsees', fun hapart => (hsteps.invariant
    (fun v => v.OnePage ∧ v.Exclusive Writable) ⟨hsees.good.onePage, hexcl hapart⟩
    fun v v' hinv hone => ?_).2⟩
  exact ⟨hinv.1.step hone, hinv.2.step hinv.1 hone hapart⟩

theorem Booted.exists_sees (hboot : Booted b k₀.kernel)
    (hreach : Reach VmCall.run (VmCall.Admissible b) k₀ k) : ∃ cfg, k.kernel.Sees b cfg := by
  obtain ⟨cfg, hsees, -⟩ := hboot.run False (fun _ _ hadm => ⟨hadm, False.elim⟩) hreach
  exact ⟨cfg, hsees⟩

/-! ## A small run -/

/-- A template with one used slot, which leads back to it. -/
def smallBoot : Boot :=
  ⟨(smallMachine.mem.zeroFrame 0x1000).writeEntry 0x1000 256 0x1003, 0x1000⟩

theorem smallBoot_unused {i : Nat} (hi : i ≠ 256) : smallBoot.mem.readEntry 0x1000 i = 0 :=
  (PhysMem.readEntry_writeEntry_ne _ _ fun h => hi h.2).trans
    (PhysMem.readEntry_zeroFrame _ _ i)

theorem smallBoot_private {v : Nat} (hv : v < 2 ^ 39) : smallBoot.Private v := by
  refine smallBoot_unused ?_
  rw [tableIdx_eq (Nat.le_refl 3), vpn]
  unfold pageSize
  omega

theorem smallBoot_table {n f : Nat} (h : smallBoot.Table n f) : f = 0x1000 := by
  induction h with
  | root => rfl
  | @child n table i _ hi hused _ ih =>
    subst ih
    obtain rfl : i = 256 := by_contra fun hne => hused (smallBoot_unused hne)
    decide +kernel

/-- A kernel with that template and no address space. -/
def smallStart : ChargedKernel :=
  { smallCharged with
    kernel := { smallCharged.kernel with
      m := { smallMachine with mem := smallBoot.mem }
      spaces := ∅ } }

theorem smallStart_booted : Booted smallBoot smallStart.kernel where
  spaces := rfl
  template := rfl
  mem := rfl
  unshared c := rfl
  aligned := by
    unfold PhysicalFramePool.AllAligned PhysicalFramePool.Aligned
    decide +kernel
  nodup := by decide +kernel
  bound := by decide +kernel
  plain f hf n hn := by
    rw [smallBoot_table hn] at hf
    revert hf
    decide +kernel

/-- A process maps a page, writes to it and forks. -/
def smallCalls : List VmCall :=
  [.create 1 0 0, .call 1 (.mmap 0x50000000 0x1000 3 0x8032), .store 1 0x50000000 7,
    .fork 1 2 0 0]

/-- The calls of the example are admissible. -/
theorem smallCalls_admitted :
    Admitted VmCall.run (VmCall.Admissible smallBoot) smallStart smallCalls := by
  refine ⟨⟨by decide +kernel, fun _ hs => nomatch hs⟩, fun s _ vaddr hv => ?_,
    smallBoot_private (by decide), Option.isNone_iff_eq_none.mp (by decide +kernel), trivial⟩
  have hplace : pageAlignDown 0x50000000 = vaddr := Option.some.inj hv
  rw [show pageAlignDown 0x50000000 = 0x50000000 by decide +kernel] at hplace
  rw [← hplace, show pageAlignUp 0x1000 = 0x1000 by decide +kernel]
  exact ⟨by decide, by decide, fun w _ hw => smallBoot_private (by omega)⟩

/-- The kernel after these calls. -/
abbrev smallEnd : ChargedKernel := smallCalls.foldl VmCall.run smallStart

theorem smallEnd_reach : Reach VmCall.run (VmCall.Admissible smallBoot) smallStart smallEnd :=
  Reach.start.foldl smallCalls_admitted

/-! ## Frames -/

/-- The frames of the pool, the L4 tables, and the frames that spaces map or own are kept apart,
and a frame is mapped at one page number and owned once. -/
structure FramesApart (b : Boot) (k : Kernel) : Prop where
  mapped_not_free : ∀ pid v f, k.Maps b pid v f → f ∉ k.m.pool.freeFrames
  mapped_no_root : ∀ (pid v f q : Nat) (t : AddressSpace), k.Maps b pid v f →
    k.spaces[q]? = some t → f ≠ t.cr3
  root_not_free : ∀ (pid : Nat) (s : AddressSpace), k.spaces[pid]? = some s →
    s.cr3 ∉ k.m.pool.freeFrames
  owned_not_free : ∀ (pid : Nat) (s : AddressSpace), k.spaces[pid]? = some s →
    ∀ f ∈ s.ownedFrames, f ∉ k.m.pool.freeFrames
  one_page : ∀ p q v w f, k.Maps b p v f → k.Maps b q w f → vpn v = vpn w
  owned_once : (ownedBy k.spaces).Nodup

/-- Where a configuration describes the kernel, processes have their frames apart. -/
theorem Kernel.Sees.framesApart {k : Kernel} (h : k.Sees b cfg) : FramesApart b k := by
  have hmaps : ∀ {pid v f}, k.Maps b pid v f → ∃ c, (view b cfg).frame c (vpn v) = some f := by
    rintro pid v f ⟨s, hs, hv, hf⟩
    exact ⟨s.cr3, (h.frame hs hv).symm.trans hf⟩
  have hused : ∀ {pid v f}, k.Maps b pid v f → f ∉ (view b cfg).free ∧ f ∉ (view b cfg).tables := by
    intro pid v f hf
    obtain ⟨c, hf⟩ := hmaps hf
    exact h.good.sound.used f (.inr ⟨c, vpn v, hf⟩)
  have hroot : ∀ (pid : Nat) (s : AddressSpace), k.spaces[pid]? = some s →
      s.cr3 ∈ (view b cfg).tables := fun pid s hs => h.good.sound.live_tables _ (h.live hs)
  have hfree : ∀ f, f ∈ k.m.pool.freeFrames ↔ f ∈ (view b cfg).free := by
    rw [← h.m]
    exact fun f => .rfl
  refine ⟨fun pid v f hf => ?_, fun pid v f q t hf ht heq => ?_, fun pid s hs => ?_,
    fun pid s hs f hf => ?_, fun p q v w f hf hg => ?_, h.covers.owned ▸ h.good.sound.owned_nodup⟩
  · rw [hfree]
    exact (hused hf).1
  · exact (hused hf).2 (heq ▸ hroot q t ht)
  · rw [hfree]
    exact fun hin => h.good.sound.free_tables _ hin (hroot pid s hs)
  · have howned : f ∈ cfg.owned := (h.at hs False).mem_owned hf
    rw [hfree]
    exact (h.good.sound.used f (.inl howned)).1
  · obtain ⟨c, hf⟩ := hmaps hf
    obtain ⟨d, hg⟩ := hmaps hg
    exact h.good.onePage c _ d _ f hf hg

/-- Frames stay apart along every admissible run. -/
theorem frames_apart (hboot : Booted b k₀.kernel)
    (hreach : Reach VmCall.run (VmCall.Admissible b) k₀ k) : FramesApart b k.kernel := by
  obtain ⟨cfg, hsees⟩ := hboot.exists_sees hreach
  exact hsees.framesApart

/-- The frames are apart after a fork. -/
theorem frames_apart_after_fork : FramesApart smallBoot smallEnd.kernel :=
  frames_apart smallStart_booted smallEnd_reach

/-- After an exit the frames stay apart just where no other process maps a frame of the one that
exits. -/
theorem exit_safe_iff (hboot : Booted b k₀.kernel)
    (hreach : Reach VmCall.run (VmCall.Admissible b) k₀ k) :
    FramesApart b (k.kernel.destroyAddressSpace pid) ↔ k.kernel.OwnsAlone b pid := by
  obtain ⟨cfg, h⟩ := hboot.exists_sees hreach
  constructor
  · rintro hsafe s hs f hf q v ⟨t, ht, hv, hmapped⟩
    by_contra hq
    obtain ⟨htyped, hfree, -, hleaf⟩ :=
      h.good.drops (h.live hs) (h.covers.owned.trans (ownedBy_of_lookup hs))
    rw [h.m] at htyped hfree hleaf
    have hne := h.root_ne hs q t hq ht
    have hroot := h.good.roots _ (h.live ht)
    -- the tables of the other process stay, so it still maps the frame that has been freed
    rw [← h.m, h.good.typed.getMappedFrame_eq hv hroot, h.m, ← hleaf t.cr3 v hne hroot hv,
      ← htyped.getMappedFrame_eq hv ((Function.update_of_ne hne ..).trans hroot)] at hmapped
    rw [h.destroyAddressSpace_eq hs] at hsafe
    refine hsafe.mapped_not_free q v f ⟨t, ?_, hv, hmapped⟩ ((hfree f).mpr (.inr (.inl hf)))
    rwa [lookup_erase, if_neg (Ne.symm hq)]
  · intro halone
    obtain ⟨cfg', hsees, -⟩ := h.exit False halone
    exact hsees.framesApart

/-- The exit of a parent frees the frame that its child still maps. -/
theorem exit_unsafe_after_fork :
    ¬ FramesApart smallBoot (smallEnd.kernel.destroyAddressSpace 1) := by
  obtain ⟨s, hs, hframes⟩ := Option.map_eq_some_iff.mp (show
    smallEnd.kernel.spaces[1]?.map (·.ownedFrames) = some [0x101000] by decide +kernel)
  obtain ⟨t, ht, hmapped⟩ := Option.map_eq_some_iff.mp (show
    smallEnd.kernel.spaces[2]?.map (getMappedFrame smallEnd.kernel.m.mem ·.cr3 0x50000000) =
      some (some 0x101000) by decide +kernel)
  rw [exit_safe_iff smallStart_booted smallEnd_reach]
  intro halone
  have hsame : 2 = 1 := halone s hs 0x101000 (by simp [hframes]) 2 0x50000000
    ⟨t, ht, smallBoot_private (by decide), hmapped⟩
  cases hsame

/-! ## Kernel mappings -/

/-- Along every admissible run, every space translates the addresses of the kernel as the template
does. -/
theorem kernel_translations_kept (hboot : Booted b k₀.kernel)
    (hreach : Reach VmCall.run (VmCall.Admissible b) k₀ k)
    (hs : k.kernel.spaces[pid]? = some s) {v : Nat} (hv : ¬ b.Private v) :
    translation k.kernel.m.mem s.cr3 v = translation b.mem b.l4 v := by
  obtain ⟨cfg, hsees⟩ := hboot.exists_sees hreach
  rw [← hsees.m]
  exact hsees.good.typed.translation_kernel (hsees.good.roots _ (hsees.live hs)) hv

theorem kernel_translations_kept_after_fork : ∃ s, smallEnd.kernel.spaces[2]? = some s ∧
    translation smallEnd.kernel.m.mem s.cr3 0xffff804020100000 =
      translation smallBoot.mem 0x1000 0xffff804020100000 := by
  obtain ⟨s, hs⟩ := Option.isSome_iff_exists.mp (show smallEnd.kernel.spaces[2]?.isSome = true by
    decide +kernel)
  exact ⟨s, hs, kernel_translations_kept smallStart_booted smallEnd_reach hs (by decide +kernel)⟩

/-! ## Isolation -/

/-- Along every admissible run in which `mprotect` gives write access only to frames of one process,
no call, fault or store of a process changes the spaces or the memory of the others. -/
theorem processes_isolated (hboot : Booted b k₀.kernel)
    (hreach : Reach VmCall.run (fun k op => op.Admissible b k ∧ op.GrantsAlone b k) k₀ k)
    (op : VmCall) (hadm : op.Admissible b k) :
    k.kernel.Spares b op.process (op.run k).kernel := by
  obtain ⟨cfg, h, hexcl⟩ := hboot.run True (fun _ _ hadm => ⟨hadm.1, fun _ => hadm.2⟩) hreach
  obtain ⟨cfg', -, -, hspares⟩ := VmCall.goes h hadm (False.elim : False → _)
  exact hspares (hexcl trivial)

/-- The exit of a child spares its parent. -/
theorem processes_isolated_after_fork :
    smallEnd.kernel.Spares smallBoot 2 (smallEnd.kernel.destroyAddressSpace 2) := by
  obtain ⟨hcreate, hmmap, hstore, hfork, -⟩ := smallCalls_admitted
  refine processes_isolated (k := smallEnd) smallStart_booted (Reach.start.foldl
    ⟨⟨hcreate, trivial⟩, ⟨hmmap, trivial⟩, ⟨hstore, trivial⟩, ⟨hfork, trivial⟩, trivial⟩) (.exit 2)
    fun s hs f hf => ?_
  have hframes : smallEnd.kernel.spaces[2]?.map (·.ownedFrames) = some [] := by decide +kernel
  rw [hs, Option.map_some, Option.some_inj] at hframes
  rw [hframes] at hf
  cases hf

end

end KnoxOS.Vmm
