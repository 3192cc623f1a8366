import KnoxOS.Lib.Map
import KnoxOS.Lib.Reach
import KnoxOS.Sched.Process
import Mathlib.Data.Fintype.Basic

/-!
# Capabilities

The capability sets of `sched/capabilities.rs`, with the three places that make or reset them:
`spawn_elf`, `sys_fork` and `execve_path`. A run records beside the kernel's state which process
has lost which capability, by a drop of its own or by its parent's before it was created.
`dropped_stays_dropped` reads that record against `has_capability`; `fork_regains` is a run in
which a child of `init` has what `init` gave up.
-/

namespace KnoxOS.Sched

open Lib ProcessTable List
open Std (TreeMap)

inductive Capability where
  | dacOverride | dacReadSearch | fowner | fsetid | kill | setgid | setuid | setpcap
  | netBindService | netAdmin | netRaw | ipcOwner | sysModule | sysRawio | sysChroot | sysPtrace
  | sysAdmin | sysBoot | sysNice | sysResource | sysTime | sysTtyConfig
  deriving DecidableEq, Repr

instance : Fintype Capability :=
  .ofSurjective (fun i : Fin 22 => Capability.ofNat i) fun cap =>
    ⟨⟨cap.ctorIdx, by cases cap <;> decide⟩, Capability.ofNat_ctorIdx cap⟩

/-- The capabilities whose bits are set. Bits that are no capability's are never tested. -/
abbrev CapabilitySet := Finset Capability

/-- The sets of a process. No function of the source builds an effective set beyond the permitted
set, or a permitted set beyond the bounding set. -/
structure ProcessCapabilities where
  effective : CapabilitySet
  permitted : CapabilitySet
  inheritable : CapabilitySet
  bounding : CapabilitySet
  ambient : CapabilitySet
  effective_within : effective ⊆ permitted
  permitted_within : permitted ⊆ bounding

namespace ProcessCapabilities

def root : ProcessCapabilities where
  effective := Finset.univ
  permitted := Finset.univ
  inheritable := Finset.univ
  bounding := Finset.univ
  ambient := ∅
  effective_within := subset_rfl
  permitted_within := Finset.subset_univ _

def user : ProcessCapabilities where
  effective := ∅
  permitted := ∅
  inheritable := ∅
  bounding := Finset.univ
  ambient := ∅
  effective_within := subset_rfl
  permitted_within := Finset.subset_univ _

/-- What `drop_capability` leaves of an entry. -/
def drop (e : ProcessCapabilities) (cap : Capability) : ProcessCapabilities where
  effective := e.effective.erase cap
  permitted := e.permitted.erase cap
  inheritable := e.inheritable
  bounding := e.bounding
  ambient := e.ambient
  effective_within := Finset.erase_subset_erase cap e.effective_within
  permitted_within := (Finset.erase_subset cap _).trans e.permitted_within

/-- What `init_process_caps` passes to a child. -/
def passed (parent : ProcessCapabilities) : ProcessCapabilities where
  effective := parent.inheritable ∩ parent.bounding
  permitted := parent.inheritable ∩ parent.bounding
  inheritable := parent.inheritable
  bounding := parent.bounding
  ambient := parent.ambient
  effective_within := subset_rfl
  permitted_within := Finset.inter_subset_right

end ProcessCapabilities

/-- The part of `destroy_process` that concerns the table. -/
def ProcessTable.destroyProcess (t : ProcessTable) (pid : Nat) : ProcessTable :=
  { t with processes := t.processes.filter (·.pid ≠ pid) }

/-- The process table and the capability entries of the processes that have one. -/
structure CapKernel where
  table : ProcessTable
  caps : TreeMap Nat ProcessCapabilities

namespace CapKernel

/-- The boot processes, and the two pids that `bind_self_test` leaves an entry for. -/
def init : CapKernel where
  table := .new
  caps := ((((TreeMap.empty.insert 0 .root).insert 1 .root).insert 2 .user).insert 0xE4E4
    .user).insert 0xE4E5 .root

def hasCapability (k : CapKernel) (pid : Nat) (cap : Capability) : Bool :=
  match k.caps[pid]? with
  | some pcaps => cap ∈ pcaps.effective
  | none => (k.table.getProcess pid).any (·.uid = 0)

def setCapabilities (k : CapKernel) (pid : Nat) (caps : ProcessCapabilities) : CapKernel :=
  { k with caps := k.caps.insert pid caps }

/-- `ESRCH` without an entry. -/
def dropCapability (k : CapKernel) (pid : Nat) (cap : Capability) :
    Except Int Unit × CapKernel :=
  match k.caps[pid]? with
  | some pcaps => (.ok (), k.setCapabilities pid (pcaps.drop cap))
  | none => (.error (-3), k)

def initProcessCaps (k : CapKernel) (pid parentPid : Nat) : CapKernel :=
  k.setCapabilities pid <|
    match k.caps[parentPid]? with
    | some parent => parent.passed
    | none => if (k.table.getProcess pid).any (·.uid = 0) then .root else .user

def applyExecCaps (k : CapKernel) (pid uid : Nat) : CapKernel :=
  k.setCapabilities pid (if uid = 0 then .root else .user)

/-- The uid a process image is given its capabilities for; 0 for a process that is not there. -/
def uidOf (k : CapKernel) (pid : Nat) : Nat := ((k.table.getProcess pid).map (·.uid)).getD 0

/-- `spawn_elf` up to the capabilities; a task whose image does not load is destroyed again. -/
def spawnElf (k : CapKernel) (name : String) (parent : Nat) (loads : Bool) : CapKernel :=
  let (pid, table) := k.table.spawn name parent
  if loads then
    let k := { k with table := table }
    (k.initProcessCaps pid parent).applyExecCaps pid (k.uidOf pid)
  else { k with table := table.destroyProcess pid }

/-- Neither `sys_fork` nor `sys_clone` makes a capability entry. -/
def sysFork (k : CapKernel) (ppid : Nat) : Option Nat × CapKernel :=
  ((k.table.fork ppid).1, { k with table := (k.table.fork ppid).2 })

/-- Boot tasks and images that do not load keep their capabilities. -/
def execvePath (k : CapKernel) (pid : Nat) (loads : Bool) : CapKernel :=
  if pid ≤ desktopPid ∨ !loads then k else k.applyExecCaps pid (k.uidOf pid)

end CapKernel

/-! ## Runs -/

inductive CapOp where
  | spawn (name : String) (parent : Nat) (loads : Bool)
  | fork (ppid : Nat)
  | execve (pid : Nat) (loads : Bool)
  | dropCapability (pid : Nat) (cap : Capability)
  deriving DecidableEq, Repr

/-- The kernel's state, and which process has lost which capability. -/
structure CapRun where
  kernel : CapKernel
  lost : List (Nat × Capability)

open CapKernel

namespace CapRun

def init : CapRun := ⟨.init, []⟩

/-- A child has lost what its parent had lost when it was created. -/
def inherit (r : CapRun) (parent child : Nat) : List (Nat × Capability) :=
  r.lost ++ (r.lost.filter (·.1 = parent)).map fun e => (child, e.2)

def step (r : CapRun) : CapOp → CapRun
  | .spawn name parent loads =>
    ⟨r.kernel.spawnElf name parent loads,
      if loads then r.inherit parent r.kernel.table.nextPid else r.lost⟩
  | .fork ppid =>
    match r.kernel.sysFork ppid with
    | (some child, k) => ⟨k, r.inherit ppid child⟩
    | (none, k) => ⟨k, r.lost⟩
  | .execve pid loads => ⟨r.kernel.execvePath pid loads, r.lost⟩
  | .dropCapability pid cap =>
    match r.kernel.dropCapability pid cap with
    | (.ok (), k) => ⟨k, (pid, cap) :: r.lost⟩
    | (.error _, k) => ⟨k, r.lost⟩

/-- The process has another uid than 0, or its permitted set is still full. -/
def Undropped (k : CapKernel) (pid : Nat) : Prop :=
  k.uidOf pid ≠ 0 ∨ ∀ e ∈ k.caps[pid]?, e.permitted = Finset.univ

/-- The next pid has no process, and no entry left from the boot or from an earlier process. -/
def Fresh (k : CapKernel) : Prop :=
  k.table.getProcess k.table.nextPid = none ∧ k.caps[k.table.nextPid]? = none

/-- A process of uid 0 forks and executes only before its first drop, and pids are not reused. -/
def Ok (r : CapRun) : CapOp → Prop
  | .spawn _ _ _ => Fresh r.kernel
  | .fork ppid => Fresh r.kernel ∧ Undropped r.kernel ppid
  | .execve pid _ => Undropped r.kernel pid
  | .dropCapability _ _ => True

instance (r : CapRun) : ∀ op, Decidable (r.Ok op)
  | .spawn _ _ _ => inferInstanceAs (Decidable (_ ∧ _))
  | .fork _ => inferInstanceAs (Decidable ((_ ∧ _) ∧ (_ ∨ ∀ e ∈ (_ : Option _), _)))
  | .execve _ _ => inferInstanceAs (Decidable (_ ∨ ∀ e ∈ (_ : Option _), _))
  | .dropCapability _ _ => inferInstanceAs (Decidable True)

/-! ## What a drop leaves -/

/-- The process cannot get the capability back by an image of its own uid. -/
def Lacks (k : CapKernel) (pid : Nat) (cap : Capability) : Prop :=
  match k.caps[pid]? with
  | some e => cap ∉ e.permitted
  | none => k.uidOf pid ≠ 0

variable {k k' : CapKernel} {r : CapRun} {pid : Nat} {cap : Capability} {t : ProcessTable}

theorem Lacks.congr (h : Lacks k pid cap) (hcaps : k'.caps[pid]? = k.caps[pid]?)
    (huid : k.uidOf pid ≠ 0 → k'.uidOf pid ≠ 0) : Lacks k' pid cap := by
  unfold Lacks at *
  rw [hcaps]
  cases hentry : k.caps[pid]? with
  | none => exact huid (by simpa [hentry] using h)
  | some e => simpa [hentry] using h

/-- A process that lacks a capability and may still fork or execute is not of uid 0. -/
theorem Lacks.uid_ne_zero (h : Lacks k pid cap) (hp : Undropped k pid) : k.uidOf pid ≠ 0 := by
  rcases hp with huid | hfull
  · exact huid
  · unfold Lacks at h
    cases hentry : k.caps[pid]? with
    | none => simpa [hentry] using h
    | some e =>
      rw [hentry] at h
      exact absurd (hfull e hentry ▸ Finset.mem_univ cap) h

theorem lacks_user : Lacks (k.setCapabilities pid .user) pid cap := by
  simp [Lacks, setCapabilities, ProcessCapabilities.user]

theorem lookup_setCapabilities_of_ne {other : Nat} (hne : other ≠ pid) (e : ProcessCapabilities) :
    (k.setCapabilities pid e).caps[other]? = k.caps[other]? := by
  show (k.caps.insert pid e)[other]? = _
  rw [lookup_insert, if_neg (Ne.symm hne)]

/-- New tasks stand behind the old ones, so an old task keeps its uid. -/
theorem uidOf_append {child : Process} (h : k.uidOf pid ≠ 0)
    (htable : k'.table.processes = k.table.processes ++ [child]) : k'.uidOf pid ≠ 0 := by
  unfold uidOf getProcess at *
  rw [htable]
  cases hfind : k.table.processes.find? (·.pid = pid) with
  | none => simp [hfind] at h
  | some q => simpa [hfind] using h

theorem getProcess_append {c : Process} {n : Nat} (hpid : c.pid = pid)
    (h : t.getProcess pid = none) : getProcess ⟨t.processes ++ [c], n⟩ pid = some c := by
  unfold getProcess at *
  rw [find?_append, h]
  simp [hpid]

/-- A task that is destroyed before it ran leaves the table as it was. -/
theorem processes_destroyProcess (h : t.getProcess t.nextPid = none) (name : String) (ppid : Nat) :
    ((t.spawn name ppid).2.destroyProcess t.nextPid).processes = t.processes := by
  unfold getProcess at h
  rw [find?_eq_none] at h
  simp only [spawn, destroyProcess]
  rw [filter_append, filter_eq_self.mpr (fun q hq => by simpa using h q hq)]
  simp

/-- A drop takes the capability from its process and gives nothing to anyone. -/
theorem lacks_dropCapability {e : ProcessCapabilities} (he : k.caps[pid]? = some e)
    {entry : Nat × Capability} (h : entry = (pid, cap) ∨ Lacks k entry.1 entry.2) :
    Lacks (k.setCapabilities pid (e.drop cap)) entry.1 entry.2 := by
  by_cases hpid : entry.1 = pid
  · have hlacks : entry.2 ∉ e.permitted.erase cap := by
      rcases h with rfl | h
      · exact Finset.notMem_erase _ _
      · refine fun hmem => absurd (Finset.mem_of_mem_erase hmem) ?_
        simpa [Lacks, hpid, he] using h
    simpa [Lacks, setCapabilities, ProcessCapabilities.drop, hpid] using hlacks
  · rcases h with rfl | h
    · exact absurd rfl hpid
    · exact h.congr (lookup_setCapabilities_of_ne hpid _) id

/-- A new task that lacks what its parent has lost, beside tasks that still lack what they had
lost. -/
theorem lacks_inherit {parent child : Nat} (hold : ∀ e ∈ r.lost, Lacks k e.1 e.2)
    (hchild : ∀ cap, (parent, cap) ∈ r.lost → Lacks k child cap) :
    ∀ e ∈ r.inherit parent child, Lacks k e.1 e.2 := by
  intro e he
  unfold inherit at he
  rw [mem_append, mem_map] at he
  rcases he with he | ⟨⟨p, c⟩, hmem, rfl⟩
  · exact hold e he
  · rw [mem_filter, decide_eq_true_eq] at hmem
    exact hchild c (hmem.2 ▸ hmem.1)

/-- Who has lost a capability lacks it after any admitted step. -/
theorem lacks_step {op : CapOp} (h : ∀ e ∈ r.lost, Lacks r.kernel e.1 e.2) (hok : r.Ok op) :
    ∀ e ∈ (r.step op).lost, Lacks (r.step op).kernel e.1 e.2 := by
  cases op with
  | dropCapability pid cap =>
    simp only [step, dropCapability]
    cases hentry : r.kernel.caps[pid]? with
    | none => exact h
    | some pcaps =>
      intro e he
      exact lacks_dropCapability hentry ((mem_cons.mp he).imp_right (h e))
  | execve pid loads =>
    simp only [step, execvePath]
    split
    · exact h
    · intro e he
      by_cases hpid : e.1 = pid
      · -- an image of another uid than 0 has no capability at all
        have huid := (hpid ▸ h e he).uid_ne_zero hok
        rw [applyExecCaps, if_neg huid, hpid]
        exact lacks_user
      · exact (h e he).congr (lookup_setCapabilities_of_ne hpid _) id
  | fork ppid =>
    obtain ⟨⟨hfree, hnone⟩, hp⟩ := hok
    simp only [step, sysFork, fork]
    cases hparent : r.kernel.table.getProcess ppid with
    | none => exact h
    | some parent =>
      refine lacks_inherit (fun e he => (h e he).congr rfl (uidOf_append · rfl)) ?_
      intro cap hlost
      -- the child has no entry, so that its uid decides
      have huid := (h _ hlost).uid_ne_zero hp
      unfold uidOf at huid
      rw [hparent] at huid
      unfold Lacks uidOf
      rw [hnone, getProcess_append rfl hfree]
      exact huid
  | spawn name parent loads =>
    obtain ⟨hfree, hnone⟩ := hok
    -- nobody who has lost anything runs under the new pid
    have hne : ∀ e ∈ r.lost, e.1 ≠ r.kernel.table.nextPid := by
      intro e he heq
      have hlacks := h e he
      simp [Lacks, heq, hnone, uidOf, hfree] at hlacks
    cases loads with
    | true =>
      have hchild := getProcess_append (n := u32 (r.kernel.table.nextPid + 1))
        (c := { pid := r.kernel.table.nextPid, ppid := parent, name := name }) rfl hfree
      simp only [step, spawnElf, spawn, uidOf, hchild, if_true]
      refine lacks_inherit (fun e he => (h e he).congr ?_ (uidOf_append · rfl)) fun _ _ =>
        lacks_user
      rw [applyExecCaps, lookup_setCapabilities_of_ne (hne e he),
        initProcessCaps, lookup_setCapabilities_of_ne (hne e he)]
    | false =>
      refine fun e he => (h e he).congr rfl fun huid => ?_
      unfold uidOf getProcess at *
      exact processes_destroyProcess hfree name parent ▸ huid

/-- In every run whose steps meet `Ok`, each process's effective set lies in its permitted set and
that in its bounding set, and a process that has lost a capability, or was created below one that
had, does not have it. -/
theorem dropped_stays_dropped (hreach : Reach step Ok init r) :
    (∀ (pid : Nat) (e : ProcessCapabilities), r.kernel.caps[pid]? = some e →
      e.effective ⊆ e.permitted ∧ e.permitted ⊆ e.bounding) ∧
    ∀ pid cap, (pid, cap) ∈ r.lost → r.kernel.hasCapability pid cap = false := by
  refine ⟨fun _ e _ => ⟨e.effective_within, e.permitted_within⟩, fun pid cap hlost => ?_⟩
  have hinv := hreach.invariant (fun r => ∀ e ∈ r.lost, Lacks r.kernel e.1 e.2)
    (by simp [init]) fun _ _ => lacks_step
  have hlacks := hinv _ hlost
  unfold Lacks at hlacks
  unfold hasCapability
  cases hentry : r.kernel.caps[pid]? with
  | some e =>
    rw [hentry] at hlacks
    exact decide_eq_false fun hmem => hlacks (e.effective_within hmem)
  | none =>
    rw [hentry] at hlacks
    unfold uidOf at hlacks
    cases hfind : r.kernel.table.getProcess pid with
    | none => rfl
    | some q => simpa [hfind] using hlacks

/-- A fork of `init` that executes an image, drops a capability and spawns a task; the desktop
forks and its child executes an image. -/
def dropAndSpawn : List CapOp :=
  [.fork 1, .execve 3 true, .dropCapability 3 .netRaw, .spawn "shell" 3 true, .fork 2,
    .dropCapability 2 .kill, .fork 2, .execve 6 true]

theorem dropped_stays_dropped_spawn :
    ((4, .netRaw) ∈ (dropAndSpawn.foldl step init).lost ∧
      (dropAndSpawn.foldl step init).kernel.hasCapability 4 .netRaw = false) ∧
    (6, .kill) ∈ (dropAndSpawn.foldl step init).lost ∧
      (dropAndSpawn.foldl step init).kernel.hasCapability 6 .kill = false := by
  have hadmitted : Admitted step Ok init dropAndSpawn := by decide +kernel
  have hdrop := (dropped_stays_dropped (Reach.start.foldl hadmitted)).2
  have hspawned : (4, .netRaw) ∈ (dropAndSpawn.foldl step init).lost := by decide +kernel
  have hforked : (6, .kill) ∈ (dropAndSpawn.foldl step init).lost := by decide +kernel
  exact ⟨⟨hspawned, hdrop _ _ hspawned⟩, hforked, hdrop _ _ hforked⟩

/-- `init` drops a capability and forks, and the child has it. A child of `init` drops one, and has
it again after `execve`. -/
theorem fork_regains :
    (∃ r, Reach step (fun _ _ => True) init r ∧ (3, .kill) ∈ r.lost ∧
      r.kernel.hasCapability 3 .kill = true) ∧
    ∃ r, Reach step (fun _ _ => True) init r ∧ (3, .netRaw) ∈ r.lost ∧
      r.kernel.hasCapability 3 .netRaw = true :=
  ⟨⟨_, Reach.free [.dropCapability 1 .kill, .fork 1], by decide +kernel, by decide +kernel⟩,
    _, Reach.free [.fork 1, .execve 3 true, .dropCapability 3 .netRaw, .execve 3 true],
    by decide +kernel, by decide +kernel⟩

end CapRun

end KnoxOS.Sched
