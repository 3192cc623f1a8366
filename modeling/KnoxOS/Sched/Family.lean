import KnoxOS.Lib.Reach
import KnoxOS.Sched.Process

/-!
# Parents, children and waits

Runs of spawning, exiting and waiting on the process table. `process_tree_hygiene` says that every
process keeps a living parent and every wait removes a zombie of the waiter, in each run where a
process is spawned below a living parent, exits with no unreaped zombie child, and is waited for
with `wait_child` by its own parent alone.
-/

namespace KnoxOS.Sched

open Lib List

inductive TableOp where
  | spawn (name : String) (ppid : Nat)
  | fork (parentPid : Nat)
  | exitProcess (pid : Nat) (exitCode : Int)
  | kill (pid : Nat)
  | waitpidOptions (targetPid : Int) (parentPid : Nat) (wnohang wuntraced : Bool)
  | waitChild (parentPid : Nat) (targetPid : Int)
  | reapZombies (ppid : Nat)
  deriving DecidableEq, Repr

/-- The process that waits. -/
def TableOp.waiter : TableOp → Option Nat
  | .waitpidOptions _ parentPid _ _ => some parentPid
  | .waitChild parentPid _ => some parentPid
  | .reapZombies ppid => some ppid
  | _ => none

namespace ProcessTable

def step (t : ProcessTable) : TableOp → ProcessTable
  | .spawn name ppid => (t.spawn name ppid).2
  | .fork parentPid => (t.fork parentPid).2
  | .exitProcess pid exitCode => (t.exitProcess pid exitCode).2
  | .kill pid => (t.kill pid).2
  | .waitpidOptions targetPid parentPid wnohang wuntraced =>
    (t.waitpidOptions targetPid parentPid wnohang wuntraced).2
  | .waitChild parentPid targetPid => (t.waitChild parentPid targetPid).2
  | .reapZombies ppid => (t.reapZombies ppid).2

/-- The children a call reports, with their status where it gives one. -/
def reports (t : ProcessTable) : TableOp → List (Nat × Option Int)
  | .waitpidOptions targetPid parentPid wnohang wuntraced =>
    match (t.waitpidOptions targetPid parentPid wnohang wuntraced).1 with
    | .ok (some (pid, status)) => [(pid, some status)]
    | _ => []
  | .waitChild parentPid targetPid =>
    match (t.waitChild parentPid targetPid).1 with
    | some (pid, status) => [(pid, some status)]
    | none => []
  | .reapZombies ppid => (t.reapZombies ppid).1.map fun pid => (pid, none)
  | _ => []

/-- A living process with the given pid. -/
def Alive (t : ProcessTable) (pid : Nat) : Prop :=
  ∃ q ∈ t.processes, q.pid = pid ∧ q.state ≠ .zombie

instance (t : ProcessTable) (pid : Nat) : Decidable (t.Alive pid) :=
  inferInstanceAs (Decidable (∃ q ∈ t.processes, _))

/-- The calls that keep the tree in order: a new process gets a living parent and a pid that is
not about to wrap, a process that exits has reaped its zombie children, and `wait_child` is asked
for zombies of its caller only. -/
def Orderly (t : ProcessTable) : TableOp → Prop
  | .spawn _ ppid => t.Alive ppid ∧ t.nextPid + 1 < 2 ^ 32
  | .fork parentPid =>
    (∀ q ∈ t.processes, q.pid = parentPid → q.state ≠ .zombie) ∧ t.nextPid + 1 < 2 ^ 32
  | .exitProcess pid _ | .kill pid => 1 < pid → t.Alive pid →
      ∀ q ∈ t.processes, q.state = .zombie → q.ppid ≠ pid
  | .waitChild parentPid targetPid => ∀ q ∈ t.processes, q.state = .zombie →
      (targetPid ≤ 0 ∨ (q.pid : Int) = targetPid) → q.ppid = parentPid
  | .waitpidOptions _ _ _ _ | .reapZombies _ => True

instance (t : ProcessTable) : ∀ op, Decidable (t.Orderly op)
  | .spawn _ _ | .fork _ => inferInstanceAs (Decidable (_ ∧ _))
  | .exitProcess _ _ | .kill _ => inferInstanceAs (Decidable (_ → _))
  | .waitChild _ _ => inferInstanceAs (Decidable (∀ q ∈ t.processes, _))
  | .waitpidOptions _ _ _ _ | .reapZombies _ => inferInstanceAs (Decidable True)

/-- Pids are unique, the kernel and `init` live, and everyone else has a living parent, which is
older. No call of these runs stops a process. -/
structure Hygienic (t : ProcessTable) : Prop where
  unique : t.UniquePids
  kernel : t.Alive 0
  init : t.Alive 1
  parent : ∀ q ∈ t.processes, 1 < q.pid → t.Alive q.ppid
  older : ∀ q ∈ t.processes, 1 < q.pid → q.ppid < q.pid
  unstopped : ∀ q ∈ t.processes, q.state ≠ .stopped

/-- A wait by `p` removes and reports zombie children of `p` only. -/
def OwnZombies (t : ProcessTable) (op : TableOp) : Prop :=
  ∀ p, op.waiter = some p →
    (∀ q ∈ t.processes, q ∉ (t.step op).processes → q.state = .zombie ∧ q.ppid = p) ∧
    ∀ r ∈ t.reports op, ∃ q ∈ t.processes, q.pid = r.1 ∧ q.state = .zombie ∧ q.ppid = p ∧
      ∀ status, r.2 = some status → status = q.exitCode

variable {t : ProcessTable} {p : Process → Bool}

theorem hygienic_new : Hygienic new where
  unique := ⟨by decide, by decide⟩
  kernel := by decide
  init := by decide
  parent := by decide
  older := by decide
  unstopped := by decide

/-! ## New processes -/

theorem of_mem_of_notMem_eraseP {l : List Process} {q : Process} (hq : q ∈ l)
    (hnot : q ∉ l.eraseP p) : p q = true := by
  by_contra hp
  exact hnot ((mem_eraseP_of_neg hp).mpr hq)

variable (h : Hygienic t)
include h

/-- A process appended under the next pid, below a living parent. -/
theorem Hygienic.append {child : Process} (hpid : child.pid = t.nextPid)
    (hparent : t.Alive child.ppid) (hstate : child.state = .ready)
    (hnext : t.nextPid + 1 < 2 ^ 32) : Hygienic ⟨t.processes ++ [child], u32 (t.nextPid + 1)⟩ := by
  have halive : ∀ {pid}, t.Alive pid →
      Alive ⟨t.processes ++ [child], u32 (t.nextPid + 1)⟩ pid :=
    fun ⟨q, hq, hqpid⟩ => ⟨q, mem_append_left _ hq, hqpid⟩
  have hcases : ∀ q ∈ t.processes ++ [child], q ∈ t.processes ∨ q = child :=
    fun q hq => (mem_append.mp hq).imp_right mem_singleton.mp
  refine ⟨h.unique.append hpid hnext, halive h.kernel, halive h.init, ?_, ?_, ?_⟩
  · intro q hq hpid'
    rcases hcases q hq with hold | rfl
    · exact halive (h.parent q hold hpid')
    · exact halive hparent
  · intro q hq hpid'
    rcases hcases q hq with hold | rfl
    · exact h.older q hold hpid'
    · obtain ⟨parent, hmem, hppid, -⟩ := hparent
      have hlt := h.unique.fresh parent hmem
      omega
  · intro q hq
    rcases hcases q hq with hold | rfl
    · exact h.unstopped q hold
    · rw [hstate]
      decide

theorem Hygienic.spawn (name : String) (ppid : Nat)
    (hok : t.Orderly (.spawn name ppid)) : Hygienic (t.spawn name ppid).2 :=
  h.append rfl hok.1 rfl hok.2

theorem Hygienic.fork (parentPid : Nat) (hok : t.Orderly (.fork parentPid)) :
    Hygienic (t.fork parentPid).2 := by
  unfold ProcessTable.fork
  cases hfind : t.getProcess parentPid with
  | none => exact h
  | some parent =>
    obtain ⟨hmem, hpid⟩ := getProcess_eq_some hfind
    exact h.append rfl ⟨parent, hmem, hpid, hok.1 parent hmem hpid⟩ rfl hok.2

/-! ## Exit -/

/-- The exit of a process without zombie children keeps the table in order. -/
theorem Hygienic.exitProcess (pid : Nat) (exitCode : Int)
    (hok : t.Orderly (.exitProcess pid exitCode)) : Hygienic (t.exitProcess pid exitCode).2 := by
  rcases exitProcess_cases h.unique pid exitCode with ⟨heq, -⟩ | ⟨hpid, halive, heq⟩
  · rw [heq]
    exact h
  rw [heq]
  have hchildren := hok hpid halive
  -- every other living process stays alive
  have hother : ∀ {p}, p ≠ pid → t.Alive p →
      Alive { t with processes := t.processes.map (afterExit pid exitCode) } p := by
    intro p hne ⟨q, hq, hqpid, hstate⟩
    refine ⟨afterExit pid exitCode q, mem_map.mpr ⟨q, hq, rfl⟩, by simpa using hqpid, ?_⟩
    unfold afterExit
    rw [if_neg (by omega)]
    split_ifs <;> exact hstate
  have hinit := hother (by omega) h.init
  refine ⟨h.unique.map (afterExit_pid pid exitCode), hother (by omega) h.kernel, hinit, ?_, ?_, ?_⟩
  · intro q hq hlow
    obtain ⟨old, hold, rfl⟩ := mem_map.mp hq
    rw [afterExit_pid] at hlow
    have hparent := h.parent old hold hlow
    have holder := h.older old hold hlow
    unfold afterExit
    split_ifs with hself hchild
    · have hne : old.ppid ≠ pid := by omega
      exact hother hne hparent
    · exact hinit
    · -- a zombie child would have been reaped before
      refine hother (fun hpp => hchild ⟨hpp, fun hz => ?_⟩) hparent
      exact hchildren old hold hz hpp
  · intro q hq hlow
    obtain ⟨old, hold, rfl⟩ := mem_map.mp hq
    rw [afterExit_pid] at hlow ⊢
    have holder := h.older old hold hlow
    unfold afterExit
    split_ifs
    · exact holder
    · exact hlow
    · exact holder
  · intro q hq
    obtain ⟨old, hold, rfl⟩ := mem_map.mp hq
    unfold afterExit
    split_ifs
    · exact fun h => nomatch h
    · exact h.unstopped old hold
    · exact h.unstopped old hold

/-! ## Waits -/

/-- Zombies leave the table. -/
theorem Hygienic.shrink {rest : List Process} (hsub : rest.Sublist t.processes)
    (hkeep : ∀ q ∈ t.processes, q.state ≠ .zombie → q ∈ rest) :
    Hygienic { t with processes := rest } := by
  have halive : ∀ {pid}, t.Alive pid → Alive { t with processes := rest } pid :=
    fun ⟨q, hq, hpid, hstate⟩ => ⟨q, hkeep q hq hstate, hpid, hstate⟩
  exact {
    unique := h.unique.sublist hsub
    kernel := halive h.kernel
    init := halive h.init
    parent := fun q hq hpid => halive (h.parent q (hsub.subset hq) hpid)
    older := fun q hq hpid => h.older q (hsub.subset hq) hpid
    unstopped := fun q hq => h.unstopped q (hsub.subset hq) }

theorem Hygienic.eraseP (hp : ∀ q, p q = true → q.state = .zombie) :
    Hygienic { t with processes := t.processes.eraseP p } := by
  refine h.shrink eraseP_sublist fun q hq hstate => ?_
  rw [mem_eraseP_of_neg]
  · exact hq
  · exact fun hpq => hstate (hp q hpq)

/-- `waitpid_options` takes zombies of its caller. -/
theorem Hygienic.waitpidOptions (targetPid : Int) (parentPid : Nat) (wnohang wuntraced : Bool) :
    Hygienic (t.waitpidOptions targetPid parentPid wnohang wuntraced).2 ∧
      t.OwnZombies (.waitpidOptions targetPid parentPid wnohang wuntraced) := by
  have hcase := waitpidOptions_cases t targetPid parentPid wnohang wuntraced
  unfold OwnZombies
  simp only [step, reports, TableOp.waiter]
  generalize t.waitpidOptions targetPid parentPid wnohang wuntraced = result at hcase ⊢
  cases hcase with
  | none result hresult =>
    rcases hresult with rfl | rfl
    all_goals exact ⟨h, fun p _ => ⟨fun q hq hnot => absurd hq hnot, fun r hr => nomatch hr⟩⟩
  | stopped child hmem _ hstopped => exact absurd hstopped (h.unstopped child hmem)
  | reaped child hmem hmatch hzombie =>
    refine ⟨h.eraseP (by simp), fun p hp => ⟨fun q hq hnot => ?_, fun r hr => ?_⟩⟩
    · have hq' := of_mem_of_notMem_eraseP hq hnot
      cases hp
      simp only [matchesWait, Bool.and_eq_true, decide_eq_true_eq] at hq'
      exact ⟨hq'.2, hq'.1.1⟩
    · cases hp
      cases mem_singleton.mp hr
      simp only [matchesWait, decide_eq_true_eq] at hmatch
      exact ⟨child, hmem, rfl, hzombie, hmatch.1,
        fun status hstatus => (Option.some.inj hstatus).symm⟩

/-- `wait_child` by the parent takes its own zombies. -/
theorem Hygienic.waitChild (parentPid : Nat) (targetPid : Int)
    (hok : t.Orderly (.waitChild parentPid targetPid)) :
    Hygienic (t.waitChild parentPid targetPid).2 ∧
      t.OwnZombies (.waitChild parentPid targetPid) := by
  have hcase := waitpid_cases t (if targetPid < 0 then 0 else targetPid.toNat)
  -- the zombies the call looks at are those the condition speaks about
  have htarget : ∀ q ∈ t.processes, ((if targetPid < 0 then 0 else targetPid.toNat) = 0 ∨
      q.pid = if targetPid < 0 then 0 else targetPid.toNat) → q.state = .zombie →
      q.ppid = parentPid := by
    intro q hq hpid hstate
    refine hok q hq hstate ?_
    split_ifs at hpid with hneg
    · exact .inl (by omega)
    · omega
  unfold OwnZombies
  simp only [step, reports, TableOp.waiter, ProcessTable.waitChild]
  rcases hcase with ⟨heq, -⟩ | ⟨child, hmem, hpid, hzombie, heq⟩
  · rw [heq]
    exact ⟨h, fun p _ => ⟨fun q hq hnot => absurd hq hnot, fun r hr => nomatch hr⟩⟩
  · rw [heq]
    refine ⟨h.eraseP (by simp), fun p hp => ⟨fun q hq hnot => ?_, fun r hr => ?_⟩⟩
    · have hq' := of_mem_of_notMem_eraseP hq hnot
      cases hp
      simp only [decide_eq_true_eq] at hq'
      exact ⟨hq'.2, htarget q hq hq'.1 hq'.2⟩
    · cases hp
      cases mem_singleton.mp hr
      exact ⟨child, hmem, rfl, hzombie, htarget child hmem hpid hzombie,
        fun status hstatus => (Option.some.inj hstatus).symm⟩

/-- `reap_zombies` takes zombies of its caller. -/
theorem Hygienic.reapZombies (ppid : Nat) :
    Hygienic (t.reapZombies ppid).2 ∧ t.OwnZombies (.reapZombies ppid) := by
  refine ⟨h.shrink filter_sublist fun q hq hstate => ?_, fun p hp => ⟨?_, ?_⟩⟩
  · simp [mem_filter, hq, hstate]
  · intro q hq hnot
    cases hp
    simp only [step, ProcessTable.reapZombies, mem_filter, hq, true_and,
      decide_eq_true_eq, not_not] at hnot
    exact ⟨hnot.2, hnot.1⟩
  · intro r hr
    cases hp
    simp only [reports, ProcessTable.reapZombies, map_map, mem_map, mem_filter,
      decide_eq_true_eq] at hr
    obtain ⟨q, ⟨hq, hppid, hzombie⟩, rfl⟩ := hr
    exact ⟨q, hq, rfl, hzombie, hppid, fun status hstatus => nomatch hstatus⟩

/-- One orderly call keeps the tree and waits for own zombies only. -/
theorem Hygienic.step (op : TableOp) (hok : t.Orderly op) :
    Hygienic (t.step op) ∧ t.OwnZombies op := by
  cases op with
  | spawn name ppid => exact ⟨h.spawn name ppid hok, fun p hp => nomatch hp⟩
  | fork parentPid => exact ⟨h.fork parentPid hok, fun p hp => nomatch hp⟩
  | exitProcess pid exitCode => exact ⟨h.exitProcess pid exitCode hok, fun p hp => nomatch hp⟩
  | kill pid => exact ⟨h.exitProcess pid (-9) hok, fun p hp => nomatch hp⟩
  | waitpidOptions targetPid parentPid wnohang wuntraced =>
    exact h.waitpidOptions targetPid parentPid wnohang wuntraced
  | waitChild parentPid targetPid => exact h.waitChild parentPid targetPid hok
  | reapZombies ppid => exact h.reapZombies ppid

end ProcessTable

open ProcessTable

/-- Every process keeps a living parent, and waits take own zombies, in every orderly run. -/
theorem process_tree_hygiene {t : ProcessTable} (hreach : Reach step Orderly new t) :
    Hygienic t ∧ ∀ op, t.Orderly op → t.OwnZombies op := by
  have h := hreach.invariant Hygienic hygienic_new fun _ op h hok => (h.step op hok).1
  exact ⟨h, fun op hok => (h.step op hok).2⟩

/-- A parent with two children, one of them waited for, that exits before the other. -/
theorem process_tree_hygiene_two_children :
    Hygienic ([TableOp.spawn "sh" 1, .fork 3, .fork 3, .exitProcess 4 7,
      .waitpidOptions 4 3 false true, .kill 3, .exitProcess 5 0, .waitChild 1 3,
      .reapZombies 1].foldl step new) :=
  (process_tree_hygiene (Reach.start.foldl (by decide))).1

/-- A zombie keeps a parent that exits after it, and `wait_child` hands it to a stranger. -/
theorem orphan_zombie_reaped_by_stranger :
    ∃ t, Reach step (fun _ _ => True) new t ∧ ¬ Hygienic t ∧ ¬ t.OwnZombies (.waitChild 2 4) := by
  refine ⟨[TableOp.spawn "sh" 1, .fork 3, .exitProcess 4 7, .exitProcess 3 0].foldl step new,
    Reach.start.foldl (by simp [Admitted]), fun h => ?_, fun h => ?_⟩
  · exact absurd (h.parent { pid := 4, ppid := 3, name := "sh", state := .zombie, exitCode := 7 }
      (by decide) (by decide)) (by decide)
  · obtain ⟨q, hq, hpid, -, hppid, -⟩ := (h 2 rfl).2 (4, some 7) (by decide)
    revert q
    decide

end KnoxOS.Sched
