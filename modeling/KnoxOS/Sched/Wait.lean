import KnoxOS.Lib.Map
import KnoxOS.Lib.Reach
import KnoxOS.Sched.Process

/-!
# Waiting for a child

`sys_wait4` of `syscall/process.rs` with the task exits of `sched/user_task/lifecycle.rs` and the
stops of `sched/signals.rs`. A wait that finds no child ready puts its caller to sleep, and the exit
of a child completes it. A run records beside the kernel's state how each process ended.
`wait_reports_right` compares what every call returns with that record, in the runs that meet
`Orderly`; `wait_misreports` has the four ways in which a call goes wrong otherwise.
-/

namespace KnoxOS.Sched

open Function Lib List Option

/-- The status word of a wait: `code << 8` for an exit, the signal for a negative code. -/
def waitStatus (exitCode : Int) : Int :=
  if exitCode < 0 then -exitCode % 128 else exitCode % 256 * 256

/-- The arguments of a call of `wait4`. -/
structure WaitCall where
  pid : Int
  wstatusPtr : Nat
  options : Nat
  deriving DecidableEq, Repr

/-- The pid that `sys_wait4` looks for. -/
def WaitCall.target (call : WaitCall) : Int := if call.pid > 0 then call.pid else -1

/-- The process table, the pids that have signal state, the `wstatus` pointers that `WAITERS` keeps,
and the tasks that sleep in `wait4`, with the call that each of them has made. -/
structure WaitKernel where
  table : ProcessTable
  signals : List Nat
  waiters : Nat → Option Nat
  asleep : Nat → Option WaitCall

/-- What a call returns: the value set in RAX, `-4` for `Interrupted`, if one is set, and the status
word, if one is written. -/
structure WaitReply where
  parent : Nat
  call : WaitCall
  value : Option Int
  word : Option Int
  deriving DecidableEq, Repr

namespace WaitKernel

def destroyProcessSignals (k : WaitKernel) (pid : Nat) : WaitKernel :=
  { k with signals := k.signals.filter (· ≠ pid) }

/-- A task that sleeps in `wait4` resumes. -/
def wake (k : WaitKernel) (pid : Nat) (value word : Option Int) : Option WaitReply × WaitKernel :=
  match k.asleep pid with
  | none => (none, k)
  | some call => (some ⟨pid, call, value, word⟩, { k with asleep := update k.asleep pid none })

/-- The pointer is kept, and not the request. -/
def parkForWait (k : WaitKernel) (pid : Nat) (call : WaitCall) : WaitKernel :=
  { k with
    waiters := update k.waiters pid (some call.wstatusPtr)
    asleep := update k.asleep pid (some call) }

/-- `WNOHANG` is bit 0 of the options and `WUNTRACED` bit 1. A call that parks returns nothing
yet. -/
def sysWait4 (k : WaitKernel) (selfPid : Nat) (call : WaitCall) :
    Option WaitReply × WaitKernel :=
  match k.table.waitpidOptions call.target selfPid (call.options.testBit 0)
      (call.options.testBit 1) with
  | (.ok (some (childPid, status)), table) =>
    let k := { k with table := table }
    let word := if call.wstatusPtr ≠ 0 then some (waitStatus status) else none
    -- a status that ends in 0x7F is taken for a stopped child
    (some ⟨selfPid, call, some childPid, word⟩,
      if status % 256 ≠ 0x7F then k.destroyProcessSignals childPid else k)
  | (_, table) =>
    let k := { k with table := table }
    if call.options.testBit 0 then (some ⟨selfPid, call, some 0, none⟩, k)
    else if selfPid > desktopPid then (none, k.parkForWait selfPid call)
    else (some ⟨selfPid, call, some (-4), none⟩, k)

/-- Hand a reaped child's result to a parked parent and wake it. -/
def deliverWaitResult (k : WaitKernel) (parent child : Nat) (status : Int) :
    Option WaitReply × WaitKernel :=
  match k.waiters parent with
  | none => k.wake parent none none
  | some wstatusPtr =>
    { k with waiters := update k.waiters parent none }.wake parent (some child)
      (if wstatusPtr ≠ 0 then some (waitStatus status) else none)

/-- The end of `retire`: a parent that is already parked takes the zombie. -/
def notifyParent (k : WaitKernel) (pid : Nat) : Option WaitReply × WaitKernel :=
  let parent : Nat := ((k.table.getProcess pid).map (·.ppid)).getD 0
  if parent > 0 ∧ (k.waiters parent).isSome then
    match k.table.waitpid pid with
    | (none, table) => (none, { k with table := table })
    | (some (reapedPid, status), table) =>
      let (reply, k) := { k with table := table }.deliverWaitResult parent reapedPid status
      (reply, k.destroyProcessSignals reapedPid)
  else (none, k)

/-- End a task, which leaves the scheduler. -/
def retire (k : WaitKernel) (pid : Nat) (code : Int) : Option WaitReply × WaitKernel :=
  { k with
    table := (k.table.exitProcess pid code).2
    asleep := update k.asleep pid none }.notifyParent pid

/-- `terminate`, and `exit` of a scheduled task: other pids are spared. -/
def terminate (k : WaitKernel) (pid : Nat) (code : Int) : Option WaitReply × WaitKernel :=
  if pid ≤ desktopPid then (none, k) else k.retire pid code

def stopProcess (k : WaitKernel) (pid : Nat) : WaitKernel :=
  if pid ≤ desktopPid then k else { k with table := k.table.setState pid .stopped }

/-- A stopped process is woken, whatever it was blocked in; the second wake-up, of
`user_task::wake`, finds it awake. -/
def continueProcess (k : WaitKernel) (pid : Nat) : Option WaitReply × WaitKernel :=
  if pid ≤ desktopPid then (none, k)
  else if (k.table.getProcess pid).any (·.state = .stopped) then
    { k with table := k.table.setState pid .ready }.wake pid none none
  else (none, k)

/-- Spawn a process and give it signal state. -/
def spawn (k : WaitKernel) (name : String) (ppid : Nat) : WaitKernel :=
  { k with table := (k.table.spawn name ppid).2, signals := k.table.nextPid :: k.signals }

/-- Fork a process with its signal state. -/
def fork (k : WaitKernel) (parentPid : Nat) : WaitKernel :=
  match k.table.fork parentPid with
  | (none, _) => k
  | (some child, table) => { k with table := table, signals := child :: k.signals }

end WaitKernel

/-! ## The POSIX macros -/

def wifexited (word : Int) : Prop := word % 128 = 0
def wexitstatus (word : Int) : Int := word / 256 % 256
def wifsignaled (word : Int) : Prop := word % 128 ≠ 0 ∧ word % 128 ≠ 127
def wtermsig (word : Int) : Int := word % 128
def wifstopped (word : Int) : Prop := word % 256 = 127

/-- The status word says how a process ended, with a code or by a signal. -/
def Decodes (word code : Int) : Prop :=
  if code < 0 then wifsignaled word ∧ wtermsig word = -code
  else wifexited word ∧ wexitstatus word = code

/-! ## Runs -/

/-- The steps of a run; a task ends with a code, or by a signal where the code is negative. -/
inductive WaitOp where
  | spawn (name : String) (ppid : Nat)
  | fork (parentPid : Nat)
  | terminate (pid : Nat) (code : Int)
  | stop (pid : Nat)
  | cont (pid : Nat)
  | wait4 (selfPid : Nat) (call : WaitCall)
  deriving DecidableEq, Repr

/-- The kernel's state, and how each process ended. -/
structure WaitRun where
  kernel : WaitKernel
  ended : Nat → Option Int

open WaitKernel

namespace WaitRun

def init : WaitRun := ⟨⟨.new, [0, 1, 2], fun _ => none, fun _ => none⟩, fun _ => none⟩

/-- One step with the call that returns in it. A process ends once. -/
def next (s : WaitRun) : WaitOp → Option WaitReply × WaitRun
  | .spawn name ppid =>
    (none, ⟨s.kernel.spawn name ppid, update s.ended s.kernel.table.nextPid none⟩)
  | .fork parentPid =>
    (none, ⟨s.kernel.fork parentPid, update s.ended s.kernel.table.nextPid none⟩)
  | .terminate pid code =>
    ((s.kernel.terminate pid code).1, ⟨(s.kernel.terminate pid code).2,
      if pid ≤ desktopPid then s.ended
      else update s.ended pid ((s.ended pid).or (some code))⟩)
  | .stop pid => (none, { s with kernel := s.kernel.stopProcess pid })
  | .cont pid => ((s.kernel.continueProcess pid).1,
      { s with kernel := (s.kernel.continueProcess pid).2 })
  | .wait4 selfPid call => ((s.kernel.sysWait4 selfPid call).1,
      { s with kernel := (s.kernel.sysWait4 selfPid call).2 })

def step (s : WaitRun) (op : WaitOp) : WaitRun := (s.next op).2

/-- What a call says of a child: how it ended, and its signal state is removed, or that it is
stopped, and signal state is kept. -/
def Told (s s' : WaitRun) (r : WaitReply) (child : Process) : Prop :=
  match s'.ended child.pid with
  | some code => (∀ word ∈ r.word, Decodes word code) ∧ child.pid ∉ s'.kernel.signals
  | none => (child.state = .stopped ∧ r.call.options.testBit 1) ∧
      (∀ word ∈ r.word, wifstopped word) ∧ s'.kernel.signals = s.kernel.signals

/-- A call that returns between `s` and `s'` reports a child of the caller: its pid is returned and
was asked for, and the status word is written where a pointer was passed. -/
def Reports (s s' : WaitRun) (r : WaitReply) (child : Process) : Prop :=
  (child.ppid = r.parent ∧ r.value = some (child.pid : Int)) ∧
    (0 < r.call.pid → (child.pid : Int) = r.call.pid) ∧
    (r.word = none ↔ r.call.wstatusPtr = 0) ∧ Told s s' r child

/-- No child that the call looks for has ended, or is stopped under `WUNTRACED`. -/
def NoneReady (s : WaitRun) (selfPid : Nat) (call : WaitCall) : Prop :=
  ∀ q ∈ s.kernel.table.processes, ProcessTable.matchesWait call.target selfPid q = true →
    q.state ≠ .zombie ∧ (call.options.testBit 1 = true → q.state ≠ .stopped)

/-- A call returns without a child, under `WNOHANG` or for a caller that is not scheduled. -/
def Idle (s : WaitRun) (r : WaitReply) : Prop :=
  (r.value = some 0 ∧ r.call.options.testBit 0 ∨ r.value = some (-4) ∧ r.parent ≤ desktopPid) ∧
    r.word = none ∧ NoneReady s r.parent r.call

/-- What a call returns is right. -/
def Right (s s' : WaitRun) (r : WaitReply) : Prop :=
  (∃ child ∈ s.kernel.table.processes, Reports s s' r child) ∨ Idle s r

/-- A call sleeps only where it finds no child, and the end of a child wakes the parent that
sleeps. -/
def Answers (s : WaitRun) : WaitOp → Prop
  | .wait4 selfPid call => (s.next (.wait4 selfPid call)).1 = none →
      (s.step (.wait4 selfPid call)).kernel.asleep selfPid = some call ∧
        call.options.testBit 0 = false ∧ NoneReady s selfPid call
  | .terminate pid code => ∀ q ∈ s.kernel.table.processes, q.pid = pid → q.state ≠ .zombie →
      desktopPid < pid → (s.kernel.asleep q.ppid).isSome →
        ∃ r ∈ (s.next (.terminate pid code)).1, r.parent = q.ppid ∧ r.value = some (pid : Int)
  | _ => True

/-- The callers of `wait4` are served. -/
def Served (s : WaitRun) (op : WaitOp) : Prop :=
  (∀ r ∈ (s.next op).1, Right s (s.step op) r) ∧ Answers s op

instance (s s' : WaitRun) (r : WaitReply) (child : Process) : Decidable (Told s s' r child) := by
  unfold Told Decodes wifsignaled wifexited wifstopped
  split <;> infer_instance

instance (s s' : WaitRun) (r : WaitReply) : Decidable (Right s s' r) := by
  unfold Right Reports Idle NoneReady
  infer_instance

/-- The steps in which calls return rightly. -/
def Orderly (s : WaitRun) : WaitOp → Prop
  | .spawn _ _ | .fork _ => s.kernel.table.nextPid + 1 < 2 ^ 32
  -- a child whose parent is registered ends only while the parent sleeps and waits for it
  | .terminate pid code => (-127 < code ∧ code < 256) ∧ ∀ q ∈ s.kernel.table.processes,
      q.pid = pid → (s.kernel.waiters q.ppid).isSome → q.ppid ≠ pid ∧
        ∃ call ∈ s.kernel.asleep q.ppid, 0 < call.pid → call.pid = pid
  -- a zombie is not stopped
  | .stop pid => ∀ q ∈ s.kernel.table.processes, q.pid = pid → q.state ≠ .zombie
  -- a sleeping parent is not continued
  | .cont pid => (s.kernel.asleep pid).isSome →
      ¬ (s.kernel.table.getProcess pid).any (·.state = .stopped)
  -- no zombie that exited with code 127 is reaped, and no stopped child gets a status word
  | .wait4 selfPid call => ∀ q ∈ s.kernel.table.processes,
      ProcessTable.matchesWait call.target selfPid q → (q.state = .zombie → q.exitCode ≠ 127) ∧
        (call.options.testBit 1 → q.state = .stopped → call.wstatusPtr = 0 ∨
          ∃ z ∈ s.kernel.table.processes,
            ProcessTable.matchesWait call.target selfPid z ∧ z.state = .zombie)

instance (s : WaitRun) : ∀ op, Decidable (s.Orderly op)
  | .spawn _ _ | .fork _ => inferInstanceAs (Decidable (_ < _))
  | .terminate _ _ => inferInstanceAs (Decidable (_ ∧ ∀ q ∈ s.kernel.table.processes, _ → _ →
      _ ∧ ∃ call ∈ s.kernel.asleep q.ppid, _))
  | .stop _ | .wait4 _ _ => inferInstanceAs (Decidable (∀ q ∈ s.kernel.table.processes, _))
  | .cont _ => inferInstanceAs (Decidable (_ → _))

/-! ## The table records what happened -/

/-- A process is a zombie exactly when it ended, and has the code it ended with. -/
def Shows (ended : Nat → Option Int) (q : Process) : Prop :=
  if q.state = .zombie then ended q.pid = some q.exitCode ∧ -127 < q.exitCode ∧ q.exitCode < 256
  else ended q.pid = none

/-- Pids are unique and each process shows what happened to it. -/
structure Recorded (t : ProcessTable) (ended : Nat → Option Int) : Prop where
  unique : t.UniquePids
  shows : ∀ q ∈ t.processes, Shows ended q

/-- The parents that sleep are registered. -/
def Registered (waiters : Nat → Option Nat) (asleep : Nat → Option WaitCall) : Prop :=
  ∀ p call, asleep p = some call → 0 < p ∧ waiters p = some call.wstatusPtr

structure Invariant (s : WaitRun) : Prop where
  recorded : Recorded s.kernel.table s.ended
  registered : Registered s.kernel.waiters s.kernel.asleep

variable {s s' : WaitRun} {t : ProcessTable} {ended ended' : Nat → Option Int} {q : Process}
  {pid : Nat} {code : Int}

section

variable (h : Recorded t ended)
include h

/-- The word of a zombie tells how it ended. -/
theorem Recorded.decodes (hq : q ∈ t.processes) (hzombie : q.state = .zombie) :
    ended q.pid = some q.exitCode ∧ Decodes (waitStatus q.exitCode) q.exitCode ∧
      (q.exitCode ≠ 127 → q.exitCode % 256 ≠ 0x7F) := by
  have hshows := h.shows q hq
  unfold Shows at hshows
  rw [if_pos hzombie] at hshows
  refine ⟨hshows.1, ?_, by omega⟩
  unfold Decodes waitStatus wifsignaled wtermsig wifexited wexitstatus
  split_ifs <;> omega

theorem Recorded.ended_none (hq : q ∈ t.processes) (hlive : q.state ≠ .zombie) :
    ended q.pid = none := by
  have hshows := h.shows q hq
  unfold Shows at hshows
  rwa [if_neg hlive] at hshows

theorem Recorded.congr (heq : ∀ q ∈ t.processes, ended' q.pid = ended q.pid) :
    Recorded t ended' := by
  refine ⟨h.unique, fun q hq => ?_⟩
  unfold Shows
  rw [heq q hq]
  exact h.shows q hq

theorem Recorded.fresh : Recorded t (update ended t.nextPid none) :=
  h.congr fun q hq => update_of_ne (Nat.ne_of_lt (h.unique.fresh q hq)) ..

theorem Recorded.append {child : Process} (hpid : child.pid = t.nextPid)
    (hready : child.state = .ready) (hnext : t.nextPid + 1 < 2 ^ 32) :
    Recorded ⟨t.processes ++ [child], u32 (t.nextPid + 1)⟩ (update ended t.nextPid none) := by
  refine ⟨h.unique.append hpid hnext, fun q hq => ?_⟩
  rcases mem_append.mp hq with hq | hq
  · exact h.fresh.shows q hq
  · cases mem_singleton.mp hq
    simp [Shows, hready, hpid]

theorem Recorded.map {f : Process → Process} (hpid : ∀ q, (f q).pid = q.pid)
    (hshows : ∀ q ∈ t.processes, Shows ended' (f q)) :
    Recorded { t with processes := t.processes.map f } ended' := by
  refine ⟨h.unique.map hpid, fun q hq => ?_⟩
  obtain ⟨old, hold, rfl⟩ := mem_map.mp hq
  exact hshows old hold

theorem Recorded.eraseP (p : Process → Bool) :
    Recorded { t with processes := t.processes.eraseP p } ended :=
  ⟨h.unique.sublist eraseP_sublist, fun q hq => h.shows q (mem_of_mem_eraseP hq)⟩

/-- A state change of one process that has not ended. -/
theorem Recorded.setState {state : ProcessState} (hstate : state ≠ .zombie)
    (hlive : ∀ q ∈ t.processes, q.pid = pid → q.state ≠ .zombie) :
    Recorded (t.setState pid state) ended := by
  unfold ProcessTable.setState
  rw [modifyProcess_eq_map h.unique.nodup]
  refine h.map (fun q => by split_ifs <;> rfl) fun q hq => ?_
  split_ifs with hpid
  · unfold Shows
    rw [if_neg hstate]
    have hnone := h.ended_none hq (hlive q hq hpid)
    exact hnone
  · exact h.shows q hq

/-- The exit of a process, with the record of it. -/
theorem Recorded.exitProcess (hpid : 1 < pid) (hcode : -127 < code ∧ code < 256) :
    Recorded (t.exitProcess pid code).2 (update ended pid ((ended pid).or (some code))) := by
  rcases exitProcess_cases h.unique pid code with ⟨heq, hdead⟩ | ⟨-, ⟨q, hq, rfl, hlive⟩, heq⟩
  · -- the process is gone or a zombie already
    rw [heq]
    refine h.congr fun q hq => ?_
    by_cases hqpid : q.pid = pid
    · have hended := (h.decodes hq (hdead hpid q hq hqpid)).1
      rw [hqpid] at hended ⊢
      rw [update_self, hended]
      rfl
    · exact update_of_ne hqpid ..
  · rw [heq, h.ended_none hq hlive]
    refine h.map (afterExit_pid _ _) fun p hp => ?_
    have hshows := h.shows p hp
    unfold Shows at hshows ⊢
    rw [afterExit_pid]
    unfold afterExit
    by_cases hppid : p.pid = q.pid
    · simp [hppid, hcode]
    · rw [if_neg hppid, update_of_ne hppid]
      split_ifs at hshows ⊢ <;> simp_all

end

section

variable {waiters waiters' : Nat → Option Nat} {asleep : Nat → Option WaitCall}
  (h : Registered waiters asleep)
include h

/-- A parent that sleeps no more may leave the registration. -/
theorem Registered.wake (hsame : ∀ p ≠ pid, waiters' p = waiters p) :
    Registered waiters' (update asleep pid none) := by
  intro p call hp
  rcases update_cases hp with ⟨-, hnone⟩ | ⟨hne, hp⟩
  · cases hnone
  · rw [hsame p hne]
    exact h p call hp

theorem Registered.park (hpid : 0 < pid) (call : WaitCall) :
    Registered (update waiters pid (some call.wstatusPtr)) (update asleep pid (some call)) := by
  intro p call' hp
  rcases update_cases hp with ⟨rfl, hcall⟩ | ⟨hne, hp⟩
  · cases hcall
    exact ⟨hpid, update_self ..⟩
  · rw [update_of_ne hne]
    exact h p call' hp

end

/-- A child that a call finds. -/
theorem of_matchesWait {call : WaitCall} {selfPid : Nat}
    (h : ProcessTable.matchesWait call.target selfPid q = true) :
    q.ppid = selfPid ∧ (0 < call.pid → (q.pid : Int) = call.pid) := by
  unfold ProcessTable.matchesWait WaitCall.target at h
  rw [decide_eq_true_eq] at h
  refine ⟨h.1, fun hpos => ?_⟩
  rw [if_pos hpos] at h
  exact h.2.resolve_left (by omega)

/-- The report of a child that is reaped. -/
theorem reports_reaped {r : WaitReply} (hown : q.ppid = r.parent ∧ r.value = some (q.pid : Int))
    (hasked : 0 < r.call.pid → (q.pid : Int) = r.call.pid)
    (hword : r.word = if r.call.wstatusPtr ≠ 0 then some (waitStatus code) else none)
    (hended : s'.ended q.pid = some code) (hdecodes : Decodes (waitStatus code) code)
    (hremoved : q.pid ∉ s'.kernel.signals) : Reports s s' r q := by
  refine ⟨hown, hasked, by simp [hword], ?_⟩
  unfold Told
  rw [hended]
  refine ⟨fun word hmem => ?_, hremoved⟩
  rw [hword, mem_ite_none_right] at hmem
  rw [← some.inj hmem.2]
  exact hdecodes

section

variable (h : Invariant s)
include h

theorem Invariant.fork (parentPid : Nat) (hok : s.Orderly (.fork parentPid)) :
    Invariant (s.step (.fork parentPid)) := by
  simp only [step, next, WaitKernel.fork, ProcessTable.fork]
  cases s.kernel.table.getProcess parentPid with
  | none => exact ⟨h.recorded.fresh, h.registered⟩
  | some parent => exact ⟨h.recorded.append rfl rfl hok, h.registered⟩

theorem Invariant.stop (pid : Nat) (hok : s.Orderly (.stop pid)) :
    Invariant (s.step (.stop pid)) := by
  simp only [step, next, stopProcess]
  split_ifs
  · exact h
  · exact ⟨h.recorded.setState nofun hok, h.registered⟩

/-- A process that is continued does not sleep in `wait4`, so the wake-up is idle. -/
theorem Invariant.cont (pid : Nat) (hok : s.Orderly (.cont pid)) :
    (s.next (.cont pid)).1 = none ∧ Invariant (s.step (.cont pid)) := by
  simp only [step, next, continueProcess]
  split_ifs with hlow hstopped
  · exact ⟨rfl, h⟩
  · have hawake : s.kernel.asleep pid = none := by
      by_contra hne
      exact hok (isSome_iff_ne_none.mpr hne) hstopped
    simp only [wake, hawake]
    refine ⟨trivial, h.recorded.setState nofun fun q hq hpid hzombie => ?_, h.registered⟩
    rw [← hpid, h.recorded.unique.getProcess_of_mem hq, any_some, hzombie] at hstopped
    cases hstopped
  · exact ⟨rfl, h⟩

/-- The end of a task: its zombie stays, or is handed to the parent that sleeps. -/
theorem Invariant.terminate (pid : Nat) (code : Int) (hok : s.Orderly (.terminate pid code)) :
    Invariant (s.step (.terminate pid code)) ∧ Served s (.terminate pid code) := by
  obtain ⟨hcode, hawaited⟩ := hok
  unfold Served Answers step
  simp only [next, WaitKernel.terminate]
  split_ifs with hlow
  · exact ⟨h, nofun, fun q _ _ _ hhigh => absurd hlow (Nat.not_le.mpr hhigh)⟩
  have hpid : 1 < pid := Nat.lt_of_succ_lt (Nat.not_le.mp hlow)
  have hexited := h.recorded.exitProcess hpid hcode
  have hregistered : Registered s.kernel.waiters (update s.kernel.asleep pid none) :=
    h.registered.wake fun _ _ => rfl
  have hafter := getProcess_exitProcess s.kernel.table hpid code
  unfold retire notifyParent
  cases hget : s.kernel.table.getProcess pid with
  | none =>
    rw [hget] at hafter
    rw [hafter]
    refine ⟨⟨hexited, hregistered⟩, nofun, fun q hq hqpid => ?_⟩
    rw [← hqpid, h.recorded.unique.getProcess_of_mem hq] at hget
    cases hget
  | some q =>
    obtain ⟨hq, hqpid⟩ := getProcess_eq_some hget
    obtain ⟨z, hz, hparent, hzombie⟩ : ∃ z, (s.kernel.table.exitProcess pid code).2.getProcess pid =
        some z ∧ z.ppid = q.ppid ∧ z.state = .zombie := by
      rw [hafter, hget]
      refine ⟨_, rfl, ?_⟩
      dsimp only
      split_ifs with hdead
      · exact ⟨rfl, hdead⟩
      · exact ⟨rfl, rfl⟩
    obtain ⟨hzmem, hzpid⟩ := getProcess_eq_some hz
    have hsame : ∀ q' ∈ s.kernel.table.processes, q'.pid = pid → q' = q := fun q' hq' hpid' =>
      eq_of_pid_eq h.recorded.unique.nodup hq' hq (hpid'.trans hqpid.symm)
    rw [hz]
    simp only [map_some, getD_some, hparent]
    split_ifs with hwaits
    · obtain ⟨hne, call, hcall, hasked⟩ := hawaited q hq hqpid hwaits.2
      obtain ⟨-, hptr⟩ := h.registered _ _ hcall
      rw [mem_def] at hcall
      rcases waitpid_cases (s.kernel.table.exitProcess pid code).2 pid with
        ⟨-, hnone⟩ | ⟨child, hchild, hchildPid, -, heq⟩
      · exact absurd hzombie (hnone z hzmem (.inr hzpid))
      have hchildPid := hchildPid.resolve_left (Nat.ne_of_gt (Nat.lt_of_succ_lt hpid))
      obtain rfl := eq_of_pid_eq hexited.unique.nodup hchild hzmem (hchildPid.trans hzpid.symm)
      obtain ⟨hended, hdecodes, -⟩ := hexited.decodes hzmem hzombie
      rw [heq]
      simp only [deliverWaitResult, hptr, wake, update_of_ne hne, hcall, destroyProcessSignals]
      refine ⟨⟨hexited.eraseP _, hregistered.wake fun p hp => update_of_ne hp ..⟩, fun r hr => ?_,
        fun q' hq' hpid' _ _ _ => ?_⟩
      · cases hr
        rw [hchildPid.trans hqpid.symm] at hended
        exact .inl ⟨q, hq, reports_reaped ⟨rfl, by rw [hchildPid, hqpid]⟩
          (fun hpos => by rw [hqpid, hasked hpos]) rfl hended hdecodes (by simp [hchildPid, hqpid])⟩
      · exact ⟨_, rfl, by rw [hsame q' hq' hpid'], by rw [hchildPid]⟩
    · refine ⟨⟨hexited, hregistered⟩, nofun, fun q' hq' hpid' _ _ hasleep => ?_⟩
      rw [hsame q' hq' hpid'] at hasleep
      obtain ⟨call, hcall⟩ := isSome_iff_exists.mp hasleep
      obtain ⟨hpos, hptr⟩ := h.registered _ _ hcall
      exact absurd ⟨hpos, by rw [hptr]; rfl⟩ hwaits

/-- A call of `wait4` reports a child, or sleeps. -/
theorem Invariant.wait4 (selfPid : Nat) (call : WaitCall) (hok : s.Orderly (.wait4 selfPid call)) :
    Invariant (s.step (.wait4 selfPid call)) ∧ Served s (.wait4 selfPid call) := by
  have hcase := waitpidOptions_cases s.kernel.table call.target selfPid (call.options.testBit 0)
    (call.options.testBit 1)
  unfold Served Answers step
  simp only [next, sysWait4]
  generalize s.kernel.table.waitpidOptions call.target selfPid (call.options.testBit 0)
    (call.options.testBit 1) = result at hcase ⊢
  cases hcase with
  | none result hresult hnone =>
    rcases hresult with rfl | rfl
    all_goals
      dsimp only
      split_ifs with hnohang huser
      · refine ⟨h, fun r hr => ?_, nofun⟩
        cases hr
        exact .inr ⟨.inl ⟨rfl, hnohang⟩, rfl, hnone⟩
      · refine ⟨⟨h.recorded, h.registered.park (Nat.zero_lt_of_lt huser) call⟩, nofun, fun _ => ?_⟩
        exact ⟨update_self .., Bool.eq_false_iff.mpr hnohang, hnone⟩
      · refine ⟨h, fun r hr => ?_, nofun⟩
        cases hr
        exact .inr ⟨.inr ⟨rfl, Nat.not_lt.mp huser⟩, rfl, hnone⟩
  | reaped child hmem hmatch hzombie =>
    obtain ⟨hparent, hasked⟩ := of_matchesWait hmatch
    obtain ⟨hended, hdecodes, hcode⟩ := h.recorded.decodes hmem hzombie
    dsimp only
    rw [if_pos (hcode ((hok child hmem hmatch).1 hzombie))]
    refine ⟨⟨h.recorded.eraseP _, h.registered⟩, fun r hr => ?_, nofun⟩
    cases hr
    exact .inl ⟨child, hmem, reports_reaped ⟨hparent, rfl⟩ hasked rfl hended hdecodes
      (by simp [destroyProcessSignals])⟩
  | stopped child hmem hmatch hstopped hwuntraced hnone =>
    obtain ⟨hparent, hasked⟩ := of_matchesWait hmatch
    -- without a zombie to reap, the condition leaves only a request without a status word
    have hzero : call.wstatusPtr = 0 := by
      rcases (hok child hmem hmatch).2 hwuntraced hstopped with hzero | ⟨z, hz, hzmatch, hzombie⟩
      · exact hzero
      · exact absurd hzombie (hnone z hz hzmatch)
    refine ⟨h, fun r hr => ?_, nofun⟩
    cases hr
    refine .inl ⟨child, hmem, ⟨hparent, rfl⟩, hasked, by simp [hzero], ?_⟩
    have hlive := h.recorded.ended_none hmem (by rw [hstopped]; nofun)
    unfold Told
    simp [hlive, hstopped, hwuntraced, hzero]

/-- One orderly step keeps the invariant and serves the callers. -/
theorem Invariant.step (op : WaitOp) (hok : s.Orderly op) :
    Invariant (s.step op) ∧ Served s op := by
  cases op with
  | spawn name ppid => exact ⟨⟨h.recorded.append rfl rfl hok, h.registered⟩, nofun, trivial⟩
  | fork parentPid => exact ⟨h.fork parentPid hok, nofun, trivial⟩
  | stop pid => exact ⟨h.stop pid hok, nofun, trivial⟩
  | cont pid =>
    obtain ⟨hnone, hinv⟩ := h.cont pid hok
    refine ⟨hinv, fun r hr => ?_, trivial⟩
    rw [hnone] at hr
    cases hr
  | terminate pid code => exact h.terminate pid code hok
  | wait4 selfPid call => exact h.wait4 selfPid call hok

end

end WaitRun

open WaitRun

/-- In every orderly run, each step serves the callers of `wait4`: what a call returns is right, a
call sleeps only where it finds no child, and the end of a child wakes the parent that sleeps. -/
theorem wait_reports_right {s : WaitRun} (hreach : Reach step Orderly init s) (op : WaitOp)
    (hok : s.Orderly op) : Served s op := by
  have hinit : Invariant init := ⟨⟨⟨by decide, by decide⟩, by unfold Shows; decide⟩, nofun⟩
  have hinv := hreach.invariant Invariant hinit fun s op h hok => (h.step op hok).1
  exact (hinv.step op hok).2

/-- A child is reaped and another one stopped and continued; then the parent sleeps, and the end of
the second child is reported to it. -/
theorem wait_reports_right_parked :
    let s := [WaitOp.spawn "sh" 1, .fork 3, .fork 3, .stop 5, .cont 5, .terminate 4 42,
      .wait4 3 ⟨4, 0x1000, 0⟩, .wait4 3 ⟨-1, 0x1000, 2⟩].foldl step init
    (s.next (.terminate 5 (-11))).1 = some ⟨3, ⟨-1, 0x1000, 2⟩, some 5, some 11⟩ ∧
      Served s (.terminate 5 (-11)) :=
  ⟨by decide +kernel, wait_reports_right (Reach.start.foldl (by decide +kernel)) _
    (by decide +kernel)⟩

/-- After these steps the step makes a call return this, which is not right. -/
def Misreports (ops : List WaitOp) (op : WaitOp) (r : WaitReply) : Prop :=
  let s := ops.foldl step init
  Reach step (fun _ _ => True) init s ∧ (s.next op).1 = some r ∧ ¬ Right s (s.step op) r

/-- A stopped child is reported as exited with code 127, a parent parked for one child is given
another, a child that exited with code 127 keeps its signal state, and a parked parent that is
stopped and continued returns without a child. -/
theorem wait_misreports :
    Misreports [.spawn "sh" 1, .fork 3, .stop 4] (.wait4 3 ⟨4, 0x1000, 2⟩)
        ⟨3, ⟨4, 0x1000, 2⟩, some 4, some 0x7F00⟩ ∧
      Misreports [.spawn "sh" 1, .fork 3, .fork 3, .wait4 3 ⟨4, 0, 0⟩] (.terminate 5 0)
        ⟨3, ⟨4, 0, 0⟩, some 5, none⟩ ∧
      Misreports [.spawn "sh" 1, .fork 3, .terminate 4 127] (.wait4 3 ⟨4, 0, 0⟩)
        ⟨3, ⟨4, 0, 0⟩, some 4, none⟩ ∧
      Misreports [.spawn "sh" 1, .fork 3, .wait4 3 ⟨4, 0, 0⟩, .stop 3] (.cont 3)
        ⟨3, ⟨4, 0, 0⟩, none, none⟩ :=
  ⟨⟨Reach.free _, by decide +kernel⟩, ⟨Reach.free _, by decide +kernel⟩,
    ⟨Reach.free _, by decide +kernel⟩, Reach.free _, by decide +kernel⟩

end KnoxOS.Sched
