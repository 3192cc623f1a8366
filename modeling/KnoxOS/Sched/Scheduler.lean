import Mathlib.Algebra.Group.Int.Defs
import Mathlib.Algebra.Group.Nat.Defs
import Mathlib.Data.List.MinMax
import Mathlib.Data.List.FinRange
import Mathlib.Data.Prod.Lex
import KnoxOS.Lib.Vec

/-!
# The scheduler

The run queue, the wait queue and the per-CPU current slots of `sched/scheduler.rs`. Every call
is made on some CPU, whose index is an argument. `runs`, `waits` and `onCpu` count the entries of
a pid in the three places; each call has a lemma that says how it moves entries between them.
`schedule_order` says which entry `schedule` takes.
-/

namespace KnoxOS.Sched

open Lib List Option

def maxCpus : Nat := 16

/-- Addition on `u64`. -/
def u64 (n : Nat) : Nat := n % 2 ^ 64

inductive SchedPolicy where
  | normal
  | fifo
  | roundRobin
  | batch
  | idle
  | deadline
deriving DecidableEq, Repr

structure DeadlineParams where
  runtime : Nat
  period : Nat
  deadline : Nat
  remainingRuntime : Nat
  absoluteDeadline : Nat
  periodStart : Nat
  throttled : Bool
deriving DecidableEq, Repr

/-- `SchedInfo`: what the scheduler knows of a task. -/
structure SchedInfo where
  pid : Nat
  policy : SchedPolicy
  priority : Int
  timeSlice : Nat
  totalRuntime : Nat
  vruntime : Nat
  cpuAffinity : Nat
  deadlineParams : Option DeadlineParams
  placedCpu : Option Nat
deriving DecidableEq, Repr

def defaultTimeSlice : Nat := 10

/-- `CFS_WEIGHTS`, indexed by nice + 20. -/
def cfsWeights : List Nat :=
  [88761, 71755, 56483, 46273, 36291, 29154, 23254, 18705, 14949, 11916, 9548, 7620, 6100, 4904,
    3906, 3121, 2501, 1991, 1586, 1277, 1024, 820, 655, 526, 423, 335, 272, 215, 172, 137, 110,
    87, 70, 56, 45, 36, 29, 23, 18, 15]

namespace SchedInfo

def new (pid : Nat) (priority : Int) : SchedInfo :=
  ⟨pid, .normal, priority, defaultTimeSlice, 0, 0, 2 ^ 64 - 1, none, none⟩

def effectiveTimeSlice (s : SchedInfo) : Nat :=
  (max ((defaultTimeSlice : Int) - s.priority) 2).toNat

/-- The sum is one of `i32` in the source, where the nice values of `set_priority` are far from its
ends. -/
def weight (s : SchedInfo) : Nat := cfsWeights.getD (max 0 (min (s.priority + 20) 39)).toNat 0

/-- The class of a task, the best first. A deadline task without budget goes with the normal
ones. -/
def rank (s : SchedInfo) : Nat :=
  match s.policy with
  | .deadline => if s.deadlineParams.any fun d => !d.throttled then 0 else 2
  | .fifo | .roundRobin => 1
  | .normal | .batch => 2
  | .idle => 3

/-- What is compared inside a class. -/
def rankKey (s : SchedInfo) : Int :=
  match s.rank with
  | 0 => s.deadlineParams.elim (2 ^ 64 - 1) fun d => (d.absoluteDeadline : Int)
  | 1 => s.priority
  | _ => s.vruntime

/-- Tasks are compared by class, then inside their class. -/
def order (s : SchedInfo) : Nat ×ₗ Int := toLex (s.rank, s.rankKey)

end SchedInfo

structure Scheduler where
  runQueue : List SchedInfo
  currentByCpu : Fin maxCpus → Option SchedInfo
  waitQueue : List SchedInfo
  idlePid : Nat
  enabled : Bool
  tickCount : Nat
  contextSwitches : Nat

/-- The slot of a CPU; indices past the last one share its slot. -/
def cpuI (cpu : Nat) : Fin maxCpus := ⟨min cpu (maxCpus - 1), by unfold maxCpus; omega⟩

/-- `is_ap_idle_pid`: the idle threads of the application processors. -/
def isApIdlePid (pid : Nat) : Bool := 0x7F00 ≤ pid && pid < 0x7F00 + maxCpus

/-- `position` and `remove`: the first entry of the pid leaves the queue. -/
def takePid (pid : Nat) (queue : List SchedInfo) : Option (SchedInfo × List SchedInfo) :=
  (queue.find? (·.pid = pid)).map fun info => (info, queue.eraseP (·.pid = pid))

/-- The first entry of the pid changes. -/
def modifyPid (pid : Nat) (f : SchedInfo → SchedInfo) : List SchedInfo → List SchedInfo
  | [] => []
  | info :: queue => if info.pid = pid then f info :: queue else info :: modifyPid pid f queue

/-- `enumerate`, `filter` and `min_by_key`: the index of the first entry with the least key among
those that pass. -/
def pick (queue : List SchedInfo) (pass : SchedInfo → Bool) (key : SchedInfo → Int) : Option Nat :=
  let entries := queue.zipIdx.filter fun e => pass e.1
  (@List.argmin _ _ Int.instLinearOrder.toPreorder Int.decLt (fun e => key e.1)
    entries).map Prod.snd

namespace Scheduler

def new : Scheduler := ⟨[], fun _ => none, [], 0, false, 0, 0⟩

/-- The current slot of a CPU. -/
def current (s : Scheduler) (cpu : Nat) : Option SchedInfo := s.currentByCpu (cpuI cpu)

/-- Replace the current slot of a CPU. -/
def setCurrent (s : Scheduler) (cpu : Nat) (info : Option SchedInfo) : Scheduler :=
  { s with currentByCpu := Function.update s.currentByCpu (cpuI cpu) info }

/-- The tasks in the current slots. -/
def currents (s : Scheduler) : List SchedInfo :=
  (List.finRange maxCpus).filterMap s.currentByCpu

/-- `add_process`: the new task starts at the least virtual runtime. -/
def addProcess (s : Scheduler) (pid : Nat) (priority : Int) : Scheduler :=
  let minVr := ((s.runQueue ++ s.currents).map SchedInfo.vruntime).min?.getD 0
  { s with runQueue := s.runQueue ++ [{ SchedInfo.new pid priority with vruntime := minVr }] }

def removeProcess (s : Scheduler) (pid : Nat) : Scheduler :=
  { s with
    runQueue := s.runQueue.filter (·.pid != pid)
    waitQueue := s.waitQueue.filter (·.pid != pid)
    currentByCpu := fun c => (s.currentByCpu c).filter (·.pid != pid) }

/-- The first half of `block_process`: a queued task moves to the wait queue. -/
def blockQueued (s : Scheduler) (pid : Nat) : Scheduler :=
  match takePid pid s.runQueue with
  | some (info, queue) => { s with runQueue := queue, waitQueue := s.waitQueue ++ [info] }
  | none => s

/-- The second half of `block_process`: the task of the calling CPU moves to the wait queue. -/
def blockCurrent (s : Scheduler) (cpu pid : Nat) : Scheduler :=
  match s.current cpu with
  | some info =>
    if info.pid = pid then
      { s.setCurrent cpu none with
        waitQueue := s.waitQueue ++ [{ info with timeSlice := info.effectiveTimeSlice }] }
    else s
  | none => s

def blockProcess (s : Scheduler) (cpu pid : Nat) : Scheduler :=
  (s.blockQueued pid).blockCurrent cpu pid

def wakeProcess (s : Scheduler) (pid : Nat) : Scheduler :=
  match takePid pid s.waitQueue with
  | some (info, queue) => { s with waitQueue := queue, runQueue := s.runQueue ++ [info] }
  | none => s

/-- The body of `set_running` once the slot is empty: the task comes from the run queue, from the
wait queue, or is made up. -/
def occupy (s : Scheduler) (cpu pid : Nat) : Scheduler :=
  match takePid pid s.runQueue with
  | some (info, queue) => { s.setCurrent cpu (some info) with runQueue := queue }
  | none =>
    match takePid pid s.waitQueue with
    | some (info, queue) => { s.setCurrent cpu (some info) with waitQueue := queue }
    | none => s.setCurrent cpu (some (.new pid 0))

def setRunning (s : Scheduler) (cpu pid : Nat) : Scheduler :=
  if (s.current cpu).map SchedInfo.pid = some pid then s
  else (s.setCurrent cpu none).occupy cpu pid

def switchRunning (s : Scheduler) (cpu pid : Nat) : Scheduler :=
  match s.current cpu with
  | some info =>
    if info.pid = pid then s
    else
      let s := s.setCurrent cpu none
      let s := if !s.runQueue.any (·.pid = info.pid) && !s.waitQueue.any (·.pid = info.pid) then
        { s with runQueue := s.runQueue ++ [info] } else s
      s.setRunning cpu pid
  | none => s.setRunning cpu pid

/-- The accounting of `tick` for the running task. -/
def charge (info : SchedInfo) : SchedInfo :=
  { info with
    totalRuntime := u64 (info.totalRuntime + 1)
    vruntime := u64 (info.vruntime + 1024 / max info.weight 1)
    timeSlice := info.timeSlice - 1 }

/-- `tick`: whether the CPU should switch. -/
def tick (s : Scheduler) (cpu : Nat) : Bool × Scheduler :=
  if !s.enabled then (false, s)
  else
    let s := { s with tickCount := u64 (s.tickCount + 1) }
    let minVr := (s.runQueue.map SchedInfo.vruntime).min?
    match s.current cpu with
    | none => (!s.runQueue.isEmpty, s)
    | some info =>
      let info := charge info
      let early := minVr.any fun vr => info.vruntime > u64 (vr + 4)
      (info.timeSlice == 0 || early, s.setCurrent cpu (some info))

/-- Whether `schedule` on a CPU may pick the entry. -/
def allowed (cpu : Nat) (info : SchedInfo) : Bool :=
  !isApIdlePid info.pid && info.cpuAffinity &&& 2 ^ min cpu 63 != 0 &&
    info.placedCpu.all (· = (cpuI cpu).val)

/-- Deadline tasks with budget left. -/
def dueDeadline (cpu : Nat) (info : SchedInfo) : Bool :=
  info.policy == .deadline && allowed cpu info && info.deadlineParams.any fun d => !d.throttled

/-- Real-time tasks. -/
def realTime (cpu : Nat) (info : SchedInfo) : Bool :=
  (info.policy == .fifo || info.policy == .roundRobin) && allowed cpu info

/-- Tasks that are not of the idle policy. -/
def nonIdle (cpu : Nat) (info : SchedInfo) : Bool := info.policy != .idle && allowed cpu info

/-- Make the entry at an index of the run queue current, with a new time slice. -/
def dispatch (s : Scheduler) (cpu idx : Nat) (slice : SchedInfo → Nat) : Option (Nat × Scheduler) :=
  s.runQueue[idx]?.map fun next =>
    (next.pid, { s.setCurrent cpu (some { next with timeSlice := slice next }) with
      runQueue := s.runQueue.eraseIdx idx
      contextSwitches := u64 (s.contextSwitches + 1) })

/-- The time slice of a deadline task: its budget. -/
def deadlineSlice (info : SchedInfo) : Nat :=
  match info.deadlineParams with
  | none => info.effectiveTimeSlice
  | some d => max d.remainingRuntime 1

/-- The entry `schedule` picks and the time slice it gets: earliest deadline, then real-time
priority, then least virtual runtime, where the idle policy comes last. -/
def choose (s : Scheduler) (cpu : Nat) : Option (Nat × (SchedInfo → Nat)) :=
  match pick s.runQueue (dueDeadline cpu) fun info =>
      info.deadlineParams.elim (2 ^ 64 - 1) fun d => (d.absoluteDeadline : Int) with
  | some idx => some (idx, deadlineSlice)
  | none =>
    match pick s.runQueue (realTime cpu) SchedInfo.priority with
    | some idx => some (idx, SchedInfo.effectiveTimeSlice)
    | none =>
      let pass := if s.runQueue.countP (nonIdle cpu) > 0 then nonIdle cpu else allowed cpu
      (pick s.runQueue pass fun info => (info.vruntime : Int)).map
        fun idx => (idx, SchedInfo.effectiveTimeSlice)

/-- The first step of `schedule`: the task of the CPU goes back to the run queue. -/
def requeue (s : Scheduler) (cpu : Nat) : Scheduler :=
  match s.current cpu with
  | none => s
  | some info =>
    { s.setCurrent cpu none with
      runQueue := s.runQueue ++ [{ info with timeSlice := info.effectiveTimeSlice }] }

def schedule (s : Scheduler) (cpu : Nat) : Option Nat × Scheduler :=
  let s := s.requeue cpu
  match s.choose cpu with
  | none => (some s.idlePid, s)
  | some (idx, slice) =>
    match s.dispatch cpu idx slice with
    | some (pid, s) => (some pid, s)
    | none => (some s.idlePid, s)

def setPriority (s : Scheduler) (cpu pid : Nat) (priority : Int) : Scheduler :=
  let priority := max (-20) (min priority 19)
  if s.runQueue.any (·.pid = pid) then
    { s with runQueue := modifyPid pid (fun info => { info with priority := priority }) s.runQueue }
  else s.setCurrent cpu ((s.current cpu).map fun info =>
    if info.pid = pid then { info with priority := priority } else info)

def setPolicy (s : Scheduler) (pid : Nat) (policy : SchedPolicy) : Scheduler :=
  { s with runQueue := modifyPid pid (fun info => { info with policy := policy }) s.runQueue }

/-- The first entry of the pid changes, in the run queue, else in a current slot, else in the wait
queue. -/
def modifyAnywhere (s : Scheduler) (pid : Nat) (f : SchedInfo → SchedInfo) : Scheduler :=
  if s.runQueue.any (·.pid = pid) then { s with runQueue := modifyPid pid f s.runQueue }
  else
    match (List.finRange maxCpus).find? fun c => (s.currentByCpu c).any (·.pid = pid) with
    | some c => s.setCurrent c ((s.currentByCpu c).map f)
    | none => { s with waitQueue := modifyPid pid f s.waitQueue }

def setCpuAffinity (s : Scheduler) (pid mask : Nat) : Scheduler :=
  if mask = 0 then s else s.modifyAnywhere pid fun info => { info with cpuAffinity := mask }

def setPlacedCpu (s : Scheduler) (pid cpu : Nat) : Scheduler :=
  s.modifyAnywhere pid fun info => { info with placedCpu := some cpu }

/-- The admission control of `set_deadline`: the utilisation of the other deadline tasks as a
fraction, with the new task's added. -/
def utilisation (s : Scheduler) (pid runtime period : Nat) : Nat × Nat :=
  let total := (s.runQueue ++ s.currents).foldl
    (fun acc info =>
      if info.policy = .deadline ∧ info.pid ≠ pid then
        info.deadlineParams.elim acc fun d =>
          (u64 (acc.1 * d.period + d.runtime * acc.2), u64 (acc.2 * d.period))
      else acc)
    ((0, 1) : Nat × Nat)
  (u64 (total.1 * period + runtime * total.2), u64 (total.2 * period))

/-- `set_deadline`. A task in the run queue or in the slot of the calling CPU gets the
parameters. -/
def setDeadline (s : Scheduler) (cpu pid runtime period deadline : Nat) :
    Except String Unit × Scheduler :=
  if runtime = 0 ∨ period = 0 ∨ deadline = 0 then
    (.error "Deadline parameters must be non-zero", s)
  else if runtime > deadline ∨ deadline > period then
    (.error "Must satisfy: runtime <= deadline <= period", s)
  else if (s.utilisation pid runtime period).1 > (s.utilisation pid runtime period).2 then
    (.error "Admission control: total deadline utilization exceeds 100%", s)
  else
    let params : DeadlineParams :=
      ⟨runtime, period, deadline, runtime, u64 (s.tickCount + deadline), s.tickCount, false⟩
    let set := fun info : SchedInfo =>
      { info with policy := .deadline, deadlineParams := some params }
    if s.runQueue.any (·.pid = pid) then
      (.ok (), { s with runQueue := modifyPid pid set s.runQueue })
    else if (s.current cpu).any (·.pid = pid) then
      (.ok (), s.setCurrent cpu ((s.current cpu).map set))
    else (.error "Process not found in scheduler", s)

/-- The body of `update_deadline_tasks` for one task: a new period starts. -/
def renew (tick : Nat) (info : SchedInfo) : SchedInfo :=
  if info.policy = .deadline then
    { info with
      deadlineParams := info.deadlineParams.map fun d =>
        if tick ≥ u64 (d.periodStart + d.period) then
          { d with
            periodStart := tick
            remainingRuntime := d.runtime
            absoluteDeadline := u64 (tick + d.deadline)
            throttled := false }
        else d }
  else info

def updateDeadlineTasks (s : Scheduler) (cpu : Nat) : Scheduler :=
  { s.setCurrent cpu ((s.current cpu).map (renew s.tickCount)) with
    runQueue := s.runQueue.map (renew s.tickCount) }

def enable (s : Scheduler) : Scheduler := { s with enabled := true }

/-! ### Where the tasks are -/

/-- The entries of a pid in the run queue. -/
def runs (s : Scheduler) (pid : Nat) : Nat := s.runQueue.countP (·.pid = pid)

/-- The entries of a pid in the wait queue. -/
def waits (s : Scheduler) (pid : Nat) : Nat := s.waitQueue.countP (·.pid = pid)

/-- 1 when the slot holds the pid, else 0. -/
def holds (slot : Option SchedInfo) (pid : Nat) : Nat := if slot.any (·.pid = pid) then 1 else 0

/-- The CPUs whose current task is the pid. -/
def onCpu (s : Scheduler) (pid : Nat) : Nat :=
  (List.finRange maxCpus).countP fun c => (s.currentByCpu c).any (·.pid = pid)

end Scheduler

/-- Taking a task out of a queue. -/
theorem takePid_some {pid : Nat} {queue rest : List SchedInfo} {info : SchedInfo}
    (h : takePid pid queue = some (info, rest)) :
    info.pid = pid ∧ ∀ p, queue.countP (·.pid = p) =
      rest.countP (·.pid = p) + if pid = p then 1 else 0 := by
  obtain ⟨found, hfind, heq⟩ := map_eq_some_iff.mp h
  cases heq
  have hpid : info.pid = pid := by simpa using find?_some hfind
  refine ⟨hpid, fun p => ?_⟩
  rw [countP_eraseP hfind, hpid]
  simp

theorem takePid_none {pid : Nat} {queue : List SchedInfo} (h : takePid pid queue = none) :
    queue.countP (·.pid = pid) = 0 := by
  rw [countP_eq_zero]
  exact find?_eq_none.mp (map_eq_none_iff.mp h)

/-- Changing an entry without its pid keeps the counts. -/
theorem countP_modifyPid {f : SchedInfo → SchedInfo} (hf : ∀ info, (f info).pid = info.pid)
    (pid p : Nat) (queue : List SchedInfo) :
    (modifyPid pid f queue).countP (·.pid = p) = queue.countP (·.pid = p) := by
  induction queue with
  | nil => rfl
  | cons info queue ih =>
    unfold modifyPid
    split_ifs
    · simp [countP_cons, hf]
    · rw [countP_cons, countP_cons, ih]

open SchedInfo

namespace Scheduler

section

variable (s : Scheduler) (cpu : Nat) (slot : Option SchedInfo) {f : SchedInfo → SchedInfo}

/-- Replacing a slot. -/
theorem onCpu_setCurrent (p : Nat) :
    (s.setCurrent cpu slot).onCpu p + holds (s.current cpu) p = s.onCpu p + holds slot p :=
  countP_update s.currentByCpu (cpuI cpu) slot
    (fun slot => Option.any (fun info : SchedInfo => decide (info.pid = p)) slot)
    (nodup_finRange _) (mem_finRange _)

@[simp] theorem runs_setCurrent (p : Nat) : (s.setCurrent cpu slot).runs p = s.runs p := rfl

@[simp] theorem waits_setCurrent (p : Nat) : (s.setCurrent cpu slot).waits p = s.waits p := rfl

@[simp] theorem current_setCurrent :
    (s.setCurrent cpu slot).current cpu = slot := Function.update_self ..

end

@[simp] theorem holds_none (p : Nat) : holds none p = 0 := rfl

@[simp] theorem holds_some (info : SchedInfo) (p : Nat) :
    holds (some info) p = if info.pid = p then 1 else 0 := by simp [holds]

/-- The entries of a pid in all three places. -/
def occurs (s : Scheduler) (p : Nat) : Nat := s.runs p + s.waits p + s.onCpu p

theorem holds_le_onCpu (s : Scheduler) (cpu p : Nat) : holds (s.current cpu) p ≤ s.onCpu p := by
  have h := onCpu_setCurrent s cpu none p
  rw [holds_none] at h
  omega

/-! ### What the calls move -/

/-- The same number of entries of every pid in each place. -/
structure Same (s s' : Scheduler) : Prop where
  runs : ∀ p, s'.runs p = s.runs p
  waits : ∀ p, s'.waits p = s.waits p
  onCpu : ∀ p, s'.onCpu p = s.onCpu p

section

variable (s : Scheduler)

theorem Same.refl : Same s s := ⟨fun _ => rfl, fun _ => rfl, fun _ => rfl⟩

/-- Replacing a slot by one with the same pid. -/
theorem same_setCurrent {cpu : Nat} {slot : Option SchedInfo}
    (h : slot.map pid = (s.current cpu).map pid) : Same s (s.setCurrent cpu slot) := by
  refine ⟨fun _ => rfl, fun _ => rfl, fun p => ?_⟩
  have hslot := onCpu_setCurrent s cpu slot p
  have hholds : holds slot p = holds (s.current cpu) p := by
    cases slot <;> cases hc : s.current cpu <;> simp_all
  omega

theorem same_modifyRun (hf : ∀ info, (f info).pid = info.pid) (pid : Nat) :
    Same s { s with runQueue := modifyPid pid f s.runQueue } :=
  ⟨fun p => countP_modifyPid hf pid p _, fun _ => rfl, fun _ => rfl⟩

/-- A change to one process moves nobody. -/
theorem same_modifyAnywhere (hf : ∀ info, (f info).pid = info.pid) (pid : Nat) :
    Same s (s.modifyAnywhere pid f) := by
  unfold modifyAnywhere
  split_ifs
  · exact s.same_modifyRun hf pid
  · split
    · rename_i c hc
      have hcpu : cpuI c = c := Fin.ext (by show min c.val (maxCpus - 1) = c.val; omega)
      refine s.same_setCurrent ?_
      unfold current
      rw [hcpu]
      cases s.currentByCpu c <;> simp [hf]
    · exact ⟨fun _ => rfl, fun p => countP_modifyPid hf pid p _, fun _ => rfl⟩

/-- Setting a priority moves nobody. -/
theorem same_setPriority (cpu pid : Nat) (priority : Int) :
    Same s (s.setPriority cpu pid priority) := by
  unfold setPriority
  extract_lets priority
  split_ifs
  · refine s.same_modifyRun ?_ pid
    exact fun _ => rfl
  · refine s.same_setCurrent ?_
    cases s.current cpu with
    | none => rfl
    | some info =>
      simp only [map_some]
      split_ifs <;> rfl

theorem same_setPolicy (pid : Nat) (policy : SchedPolicy) : Same s (s.setPolicy pid policy) := by
  refine s.same_modifyRun ?_ pid
  exact fun _ => rfl

theorem same_setCpuAffinity (pid mask : Nat) : Same s (s.setCpuAffinity pid mask) := by
  unfold setCpuAffinity
  split_ifs
  · exact .refl s
  · refine s.same_modifyAnywhere ?_ pid
    exact fun _ => rfl

theorem same_setPlacedCpu (pid cpu : Nat) : Same s (s.setPlacedCpu pid cpu) := by
  refine s.same_modifyAnywhere ?_ pid
  exact fun _ => rfl

/-- Setting a deadline moves nobody, also where it is refused. -/
theorem same_setDeadline (cpu pid runtime period deadline : Nat) :
    Same s (s.setDeadline cpu pid runtime period deadline).2 := by
  unfold setDeadline
  extract_lets params set
  split_ifs
  · exact .refl s
  · exact .refl s
  · exact .refl s
  · refine s.same_modifyRun ?_ pid
    exact fun _ => rfl
  · refine s.same_setCurrent ?_
    cases s.current cpu <;> rfl
  · exact .refl s

/-- The timer tick moves nobody. -/
theorem same_tick (cpu : Nat) : Same s (s.tick cpu).2 := by
  unfold tick
  split_ifs
  · exact .refl s
  · extract_lets s' minVr
    have hstart : Same s s' := ⟨fun _ => rfl, fun _ => rfl, fun _ => rfl⟩
    cases hc : s'.current cpu with
    | none => exact hstart
    | some info =>
      have hslot : Same s' (s'.setCurrent cpu (some (charge info))) :=
        s'.same_setCurrent (by rw [hc]; rfl)
      exact ⟨fun p => (hslot.runs p).trans (hstart.runs p),
        fun p => (hslot.waits p).trans (hstart.waits p),
        fun p => (hslot.onCpu p).trans (hstart.onCpu p)⟩

/-- A new task is in the run queue. -/
theorem runs_addProcess (pid : Nat) (priority : Int) (p : Nat) :
    (s.addProcess pid priority).runs p = s.runs p + if pid = p then 1 else 0 := by
  unfold addProcess runs
  simp [countP_append, countP_cons, SchedInfo.new]

/-- A removed task is nowhere, and the others stay where they are. -/
theorem removeProcess_places (pid p : Nat) :
    (s.removeProcess pid).runs p = (if pid = p then 0 else s.runs p) ∧
      (s.removeProcess pid).waits p = (if pid = p then 0 else s.waits p) ∧
      (s.removeProcess pid).onCpu p = if pid = p then 0 else s.onCpu p := by
  have hqueue : ∀ queue : List SchedInfo, (queue.filter (·.pid != pid)).countP (·.pid = p) =
      if pid = p then 0 else queue.countP (·.pid = p) := by
    intro queue
    rw [countP_filter]
    split_ifs with hpid
    · rw [countP_eq_zero]
      intro info _
      simp [hpid]
    · refine countP_congr fun info _ => ?_
      simp only [Bool.and_eq_true, decide_eq_true_eq, bne_iff_ne]
      constructor
      · exact And.left
      · intro heq
        exact ⟨heq, fun h => hpid (h.symm.trans heq)⟩
  refine ⟨hqueue _, hqueue _, ?_⟩
  have hslot : ∀ slot : Option SchedInfo, (slot.filter (·.pid != pid)).any (·.pid = p) =
      if pid = p then false else slot.any (·.pid = p) := by
    intro slot
    cases slot with
    | none => simp
    | some info =>
      by_cases hinfo : info.pid = pid
      · simp [Option.filter, hinfo]
      · simp [Option.filter, hinfo]
        exact fun hp hpid => hinfo (hp.trans hpid.symm)
  show ((finRange maxCpus).countP fun c =>
    ((s.currentByCpu c).filter (·.pid != pid)).any (·.pid = p)) = _
  simp only [hslot]
  split_ifs
  · simp
  · rfl

/-- Blocking a queued task moves it to the wait queue. -/
theorem blockQueued_places (pid : Nat) :
    (s.runs pid = 0 ∧ s.blockQueued pid = s) ∨
      ((s.blockQueued pid).currentByCpu = s.currentByCpu ∧
        ∀ p, s.runs p = (s.blockQueued pid).runs p + (if pid = p then 1 else 0) ∧
          (s.blockQueued pid).waits p = s.waits p + if pid = p then 1 else 0) := by
  unfold blockQueued
  cases htake : takePid pid s.runQueue with
  | none => exact .inl ⟨takePid_none htake, rfl⟩
  | some taken =>
    obtain ⟨hpid, hcount⟩ := takePid_some htake
    refine .inr ⟨rfl, fun p => ⟨hcount p, ?_⟩⟩
    simp [waits, countP_append, countP_cons, hpid]

/-- Blocking the task of the calling CPU moves it to the wait queue. -/
theorem blockCurrent_places (cpu pid : Nat) :
    (holds (s.current cpu) pid = 0 ∧ s.blockCurrent cpu pid = s) ∨
      (holds (s.current cpu) pid = 1 ∧ ∀ p, (s.blockCurrent cpu pid).runs p = s.runs p ∧
        s.onCpu p = (s.blockCurrent cpu pid).onCpu p + (if pid = p then 1 else 0) ∧
        (s.blockCurrent cpu pid).waits p = s.waits p + if pid = p then 1 else 0) := by
  unfold blockCurrent
  cases hcur : s.current cpu with
  | none => exact .inl ⟨rfl, rfl⟩
  | some info =>
    by_cases hpid : info.pid = pid
    · simp only [if_pos hpid]
      refine .inr ⟨by simp [hpid], fun p => ⟨rfl, ?_, ?_⟩⟩
      · have hslot := onCpu_setCurrent s cpu none p
        rw [hcur, holds_some, hpid] at hslot
        exact hslot.symm
      · simp [waits, countP_append, countP_cons, hpid]
    · simp only [if_neg hpid]
      exact .inl ⟨by simp [hpid], trivial⟩

/-- Waking a task moves it to the run queue. -/
theorem wakeProcess_places (pid : Nat) :
    (s.waits pid = 0 ∧ s.wakeProcess pid = s) ∨
      ((s.wakeProcess pid).currentByCpu = s.currentByCpu ∧
        ∀ p, s.waits p = (s.wakeProcess pid).waits p + (if pid = p then 1 else 0) ∧
          (s.wakeProcess pid).runs p = s.runs p + if pid = p then 1 else 0) := by
  unfold wakeProcess
  cases htake : takePid pid s.waitQueue with
  | none => exact .inl ⟨takePid_none htake, rfl⟩
  | some taken =>
    obtain ⟨hpid, hcount⟩ := takePid_some htake
    refine .inr ⟨rfl, fun p => ⟨hcount p, ?_⟩⟩
    simp [runs, countP_append, countP_cons, hpid]

/-- Waking loses no entry. -/
theorem occurs_wakeProcess (pid p : Nat) : (s.wakeProcess pid).occurs p = s.occurs p := by
  rcases s.wakeProcess_places pid with ⟨-, heq⟩ | ⟨hslots, hmoved⟩
  · rw [heq]
  · obtain ⟨hw, hr⟩ := hmoved p
    have hcpu : (s.wakeProcess pid).onCpu p = s.onCpu p := by
      unfold onCpu
      rw [hslots]
    unfold occurs
    omega

/-- A task that does not wait is taken from the run queue, or made up, for an empty slot. -/
theorem occupy_places {cpu pid : Nat} (hslot : s.current cpu = none) (hwait : s.waits pid = 0)
    (p : Nat) :
    (s.occupy cpu pid).runs p + (if pid = p then min (s.runs pid) 1 else 0) = s.runs p ∧
      (s.occupy cpu pid).waits p = s.waits p ∧
      (s.occupy cpu pid).onCpu p = s.onCpu p + if pid = p then 1 else 0 := by
  have hput : ∀ info : SchedInfo, info.pid = pid →
      (s.setCurrent cpu (some info)).onCpu p = s.onCpu p + if pid = p then 1 else 0 := by
    intro info hpid
    have hset := onCpu_setCurrent s cpu (some info) p
    rw [hslot, holds_some, hpid] at hset
    exact hset
  unfold occupy
  cases htake : takePid pid s.runQueue with
  | some taken =>
    obtain ⟨info, queue⟩ := taken
    obtain ⟨hpid, hcount⟩ := takePid_some htake
    refine ⟨?_, rfl, hput info hpid⟩
    have hp := hcount p
    have hself := hcount pid
    rw [if_pos rfl] at hself
    have hone : min (s.runs pid) 1 = 1 := by
      unfold runs
      omega
    rw [hone]
    exact hp.symm
  | none =>
    have hrun : s.runs pid = 0 := takePid_none htake
    cases htake' : takePid pid s.waitQueue with
    | some taken =>
      have hself := (takePid_some htake').2 pid
      rw [if_pos rfl] at hself
      unfold waits at hwait
      omega
    | none =>
      refine ⟨?_, rfl, hput _ rfl⟩
      simp [hrun]

end

/-! ## Selection -/

section

/-- In a list sorted by a key, what comes first has the smaller key. -/
theorem key_le_of_idxOf_le {α : Type*} [DecidableEq α] {key : α → Nat} {l : List α} {a b : α}
    (hsorted : l.Pairwise fun x y => key x < key y) (ha : a ∈ l) (hb : b ∈ l)
    (h : l.idxOf a ≤ l.idxOf b) : key a ≤ key b := by
  have hla := idxOf_lt_length_iff.mpr ha
  have hlb := idxOf_lt_length_iff.mpr hb
  rcases h.lt_or_eq with hlt | heq
  · have hpair := pairwise_iff_getElem.mp hsorted _ _ hla hlb hlt
    rw [getElem_idxOf, getElem_idxOf] at hpair
    exact hpair.le
  · have hsame : a = b := by
      rw [← getElem_idxOf hla, ← getElem_idxOf hlb]
      simp only [heq]
    rw [hsame]

variable {key : SchedInfo → Int} {pass : SchedInfo → Bool} {queue : List SchedInfo}
  {info : SchedInfo} {cpu : Nat}

theorem mem_passing {i : Nat} (hget : queue[i]? = some info) (hpass : pass info = true) :
    (info, i) ∈ queue.zipIdx.filter fun e => pass e.1 :=
  mem_filter.mpr ⟨mk_mem_zipIdx_iff_getElem?.mpr hget, hpass⟩

/-- `pick` takes the first of the entries with the least key. -/
theorem pick_split {i : Nat} (h : pick queue pass key = some i) :
    ∃ front info back, queue = front ++ info :: back ∧ front.length = i ∧ pass info = true ∧
      (∀ u ∈ front, pass u = true → key info < key u) ∧
      ∀ u ∈ back, pass u = true → key info ≤ key u := by
  obtain ⟨⟨info, j⟩, hmin, rfl⟩ := map_eq_some_iff.mp h
  obtain ⟨hzip, hpass⟩ := mem_filter.mp (argmin_mem hmin)
  have hget := mk_mem_zipIdx_iff_getElem?.mp hzip
  obtain ⟨hj, hinfo⟩ := List.getElem?_eq_some_iff.mp hget
  refine ⟨queue.take j, info, queue.drop (j + 1), ?_, ?_, hpass, ?_, ?_⟩
  · rw [← hinfo, ← drop_eq_getElem_cons hj, take_append_drop]
  · exact length_take_of_le hj.le
  · intro u hu hup
    obtain ⟨k, hk, hku⟩ := getElem_of_mem hu
    rw [length_take_of_le hj.le] at hk
    rw [getElem_take] at hku
    have hmem := mem_passing (List.getElem?_eq_some_iff.mpr ⟨by omega, hku⟩) hup
    by_contra hle
    -- the entry comes earlier in the list, so a key as small would have been taken
    have hidx := index_of_argmin hmin hmem (not_lt.mp hle)
    have hsorted : (queue.zipIdx.filter fun e => pass e.1).Pairwise fun x y => x.2 < y.2 := by
      refine Pairwise.filter _ ?_
      have hrange : (range' 0 queue.length).Pairwise (· < ·) := pairwise_lt_range' 1
      rw [← zipIdx_map_snd 0 queue, pairwise_map] at hrange
      exact hrange
    have hle' := key_le_of_idxOf_le hsorted (argmin_mem hmin) hmem hidx
    omega
  · intro u hu hup
    obtain ⟨k, hk, hku⟩ := getElem_of_mem hu
    rw [getElem_drop] at hku
    rw [length_drop] at hk
    have hmem := mem_passing (List.getElem?_eq_some_iff.mpr ⟨by omega, hku⟩) hup
    have hkey := le_of_mem_argmin (f := fun e : SchedInfo × Nat => key e.1) hmem hmin
    exact hkey

/-- `pick` finds an entry where one passes. -/
theorem pick_ne_none (hinfo : info ∈ queue) (hpass : pass info = true) :
    pick queue pass key ≠ none := by
  intro hnone
  have hempty := argmin_eq_none.mp (map_eq_none_iff.mp hnone)
  obtain ⟨i, hget⟩ := mem_iff_getElem?.mp hinfo
  have hmem := mem_passing hget hpass
  rw [hempty] at hmem
  cases hmem

/-- The queue is split by an allowed entry that comes before the allowed ones in front of it, and
not after those behind it. -/
structure Selects (cpu : Nat) (queue front : List SchedInfo) (info : SchedInfo)
    (back : List SchedInfo) : Prop where
  queue : queue = front ++ info :: back
  allowed : allowed cpu info = true
  front : ∀ u ∈ front, Scheduler.allowed cpu u = true → info.order < u.order
  back : ∀ u ∈ back, Scheduler.allowed cpu u = true → info.order ≤ u.order

/-- Where no allowed entry is of a better class, `pick` on a class selects. -/
theorem pick_class (r : Nat)
    (hpass : ∀ u ∈ queue, pass u = true ↔ allowed cpu u = true ∧ u.rank = r)
    (horder : ∀ u, u.rank = r → u.order = toLex (r, key u))
    (hleast : ∀ u ∈ queue, allowed cpu u = true → r ≤ u.rank) :
    (pick queue pass key = none ∧ ∀ u ∈ queue, allowed cpu u = true → r < u.rank) ∨
      ∃ front info back, pick queue pass key = some front.length ∧ info.rank = r ∧
        Selects cpu queue front info back := by
  have hclass : ∀ u ∈ queue, allowed cpu u = true → pass u = true ∨ r < u.rank := fun u hu h =>
    (hleast u hu h).eq_or_lt.imp_left fun heq => (hpass u hu).mpr ⟨h, heq.symm⟩
  cases hpick : pick queue pass key with
  | none => exact .inl ⟨rfl, fun u hu h => (hclass u hu h).resolve_left (pick_ne_none hu · hpick)⟩
  | some idx =>
    obtain ⟨front, info, back, rfl, rfl, hinfo, hfront, hback⟩ := pick_split hpick
    obtain ⟨hallowed, hrank⟩ := (hpass info (by simp)).mp hinfo
    refine .inr ⟨front, info, back, rfl, hrank, rfl, hallowed, ?_, ?_⟩
    · intro u hu hu'
      have hmem : u ∈ front ++ info :: back := by simp [hu]
      rw [horder info hrank]
      rcases hclass u hmem hu' with hp | hlt
      · rw [horder u ((hpass u hmem).mp hp).2]
        exact Prod.Lex.toLex_lt_toLex.mpr (.inr ⟨rfl, hfront u hu hp⟩)
      · exact Prod.Lex.toLex_lt_toLex.mpr (.inl hlt)
    · intro u hu hu'
      have hmem : u ∈ front ++ info :: back := by simp [hu]
      rw [horder info hrank]
      rcases hclass u hmem hu' with hp | hlt
      · rw [horder u ((hpass u hmem).mp hp).2]
        exact Prod.Lex.toLex_le_toLex.mpr (.inr ⟨rfl, hback u hu hp⟩)
      · exact Prod.Lex.toLex_le_toLex.mpr (.inl hlt)

theorem dueDeadline_iff :
    dueDeadline cpu info = true ↔ allowed cpu info = true ∧ info.rank = 0 := by
  unfold dueDeadline rank
  cases info.policy <;> simp

theorem realTime_iff : realTime cpu info = true ↔ allowed cpu info = true ∧ info.rank = 1 := by
  unfold realTime rank
  cases info.policy <;> simp
  split <;> simp

theorem nonIdle_iff : nonIdle cpu info = true ↔ allowed cpu info = true ∧ info.rank ≤ 2 := by
  unfold nonIdle rank
  cases info.policy <;> simp
  split <;> simp

theorem rank_le (info : SchedInfo) : info.rank ≤ 3 := by
  unfold rank
  split
  · split_ifs <;> decide
  all_goals decide

theorem order_of_two_le (hr : 2 ≤ info.rank) :
    info.order = toLex (info.rank, (info.vruntime : Int)) := by
  unfold order rankKey
  split
  · omega
  · omega
  · rfl

end

/-- `schedule` chooses no entry only where none is allowed. -/
theorem choose_selects (s : Scheduler) (cpu : Nat) :
    (s.choose cpu = none ∧ ∀ u ∈ s.runQueue, allowed cpu u = false) ∨
      ∃ front info back slice, s.choose cpu = some (front.length, slice) ∧
        (info.rank ≠ 0 → slice = effectiveTimeSlice) ∧ Selects cpu s.runQueue front info back := by
  unfold choose
  rcases @pick_class (fun info => info.deadlineParams.elim (2 ^ 64 - 1) fun d =>
      (d.absoluteDeadline : Int)) _ s.runQueue _ 0 (fun u _ => dueDeadline_iff)
      (fun u hu => by simp only [order, rankKey, hu])
      (fun u _ _ => Nat.zero_le _) with
    ⟨hnone, hafter⟩ | ⟨front, info, back, hpick, hrank, hsel⟩
  · rw [hnone]
    rcases @pick_class priority _ _ _ 1 (fun u _ => realTime_iff)
        (fun u hu => by simp only [order, rankKey, hu]) hafter with
      ⟨hnone, hafter⟩ | ⟨front, info, back, hpick, -, hsel⟩
    · rw [hnone]
      by_cases hcount : s.runQueue.countP (nonIdle cpu) > 0
      · simp only [if_pos hcount]
        rcases pick_class 2 (fun u hu => nonIdle_iff.trans (and_congr_right fun h =>
            ⟨fun hle => hle.antisymm (hafter u hu h), Nat.le_of_eq⟩))
            (fun u hu => by rw [order_of_two_le hu.ge, hu]) hafter with
          ⟨-, hnone⟩ | ⟨front, info, back, hpick, -, hsel⟩
        · obtain ⟨u, hu, hidle⟩ := countP_pos_iff.mp hcount
          obtain ⟨hallowed, hle⟩ := nonIdle_iff.mp hidle
          exact absurd (hnone u hu hallowed) (Nat.not_lt.mpr hle)
        · rw [hpick]
          exact .inr ⟨front, info, back, _, rfl, fun _ => rfl, hsel⟩
      · have hidle : ∀ u ∈ s.runQueue, allowed cpu u = true → 3 ≤ u.rank := by
          intro u hu hallowed
          by_contra hlt
          exact hcount (countP_pos_iff.mpr ⟨u, hu, nonIdle_iff.mpr ⟨hallowed, by omega⟩⟩)
        simp only [if_neg hcount]
        rcases pick_class 3
            (fun u hu => ⟨fun h => ⟨h, (rank_le u).antisymm (hidle u hu h)⟩, And.left⟩)
            (fun u hu => by rw [order_of_two_le (by omega), hu]) hidle with
          ⟨hnone, hafter⟩ | ⟨front, info, back, hpick, -, hsel⟩
        · rw [hnone]
          refine .inl ⟨rfl, fun u hu => Bool.eq_false_iff.mpr fun h => ?_⟩
          exact absurd (hafter u hu h) (Nat.not_lt.mpr (rank_le u))
        · rw [hpick]
          exact .inr ⟨front, info, back, _, rfl, fun _ => rfl, hsel⟩
    · rw [hpick]
      exact .inr ⟨front, info, back, _, rfl, fun _ => rfl, hsel⟩
  · rw [hpick]
    exact .inr ⟨front, info, back, _, rfl, fun h => absurd hrank h, hsel⟩

/-- What `schedule` does with the entry that is selected. -/
theorem schedule_selects (s : Scheduler) (cpu : Nat) :
    (s.schedule cpu = (some (s.requeue cpu).idlePid, s.requeue cpu) ∧
        ∀ u ∈ (s.requeue cpu).runQueue, allowed cpu u = false) ∨
      ∃ front info back slice, Selects cpu (s.requeue cpu).runQueue front info back ∧
        (info.rank ≠ 0 → slice = effectiveTimeSlice) ∧
        s.schedule cpu = (some info.pid,
          { (s.requeue cpu).setCurrent cpu (some { info with timeSlice := slice info }) with
            runQueue := front ++ back
            contextSwitches := u64 ((s.requeue cpu).contextSwitches + 1) }) := by
  unfold schedule
  rcases (s.requeue cpu).choose_selects cpu with
    ⟨hnone, hidle⟩ | ⟨front, info, back, slice, hchoose, hslice, hsel⟩
  · exact .inl ⟨by simp only [hnone], hidle⟩
  · refine .inr ⟨front, info, back, slice, hsel, hslice, ?_⟩
    have hget : (s.requeue cpu).runQueue[front.length]? = some info := by simp [hsel.queue]
    have herase : (s.requeue cpu).runQueue.eraseIdx front.length = front ++ back := by
      rw [hsel.queue, eraseIdx_append_of_length_le (le_refl _)]
      simp
    simp only [hchoose, dispatch, hget, map_some, herase]

/-- With the outgoing task back in the queue, `schedule` takes an allowed entry that comes after no
other allowed one, and leaves the rest of the queue; the idle task runs only where no entry is
allowed. -/
theorem schedule_order (s : Scheduler) (cpu : Nat) :
    (s.schedule cpu = (some (s.requeue cpu).idlePid, s.requeue cpu) ∧
        ∀ u ∈ (s.requeue cpu).runQueue, allowed cpu u = false) ∨
      ∃ front info back, (s.requeue cpu).runQueue = front ++ info :: back ∧
        allowed cpu info = true ∧
        (∀ u ∈ front ++ back, allowed cpu u = true → info.order ≤ u.order) ∧
        (s.schedule cpu).1 = some info.pid ∧ (s.schedule cpu).2.runQueue = front ++ back := by
  refine (s.schedule_selects cpu).imp_right ?_
  rintro ⟨front, info, back, slice, hsel, -, hsched⟩
  refine ⟨front, info, back, hsel.queue, hsel.allowed, ?_, by rw [hsched], by rw [hsched]⟩
  intro u hu h
  exact (mem_append.mp hu).elim (fun hu => (hsel.front u hu h).le) fun hu => hsel.back u hu h

/-- A deadline task without budget is passed over for a normal one. -/
theorem throttled_deadline_passed_over :
    let task := { SchedInfo.new 5 0 with
      policy := .deadline, vruntime := 1, deadlineParams := some ⟨1, 10, 10, 0, 10, 0, true⟩ }
    let s := { Scheduler.new with runQueue := [task, .new 6 0] }
    (s.schedule 0).1 = some 6 ∧ allowed 0 task = true := by
  decide +kernel

section

variable (s : Scheduler) (cpu : Nat)

/-- Requeueing moves the task of the CPU to the run queue. -/
theorem requeue_places (p : Nat) :
    (s.requeue cpu).current cpu = none ∧
      (s.requeue cpu).runs p = s.runs p + holds (s.current cpu) p ∧
      (s.requeue cpu).waits p = s.waits p ∧
      (s.requeue cpu).onCpu p + holds (s.current cpu) p = s.onCpu p := by
  unfold requeue
  cases hcur : s.current cpu with
  | none => exact ⟨hcur, rfl, rfl, rfl⟩
  | some info =>
    refine ⟨current_setCurrent s cpu none, ?_, rfl, ?_⟩
    · simp [runs, countP_append, countP_cons]
    · have hset := onCpu_setCurrent s cpu none p
      rw [hcur] at hset
      exact hset

/-- Scheduling runs the idle task, or moves a task of the run queue to the CPU. -/
theorem schedule_places :
    (s.schedule cpu = (some (s.requeue cpu).idlePid, s.requeue cpu)) ∨
      ∃ pid, (s.schedule cpu).1 = some pid ∧ 0 < (s.requeue cpu).runs pid ∧
        ∀ p, (s.requeue cpu).runs p = (s.schedule cpu).2.runs p + (if pid = p then 1 else 0) ∧
          (s.schedule cpu).2.waits p = s.waits p ∧
          (s.schedule cpu).2.onCpu p = (s.requeue cpu).onCpu p + if pid = p then 1 else 0 := by
  rcases s.schedule_selects cpu with ⟨hsched, -⟩ | ⟨front, info, back, slice, hsel, -, hsched⟩
  · exact .inl hsched
  · have hcount : ∀ p, (s.requeue cpu).runs p =
        (front ++ back).countP (·.pid = p) + if info.pid = p then 1 else 0 := by
      intro p
      unfold runs
      rw [hsel.queue, countP_append, countP_cons, countP_append]
      simp only [decide_eq_true_eq, Nat.add_assoc]
    rw [hsched]
    refine .inr ⟨info.pid, rfl, ?_, fun p => ⟨hcount p, ?_, ?_⟩⟩
    · rw [hcount, if_pos rfl]
      omega
    · exact (s.requeue_places cpu p).2.2.1
    · have hset := onCpu_setCurrent (s.requeue cpu) cpu
        (some { info with timeSlice := slice info }) p
      rw [(s.requeue_places cpu p).1, holds_some] at hset
      exact hset

/-- Scheduling loses no entry. -/
theorem occurs_schedule (p : Nat) : (s.schedule cpu).2.occurs p = s.occurs p := by
  obtain ⟨-, hr, hw, hc⟩ := s.requeue_places cpu p
  rcases s.schedule_places cpu with heq | ⟨pid, -, -, hmoved⟩
  · rw [heq]
    show (s.requeue cpu).occurs p = s.occurs p
    unfold occurs
    omega
  · obtain ⟨hr', hw', hc'⟩ := hmoved p
    unfold occurs
    omega

/-- Scheduling leaves the wait queue alone. -/
theorem waits_schedule (p : Nat) : (s.schedule cpu).2.waits p = s.waits p := by
  rcases s.schedule_places cpu with heq | ⟨pid, -, -, hmoved⟩
  · rw [heq]
    exact (s.requeue_places cpu p).2.2.1
  · exact (hmoved p).2.1

end

end Scheduler

end KnoxOS.Sched
