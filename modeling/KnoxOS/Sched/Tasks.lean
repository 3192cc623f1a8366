import Mathlib.Data.Finset.Basic
import KnoxOS.Lib.Reach
import KnoxOS.Sched.Scheduler

/-!
# Tasks in the scheduler

Runs of the scheduler's calls on any CPUs. `set_running` drops the task it displaces and makes up
an entry for a task that runs elsewhere (`set_running_doubles_task`), and `block_process` looks
only at the run queue and at the calling CPU. The main theorem, `tasks_conserved`, says that
without such calls every task is in one place, none is lost, and a blocked task is not scheduled.
-/

namespace KnoxOS.Sched

open Lib Scheduler List Finset

/-- The calls, each made on a CPU. -/
inductive SchedOp where
  | addProcess (pid : Nat) (priority : Int)
  | removeProcess (pid : Nat)
  | blockProcess (cpu pid : Nat)
  | wakeProcess (pid : Nat)
  | setRunning (cpu pid : Nat)
  | switchRunning (cpu pid : Nat)
  | tick (cpu : Nat)
  | schedule (cpu : Nat)
  | setPriority (cpu pid : Nat) (priority : Int)
  | setPolicy (pid : Nat) (policy : SchedPolicy)
  | setDeadline (cpu pid runtime period deadline : Nat)
  | setCpuAffinity (pid mask : Nat)
  | setPlacedCpu (pid cpu : Nat)
  | enable

/-- The scheduler after a call. -/
def Scheduler.call (s : Scheduler) : SchedOp → Scheduler
  | .addProcess pid priority => s.addProcess pid priority
  | .removeProcess pid => s.removeProcess pid
  | .blockProcess cpu pid => s.blockProcess cpu pid
  | .wakeProcess pid => s.wakeProcess pid
  | .setRunning cpu pid => s.setRunning cpu pid
  | .switchRunning cpu pid => s.switchRunning cpu pid
  | .tick cpu => (s.tick cpu).2
  | .schedule cpu => (s.schedule cpu).2
  | .setPriority cpu pid priority => s.setPriority cpu pid priority
  | .setPolicy pid policy => s.setPolicy pid policy
  | .setDeadline cpu pid runtime period deadline =>
    (s.setDeadline cpu pid runtime period deadline).2
  | .setCpuAffinity pid mask => s.setCpuAffinity pid mask
  | .setPlacedCpu pid cpu => s.setPlacedCpu pid cpu
  | .enable => s.enable

/-- No call changes the pid of the idle task. -/
theorem Scheduler.idlePid_call (s : Scheduler) (op : SchedOp) :
    (s.call op).idlePid = s.idlePid := by
  have hsetRunning : ∀ (s : Scheduler) (cpu pid : Nat),
      (s.setRunning cpu pid).idlePid = s.idlePid := by
    intro s cpu pid
    unfold setRunning occupy
    split_ifs
    · rfl
    · split
      · rfl
      · split <;> rfl
  have hanywhere : ∀ (pid : Nat) (f : SchedInfo → SchedInfo),
      (s.modifyAnywhere pid f).idlePid = s.idlePid := by
    intro pid f
    unfold modifyAnywhere
    split_ifs
    · rfl
    · split <;> rfl
  have hrequeue : ∀ cpu, (s.requeue cpu).idlePid = s.idlePid := by
    intro cpu
    unfold requeue
    split <;> rfl
  cases op with
  | addProcess pid priority => rfl
  | removeProcess pid => rfl
  | blockProcess cpu pid =>
    simp only [call, blockProcess, blockQueued, blockCurrent]
    split
    · split_ifs
      · split <;> rfl
      · split <;> rfl
    · split <;> rfl
  | wakeProcess pid =>
    simp only [call, wakeProcess]
    split <;> rfl
  | setRunning cpu pid => exact hsetRunning s cpu pid
  | switchRunning cpu pid =>
    simp only [call, Scheduler.switchRunning]
    split
    · split_ifs
      · rfl
      · rw [hsetRunning]
        rfl
      · rw [hsetRunning]
        rfl
    · exact hsetRunning s cpu pid
  | tick cpu =>
    simp only [call, tick]
    split_ifs
    · rfl
    · split <;> rfl
  | schedule cpu =>
    simp only [call, schedule, dispatch]
    split
    · exact hrequeue cpu
    · split
      · rename_i hdispatch
        obtain ⟨info, -, heq⟩ := Option.map_eq_some_iff.mp hdispatch
        cases heq
        exact hrequeue cpu
      · exact hrequeue cpu
  | setPriority cpu pid priority =>
    simp only [call, setPriority]
    split_ifs <;> rfl
  | setPolicy pid policy => rfl
  | setDeadline cpu pid runtime period deadline =>
    simp only [call, setDeadline]
    split_ifs <;> rfl
  | setCpuAffinity pid mask =>
    simp only [call, setCpuAffinity]
    split_ifs
    · rfl
    · exact hanywhere pid _
  | setPlacedCpu pid cpu => exact hanywhere pid _
  | enable => rfl

/-- The scheduler beside the pids added and not removed, and the pids blocked and not woken. -/
structure TaskRun where
  sched : Scheduler
  added : Finset Nat
  blocked : Finset Nat

/-- A new scheduler. -/
def TaskRun.new : TaskRun := ⟨.new, ∅, ∅⟩

/-- One call of a run. -/
def TaskRun.step (r : TaskRun) (op : SchedOp) : TaskRun where
  sched := r.sched.call op
  added :=
    match op with
    | .addProcess pid _ => insert pid r.added
    | .removeProcess pid => r.added.erase pid
    | _ => r.added
  blocked :=
    match op with
    | .blockProcess _ pid => insert pid r.blocked
    | .wakeProcess pid => r.blocked.erase pid
    | _ => r.blocked

/-- Only a pid that is not present is added. -/
def SchedOp.Legal (r : TaskRun) : SchedOp → Prop
  | .addProcess pid _ => r.sched.occurs pid = 0
  | _ => True

/-- The call leaves no task behind: a pid that was blocked is not added or run before it is woken;
the idle task and a task that runs on another CPU are not blocked; a task that runs on another CPU
is not run here; and `set_running` does not displace an added task. -/
def SchedOp.Orderly (r : TaskRun) : SchedOp → Prop
  | .addProcess pid _ => pid ∉ r.blocked
  | .blockProcess cpu pid => pid ≠ 0 ∧ r.sched.onCpu pid = holds (r.sched.current cpu) pid
  | .setRunning cpu pid =>
    pid ∉ r.blocked ∧ r.sched.onCpu pid = holds (r.sched.current cpu) pid ∧
      ∀ info ∈ r.sched.current cpu, info.pid = pid ∨ info.pid ∉ r.added
  | .switchRunning cpu pid =>
    pid ∉ r.blocked ∧ r.sched.onCpu pid = holds (r.sched.current cpu) pid
  | _ => True

instance (r : TaskRun) : ∀ op, Decidable (SchedOp.Legal r op)
  | .addProcess _ _ => inferInstanceAs (Decidable (_ = _))
  | .removeProcess _ | .blockProcess _ _ | .wakeProcess _ | .setRunning _ _ | .switchRunning _ _
  | .tick _ | .schedule _ | .setPriority _ _ _ | .setPolicy _ _ | .setDeadline _ _ _ _ _
  | .setCpuAffinity _ _ | .setPlacedCpu _ _ | .enable => inferInstanceAs (Decidable True)

instance (r : TaskRun) : ∀ op, Decidable (SchedOp.Orderly r op)
  | .addProcess _ _ => inferInstanceAs (Decidable (_ ∉ _))
  | .blockProcess _ _ => inferInstanceAs (Decidable (_ ∧ _))
  | .setRunning cpu pid => inferInstanceAs (Decidable (_ ∧ _ ∧
      ∀ info ∈ r.sched.current cpu, info.pid = pid ∨ info.pid ∉ r.added))
  | .switchRunning _ _ => inferInstanceAs (Decidable (_ ∧ _))
  | .removeProcess _ | .wakeProcess _ | .tick _ | .schedule _ | .setPriority .. | .setPolicy ..
  | .setDeadline .. | .setCpuAffinity .. | .setPlacedCpu .. | .enable =>
    inferInstanceAs (Decidable True)

/-- What every run keeps: a pid is in one place at most; an added pid is somewhere; a waiting pid
was blocked; and a blocked pid neither runs nor is queued to run. -/
structure TaskRun.Tidy (r : TaskRun) : Prop where
  single : ∀ p, r.sched.occurs p ≤ 1
  kept : ∀ p ∈ r.added, r.sched.occurs p = 1
  waiting : ∀ p, 0 < r.sched.waits p → p ∈ r.blocked
  asleep : ∀ p ∈ r.blocked, p ≠ 0 ∧ r.sched.runs p = 0 ∧ r.sched.onCpu p = 0
  idle : r.sched.idlePid = 0

namespace TaskRun.Tidy

variable {r : TaskRun}

theorem new : TaskRun.new.Tidy where
  single p := by simp [TaskRun.new, occurs, runs, waits,
    onCpu, Scheduler.new]
  kept p hp := by simp [TaskRun.new] at hp
  waiting p hp := by simp [TaskRun.new, waits, Scheduler.new] at hp
  asleep p hp := by simp [TaskRun.new] at hp
  idle := rfl

/-- What a tidy run says of one pid, by the number of its places in the run queue, in the wait
queue and on the CPUs. -/
structure Tally (p runs waits cpus : Nat) (added blocked : Prop) : Prop where
  single : runs + waits + cpus ≤ 1
  kept : added → runs + waits + cpus = 1
  waiting : 0 < waits → blocked
  asleep : blocked → p ≠ 0 ∧ runs = 0 ∧ cpus = 0

theorem of_tally {s : Scheduler} {added blocked : Finset Nat} (hidle : s.idlePid = 0)
    (h : ∀ p, Tally p (s.runs p) (s.waits p) (s.onCpu p) (p ∈ added) (p ∈ blocked)) :
    TaskRun.Tidy ⟨s, added, blocked⟩ :=
  ⟨fun p => (h p).single, fun p => (h p).kept, fun p => (h p).waiting, fun p => (h p).asleep, hidle⟩

variable {pid cpu : Nat}

section

variable (h : r.Tidy)
include h

theorem tally (p : Nat) : Tally p (r.sched.runs p) (r.sched.waits p) (r.sched.onCpu p) (p ∈ r.added)
      (p ∈ r.blocked) :=
  ⟨h.single p, h.kept p, h.waiting p, h.asleep p⟩

theorem same {s : Scheduler} (hsame : r.sched.Same s) (hidle : s.idlePid = r.sched.idlePid) :
    TaskRun.Tidy ⟨s, r.added, r.blocked⟩ := by
  refine of_tally (hidle.trans h.idle) fun p => ?_
  rw [hsame.runs, hsame.waits, hsame.onCpu]
  exact h.tally p

/-- Adding a pid that is not present and not blocked. -/
theorem addProcess (priority : Int) (hnew : r.sched.occurs pid = 0) (hfree : pid ∉ r.blocked) :
    (r.step (.addProcess pid priority)).Tidy := by
  show TaskRun.Tidy ⟨r.sched.addProcess pid priority, insert pid r.added, r.blocked⟩
  refine of_tally h.idle fun p => ?_
  obtain ⟨hsingle, hkept, hwaiting, hasleep⟩ := h.tally p
  rw [r.sched.runs_addProcess pid priority, mem_insert]
  show Tally p _ (r.sched.waits p) (r.sched.onCpu p) _ _
  unfold occurs at hnew
  constructor <;> grind

theorem removeProcess (pid : Nat) : (r.step (.removeProcess pid)).Tidy := by
  show TaskRun.Tidy ⟨r.sched.removeProcess pid, r.added.erase pid, r.blocked⟩
  refine of_tally h.idle fun p => ?_
  obtain ⟨hsingle, hkept, hwaiting, hasleep⟩ := h.tally p
  obtain ⟨hrun, hwait, hcpu⟩ := r.sched.removeProcess_places pid p
  rw [hrun, hwait, hcpu, mem_erase]
  constructor <;> grind

section

variable (hhere : r.sched.onCpu pid = holds (r.sched.current cpu) pid)
include hhere

/-- Blocking moves the pid, from the run queue or from the calling CPU, to the wait queue. -/
theorem blockProcess_places :
    (r.sched.blockProcess cpu pid).runs pid = 0 ∧ (r.sched.blockProcess cpu pid).onCpu pid = 0 ∧
      (r.sched.blockProcess cpu pid).occurs pid = r.sched.occurs pid ∧
      ∀ p, pid ≠ p → (r.sched.blockProcess cpu pid).runs p = r.sched.runs p ∧
        (r.sched.blockProcess cpu pid).waits p = r.sched.waits p ∧
        (r.sched.blockProcess cpu pid).onCpu p = r.sched.onCpu p := by
  have hsingle := h.single pid
  unfold occurs at hsingle ⊢
  unfold blockProcess
  rcases r.sched.blockQueued_places pid with ⟨hrun, heq⟩ | ⟨hslots, hmoved⟩
  · -- the pid is not queued, so it is on the calling CPU or asleep already
    rw [heq]
    rcases r.sched.blockCurrent_places cpu pid with ⟨hoff, heq'⟩ | ⟨hon, hmoved⟩
    · rw [heq']
      exact ⟨hrun, by omega, rfl, fun p _ => ⟨rfl, rfl, rfl⟩⟩
    · obtain ⟨hr, hc, hw⟩ := hmoved pid
      rw [if_pos rfl] at hc hw
      refine ⟨by omega, by omega, by omega, fun p hp => ?_⟩
      obtain ⟨hr, hc, hw⟩ := hmoved p
      rw [if_neg hp] at hc hw
      exact ⟨hr, by omega, by omega⟩
  · -- the pid is queued, so it is on no CPU
    obtain ⟨hr, hw⟩ := hmoved pid
    rw [if_pos rfl] at hr hw
    have hcpu : ∀ p, (r.sched.blockQueued pid).onCpu p = r.sched.onCpu p := by
      intro p
      unfold onCpu
      rw [hslots]
    have hcurrent : (r.sched.blockQueued pid).current cpu = r.sched.current cpu := by
      unfold Scheduler.current
      rw [hslots]
    rcases (r.sched.blockQueued pid).blockCurrent_places cpu pid with ⟨-, heq'⟩ | ⟨hon, -⟩
    · rw [heq', hcpu]
      refine ⟨by omega, by omega, by omega, fun p hp => ?_⟩
      obtain ⟨hr, hw⟩ := hmoved p
      rw [if_neg hp] at hr hw
      exact ⟨by omega, by omega, hcpu p⟩
    · rw [hcurrent] at hon
      omega

theorem occurs_blockProcess (p : Nat) :
    (r.sched.blockProcess cpu pid).occurs p = r.sched.occurs p := by
  obtain ⟨-, -, hoccurs, hother⟩ := h.blockProcess_places hhere
  by_cases hp : pid = p
  · rw [← hp, hoccurs]
  · obtain ⟨hr, hw, hc⟩ := hother p hp
    unfold occurs
    rw [hr, hw, hc]

/-- Blocking a pid that runs on no other CPU. -/
theorem blockProcess (hne : pid ≠ 0) : (r.step (.blockProcess cpu pid)).Tidy := by
  show TaskRun.Tidy ⟨r.sched.blockProcess cpu pid, r.added, insert pid r.blocked⟩
  obtain ⟨hrun, hcpu, hoccurs, hother⟩ := h.blockProcess_places hhere
  refine of_tally ((r.sched.idlePid_call (.blockProcess cpu pid)).trans h.idle) fun p => ?_
  obtain ⟨hsingle, hkept, hwaiting, hasleep⟩ := h.tally p
  unfold occurs at hoccurs
  rw [mem_insert]
  by_cases hp : pid = p
  · subst hp
    constructor <;> grind
  · obtain ⟨hr, hw, hc⟩ := hother p hp
    rw [hr, hw, hc]
    constructor <;> grind

end

/-- Waking moves a waiting pid to the run queue. -/
theorem wakeProcess (pid : Nat) : (r.step (.wakeProcess pid)).Tidy := by
  show TaskRun.Tidy ⟨r.sched.wakeProcess pid, r.added, r.blocked.erase pid⟩
  refine of_tally ((r.sched.idlePid_call (.wakeProcess pid)).trans h.idle) fun p => ?_
  obtain ⟨hsingle, hkept, hwaiting, hasleep⟩ := h.tally p
  rw [mem_erase]
  rcases r.sched.wakeProcess_places pid with ⟨hwait, heq⟩ | ⟨hslots, hmoved⟩
  · rw [heq]
    constructor <;> grind
  · -- the pid waited once, and waits no more
    have hcpu : (r.sched.wakeProcess pid).onCpu p = r.sched.onCpu p := by
      unfold onCpu
      rw [hslots]
    obtain ⟨hw, hr⟩ := hmoved p
    rw [hcpu, hr]
    constructor <;> grind

/-- A pid that is not blocked and runs nowhere takes an empty slot. -/
theorem occupy (hslot : r.sched.current cpu = none) (hfree : pid ∉ r.blocked)
    (hoff : r.sched.onCpu pid = 0) (hidle : (r.sched.occupy cpu pid).idlePid = 0) :
    TaskRun.Tidy ⟨r.sched.occupy cpu pid, r.added, r.blocked⟩ := by
  have hwait : r.sched.waits pid = 0 := by
    by_contra hpos
    exact hfree (h.waiting pid (by omega))
  refine of_tally hidle fun p => ?_
  obtain ⟨hr, hw, hc⟩ := r.sched.occupy_places hslot hwait p
  obtain ⟨hsingle, hkept, hwaiting, hasleep⟩ := h.tally p
  rw [hw, hc]
  constructor <;> grind

/-- Emptying a slot whose task was not added. -/
theorem clear (hdrop : ∀ info ∈ r.sched.current cpu, info.pid ∉ r.added) :
    TaskRun.Tidy ⟨r.sched.setCurrent cpu none, r.added, r.blocked⟩ := by
  refine of_tally h.idle fun p => ?_
  obtain ⟨hsingle, hkept, hwaiting, hasleep⟩ := h.tally p
  have hslot := r.sched.onCpu_setCurrent cpu none p
  rw [holds_none] at hslot
  have hnot : p ∈ r.added → holds (r.sched.current cpu) p = 0 := by
    intro hp
    cases hcur : r.sched.current cpu with
    | none => rfl
    | some info =>
      rw [holds_some, if_neg]
      intro heq
      exact hdrop info hcur (by rwa [heq])
  rw [runs_setCurrent, waits_setCurrent]
  constructor <;> grind

/-- The task of a CPU goes back to the run queue. -/
theorem requeue {info : SchedInfo} (hcur : r.sched.current cpu = some info) {info' : SchedInfo}
    (hpid : info'.pid = info.pid) :
    TaskRun.Tidy ⟨{ r.sched.setCurrent cpu none with runQueue := r.sched.runQueue ++ [info'] },
      r.added, r.blocked⟩ := by
  refine of_tally h.idle fun p => ?_
  obtain ⟨hsingle, hkept, hwaiting, hasleep⟩ := h.tally p
  have hslot := r.sched.onCpu_setCurrent cpu none p
  rw [hcur, holds_none, holds_some] at hslot
  have hruns : runs
      { r.sched.setCurrent cpu none with runQueue := r.sched.runQueue ++ [info'] } p =
        r.sched.runs p + if info.pid = p then 1 else 0 := by
    simp [runs, countP_append, countP_cons, hpid]
  show Tally p _ (r.sched.waits p) ((r.sched.setCurrent cpu none).onCpu p) _ _
  constructor <;> grind

section

variable (hfree : pid ∉ r.blocked) (hhere : r.sched.onCpu pid = holds (r.sched.current cpu) pid)
include hfree hhere

/-- Running a pid that is not blocked and runs on no other CPU, where no added task is
displaced. -/
theorem setRunning (hdrop : ∀ info ∈ r.sched.current cpu, info.pid = pid ∨ info.pid ∉ r.added) :
    TaskRun.Tidy ⟨r.sched.setRunning cpu pid, r.added, r.blocked⟩ := by
  have hidle := (r.sched.idlePid_call (.setRunning cpu pid)).trans h.idle
  change (r.sched.setRunning cpu pid).idlePid = 0 at hidle
  unfold Scheduler.setRunning at hidle ⊢
  by_cases hcur : (r.sched.current cpu).map SchedInfo.pid = some pid
  · simp only [if_pos hcur]
    exact h
  · simp only [if_neg hcur] at hidle ⊢
    have hnot : ∀ info ∈ r.sched.current cpu, info.pid ≠ pid := by
      intro info hinfo heq
      rw [hinfo] at hcur
      exact hcur (congrArg some heq)
    have hclear := h.clear fun info hinfo => (hdrop info hinfo).resolve_left (hnot info hinfo)
    have hzero : holds (r.sched.current cpu) pid = 0 := by
      cases hinfo : r.sched.current cpu with
      | none => rfl
      | some info => rw [holds_some, if_neg (hnot info hinfo)]
    have hslot := r.sched.onCpu_setCurrent cpu none pid
    rw [hzero, holds_none] at hslot
    refine hclear.occupy (r.sched.current_setCurrent cpu none) hfree ?_ hidle
    show (r.sched.setCurrent cpu none).onCpu pid = 0
    omega

/-- Switching to a pid that is not blocked and runs on no other CPU. -/
theorem switchRunning : TaskRun.Tidy ⟨r.sched.switchRunning cpu pid, r.added, r.blocked⟩ := by
  unfold Scheduler.switchRunning
  cases hcur : r.sched.current cpu with
  | none =>
    refine h.setRunning hfree hhere fun info hinfo => ?_
    rw [hcur] at hinfo
    cases hinfo
  | some info =>
    by_cases hpid : info.pid = pid
    · simp only [if_pos hpid]
      exact h
    · -- the outgoing task is in no queue, so it is put into the run queue
      have hsingle := h.single info.pid
      have hon := r.sched.holds_le_onCpu cpu info.pid
      rw [hcur, holds_some, if_pos rfl] at hon
      unfold occurs runs waits at hsingle
      have hrun : r.sched.runQueue.any (·.pid = info.pid) = false := by
        rw [any_eq_false]
        exact countP_eq_zero.mp (by omega)
      have hwait : r.sched.waitQueue.any (·.pid = info.pid) = false := by
        rw [any_eq_false]
        exact countP_eq_zero.mp (by omega)
      have hqueued : (!(r.sched.setCurrent cpu none).runQueue.any (·.pid = info.pid) &&
          !(r.sched.setCurrent cpu none).waitQueue.any (·.pid = info.pid)) = true := by
        show (!r.sched.runQueue.any (·.pid = info.pid) &&
          !r.sched.waitQueue.any (·.pid = info.pid)) = true
        rw [hrun, hwait]
        rfl
      simp only [if_neg hpid, if_pos hqueued]
      have hslot := r.sched.onCpu_setCurrent cpu none pid
      rw [hhere, holds_none, hcur, holds_some, if_neg hpid] at hslot
      refine (h.requeue hcur rfl).setRunning hfree ?_ ?_
      · show (r.sched.setCurrent cpu none).onCpu pid =
          holds ((r.sched.setCurrent cpu none).current cpu) pid
        rw [current_setCurrent, holds_none]
        omega
      · intro other hother
        change (r.sched.setCurrent cpu none).current cpu = some other at hother
        rw [current_setCurrent] at hother
        cases hother

end

theorem requeued (cpu : Nat) : TaskRun.Tidy ⟨r.sched.requeue cpu, r.added, r.blocked⟩ := by
  unfold Scheduler.requeue
  cases hcur : r.sched.current cpu with
  | none => exact h
  | some info => exact h.requeue hcur rfl

/-- Scheduling keeps every task in one place, and does not return a blocked one. -/
theorem schedule (cpu : Nat) :
    TaskRun.Tidy ⟨(r.sched.schedule cpu).2, r.added, r.blocked⟩ ∧
      ∀ p ∈ r.blocked, (r.sched.schedule cpu).1 ≠ some p := by
  have hback := h.requeued cpu
  rcases r.sched.schedule_places cpu with heq | ⟨pid, hpid, hqueued, hmoved⟩
  · rw [heq]
    refine ⟨hback, fun p hp hsome => ?_⟩
    have hidle : (r.sched.requeue cpu).idlePid = 0 := hback.idle
    have hzero : 0 = p := by rw [← hidle]; exact Option.some.inj hsome
    exact (h.asleep p hp).1 hzero.symm
  · -- a task of the run queue is not blocked
    have hawake : ∀ p ∈ r.blocked, pid ≠ p := by
      intro p hp heq
      have hrun : (r.sched.requeue cpu).runs p = 0 := (hback.asleep p hp).2.1
      rw [heq] at hqueued
      omega
    refine ⟨of_tally ((r.sched.idlePid_call (.schedule cpu)).trans h.idle) fun p => ?_,
      fun p hp hsome => ?_⟩
    · have hoccurs := r.sched.occurs_schedule cpu p
      obtain ⟨hsingle, hkept, hwaiting, -⟩ := h.tally p
      obtain ⟨hr', hw', hc'⟩ := hmoved p
      unfold occurs at hoccurs
      refine ⟨by omega, fun hp => by rw [hoccurs, hkept hp], fun hp => hwaiting (by omega),
        fun hp => ?_⟩
      obtain ⟨hne, hr, hc⟩ := hback.asleep p hp
      rw [if_neg (hawake p hp)] at hr' hc'
      exact ⟨hne, Nat.eq_zero_of_add_eq_zero_right (hr'.symm.trans hr), hc'.trans hc⟩
    · rw [hpid] at hsome
      exact hawake p hp (Option.some.inj hsome)

/-- One orderly call. -/
theorem step {op : SchedOp} (hlegal : op.Legal r) (horderly : op.Orderly r) : (r.step op).Tidy := by
  have hsame : ∀ {s : Scheduler}, r.sched.Same s → s = r.sched.call op →
      TaskRun.Tidy ⟨s, r.added, r.blocked⟩ := fun hplaces heq =>
    h.same hplaces (by rw [heq]; exact r.sched.idlePid_call op)
  cases op with
  | addProcess pid priority => exact h.addProcess priority hlegal horderly
  | removeProcess pid => exact h.removeProcess pid
  | blockProcess cpu pid => exact h.blockProcess horderly.2 horderly.1
  | wakeProcess pid => exact h.wakeProcess pid
  | setRunning cpu pid => exact h.setRunning horderly.1 horderly.2.1 horderly.2.2
  | switchRunning cpu pid => exact h.switchRunning horderly.1 horderly.2
  | schedule cpu => exact (h.schedule cpu).1
  | tick cpu => exact hsame (r.sched.same_tick cpu) rfl
  | setPriority cpu pid priority => exact hsame (r.sched.same_setPriority cpu pid priority) rfl
  | setPolicy pid policy => exact hsame (r.sched.same_setPolicy pid policy) rfl
  | setDeadline cpu pid runtime period deadline =>
    exact hsame (r.sched.same_setDeadline cpu pid runtime period deadline) rfl
  | setCpuAffinity pid mask => exact hsame (r.sched.same_setCpuAffinity pid mask) rfl
  | setPlacedCpu pid cpu => exact hsame (r.sched.same_setPlacedCpu pid cpu) rfl
  | enable => exact hsame (s := r.sched.enable) ⟨fun _ => rfl, fun _ => rfl, fun _ => rfl⟩ rfl

end

end TaskRun.Tidy

/-- In every run of orderly calls, a pid is in one of the queues and slots at most, so no task runs
on two CPUs; a pid that was added and not removed is in one of them; and no CPU schedules a pid
that was blocked and not woken. -/
theorem tasks_conserved {r : TaskRun}
    (hrun : Reach TaskRun.step (fun r op => op.Legal r ∧ op.Orderly r) .new r) :
    (∀ p, r.sched.runs p + r.sched.waits p + r.sched.onCpu p ≤ 1) ∧
      (∀ p ∈ r.added, r.sched.runs p + r.sched.waits p + r.sched.onCpu p = 1) ∧
      ∀ cpu, ∀ p ∈ r.blocked, (r.sched.schedule cpu).1 ≠ some p := by
  have htidy : r.Tidy :=
    hrun.invariant TaskRun.Tidy TaskRun.Tidy.new fun _ _ h hok => h.step hok.1 hok.2
  exact ⟨htidy.single, htidy.kept, fun cpu => (htidy.schedule cpu).2⟩

/-- Two tasks, scheduled on two CPUs; one is blocked, and the other gives way to it once it is
woken. -/
def orderlyCalls : List SchedOp :=
  [.addProcess 5 0, .addProcess 6 (-5), .enable, .schedule 0, .schedule 1, .tick 1,
    .blockProcess 0 5, .schedule 0, .wakeProcess 5, .switchRunning 1 5]

theorem tasks_conserved_ten_calls :
    Admitted TaskRun.step (fun r op => op.Legal r ∧ op.Orderly r) .new orderlyCalls ∧
      (orderlyCalls.foldl TaskRun.step .new).sched.runs 6 +
        (orderlyCalls.foldl TaskRun.step .new).sched.waits 6 +
        (orderlyCalls.foldl TaskRun.step .new).sched.onCpu 6 = 1 := by
  have hadmitted : Admitted TaskRun.step (fun r op => op.Legal r ∧ op.Orderly r) .new
      orderlyCalls := by decide +kernel
  exact ⟨hadmitted, (tasks_conserved (Reach.start.foldl hadmitted)).2.1 6 (by decide +kernel)⟩

/-- A task that runs on CPU 0 is set running on CPU 1, and then runs on both. -/
theorem set_running_doubles_task :
    ∃ r, Reach TaskRun.step SchedOp.Legal .new r ∧ r.sched.onCpu 5 = 2 := by
  have hadmitted : Admitted TaskRun.step SchedOp.Legal .new
      [.addProcess 5 0, .schedule 0, .setRunning 1 5] := by decide +kernel
  exact ⟨_, Reach.start.foldl hadmitted, by decide +kernel⟩

end KnoxOS.Sched
