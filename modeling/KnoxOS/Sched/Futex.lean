import KnoxOS.Lib.Map
import KnoxOS.Sched.Tasks

/-!
# Futexes

`FUTEX_WAIT` and `FUTEX_WAKE` of `syscall/thread.rs` and `sched/threads.rs` on the scheduler. A
wait is three steps: the check of the word, the entry into the queue of the address, and the
block. A wake takes entries off the queue in one step and then wakes their tasks one by one. A
waker between two steps of a waiter finds no entry, or wakes a task that does not sleep yet
(`wake_before_block_is_lost`); queues are keyed by the address alone, and keep the entries of
tasks that exited. The main theorem, `wakes_not_lost`, says that wakes that meet none of this are
never lost.
-/

namespace KnoxOS.Sched

open Function Lib List Scheduler
open Std (TreeMap)

structure FutexWaiter where
  pid : Nat
  tid : Nat
  addr : Nat
deriving DecidableEq, Repr

/-- The queues by address, `FUTEX_WAITERS`. -/
abbrev FutexWaiters := TreeMap Nat (List FutexWaiter)

/-- `futex_register_waiter`, called by the task `pid`. -/
def futexRegisterWaiter (waiters : FutexWaiters) (pid addr : Nat) : FutexWaiters :=
  waiters.insert addr (waiters[addr]?.getD [] ++ [⟨pid, pid, addr⟩])

/-- The critical section of `futex_wake`: up to `count` waiters leave the queue, the last one
first. -/
def popWaiters (waiters : FutexWaiters) (addr count : Nat) : List Nat × FutexWaiters :=
  match waiters[addr]? with
  | none => ([], waiters)
  | some queue =>
    let n := min count queue.length
    let rest := queue.take (queue.length - n)
    ((queue.reverse.take n).map FutexWaiter.pid,
      if rest = [] then waiters.erase addr else waiters.insert addr rest)

/-- Where a task is: in user mode, after the check of `FUTEX_WAIT`, after its entry into the queue,
after its block, or in the loop of `FUTEX_WAKE` with the tasks still to wake. -/
inductive Control where
  | user
  | checked (addr : Nat)
  | registered (addr : Nat)
  | parked (addr : Nat)
  | waking (pids : List Nat)
deriving DecidableEq, Repr

/-- The task sleeps in `FUTEX_WAIT`. -/
def Control.isParked : Control → Bool
  | .parked _ => true
  | _ => false

/-- A live task: its address space and its place in the code; whether a wake took its entry off the
queue, and whether a wake that covers every waiter came after its check. -/
structure Task where
  space : Nat
  control : Control
  released : Bool
  due : Bool
deriving DecidableEq, Repr

/-- What a task does in user mode. -/
inductive UserAction where
  | store (addr value : Nat)
  | futexWait (addr value : Nat)
  | futexWake (addr count : Nat)

/-- The kernel with its live tasks. Words are keyed by address space and address; `used` holds
every pid a task ever had. -/
structure FutexState where
  run : TaskRun
  waiters : FutexWaiters
  memory : TreeMap (Nat × Nat) Nat
  tasks : TreeMap Nat Task
  used : Finset Nat

/-- The steps: the task of a CPU acts in user mode or takes its next step in the kernel; a CPU
schedules; a task comes and a task goes. -/
inductive FutexOp where
  | user (cpu : Nat) (action : UserAction)
  | kernel (cpu : Nat)
  | schedule (cpu : Nat)
  | spawn (pid space : Nat) (priority : Int)
  | exit (pid : Nat)

/-- The task waits on the address and no wake has taken its entry. -/
def Task.waiting (t : Task) (space addr : Nat) : Bool :=
  t.space == space && !t.released &&
    (t.control == .checked addr || t.control == .registered addr || t.control == .parked addr)

/-- A task that goes on to another place. -/
def Task.goto (t : Task) (control : Control) : Task := { t with control := control }

/-- The place of a waker with these tasks still to wake. -/
def Control.ofWaking : List Nat → Control
  | [] => .user
  | pids => .waking pids

namespace FutexState

/-- No task. -/
def init : FutexState := ⟨.new, ∅, ∅, ∅, ∅⟩

/-- The pid and the task that run on a CPU. -/
def current (s : FutexState) (cpu : Nat) : Option (Nat × Task) := do
  let info ← s.run.sched.current cpu
  let t ← s.tasks[info.pid]?
  return (info.pid, t)

/-- The pids in the queue of an address. -/
def queue (s : FutexState) (addr : Nat) : List Nat :=
  (s.waiters[addr]?.getD []).map FutexWaiter.pid

/-- The tasks that wait on an address of a space. -/
def liveWaiters (s : FutexState) (space addr : Nat) : List Nat :=
  (s.tasks.toList.filter fun e => e.2.waiting space addr).map Prod.fst

/-- What a wake marks: the tasks whose entries it took, and every waiter if it covers all. -/
def marked (s : FutexState) (space addr count : Nat) (popped : List Nat) (pid : Nat) (t : Task) :
    Task :=
  { t with
    released := t.released || popped.contains pid
    due := t.due || (t.waiting space addr && (s.liveWaiters space addr).length ≤ count) }

/-- A step in user mode. -/
def userStep (s : FutexState) (pid : Nat) (t : Task) : UserAction → FutexState
  | .store addr value => { s with memory := s.memory.insert (t.space, addr) value }
  | .futexWait addr value =>
    if s.memory[(t.space, addr)]?.getD 0 = value then
      { s with tasks := s.tasks.insert pid ⟨t.space, .checked addr, false, false⟩ }
    else s
  | .futexWake addr count =>
    let (popped, waiters) := popWaiters s.waiters addr count
    let tasks := s.tasks.map (s.marked t.space addr count popped)
    { s with
      waiters := waiters
      tasks := tasks.modify pid fun t => t.goto (.ofWaking popped) }

/-- A step in the kernel. A task that `wake_process` finds asleep goes on in user mode. -/
def kernelStep (s : FutexState) (cpu pid : Nat) (t : Task) : FutexState :=
  match t.control with
  | .checked addr =>
    { s with
      waiters := futexRegisterWaiter s.waiters pid addr
      tasks := s.tasks.insert pid (t.goto (.registered addr)) }
  | .registered addr =>
    { s with
      run := s.run.step (.blockProcess cpu pid)
      tasks := s.tasks.insert pid (t.goto (.parked addr)) }
  | .waking (q :: rest) =>
    let tasks := if 0 < s.run.sched.waits q then
      s.tasks.modify q fun u => ⟨u.space, .user, false, false⟩ else s.tasks
    { s with
      run := s.run.step (.wakeProcess q)
      tasks := tasks.modify pid fun t => t.goto (.ofWaking rest) }
  | _ => s

/-- One step. -/
def step (s : FutexState) : FutexOp → FutexState
  | .user cpu action =>
    match s.current cpu with
    | some (pid, t) => if t.control = .user then s.userStep pid t action else s
    | none => s
  | .kernel cpu =>
    match s.current cpu with
    | some (pid, t) => s.kernelStep cpu pid t
    | none => s
  | .schedule cpu => { s with run := s.run.step (.schedule cpu) }
  | .spawn pid space priority =>
    { s with
      run := s.run.step (.addProcess pid priority)
      tasks := s.tasks.insert pid ⟨space, .user, false, false⟩
      used := insert pid s.used }
  | .exit pid =>
    { s with run := s.run.step (.removeProcess pid), tasks := s.tasks.erase pid }

end FutexState

/-- Pids are not used twice, pid 0 is the idle task, and a task inside a futex call runs it on to
where it sleeps or returns. -/
def FutexOp.Legal (s : FutexState) : FutexOp → Prop
  | .spawn pid _ _ => pid ∉ s.used ∧ pid ≠ 0
  | .exit pid => ∀ t ∈ s.tasks[pid]?, t.control = .user ∨ t.control.isParked = true
  | _ => True

/-- When a task of `space` wakes the address, no task of that space is between its check and its
block there, and every entry of the queue is of a task of that space that sleeps there. -/
def WakeQuiet (s : FutexState) (space addr : Nat) : Prop :=
  (∀ e ∈ s.tasks.toList, e.2.space = space →
      e.2.control ≠ .checked addr ∧ e.2.control ≠ .registered addr) ∧
    ∀ q ∈ s.queue addr, ∃ t ∈ s.tasks[q]?, t.space = space ∧ t.control = .parked addr

instance (s : FutexState) (space addr : Nat) : Decidable (WakeQuiet s space addr) :=
  inferInstanceAs (Decidable (_ ∧ ∀ q ∈ s.queue addr, _))

/-- The step is not a wake, or is a quiet one. -/
def FutexOp.Quiet (s : FutexState) : FutexOp → Prop
  | .user cpu (.futexWake addr _) =>
    ∀ e ∈ s.current cpu, e.2.control = .user → WakeQuiet s e.2.space addr
  | _ => True

open Control

theorem Control.ofWaking_eq_waking {pids l : List Nat} :
    ofWaking pids = .waking l ↔ l = pids ∧ pids ≠ [] := by
  cases pids with
  | nil => exact iff_of_false nofun fun h => h.2 rfl
  | cons r rest => exact ⟨fun h => ⟨(waking.inj h).symm, nofun⟩, fun h => by rw [h.1]; rfl⟩

theorem Control.ofWaking_waits (pids : List Nat) :
    (ofWaking pids).isParked = false ∧
      ∀ a, ofWaking pids ≠ .registered a ∧ ofWaking pids ≠ .parked a := by
  cases pids with
  | nil => exact ⟨rfl, fun a => ⟨nofun, nofun⟩⟩
  | cons r rest => exact ⟨rfl, fun a => ⟨nofun, nofun⟩⟩

/-! ### The tasks in the scheduler -/

/-- The scheduler's side of every run, for the tasks seen as a function that says which live task
is parked: the live tasks are those the scheduler has, and a task is in the wait queue exactly
when it is parked. -/
structure Placed (run : TaskRun) (parked : Nat → Option Bool) (used : Finset Nat) : Prop where
  tidy : run.Tidy
  added : ∀ p, p ∈ run.added ↔ (parked p).isSome = true
  gone : ∀ p, parked p = none → run.sched.occurs p = 0
  known : ∀ p b, parked p = some b → p ∈ used ∧ p ≠ 0
  blocked : ∀ p ∈ run.blocked, p ∈ used
  asleep : ∀ p b, parked p = some b → (0 < run.sched.waits p ↔ b = true)

namespace Placed

variable {run : TaskRun} {parked parked' : Nat → Option Bool} {used : Finset Nat} {cpu : Nat}
  {info : SchedInfo}

section

variable (h : Placed run parked used)
include h

theorem of_parked (heq : ∀ p, parked' p = parked p) : Placed run parked' used :=
  funext heq ▸ h

theorem stay {p : Nat} {b : Bool} (hp : parked p = some b) :
    Placed run (Function.update parked p (some b)) used := by
  rw [← hp, update_eq_self]
  exact h

/-- Scheduling parks and wakes nobody. -/
theorem schedule (cpu : Nat) :
    Placed (run.step (.schedule cpu)) parked used where
  tidy := (h.tidy.schedule cpu).1
  added := h.added
  gone p hp := (run.sched.occurs_schedule cpu p).trans (h.gone p hp)
  known := h.known
  blocked := h.blocked
  asleep p b hp := by
    show 0 < (run.sched.schedule cpu).2.waits p ↔ b = true
    rw [run.sched.waits_schedule cpu p]
    exact h.asleep p b hp

/-- One task changes, and the scheduler does nothing to the others. -/
theorem update {run' : TaskRun} {used' : Finset Nat} {p : Nat} {o : Option Bool} (htidy : run'.Tidy)
    (hused : used ⊆ used') (hblocked : ∀ q ∈ run'.blocked, q ∈ run.blocked ∨ q ∈ used')
    (hadded : p ∈ run'.added ↔ o.isSome = true) (hgone : o = none → run'.sched.occurs p = 0)
    (hself : ∀ b, o = some b → (p ∈ used' ∧ p ≠ 0) ∧ (0 < run'.sched.waits p ↔ b = true))
    (hother : ∀ q, q ≠ p → (q ∈ run'.added ↔ q ∈ run.added) ∧
      run'.sched.occurs q = run.sched.occurs q ∧ run'.sched.waits q = run.sched.waits q) :
    Placed run' (Function.update parked p o) used' := by
  refine ⟨htidy, fun q => ?_, fun q hq => ?_, fun q b hq => ?_, fun q hq => ?_, fun q b hq => ?_⟩
  · by_cases hqp : q = p
    · rw [hqp, update_self]
      exact hadded
    · rw [update_of_ne hqp, (hother q hqp).1]
      exact h.added q
  · rcases update_cases hq with ⟨rfl, ho⟩ | ⟨hqp, hq⟩
    · exact hgone ho
    · exact (hother q hqp).2.1.trans (h.gone q hq)
  · rcases update_cases hq with ⟨rfl, ho⟩ | ⟨-, hq⟩
    · exact (hself b ho).1
    · exact ⟨hused (h.known q b hq).1, (h.known q b hq).2⟩
  · exact (hblocked q hq).elim (fun hq => hused (h.blocked q hq)) id
  · rcases update_cases hq with ⟨rfl, ho⟩ | ⟨hqp, hq⟩
    · exact (hself b ho).2
    · rw [(hother q hqp).2.2]
      exact h.asleep q b hq

/-- A pid that was never used comes in awake. -/
theorem spawn {p : Nat} (priority : Int) (hp : p ∉ used) (hne : p ≠ 0) :
    Placed (run.step (.addProcess p priority))
      (Function.update parked p (some false)) (insert p used) := by
  have hfresh : parked p = none := by
    cases hparked : parked p with
    | none => rfl
    | some b => exact absurd (h.known p b hparked).1 hp
  have hoccurs := h.gone p hfresh
  refine h.update (h.tidy.addProcess priority hoccurs fun hb => hp (h.blocked p hb))
    (Finset.subset_insert p used) (fun q hq => .inl hq) ?_ nofun ?_ fun q hq => ?_
  · exact iff_of_true (Finset.mem_insert_self p run.added) rfl
  · rintro b ⟨⟩
    refine ⟨⟨Finset.mem_insert_self .., hne⟩, ?_⟩
    show 0 < run.sched.waits p ↔ false = true
    unfold occurs at hoccurs
    simp only [Bool.false_eq_true, iff_false]
    omega
  · have hruns := run.sched.runs_addProcess p priority q
    rw [if_neg (Ne.symm hq)] at hruns
    refine ⟨Finset.mem_insert.trans (or_iff_right hq), ?_, rfl⟩
    show (run.sched.addProcess p priority).runs q + run.sched.waits q + run.sched.onCpu q = _
    rw [hruns]
    rfl

/-- A task goes. -/
theorem exit (p : Nat) :
    Placed (run.step (.removeProcess p)) (Function.update parked p none) used := by
  have hplaces := run.sched.removeProcess_places p
  refine h.update (h.tidy.removeProcess p) (Finset.Subset.refl used) (fun q hq => .inl hq) ?_
    (fun _ => ?_) nofun fun q hq => ?_
  · exact iff_of_false (Finset.notMem_erase p run.added) Bool.false_ne_true
  · show (run.sched.removeProcess p).occurs p = 0
    obtain ⟨hr, hw, hc⟩ := hplaces p
    unfold occurs
    rw [hr, hw, hc]
    simp only [if_true]
  · obtain ⟨hr, hw, hc⟩ := hplaces q
    rw [if_neg (Ne.symm hq)] at hr hw hc
    refine ⟨Finset.mem_erase.trans (and_iff_right hq), ?_, hw⟩
    show (run.sched.removeProcess p).occurs q = _
    unfold occurs
    rw [hr, hw, hc]

theorem onCpu_eq_holds (hcurrent : run.sched.current cpu = some info) :
    run.sched.onCpu info.pid = holds (run.sched.current cpu) info.pid := by
  have hle := run.sched.holds_le_onCpu cpu info.pid
  have hsingle := h.tidy.single info.pid
  unfold occurs at hsingle
  rw [hcurrent, holds_some, if_pos rfl] at hle ⊢
  omega

/-- The task of a CPU blocks. -/
theorem block {b : Bool} (hcurrent : run.sched.current cpu = some info)
    (hp : parked info.pid = some b) :
    Placed (run.step (.blockProcess cpu info.pid)) (Function.update parked info.pid (some true))
      used := by
  have hhere := h.onCpu_eq_holds hcurrent
  obtain ⟨hrun, hcpu, -, hother⟩ := h.tidy.blockProcess_places hhere
  have hoccurs := h.tidy.occurs_blockProcess hhere
  have hknown := h.known _ b hp
  have hadded : info.pid ∈ run.added := (h.added info.pid).mpr (by rw [hp]; rfl)
  have hkept := h.tidy.kept info.pid hadded
  refine h.update (h.tidy.blockProcess hhere hknown.2) (Finset.Subset.refl used) (fun q hq => ?_)
    (iff_of_true hadded rfl) nofun ?_ fun q hq => ⟨Iff.rfl, hoccurs q, (hother q (Ne.symm hq)).2.1⟩
  · rcases Finset.mem_insert.mp hq with rfl | hq
    · exact .inr hknown.1
    · exact .inl hq
  · rintro c ⟨⟩
    refine ⟨hknown, iff_of_true ?_ rfl⟩
    have := hoccurs info.pid
    unfold occurs at this hkept
    show 0 < (run.sched.blockProcess cpu info.pid).waits info.pid
    omega

/-- `wake_process`: a live task that was parked is queued to run, and no other task moves. -/
theorem wake (q : Nat) :
    Placed (run.step (.wakeProcess q)) (Function.update parked q ((parked q).map fun _ => false))
      used := by
  have hoccurs := run.sched.occurs_wakeProcess q
  have hsingle := h.tidy.single q
  unfold occurs at hsingle
  refine h.update (h.tidy.wakeProcess q) (Finset.Subset.refl used)
    (fun r hr => .inl (Finset.mem_of_mem_erase hr)) ?_ (fun hq => ?_) (fun b hq => ?_)
    fun r hr => ⟨Iff.rfl, hoccurs r, ?_⟩
  · rw [Option.isSome_map]
    exact h.added q
  · exact (hoccurs q).trans (h.gone q (Option.map_eq_none_iff.mp hq))
  · obtain ⟨c, hc, rfl⟩ := Option.map_eq_some_iff.mp hq
    refine ⟨h.known q c hc, ?_⟩
    show 0 < (run.sched.wakeProcess q).waits q ↔ false = true
    simp only [Bool.false_eq_true, iff_false]
    rcases run.sched.wakeProcess_places q with ⟨hwait, heq⟩ | ⟨-, hmoved⟩
    · rw [heq, hwait]
      exact Nat.lt_irrefl 0
    · have hw := (hmoved q).1
      rw [if_pos rfl] at hw
      omega
  · show (run.sched.wakeProcess q).waits r = _
    rcases run.sched.wakeProcess_places q with ⟨-, heq⟩ | ⟨-, hmoved⟩
    · rw [heq]
    · rw [(hmoved r).1, if_neg (Ne.symm hr)]
      rfl

theorem runs_wake {q : Nat} (hq : parked q = some true) : (run.sched.wakeProcess q).runs q = 1 := by
  have hwait := (h.asleep q true hq).mpr rfl
  have hsingle := h.tidy.single q
  unfold occurs at hsingle
  rcases run.sched.wakeProcess_places q with ⟨hnone, -⟩ | ⟨-, hmoved⟩
  · omega
  · obtain ⟨-, hr⟩ := hmoved q
    rw [if_pos rfl] at hr
    omega

end

end Placed

/-! ### The tasks in the queues -/

/-- A task still has this list of tasks to wake. -/
def Wakes (task : Nat → Option Task) (w : Nat) (l : List Nat) : Prop :=
  ∃ t, task w = some t ∧ t.control = .waking l

/-- A task fits its entries in the queues and in the wakers' lists. -/
structure Fits (queue : Nat → List Nat) (pending : Prop) (q : Nat) (u : Task) : Prop where
  queued : ∀ a, q ∈ queue a ↔
    u.released = false ∧ (u.control = .registered a ∨ u.control = .parked a)
  released : u.released = true ↔ pending
  parked : u.released = true → u.control.isParked = true
  due : u.due = true → u.released = true

/-- The queues' side of every run, for the queues and the tasks seen as functions: a live task is
in the queue of its address while it is registered or parked and not released; a released task is
parked and one waker is still to wake it; and a task that is due is released. -/
structure Handed (queue : Nat → List Nat) (task : Nat → Option Task) (used : Finset Nat) :
    Prop where
  usedQueue : ∀ a, ∀ p ∈ queue a, p ∈ used
  nodup : ∀ a, (queue a).Nodup
  list : ∀ w l, Wakes task w l → l.Nodup ∧ ∀ q ∈ l, q ∈ used
  fits : ∀ q u, task q = some u → Fits queue (∃ w l, Wakes task w l ∧ q ∈ l) q u
  apart : ∀ w w' l l', Wakes task w l → Wakes task w' l' → ∀ q ∈ l, q ∈ l' →
    (task q).isSome = true → w = w'

namespace Handed

variable {queue queue' : Nat → List Nat} {task task' : Nat → Option Task} {used used' : Finset Nat}
  {p q : Nat} {t u : Task} {l list : List Nat}

theorem wakes_update {o : Option Task} : Wakes (Function.update task p o) q l ↔
    (q = p ∧ ∃ t, o = some t ∧ t.control = .waking l) ∨ (q ≠ p ∧ Wakes task q l) := by
  by_cases hqp : q = p <;> simp [Wakes, hqp]

theorem not_wakes (hp : task p = some t) (hctl : ∀ l, t.control ≠ .waking l) (l : List Nat) :
    ¬ Wakes task p l :=
  fun ⟨_, hu, hl⟩ => hctl l (Option.some.inj (hp.symm.trans hu) ▸ hl)

/-- A task that is neither released nor due is in no list. -/
theorem fits_idle (hrel : u.released = false) (hdue : u.due = false)
    (hqueue : ∀ a, q ∈ queue a ↔ u.control = .registered a ∨ u.control = .parked a)
    {pending : Prop} (hpending : ¬ pending) : Fits queue pending q u where
  queued a := (hqueue a).trans (and_iff_right hrel).symm
  released := iff_of_false (hrel ▸ Bool.false_ne_true) hpending
  parked hr := absurd hr (hrel ▸ Bool.false_ne_true)
  due hd := absurd hd (hdue ▸ Bool.false_ne_true)

section

variable (h : Handed queue task used)
include h

theorem awake (hp : task p = some t) (hctl : t.control.isParked = false) :
    t.released = false ∧ t.due = false := by
  have hrel : ¬ t.released = true := fun hrel =>
    absurd ((h.fits p t hp).parked hrel) (hctl ▸ Bool.false_ne_true)
  exact ⟨Bool.eq_false_iff.mpr hrel, Bool.eq_false_iff.mpr fun hdue =>
    hrel ((h.fits p t hp).due hdue)⟩

theorem not_pending (hp : task p = some t) (hrel : t.released = false) (hw : Wakes task q l) :
    p ∉ l := fun hmem =>
  absurd ((h.fits p t hp).released.mpr ⟨q, l, hw, hmem⟩) (hrel ▸ Bool.false_ne_true)

theorem not_queued (hp : task p = some t)
    (hctl : ∀ a, t.control ≠ .registered a ∧ t.control ≠ .parked a) (a : Nat) : p ∉ queue a :=
  fun hmem => (((h.fits p t hp).queued a).mp hmem).2.elim (hctl a).1 (hctl a).2

omit h in
/-- The wakers that have a task on their list, with one of them set apart. -/
theorem pending_iff (p : Nat) : (∃ w l, Wakes task w l ∧ q ∈ l) ↔
    (∃ l, Wakes task p l ∧ q ∈ l) ∨ ∃ w l, w ≠ p ∧ Wakes task w l ∧ q ∈ l := by
  constructor
  · intro ⟨w, l, hw, hmem⟩
    by_cases hwp : w = p
    · exact .inl ⟨l, hwp ▸ hw, hmem⟩
    · exact .inr ⟨w, l, hwp, hw, hmem⟩
  · rintro (⟨l, hw, hmem⟩ | ⟨w, l, -, hw, hmem⟩)
    · exact ⟨p, l, hw, hmem⟩
    · exact ⟨w, l, hw, hmem⟩

/-- A task that stays as it is fits if its entries stay and it was in the list of `p`. -/
theorem stays (hq : task q = some u) (hqueue : ∀ a, q ∈ queue' a ↔ q ∈ queue a)
    (hlist : q ∈ list ↔ ∃ l, Wakes task p l ∧ q ∈ l) :
    Fits queue' (q ∈ list ∨ ∃ w l, w ≠ p ∧ Wakes task w l ∧ q ∈ l) q u := by
  obtain ⟨hqueued, hreleased, hparked, hdue⟩ := h.fits q u hq
  rw [pending_iff p, ← hlist] at hreleased
  exact ⟨fun a => (hqueue a).trans (hqueued a), hreleased, hparked, hdue⟩

/-- The list of `p` changes, the other wakers keep theirs, and every task fits. -/
theorem change (p : Nat) (list : List Nat)
    (hwakes : ∀ w l, Wakes task' w l ↔ (w = p ∧ l = list ∧ list ≠ []) ∨ (w ≠ p ∧ Wakes task w l))
    (hlist : list.Nodup ∧ ∀ q ∈ list, q ∈ used')
    (hclash : ∀ q ∈ list, (task' q).isSome = true → ∀ w l, Wakes task w l → q ∈ l → w = p)
    (hlive : ∀ q, (task' q).isSome = true → (task q).isSome = true ∨ ∀ w l, Wakes task w l → q ∉ l)
    (hfits : ∀ q u, task' q = some u →
      Fits queue' (q ∈ list ∨ ∃ w l, w ≠ p ∧ Wakes task w l ∧ q ∈ l) q u)
    (hused : used ⊆ used') (hqueue : ∀ a, ∀ q ∈ queue' a, q ∈ used')
    (hnodup : ∀ a, (queue' a).Nodup) : Handed queue' task' used' := by
  refine ⟨hqueue, hnodup, fun w l hw => ?_, fun q u hq => ?_, ?_⟩
  · rcases (hwakes w l).mp hw with ⟨-, rfl, -⟩ | ⟨-, hw⟩
    · exact hlist
    · exact ⟨(h.list w l hw).1, fun q hq => hused ((h.list w l hw).2 q hq)⟩
  · have hpending : (∃ w l, Wakes task' w l ∧ q ∈ l) ↔
        q ∈ list ∨ ∃ w l, w ≠ p ∧ Wakes task w l ∧ q ∈ l := by
      simp only [hwakes]
      constructor
      · rintro ⟨w, l, ⟨-, rfl, -⟩ | ⟨hwp, hw⟩, hmem⟩
        · exact .inl hmem
        · exact .inr ⟨w, l, hwp, hw, hmem⟩
      · rintro (hmem | ⟨w, l, hwp, hw, hmem⟩)
        · exact ⟨p, list, .inl ⟨rfl, rfl, ne_nil_of_mem hmem⟩, hmem⟩
        · exact ⟨w, l, .inr ⟨hwp, hw⟩, hmem⟩
    rw [hpending]
    exact hfits q u hq
  · intro w w' l l' hw hw' q hmem hmem' hq
    rcases (hwakes w l).mp hw with ⟨rfl, rfl, -⟩ | ⟨-, hold⟩ <;>
      rcases (hwakes w' l').mp hw' with ⟨rfl, rfl, -⟩ | ⟨-, hold'⟩
    · rfl
    · exact (hclash q hmem hq w' l' hold' hmem').symm
    · exact hclash q hmem' hq w l hold hmem
    · have hlived := (hlive q hq).resolve_right fun hnone => hnone w l hold hmem
      exact h.apart w w' l l' hold hold' q hmem hmem' hlived

/-- The entry of a task that is not a waker changes: it goes, it comes in, or it goes to another
place of `FUTEX_WAIT`, not released and not due, and its entries in the queues follow. -/
theorem set {o : Option Task} (hctl : ∀ l, ¬ Wakes task p l)
    (hpending : ∀ t ∈ o, ∀ w l, Wakes task w l → p ∉ l)
    (hfresh : ∀ t ∈ o, t.released = false ∧ t.due = false ∧ ∀ l, t.control ≠ .waking l)
    (hqueue : ∀ a q, q ≠ p → (q ∈ queue' a ↔ q ∈ queue a))
    (hmine : ∀ t ∈ o, ∀ a, p ∈ queue' a ↔ t.control = .registered a ∨ t.control = .parked a)
    (hused : used ⊆ used') (hin : ∀ a, p ∈ queue' a → p ∈ used') (hnodup : ∀ a, (queue' a).Nodup) :
    Handed queue' (Function.update task p o) used' := by
  refine h.change p [] (fun w l => ?_) ⟨nodup_nil, nofun⟩ nofun (fun q hq => ?_) (fun q u hq => ?_)
    hused (fun a q hq => ?_) hnodup
  · refine wakes_update.trans (or_congr_left ?_)
    refine and_congr_right fun _ => iff_of_false ?_ fun hnil => hnil.2 rfl
    exact fun ⟨t, ht, hl⟩ => (hfresh t ht).2.2 l hl
  · obtain ⟨u, hu⟩ := Option.isSome_iff_exists.mp hq
    rcases update_cases hu with ⟨rfl, ho⟩ | ⟨-, hu⟩
    · exact .inr (hpending u ho)
    · exact .inl (Option.isSome_of_eq_some hu)
  · rcases update_cases hq with ⟨rfl, hu⟩ | ⟨hqp, hq⟩
    · obtain ⟨hrel, hdue, -⟩ := hfresh u hu
      refine fits_idle hrel hdue (hmine u hu) ?_
      rintro (hmem | ⟨w, l, -, hw, hmem⟩)
      · cases hmem
      · exact hpending u hu w l hw hmem
    · refine h.stays hq (fun a => hqueue a q hqp) (iff_of_false not_mem_nil ?_)
      exact fun ⟨l, hw, _⟩ => hctl l hw
  · by_cases hqp : q = p
    · exact hqp ▸ hin a (hqp ▸ hq)
    · exact hused (h.usedQueue a q ((hqueue a q hqp).mp hq))

/-- A task that is not a waker goes to another place of `FUTEX_WAIT`, not released and not due,
and its entries follow. -/
theorem move {t' : Task} (hp : task p = some t) (hrel : t.released = false)
    (hctl : ∀ l, t.control ≠ .waking l) (hfresh : t'.released = false ∧ t'.due = false)
    (hctl' : ∀ l, t'.control ≠ .waking l) (hqueue : ∀ a q, q ≠ p → (q ∈ queue' a ↔ q ∈ queue a))
    (hmine : ∀ a, p ∈ queue' a ↔ t'.control = .registered a ∨ t'.control = .parked a)
    (hused : p ∈ used) (hnodup : ∀ a, (queue' a).Nodup) :
    Handed queue' (Function.update task p (some t')) used := by
  refine h.set (not_wakes hp hctl) (fun _ _ w l hw => h.not_pending hp hrel hw) ?_ hqueue ?_
    (Finset.Subset.refl used) (fun _ _ => hused) hnodup
  · rintro _ ⟨⟩
    exact ⟨hfresh.1, hfresh.2, hctl'⟩
  · rintro _ ⟨⟩
    exact hmine

/-- A pid that was never used comes in: it is in no queue and in no waker's list. -/
theorem spawn (space : Nat) (hp : p ∉ used) (hnone : task p = none) :
    Handed queue (Function.update task p (some ⟨space, .user, false, false⟩)) (insert p used) := by
  refine h.set (fun l ⟨t, ht, _⟩ => ?_) (fun _ _ w l hw hmem => hp ((h.list w l hw).2 p hmem))
    ?_ (fun _ _ _ => Iff.rfl) ?_ (Finset.subset_insert p used)
    (fun _ _ => Finset.mem_insert_self p used) h.nodup
  · rw [hnone] at ht
    cases ht
  · rintro _ ⟨⟩
    exact ⟨rfl, rfl, fun l => nofun⟩
  · rintro _ ⟨⟩ a
    exact iff_of_false (fun hmem => hp (h.usedQueue a p hmem)) (by rintro (hc | hc) <;> cases hc)

theorem exit (hctl : ∀ l, ¬ Wakes task p l) : Handed queue (Function.update task p none) used :=
  h.set hctl nofun nofun (fun _ _ _ => Iff.rfl) nofun (Finset.Subset.refl used) (h.usedQueue · p)
    h.nodup

/-- A task that goes on as a waker with this list is in no queue. -/
theorem fits_waker (hp : task p = some t) (hrel : t.released = false) (hdue : t.due = false)
    (hlist : p ∉ list) (hqueue : ∀ a, p ∉ queue' a) :
    Fits queue' (p ∈ list ∨ ∃ w l, w ≠ p ∧ Wakes task w l ∧ p ∈ l) p (t.goto (.ofWaking list)) := by
  refine fits_idle (u := t.goto (.ofWaking list)) hrel hdue
    (fun a => iff_of_false (hqueue a) ?_) ?_
  · have := (ofWaking_waits list).2 a
    exact fun hc => hc.elim this.1 this.2
  · rintro (hmem | ⟨w, l, -, hw, hmem⟩)
    · exact hlist hmem
    · exact h.not_pending hp hrel hw hmem

/-- A waker wakes the first task of its list: the task goes on in user mode if it still lives, and
the waker has the rest of the list to wake. -/
theorem wake {q : Nat} {rest : List Nat} (hp : task p = some t)
    (hctl : t.control = .waking (q :: rest)) :
    Handed queue (Function.update (Function.update task q
      ((task q).map fun u => ⟨u.space, .user, false, false⟩)) p (some (t.goto (.ofWaking rest))))
      used := by
  have hwakes : Wakes task p (q :: rest) := ⟨t, hp, hctl⟩
  obtain ⟨hnotin, hnodup⟩ := nodup_cons.mp (h.list p _ hwakes).1
  obtain ⟨hrel, hdue⟩ := h.awake hp (by rw [hctl]; rfl)
  have hlive : ∀ r, (Function.update (Function.update task q ((task q).map fun u =>
      (⟨u.space, .user, false, false⟩ : Task))) p (some (t.goto (.ofWaking rest))) r).isSome →
        (task r).isSome = true := by
    intro r hr
    rw [update_apply, update_apply] at hr
    split_ifs at hr with hrp hrq
    · rw [hrp, hp]
      rfl
    · rwa [hrq, ← Option.isSome_map]
    · exact hr
  -- the woken task slept, so it was no waker, and its entry left the queue with the wake
  have hslept : ∀ v, task q = some v → (∀ l, v.control ≠ .waking l) ∧ ∀ a, q ∉ queue a := by
    intro v hv
    have hfits := h.fits q v hv
    have hr := hfits.released.mpr ⟨p, _, hwakes, mem_cons_self⟩
    refine ⟨fun l hl => ?_, fun a hmem => ?_⟩
    · have := hfits.parked hr
      rw [hl] at this
      cases this
    · have := ((hfits.queued a).mp hmem).1
      rw [hr] at this
      cases this
  have hapart : ∀ r ∈ q :: rest, (task r).isSome = true → ∀ w l, Wakes task w l → r ∈ l → w = p :=
    fun r hr hlived w l hw hmem => h.apart w p l _ hw hwakes r hmem hr hlived
  -- the waker itself is awake, so it is not on its own list
  have hself : p ∉ q :: rest := h.not_pending hp hrel hwakes
  refine h.change p rest (fun w l => ?_) ⟨hnodup, fun r hr => ?_⟩ (fun r hr hlived => ?_)
    (fun r hr => .inl (hlive r hr)) (fun r u hr => ?_) (Finset.Subset.refl used) h.usedQueue h.nodup
  · rw [wakes_update, wakes_update]
    refine or_congr (and_congr_right fun _ => ?_) (and_congr_right fun _ => ?_)
    · simp [Task.goto, ofWaking_eq_waking]
    · refine ⟨?_, fun hw => .inr ⟨?_, hw⟩⟩
      · rintro (⟨-, u, hu, hl⟩ | ⟨-, hw⟩)
        · obtain ⟨v, -, rfl⟩ := Option.map_eq_some_iff.mp hu
          cases hl
        · exact hw
      · rintro rfl
        obtain ⟨v, hv, hl⟩ := hw
        exact (hslept v hv).1 l hl
  · exact (h.list p _ hwakes).2 r (mem_cons_of_mem q hr)
  · exact hapart r (mem_cons_of_mem q hr) (hlive r hlived)
  · rcases update_cases hr with ⟨rfl, hu⟩ | ⟨hrp, hr⟩
    · cases hu
      refine h.fits_waker hp hrel hdue (fun hmem => hself (mem_cons_of_mem q hmem)) ?_
      exact h.not_queued hp (by rw [hctl]; exact fun a => ⟨nofun, nofun⟩)
    · rcases update_cases hr with ⟨rfl, hu⟩ | ⟨hrq, hr⟩
      · obtain ⟨v, hv, rfl⟩ := Option.map_eq_some_iff.mp hu
        refine fits_idle rfl rfl (fun a => iff_of_false ((hslept v hv).2 a) ?_) ?_
        · rintro (hc | hc) <;> cases hc
        · rintro (hmem | ⟨w, l, hwp, hw, hmem⟩)
          · exact hnotin hmem
          · exact hwp (hapart _ mem_cons_self (by rw [hv]; rfl) w l hw hmem)
      · refine h.stays hr (fun _ => Iff.rfl) ⟨fun hmem => ?_, fun ⟨l, ⟨v, hv, hl⟩, hmem⟩ => ?_⟩
        · exact ⟨_, hwakes, mem_cons_of_mem q hmem⟩
        · rw [hp] at hv
          cases hv
          rw [hctl] at hl
          cases hl
          exact (mem_cons.mp hmem).resolve_left hrq

/-- A wake takes the end of a queue whose tasks all sleep, and marks as due only tasks whose
entries it takes. -/
theorem pop {addr : Nat} {popped rest : List Nat} (mark : Nat → Task → Task)
    (hp : task p = some t) (huser : t.control = .user)
    (hqueue : queue addr = rest ++ popped.reverse)
    (hparked : ∀ q ∈ queue addr, ∃ u, task q = some u ∧ u.control = .parked addr)
    (hself : task' p = some (t.goto (.ofWaking popped)))
    (hother : ∀ q, q ≠ p → task' q = (task q).map (mark q))
    (hcontrol : ∀ q u, (mark q u).control = u.control)
    (hmark : ∀ q u, (mark q u).released = (u.released || popped.contains q))
    (hdue : ∀ q u, task q = some u → (mark q u).due = true → u.due = true ∨ q ∈ popped) :
    Handed (Function.update queue addr rest) task' used := by
  obtain ⟨hrel, hnotdue⟩ := h.awake hp (by rw [huser]; rfl)
  have hnodup := h.nodup addr
  rw [hqueue] at hnodup
  obtain ⟨hrest, hpopped, hdisjoint⟩ := nodup_append'.mp hnodup
  have hsub : ∀ {q}, q ∈ popped → q ∈ queue addr := by
    intro q hq
    rw [hqueue]
    exact mem_append_right rest (mem_reverse.mpr hq)
  have hshrink : ∀ {a q}, q ∈ Function.update queue addr rest a ↔
      q ∈ queue a ∧ (a = addr → q ∉ popped) := by
    intro a q
    by_cases ha : a = addr
    · rw [ha, update_self, hqueue, mem_append, mem_reverse]
      refine ⟨fun hq => ⟨.inl hq, fun _ hin => ?_⟩, fun hq => hq.1.resolve_right (hq.2 rfl)⟩
      exact hdisjoint hq (mem_reverse.mpr hin)
    · rw [update_of_ne ha]
      exact (and_iff_left fun heq => absurd heq ha).symm
  -- a task whose entry is taken sleeps there and was not released
  have htaken : ∀ {q}, q ∈ popped →
      ∃ u, task q = some u ∧ u.released = false ∧ u.control = .parked addr := by
    intro q hq
    obtain ⟨u, hu, hc⟩ := hparked q (hsub hq)
    exact ⟨u, hu, (((h.fits q u hu).queued addr).mp (hsub hq)).1, hc⟩
  have hnotself : p ∉ popped := by
    intro hin
    obtain ⟨u, hu, -, hc⟩ := htaken hin
    rw [hp] at hu
    cases hu
    rw [huser] at hc
    cases hc
  have hnowaker := not_wakes hp (huser ▸ fun l => nofun)
  refine h.change p popped (fun w l => ?_) ⟨nodup_reverse.mp hpopped, fun q hq => ?_⟩
    (fun q hq _ w l hw hmem => ?_) (fun q hq => .inl ?_) (fun q u' hq => ?_)
    (Finset.Subset.refl used) (fun a q hq => h.usedQueue a q (hshrink.mp hq).1) (fun a => ?_)
  · by_cases hwp : w = p
    · simp [Wakes, hwp, hself, Task.goto, ofWaking_eq_waking]
    · simp [Wakes, hwp, hother w hwp, hcontrol]
  · exact h.usedQueue addr q (hsub hq)
  · obtain ⟨u, hu, hr, -⟩ := htaken hq
    exact absurd hmem (h.not_pending hu hr hw)
  · by_cases hqp : q = p
    · rw [hqp, hp]
      rfl
    · rwa [hother q hqp, Option.isSome_map] at hq
  · by_cases hqp : q = p
    · rw [hqp] at hq ⊢
      cases hself.symm.trans hq
      refine h.fits_waker hp hrel hnotdue hnotself fun a hmem => ?_
      exact h.not_queued hp (huser ▸ fun a => ⟨nofun, nofun⟩) a (hshrink.mp hmem).1
    · rw [hother q hqp] at hq
      obtain ⟨u, hu, rfl⟩ := Option.map_eq_some_iff.mp hq
      have hold := h.fits q u hu
      have hreleased : (mark q u).released = true ↔ u.released = true ∨ q ∈ popped := by
        rw [hmark, Bool.or_eq_true, contains_iff_mem]
      have hsleeps : q ∈ popped → u.control = .parked addr := by
        intro hin
        obtain ⟨v, hv, -, hc⟩ := htaken hin
        rw [hu] at hv
        exact Option.some.inj hv ▸ hc
      refine ⟨fun a => ?_, ?_, ?_, fun hd => hreleased.mpr ((hdue q u hu hd).imp_left hold.due)⟩
      · have ha : u.control = .registered a ∨ u.control = .parked a → q ∈ popped → a = addr := by
          intro hc hin
          rw [hsleeps hin] at hc
          exact hc.elim nofun fun hc => (parked.inj hc).symm
        rw [hshrink, hold.queued, hcontrol, ← Bool.not_eq_true, ← Bool.not_eq_true, hreleased]
        constructor
        · intro ⟨⟨hr, hc⟩, hkept⟩
          exact ⟨fun hor => hor.elim hr fun hin => hkept (ha hc hin) hin, hc⟩
        · intro ⟨hnor, hc⟩
          exact ⟨⟨fun hr => hnor (.inl hr), hc⟩, fun _ hin => hnor (.inr hin)⟩
      · rw [hreleased, hold.released, pending_iff p, or_comm]
        exact or_congr_right (or_iff_right fun ⟨l, hw, _⟩ => hnowaker l hw)
      · rw [hcontrol, hreleased]
        rintro (hr | hin)
        · exact hold.parked hr
        · rw [hsleeps hin]
          rfl
  · by_cases ha : a = addr
    · rw [ha, update_self]
      exact hrest
    · rw [update_of_ne ha]
      exact h.nodup a

end

end Handed

/-! ### Runs -/

open FutexState

namespace FutexState

variable {s : FutexState}

/-- Whether a live task sleeps in `FUTEX_WAIT`. -/
def parked (s : FutexState) (p : Nat) : Option Bool := s.tasks[p]?.map fun t => t.control.isParked

/-- What every run keeps. -/
structure Sound (s : FutexState) : Prop where
  placed : Placed s.run s.parked s.used
  handed : Handed s.queue (fun p => s.tasks[p]?) s.used

/-- The task of a CPU is current in the scheduler and alive. -/
theorem current_eq {cpu pid : Nat} {t : Task} (h : s.current cpu = some (pid, t)) :
    ∃ info, s.run.sched.current cpu = some info ∧ info.pid = pid ∧ s.tasks[pid]? = some t := by
  simp only [current, Option.bind_eq_bind, Option.bind_eq_some_iff, Option.pure_def,
    Option.some.injEq, Prod.mk.injEq] at h
  obtain ⟨info, hinfo, u, hu, hpid, rfl⟩ := h
  exact ⟨info, hinfo, hpid, by rwa [← hpid]⟩

theorem parked_eq {p : Nat} {t : Task} (h : s.tasks[p]? = some t) :
    s.parked p = some t.control.isParked := by
  rw [parked, h, Option.map_some]

section

variable (s : FutexState)

theorem lookup_insert_task (pid : Nat) (t : Task) :
    (fun p => (s.tasks.insert pid t)[p]?) =
      Function.update (fun p => s.tasks[p]?) pid (some t) := by
  funext p
  rw [lookup_insert, update_apply]
  simp only [eq_comm]

/-- The entry of a pid joins the queue of its address. -/
theorem queue_register (tasks : TreeMap Nat Task) (pid addr a : Nat) : FutexState.queue
      { s with waiters := futexRegisterWaiter s.waiters pid addr, tasks := tasks } a =
        s.queue a ++ if addr = a then [pid] else [] := by
  show map _ ((futexRegisterWaiter s.waiters pid addr)[a]?.getD []) = _
  unfold futexRegisterWaiter
  rw [lookup_insert]
  split_ifs with ha
  · rw [← ha, Option.getD_some, map_append]
    rfl
  · rw [append_nil]
    rfl

/-- What `futex_wake` takes off a queue is its end. -/
theorem popWaiters_spec (addr count : Nat) :
    ∃ rest, s.queue addr = rest ++ (popWaiters s.waiters addr count).1.reverse ∧
      (popWaiters s.waiters addr count).1.length = min count (s.queue addr).length ∧
      (fun a => ((popWaiters s.waiters addr count).2[a]?.getD []).map FutexWaiter.pid) =
        Function.update s.queue addr rest := by
  unfold popWaiters
  cases hqueue : s.waiters[addr]? with
  | none =>
    have hnil : s.queue addr = [] := by
      unfold queue
      rw [hqueue]
      rfl
    refine ⟨[], hnil, by simp [hnil], ?_⟩
    rw [← hnil, update_eq_self]
    rfl
  | some entries =>
    have hentries : s.queue addr = entries.map FutexWaiter.pid := by
      unfold queue
      rw [hqueue]
      rfl
    set n := min count entries.length with hn
    refine ⟨(entries.take (entries.length - n)).map FutexWaiter.pid, ?_, ?_, ?_⟩
    · rw [hentries, ← map_reverse, take_reverse, reverse_reverse,
        ← map_append, take_append_drop]
    · rw [hentries, length_map, length_map, length_take, length_reverse]
      omega
    · funext a
      show (map _ (Option.getD (if _ then _ else _ : FutexWaiters)[a]? [])) = _
      by_cases ha : a = addr
      · rw [ha, update_self]
        split_ifs with hrest
        · rw [lookup_erase, if_pos rfl, hrest]
          rfl
        · rw [lookup_insert, if_pos rfl]
          rfl
      · rw [update_of_ne ha]
        split_ifs with hrest
        · rw [lookup_erase, if_neg (Ne.symm ha)]
          rfl
        · rw [lookup_insert, if_neg (Ne.symm ha)]
          rfl

end

theorem mem_liveWaiters {space addr q : Nat} :
    q ∈ s.liveWaiters space addr ↔ ∃ t, s.tasks[q]? = some t ∧ t.waiting space addr = true := by
  simp only [liveWaiters, mem_map, mem_filter, Prod.exists, exists_and_right,
    exists_eq_right, mem_toList_iff]

theorem nodup_liveWaiters (s : FutexState) (space addr : Nat) :
    (s.liveWaiters space addr).Nodup := by
  refine Nodup.map_on ?_ ((nodup_toList s.tasks).filter _)
  rintro ⟨p, t⟩ hp ⟨q, u⟩ hq heq
  have hp := mem_toList_iff.mp (mem_filter.mp hp).1
  have hq := mem_toList_iff.mp (mem_filter.mp hq).1
  change p = q at heq
  rw [heq, hq] at hp
  rw [heq, Option.some.inj hp]

/-- A wake marks no task in user mode. -/
theorem marked_user (s : FutexState) {space addr count pid : Nat} {popped : List Nat} {t : Task}
    (huser : t.control = .user) (hnot : pid ∉ popped) :
    s.marked space addr count popped pid t = t := by
  have hwaiting : t.waiting space addr = false := by simp [Task.waiting, huser]
  have hcontains : popped.contains pid = false := by simpa using hnot
  unfold marked
  rw [hwaiting, hcontains, Bool.or_false, Bool.false_and, Bool.or_false]

namespace Sound

variable {addr pid : Nat} {t : Task}

section

variable (h : s.Sound)
include h

omit h in
/-- One entry of the table of tasks is set. -/
theorem of_insert {s' : FutexState} (htasks : s'.tasks = s.tasks.insert pid t)
    (hplaced : Placed s'.run (Function.update s.parked pid (some t.control.isParked)) s'.used)
    (hhanded : Handed s'.queue (Function.update (fun p => s.tasks[p]?) pid (some t)) s'.used) :
    s'.Sound := by
  rw [← s.lookup_insert_task, ← htasks] at hhanded
  refine ⟨hplaced.of_parked fun q => ?_, hhanded⟩
  unfold parked
  rw [htasks, lookup_insert, update_apply]
  simp only [eq_comm (a := pid)]
  split_ifs <;> rfl

theorem parked_of_wakes {w q : Nat} {l : List Nat} {u : Task}
    (hw : Wakes (fun p => s.tasks[p]?) w l) (hmem : q ∈ l) (hq : s.tasks[q]? = some u) :
    s.parked q = some true := by
  have hfits := h.handed.fits q u hq
  rw [parked_eq hq, hfits.parked (hfits.released.mpr ⟨w, l, hw, hmem⟩)]

/-- At a quiet wake, the entries of the queue are the live waiters of the space. -/
theorem liveWaiters_perm {space : Nat} (hquiet : WakeQuiet s space addr) :
    (s.liveWaiters space addr).Perm (s.queue addr) := by
  rw [perm_ext_iff_of_nodup (s.nodup_liveWaiters space addr) (h.handed.nodup addr)]
  intro q
  rw [mem_liveWaiters]
  constructor
  · rintro ⟨t, ht, hwaiting⟩
    simp only [Task.waiting, Bool.and_eq_true, Bool.or_eq_true, beq_iff_eq,
      Bool.not_eq_true'] at hwaiting
    obtain ⟨⟨hspace, hrel⟩, hctl⟩ := hwaiting
    obtain ⟨hchecked, hregistered⟩ := hquiet.1 (q, t) (mem_toList_iff.mpr ht) hspace
    refine ((h.handed.fits q t ht).queued addr).mpr ⟨hrel, .inr (hctl.resolve_left ?_)⟩
    rintro (hc | hc)
    · exact hchecked hc
    · exact hregistered hc
  · intro hmem
    obtain ⟨t, ht, hspace, hctl⟩ := hquiet.2 q hmem
    refine ⟨t, ht, ?_⟩
    have hrel := (((h.handed.fits q t ht).queued addr).mp hmem).1
    simp [Task.waiting, hspace, hrel, hctl]

section

variable (ht : s.tasks[pid]? = some t)
include ht

/-- A wake, once the queue's entries all sleep. -/
theorem futexWake {count : Nat} (huser : t.control = .user) (hquiet : WakeQuiet s t.space addr) :
    (s.userStep pid t (.futexWake addr count)).Sound := by
  obtain ⟨rest, hqueue, hlength, hpop⟩ := s.popWaiters_spec addr count
  have hperm := h.liveWaiters_perm hquiet
  simp only [userStep]
  generalize popWaiters s.waiters addr count = taken at hqueue hlength hpop ⊢
  obtain ⟨popped, waiters⟩ := taken
  have hparked : ∀ q ∈ s.queue addr, ∃ u, s.tasks[q]? = some u ∧ u.control = .parked addr := by
    intro q hq
    obtain ⟨u, hu, -, hctl⟩ := hquiet.2 q hq
    exact ⟨u, hu, hctl⟩
  -- the waker itself runs, so it is not marked
  have hself : s.marked t.space addr count popped pid t = t := by
    have hnot : pid ∉ popped := by
      intro hin
      obtain ⟨u, hu, hctl⟩ := hparked pid
        (hqueue ▸ mem_append_right rest (mem_reverse.mpr hin))
      rw [ht] at hu
      cases hu
      rw [huser] at hctl
      cases hctl
    exact s.marked_user huser hnot
  -- a wake that covers every waiter takes the whole queue
  have hdue : ∀ q u, s.tasks[q]? = some u →
      (s.marked t.space addr count popped q u).due = true → u.due = true ∨ q ∈ popped := by
    intro q u hu hd
    simp only [marked, Bool.or_eq_true, Bool.and_eq_true, decide_eq_true_eq] at hd
    refine hd.imp_right fun ⟨hwaiting, hcover⟩ => ?_
    have hmem := hperm.mem_iff.mp (mem_liveWaiters.mpr ⟨u, hu, hwaiting⟩)
    have hall := hperm.length_eq
    have hsplit := congrArg length hqueue
    rw [length_append, length_reverse] at hsplit
    have hnil : rest = [] := length_eq_zero_iff.mp (by omega)
    rw [hqueue, hnil, nil_append, mem_reverse] at hmem
    exact hmem
  have hlookup : ∀ q, ((s.tasks.map (s.marked t.space addr count popped)).modify pid
      fun t => t.goto (.ofWaking popped))[q]? =
        if pid = q then some (t.goto (.ofWaking popped))
        else s.tasks[q]?.map (s.marked t.space addr count popped q) := by
    intro q
    rw [lookup_modify, TreeMap.getElem?_map, TreeMap.getElem?_map, ht]
    split_ifs
    · rw [Option.map_some, Option.map_some, hself]
    · rfl
  constructor
  · refine h.placed.of_parked fun q => ?_
    unfold parked
    rw [hlookup]
    split_ifs with hq
    · rw [← hq, ht, Option.map_some, Option.map_some, huser]
      exact congrArg some (ofWaking_waits popped).1
    · rw [Option.map_map]
      rfl
  · have hqueues : ({ s with
        waiters := waiters
        tasks := (s.tasks.map (s.marked t.space addr count popped)).modify pid
          fun t => t.goto (.ofWaking popped) } : FutexState).queue =
          Function.update s.queue addr rest := hpop
    rw [hqueues]
    refine h.handed.pop (s.marked t.space addr count popped) ht huser hqueue hparked ?_ ?_
      (fun _ _ => rfl) (fun _ _ => rfl) hdue
    · exact (hlookup pid).trans (if_pos rfl)
    · exact fun q hq => (hlookup q).trans (if_neg (Ne.symm hq))

theorem awake (hctl : t.control.isParked = false) :
    (t.released = false ∧ t.due = false) ∧ s.parked pid = some false ∧ pid ∈ s.used := by
  have hparked : s.parked pid = some false := by rw [parked_eq ht, hctl]
  exact ⟨h.handed.awake ht hctl, hparked, (h.placed.known pid false hparked).1⟩

/-- The check of `FUTEX_WAIT` succeeds. -/
theorem futexCheck (huser : t.control = .user) :
    Sound { s with tasks := s.tasks.insert pid ⟨t.space, .checked addr, false, false⟩ } := by
  obtain ⟨⟨hrel, -⟩, hparked, hused⟩ := h.awake ht (by rw [huser]; rfl)
  refine of_insert rfl (h.placed.stay hparked) ?_
  refine h.handed.move ht hrel (by rw [huser]; exact fun l => nofun) ⟨rfl, rfl⟩ (fun l => nofun)
    (fun a q _ => Iff.rfl) (fun a => ?_) hused h.handed.nodup
  refine iff_of_false (h.handed.not_queued ht ?_ a) (by rintro (hc | hc) <;> cases hc)
  exact huser ▸ fun a => ⟨nofun, nofun⟩

/-- The task enters the queue. -/
theorem futexRegister (hchecked : t.control = .checked addr) : Sound
      { s with
        waiters := futexRegisterWaiter s.waiters pid addr
        tasks := s.tasks.insert pid (t.goto (.registered addr)) } := by
  obtain ⟨hfresh, hparked, hused⟩ := h.awake ht (by rw [hchecked]; rfl)
  have hnot : ∀ a, pid ∉ s.queue a :=
    h.handed.not_queued ht (hchecked ▸ fun a => ⟨nofun, nofun⟩)
  refine of_insert rfl (h.placed.stay hparked) ?_
  refine h.handed.move ht hfresh.1 (by rw [hchecked]; exact fun l => nofun) hfresh
    (fun l => nofun) (fun a q hq => ?_) (fun a => ?_) hused (fun a => ?_)
  · rw [s.queue_register, mem_append, or_iff_left]
    split_ifs
    · exact fun hmem => hq (mem_singleton.mp hmem)
    · exact not_mem_nil
  · rw [s.queue_register, mem_append, or_iff_right (hnot a)]
    split_ifs with ha
    · exact iff_of_true mem_cons_self (.inl (congrArg _ ha))
    · refine iff_of_false not_mem_nil ?_
      rintro (hc | hc)
      · exact ha (registered.inj hc)
      · cases hc
  · rw [s.queue_register]
    split_ifs
    · refine nodup_append'.mpr ⟨h.handed.nodup a, nodup_singleton pid, ?_⟩
      exact disjoint_singleton.mpr (hnot a)
    · rw [append_nil]
      exact h.handed.nodup a

end

/-- The task blocks. -/
theorem futexPark (hcurrent : s.run.sched.current cpu = some info)
    (ht : s.tasks[info.pid]? = some t) (hregistered : t.control = .registered addr) :
    Sound
      { s with
        run := s.run.step (.blockProcess cpu info.pid)
        tasks := s.tasks.insert info.pid (t.goto (.parked addr)) } := by
  obtain ⟨hfresh, hparked, hused⟩ := h.awake ht (by rw [hregistered]; rfl)
  refine of_insert rfl (h.placed.block hcurrent hparked) ?_
  refine h.handed.move ht hfresh.1 (by rw [hregistered]; exact fun l => nofun) hfresh
    (fun l => nofun) (fun a q _ => Iff.rfl) (fun a => ?_) hused h.handed.nodup
  show info.pid ∈ s.queue a ↔ Control.parked addr = registered a ∨ Control.parked addr = .parked a
  rw [(h.handed.fits _ t ht).queued a, hregistered, and_iff_right hfresh.1]
  simp

/-- A waker wakes the next task of its list. -/
theorem wakeNext {q : Nat} {rest : List Nat} (ht : s.tasks[pid]? = some t)
    (hwaking : t.control = .waking (q :: rest)) :
    Sound
      { s with
        run := s.run.step (.wakeProcess q)
        tasks := (if 0 < s.run.sched.waits q then
          s.tasks.modify q fun u => ⟨u.space, .user, false, false⟩ else s.tasks).modify pid
            fun t => t.goto (.ofWaking rest) } := by
  have hne : q ≠ pid := by
    rintro rfl
    obtain ⟨hrel, -⟩ := h.handed.awake ht (by rw [hwaking]; rfl)
    exact h.handed.not_pending ht hrel ⟨t, ht, hwaking⟩ mem_cons_self
  -- the scheduler finds the task asleep exactly when it still lives
  have hwoken : ∀ r, (if 0 < s.run.sched.waits q then
      s.tasks.modify q fun u => ⟨u.space, .user, false, false⟩ else s.tasks)[r]? =
        Function.update (fun p => s.tasks[p]?) q
          (s.tasks[q]?.map fun u => ⟨u.space, .user, false, false⟩) r := by
    intro r
    rw [update_apply]
    cases hq : s.tasks[q]? with
    | none =>
      have hgone := h.placed.gone q (by rw [parked, hq]; rfl)
      unfold occurs at hgone
      rw [if_neg (by omega)]
      split_ifs with hr
      · rw [hr, hq]
        rfl
      · rfl
    | some u =>
      have hparked := h.parked_of_wakes ⟨t, ht, hwaking⟩ mem_cons_self hq
      rw [if_pos ((h.placed.asleep q true hparked).mpr rfl), lookup_modify, hq]
      simp only [eq_comm]
  have hview : (fun r => ((if 0 < s.run.sched.waits q then
      s.tasks.modify q fun u => ⟨u.space, .user, false, false⟩ else s.tasks).modify pid
        fun t => t.goto (.ofWaking rest))[r]?) =
      Function.update (Function.update (fun p => s.tasks[p]?) q
        (s.tasks[q]?.map fun u => ⟨u.space, .user, false, false⟩)) pid
          (some (t.goto (.ofWaking rest))) := by
    funext r
    rw [lookup_modify, hwoken, hwoken, update_of_ne (Ne.symm hne), ht, update_apply _ pid]
    simp only [eq_comm, Option.map_some]
  constructor
  · refine (h.placed.wake q).of_parked fun r => ?_
    show Option.map _ _ = _
    rw [congrFun hview r]
    by_cases hr : r = pid
    · rw [hr, update_self, update_of_ne (Ne.symm hne), parked, ht,
        Option.map_some, Option.map_some, hwaking]
      exact congrArg some (ofWaking_waits rest).1
    · rw [update_of_ne hr, update_apply, update_apply]
      split_ifs
      · rw [parked, Option.map_map, Option.map_map]
        rfl
      · rfl
  · refine hview ▸ ?_
    exact h.handed.wake ht hwaking

theorem kernelStep (hcurrent : s.current cpu = some (pid, t)) : (s.kernelStep cpu pid t).Sound := by
  obtain ⟨info, hinfo, rfl, ht⟩ := current_eq hcurrent
  unfold kernelStep
  split
  next addr hctl => exact h.futexRegister ht hctl
  next addr hctl => exact h.futexPark hinfo ht hctl
  next q rest hctl => exact h.wakeNext ht hctl
  next => exact h

/-- One step. -/
theorem step {op : FutexOp} (hlegal : op.Legal s) (hquiet : op.Quiet s) : (s.step op).Sound := by
  cases op with
  | user cpu action =>
    simp only [FutexState.step]
    split
    next pid t hcurrent =>
      obtain ⟨info, -, rfl, ht⟩ := current_eq hcurrent
      split_ifs with huser
      · cases action with
        | store addr value => exact ⟨h.placed, h.handed⟩
        | futexWait addr value =>
          simp only [userStep]
          split_ifs
          · exact h.futexCheck ht huser
          · exact h
        | futexWake addr count => exact h.futexWake ht huser (hquiet _ hcurrent huser)
      · exact h
    next => exact h
  | kernel cpu =>
    simp only [FutexState.step]
    split
    next pid t hcurrent => exact h.kernelStep hcurrent
    next => exact h
  | schedule cpu => exact ⟨h.placed.schedule cpu, h.handed⟩
  | spawn pid space priority =>
    have hnone : s.tasks[pid]? = none := by
      cases ht : s.tasks[pid]? with
      | none => rfl
      | some t =>
        exact absurd (h.placed.known pid _ (parked_eq ht)).1 hlegal.1
    exact of_insert rfl (h.placed.spawn priority hlegal.1 hlegal.2)
      (h.handed.spawn space hlegal.1 hnone)
  | exit pid =>
    have hlookup : ∀ q, (s.tasks.erase pid)[q]? =
        Function.update (fun p => s.tasks[p]?) pid none q := by
      intro q
      rw [lookup_erase, update_apply]
      simp only [eq_comm]
    constructor
    · refine (h.placed.exit pid).of_parked fun q => ?_
      show Option.map _ (s.tasks.erase pid)[q]? = _
      rw [hlookup, update_apply, update_apply]
      split_ifs <;> rfl
    · show Handed s.queue (fun p => (s.tasks.erase pid)[p]?) s.used
      rw [funext hlookup]
      refine h.handed.exit fun l ⟨t, ht, hl⟩ => ?_
      rcases hlegal t ht with hc | hc
      · rw [hc] at hl
        cases hl
      · rw [hl] at hc
        cases hc

end

theorem init : FutexState.init.Sound where
  placed := by
    refine ⟨TaskRun.Tidy.new, ?_, ?_, ?_, ?_, ?_⟩ <;>
      simp [FutexState.init, parked, TaskRun.new, occurs, runs, waits, onCpu, Scheduler.new]
  handed := by
    constructor <;> simp [FutexState.init, queue, Wakes]

end Sound

end FutexState

/-- In every run whose wakes are quiet: a task whose entry a wake took, or that a wake of all
waiters found after its check, sleeps on only while a waker that does not sleep is still to wake
it; a wake of `count` takes that many distinct live waiters of its own address space, or all of
them if there are fewer; and a waker's next step queues the first task of its list to run. -/
theorem wakes_not_lost {s : FutexState}
    (hrun : Reach FutexState.step (fun s op => op.Legal s ∧ op.Quiet s) .init s) :
    (∀ q u, s.tasks[q]? = some u → u.released = true ∨ u.due = true →
      ∃ w t l, s.tasks[w]? = some t ∧ t.control = .waking l ∧ q ∈ l ∧ s.run.sched.waits w = 0) ∧
      (∀ cpu pid t addr count, s.current cpu = some (pid, t) → t.control = .user →
        WakeQuiet s t.space addr →
          (popWaiters s.waiters addr count).1.Nodup ∧
          (∀ q ∈ (popWaiters s.waiters addr count).1, q ∈ s.liveWaiters t.space addr) ∧
          (popWaiters s.waiters addr count).1.length =
            min count (s.liveWaiters t.space addr).length) ∧
      ∀ cpu pid t q rest u, s.current cpu = some (pid, t) → t.control = .waking (q :: rest) →
        s.tasks[q]? = some u → (s.step (.kernel cpu)).run.sched.runs q = 1 := by
  have h : s.Sound :=
    hrun.invariant Sound Sound.init fun _ _ h hok => h.step hok.1 hok.2
  refine ⟨?_, ?_, ?_⟩
  · intro q u hq hmarked
    have hfits := h.handed.fits q u hq
    obtain ⟨w, l, ⟨t, hw, hl⟩, hmem⟩ := hfits.released.mp (hmarked.elim id hfits.due)
    refine ⟨w, t, l, hw, hl, hmem, ?_⟩
    have hawake := h.placed.asleep w false (by rw [parked_eq hw, hl]; rfl)
    simpa using hawake
  · intro cpu pid t addr count hcurrent huser hquiet
    obtain ⟨rest, hqueue, hlength, -⟩ := s.popWaiters_spec addr count
    have hperm := h.liveWaiters_perm hquiet
    have hnodup := h.handed.nodup addr
    rw [hqueue] at hnodup
    refine ⟨nodup_reverse.mp (nodup_append'.mp hnodup).2.1, fun q hq => ?_, ?_⟩
    · refine hperm.mem_iff.mpr ?_
      rw [hqueue]
      exact mem_append_right rest (mem_reverse.mpr hq)
    · rw [hlength, hperm.length_eq]
  · intro cpu pid t q rest u hcurrent hwaking hq
    obtain ⟨info, -, rfl, ht⟩ := current_eq hcurrent
    simp only [FutexState.step, hcurrent, kernelStep, hwaking]
    exact h.placed.runs_wake (h.parked_of_wakes ⟨t, ht, hwaking⟩ mem_cons_self hq)

instance (s : FutexState) : ∀ op, Decidable (FutexOp.Legal s op)
  | .spawn _ _ _ => inferInstanceAs (Decidable (_ ∧ _))
  | .exit pid => inferInstanceAs (Decidable (∀ t ∈ s.tasks[pid]?, _ ∨ _))
  | .user _ _ | .kernel _ | .schedule _ => inferInstanceAs (Decidable True)

instance (s : FutexState) : ∀ op, Decidable (FutexOp.Quiet s op)
  | .user cpu (.futexWake addr _) => inferInstanceAs
      (Decidable (∀ e ∈ s.current cpu, e.2.control = .user → WakeQuiet s e.2.space addr))
  | .user _ (.store _ _) | .user _ (.futexWait _ _) | .kernel _ | .schedule _ | .spawn _ _ _
  | .exit _ => inferInstanceAs (Decidable True)

/-- A task of two sleeps on a word, and the other changes the word and takes the entry off the
queue. -/
def quietWake : List FutexOp :=
  [.spawn 5 1 0, .spawn 6 1 0, .schedule 0, .schedule 1, .user 0 (.futexWait 64 0), .kernel 0,
    .kernel 0, .user 1 (.store 64 1), .user 1 (.futexWake 64 1)]

/-- The waker's next step queues the one waiter to run. -/
theorem wakes_not_lost_one_waiter :
    Admitted FutexState.step (fun s op => op.Legal s ∧ op.Quiet s) .init quietWake ∧
      ((quietWake.foldl FutexState.step .init).step (.kernel 1)).run.sched.runs 5 = 1 := by
  have hadmitted : Admitted FutexState.step (fun s op => op.Legal s ∧ op.Quiet s) .init
      quietWake := by decide +kernel
  refine ⟨hadmitted, ?_⟩
  exact (wakes_not_lost (Reach.start.foldl hadmitted)).2.2 1 6 ⟨1, .waking [5], false, false⟩ 5 []
    ⟨1, .parked 64, true, true⟩ (by decide +kernel) rfl (by decide +kernel)

/-- The store and the wake of all waiters come between the check of a waiter and its entry into the
queue: the wake finds no entry, and the waiter sleeps with no task to wake it. -/
theorem wake_before_block_is_lost :
    ∃ s, Reach FutexState.step FutexOp.Legal .init s ∧
      s.tasks[5]? = some ⟨1, .parked 64, false, true⟩ ∧ s.run.sched.waits 5 = 1 ∧
      s.memory[(1, 64)]? = some 1 ∧ s.tasks[6]? = some ⟨1, .user, false, false⟩ := by
  have hadmitted : Admitted FutexState.step FutexOp.Legal .init
      [.spawn 5 1 0, .spawn 6 1 0, .schedule 0, .schedule 1, .user 0 (.futexWait 64 0),
        .user 1 (.store 64 1), .user 1 (.futexWake 64 10), .kernel 0, .kernel 0] := by
    decide +kernel
  exact ⟨_, Reach.start.foldl hadmitted, by decide +kernel⟩

end KnoxOS.Sched
