import Mathlib.Algebra.BigOperators.Fin
import Mathlib.Tactic.Linarith
import KnoxOS.Lib.Fraction
import KnoxOS.Lib.Reach
import KnoxOS.Sched.Scheduler

/-!
# Admission of deadline tasks

`set_deadline` admits a task when the utilisations of all deadline tasks sum up to at most one.
`total` sums a quantity over every task the scheduler knows, and each call has one lemma that says
how it changes such a total; the load of the machine is the total of the admitted shares.
`admission_bound_holds` says that the load stays within one, and that requests that fit are
accepted, in every run in which no other deadline task is blocked at a request and the summed
fraction fits into 64 bits.
-/

namespace KnoxOS.Sched

open Lib List Scheduler Fraction SchedInfo Function

namespace SchedInfo

/-- Runtime and period of an admitted deadline task. -/
def reservation (info : SchedInfo) : Option (Nat × Nat) :=
  if info.policy = .deadline then info.deadlineParams.map fun d => (d.runtime, d.period) else none

/-- The share of the processor the task was admitted for. -/
def share (info : SchedInfo) : ℚ := info.reservation.elim 0 Fraction.value

end SchedInfo

namespace Scheduler

/-- The sum of a quantity over all tasks: queued, running and blocked. -/
def total (s : Scheduler) (g : SchedInfo → ℚ) : ℚ :=
  (s.runQueue.map g).sum + ∑ c, (s.currentByCpu c).elim 0 g + (s.waitQueue.map g).sum

/-- The exact utilisation of the admitted deadline tasks. -/
def load (s : Scheduler) : ℚ := s.total SchedInfo.share

/-- The quantity at the tasks of other pids. -/
def apart (pid : Nat) (g : SchedInfo → ℚ) (info : SchedInfo) : ℚ :=
  if info.pid = pid then 0 else g info

theorem apart_nonneg {g : SchedInfo → ℚ} (hg : ∀ info, 0 ≤ g info) (pid : Nat) (info : SchedInfo) :
    0 ≤ apart pid g info := by
  unfold apart
  split_ifs
  · exact le_refl _
  · exact hg info

/-- The utilisation that the request of a task would lead to. -/
def requested (s : Scheduler) (pid runtime period : Nat) : ℚ :=
  s.total (apart pid SchedInfo.share) + Fraction.value (runtime, period)

/-- The reservations `set_deadline` sums up: of the other tasks in the run queue and in the current
slots, then the requested one. -/
def counted (s : Scheduler) (pid runtime period : Nat) : List (Nat × Nat) :=
  ((s.runQueue ++ s.currents).filterMap fun info =>
    if info.pid = pid then none else info.reservation) ++ [(runtime, period)]

/-! ### How the calls change a total -/

section

variable {g : SchedInfo → ℚ} {pid : Nat} {queue : List SchedInfo}

theorem sum_takePid {rest : List SchedInfo} {info : SchedInfo}
    (h : takePid pid queue = some (info, rest)) :
    (queue.map g).sum = (rest.map g).sum + g info := by
  obtain ⟨found, hfind, heq⟩ := Option.map_eq_some_iff.mp h
  cases heq
  rw [((perm_eraseP hfind).map g).sum_eq, map_cons, sum_cons, add_comm]

theorem sum_nonneg (hg : ∀ info, 0 ≤ g info) (queue : List SchedInfo) : 0 ≤ (queue.map g).sum := by
  refine List.sum_nonneg fun x hx => ?_
  obtain ⟨info, -, rfl⟩ := List.mem_map.mp hx
  exact hg info

theorem sum_apart (h : queue.countP (·.pid = pid) = 0) :
    (queue.map (apart pid g)).sum = (queue.map g).sum := by
  have hne := countP_eq_zero.mp h
  refine congrArg sum (map_congr_left fun info hinfo => ?_)
  exact if_neg (by simpa using hne info hinfo)

/-- Changing the one entry of a pid in a queue. -/
theorem sum_modifyPid {f : SchedInfo → SchedInfo} {x : ℚ} (hf : ∀ info, g (f info) = x)
    (hone : queue.countP (·.pid = pid) = 1) :
    ((modifyPid pid f queue).map g).sum = (queue.map (apart pid g)).sum + x := by
  induction queue with
  | nil => cases hone
  | cons info queue ih =>
    unfold modifyPid
    by_cases hpid : info.pid = pid
    · have hrest : queue.countP (·.pid = pid) = 0 := by simpa [hpid] using hone
      have hself : apart pid g info = 0 := if_pos hpid
      rw [if_pos hpid, map_cons, map_cons, sum_cons, sum_cons, hf, hself, sum_apart hrest]
      ring
    · have hrest : queue.countP (·.pid = pid) = 1 := by simpa [hpid] using hone
      have hself : apart pid g info = g info := if_neg hpid
      rw [if_neg hpid, map_cons, map_cons, sum_cons, sum_cons, hself, ih hrest]
      ring

section

variable (s : Scheduler)

/-- Replacing a slot. -/
theorem total_setCurrent (cpu : Nat) (slot : Option SchedInfo) :
    (s.setCurrent cpu slot).total g + (s.current cpu).elim 0 g = s.total g + slot.elim 0 g := by
  have hslots : ∀ f : Fin maxCpus → Option SchedInfo,
      ∑ c, (f c).elim 0 g = (f (cpuI cpu)).elim 0 g +
        ∑ c ∈ Finset.univ.erase (cpuI cpu), (f c).elim 0 g :=
    fun f => (Finset.add_sum_erase _ _ (Finset.mem_univ _)).symm
  have hother : ∑ c ∈ Finset.univ.erase (cpuI cpu),
        (update s.currentByCpu (cpuI cpu) slot c).elim 0 g =
      ∑ c ∈ Finset.univ.erase (cpuI cpu), (s.currentByCpu c).elim 0 g := by
    refine Finset.sum_congr rfl fun c hc => ?_
    rw [update_of_ne (Finset.ne_of_mem_erase hc)]
  show (s.runQueue.map g).sum +
      ∑ c, (update s.currentByCpu (cpuI cpu) slot c).elim 0 g + (s.waitQueue.map g).sum +
      (s.currentByCpu (cpuI cpu)).elim 0 g = s.total g + slot.elim 0 g
  unfold total
  rw [hslots, hslots s.currentByCpu, hother, update_self]
  ring

theorem total_wakeProcess (pid : Nat) : (s.wakeProcess pid).total g = s.total g := by
  unfold wakeProcess
  cases htake : takePid pid s.waitQueue with
  | none => rfl
  | some taken =>
    have hsum := sum_takePid (g := g) htake
    unfold total
    simp only [map_append, sum_append, map_cons, map_nil, sum_cons, sum_nil]
    rw [hsum]
    ring

theorem total_blockQueued (pid : Nat) : (s.blockQueued pid).total g = s.total g := by
  unfold blockQueued
  cases htake : takePid pid s.runQueue with
  | none => rfl
  | some taken =>
    have hsum := sum_takePid (g := g) htake
    unfold total
    simp only [map_append, sum_append, map_cons, map_nil, sum_cons, sum_nil]
    rw [hsum]
    ring

/-- Blocking the task of the CPU keeps a total that ignores time slices. -/
theorem total_blockCurrent (cpu pid : Nat)
    (hslice : ∀ info n, g { info with timeSlice := n } = g info) :
    (s.blockCurrent cpu pid).total g = s.total g := by
  unfold blockCurrent
  cases hcur : s.current cpu with
  | none => rfl
  | some info =>
    by_cases hpid : info.pid = pid
    · simp only [if_pos hpid]
      have hset := total_setCurrent (g := g) s cpu none
      rw [hcur] at hset
      have hadd : ∀ s : Scheduler, ∀ info : SchedInfo,
          ({ s with waitQueue := s.waitQueue ++ [info] } : Scheduler).total g =
            s.total g + g info := by
        intro s info
        simp [total, add_assoc]
      have hwait := hadd (s.setCurrent cpu none)
        { info with timeSlice := info.effectiveTimeSlice }
      rw [hslice] at hwait
      simp only [Option.elim_some, Option.elim_none] at hset
      exact hwait.trans (by linarith)
    · simp only [if_neg hpid]

theorem total_blockProcess (cpu pid : Nat)
    (hslice : ∀ info n, g { info with timeSlice := n } = g info) :
    (s.blockProcess cpu pid).total g = s.total g :=
  (total_blockCurrent _ cpu pid hslice).trans (total_blockQueued s pid)

/-- A new period keeps a total that ignores it. -/
theorem total_updateDeadlineTasks (cpu : Nat) (hrenew : ∀ tick info, g (renew tick info) = g info) :
    (s.updateDeadlineTasks cpu).total g = s.total g := by
  have hset := total_setCurrent (g := g) s cpu ((s.current cpu).map (renew s.tickCount))
  have hslot : ((s.current cpu).map (renew s.tickCount)).elim 0 g = (s.current cpu).elim 0 g := by
    cases s.current cpu with
    | none => rfl
    | some info => exact hrenew _ info
  have hqueue : (s.runQueue.map (renew s.tickCount)).map g = s.runQueue.map g := by
    rw [map_map]
    exact map_congr_left fun info _ => hrenew _ info
  unfold updateDeadlineTasks total
  rw [hqueue]
  rw [hslot] at hset
  exact add_right_cancel hset

theorem total_nonneg (hg : ∀ info, 0 ≤ g info) : 0 ≤ s.total g := by
  have hslots : 0 ≤ ∑ c, (s.currentByCpu c).elim 0 g := by
    refine Finset.sum_nonneg fun c _ => ?_
    cases s.currentByCpu c with
    | none => exact le_refl _
    | some info => exact hg info
  exact add_nonneg (add_nonneg (sum_nonneg hg _) hslots) (sum_nonneg hg _)

/-- Removing tasks makes no total of a non-negative quantity larger. -/
theorem total_removeProcess_le (pid : Nat) (hg : ∀ info, 0 ≤ g info) :
    (s.removeProcess pid).total g ≤ s.total g := by
  have hqueue : ∀ queue : List SchedInfo,
      ((queue.filter (·.pid != pid)).map g).sum ≤ (queue.map g).sum := by
    intro queue
    refine (Sublist.map g (filter_sublist)).sum_le_sum fun x hx => ?_
    obtain ⟨info, -, rfl⟩ := List.mem_map.mp hx
    exact hg info
  have hslot : ∀ slot : Option SchedInfo,
      (slot.filter (·.pid != pid)).elim 0 g ≤ slot.elim 0 g := by
    intro slot
    cases slot with
    | none => exact le_refl _
    | some info =>
      by_cases hpid : info.pid = pid
      · simpa [Option.filter, hpid] using hg info
      · simp [Option.filter, hpid]
  have hslots := Finset.sum_le_sum fun c (_ : c ∈ Finset.univ) => hslot (s.currentByCpu c)
  have hrun := hqueue s.runQueue
  have hwait := hqueue s.waitQueue
  exact add_le_add (add_le_add hrun hslots) hwait

theorem slots_apart (h : s.onCpu pid = 0) :
    ∑ c, (s.currentByCpu c).elim 0 (apart pid g) = ∑ c, (s.currentByCpu c).elim 0 g := by
  refine Finset.sum_congr rfl fun c _ => ?_
  cases hslot : s.currentByCpu c with
  | none => rfl
  | some info =>
    have hne := countP_eq_zero.mp h c (mem_finRange c)
    rw [hslot] at hne
    exact if_neg (by simpa using hne)

theorem total_apart (h : s.occurs pid = 0) : s.total (apart pid g) = s.total g := by
  unfold occurs at h
  have hrun : s.runQueue.countP (·.pid = pid) = 0 := by
    show s.runs pid = 0
    omega
  have hwait : s.waitQueue.countP (·.pid = pid) = 0 := by
    show s.waits pid = 0
    omega
  unfold total
  rw [sum_apart hrun, sum_apart hwait, slots_apart s (by omega)]

/-- The task of the calling CPU changes, and no other entry has its pid. -/
theorem total_setCurrent_of_one {cpu : Nat} {info : SchedInfo} {x : ℚ}
    {f : SchedInfo → SchedInfo} (hf : ∀ info, g (f info) = x) (hcur : s.current cpu = some info)
    (hpid : info.pid = pid) (hone : s.occurs pid ≤ 1) :
    (s.setCurrent cpu (some (f info))).total g = s.total (apart pid g) + x := by
  have hcount := onCpu_setCurrent s cpu none pid
  rw [hcur, holds_some, if_pos hpid, holds_none] at hcount
  -- with the slot emptied the pid is nowhere
  have hnone : (s.setCurrent cpu none).occurs pid = 0 := by
    unfold occurs at hone ⊢
    rw [runs_setCurrent, waits_setCurrent]
    omega
  have hself : apart pid g info = 0 := if_pos hpid
  have hnew := total_setCurrent (g := g) s cpu (some (f info))
  have hold := total_setCurrent (g := g) s cpu none
  have hold' := total_setCurrent (g := apart pid g) s cpu none
  rw [hcur, Option.elim_some, Option.elim_some, hf] at hnew
  rw [hcur, Option.elim_some, Option.elim_none] at hold
  rw [hcur, Option.elim_some, Option.elim_none, total_apart _ hnone] at hold'
  linarith

end

end

/-! ### The fraction that is tested -/

/-- `set_deadline` accumulates the counted reservations by cross multiplication on 64 bits. -/
theorem utilisation_eq (s : Scheduler) (pid runtime period : Nat) :
    s.utilisation pid runtime period =
      (s.counted pid runtime period).foldl (crossAddMod (2 ^ 64)) (0, 1) := by
  have hfold : ∀ (tasks : List SchedInfo) (acc : Nat × Nat),
      tasks.foldl (fun acc info =>
        if info.policy = .deadline ∧ info.pid ≠ pid then
          info.deadlineParams.elim acc fun d =>
            (u64 (acc.1 * d.period + d.runtime * acc.2), u64 (acc.2 * d.period))
        else acc) acc =
      (tasks.filterMap fun info => if info.pid = pid then none else info.reservation).foldl
        (crossAddMod (2 ^ 64)) acc := by
    intro tasks
    induction tasks with
    | nil => exact fun _ => rfl
    | cons info tasks ih =>
      intro acc
      rw [foldl_cons, ih, filterMap_cons]
      unfold reservation
      by_cases hpid : info.pid = pid
      · simp [hpid]
      · by_cases hpol : info.policy = .deadline
        · cases hparams : info.deadlineParams with
          | none => simp [hpid, hpol]
          | some d => simp [hpid, hpol, crossAddMod, crossAdd, u64]
        · simp [hpid, hpol]
  unfold utilisation
  rw [hfold]
  unfold counted
  rw [foldl_concat]
  rfl

/-- The sum over the current slots. -/
theorem sum_currents (s : Scheduler) (g : SchedInfo → ℚ) :
    (s.currents.map g).sum = ∑ c, (s.currentByCpu c).elim 0 g := by
  rw [Fin.sum_univ_def]
  unfold currents
  generalize finRange maxCpus = cpus
  induction cpus with
  | nil => rfl
  | cons c cpus ih =>
    rw [map_cons, sum_cons, ← ih, filterMap_cons]
    cases s.currentByCpu c with
    | none => exact (zero_add _).symm
    | some info => rfl

/-- The counted reservations sum up to the requested utilisation, less the blocked tasks. -/
theorem sum_counted (s : Scheduler) (pid runtime period : Nat) :
    ((s.counted pid runtime period).map value).sum +
        (s.waitQueue.map (apart pid share)).sum = s.requested pid runtime period := by
  have hlist : ∀ tasks : List SchedInfo,
      ((tasks.filterMap fun info => if info.pid = pid then none else info.reservation).map
        value).sum = (tasks.map (apart pid share)).sum := by
    intro tasks
    induction tasks with
    | nil => rfl
    | cons info tasks ih =>
      rw [filterMap_cons, map_cons, sum_cons, ← ih]
      unfold apart share
      by_cases hpid : info.pid = pid
      · simp [hpid]
      · cases hres : info.reservation with
        | none => simp [hpid]
        | some part => simp [hpid]
  unfold counted requested total
  rw [map_append, sum_append, hlist, map_append, sum_append, sum_currents]
  simp only [map_cons, map_nil, sum_cons, sum_nil]
  ring

/-! ### Runs -/

/-- Every task the scheduler knows. -/
def tasks (s : Scheduler) : List SchedInfo := s.runQueue ++ s.currents ++ s.waitQueue

/-- A non-negative quantity sums up to zero when it is zero at every task. -/
theorem total_eq_zero_iff (s : Scheduler) (hg : ∀ info, 0 ≤ g info) :
    s.total g = 0 ↔ ∀ info ∈ s.tasks, g info = 0 := by
  have htotal : s.total g = (s.tasks.map g).sum := by
    unfold total tasks
    rw [map_append, map_append, sum_append, sum_append, sum_currents]
  rw [htotal]
  constructor
  · intro hsum info hinfo
    refine all_zero_of_le_zero_le_of_sum_eq_zero (fun x hx => ?_) hsum
      (mem_map_of_mem hinfo)
    obtain ⟨task, -, rfl⟩ := List.mem_map.mp hx
    exact hg task
  · intro hall
    refine sum_eq_zero fun x hx => ?_
    obtain ⟨task, htask, rfl⟩ := List.mem_map.mp hx
    exact hall task htask

/-- No task has deadline parameters yet. -/
def NoDeadlines (s : Scheduler) : Prop := ∀ info ∈ s.tasks, info.reservation = none

/-- The summed fraction of a request fits into 64 bits. -/
def FitsWords (s : Scheduler) (pid runtime period : Nat) : Prop :=
  ((s.counted pid runtime period).foldl Fraction.crossAdd (0, 1)).1 < 2 ^ 64 ∧
    ((s.counted pid runtime period).foldl Fraction.crossAdd (0, 1)).2 < 2 ^ 64

/-- No deadline task of another pid is blocked. -/
def OthersAwake (s : Scheduler) (pid : Nat) : Prop :=
  ∀ info ∈ s.waitQueue, info.pid = pid ∨ info.reservation = none

/-- The task is queued, or runs on the calling CPU. -/
def Found (s : Scheduler) (cpu pid : Nat) : Prop :=
  s.runQueue.any (·.pid = pid) ∨ (s.current cpu).any (·.pid = pid)

end Scheduler

namespace Admission

/-- Parameters `set_deadline` does not refuse by themselves. -/
def Proper (runtime period deadline : Nat) : Prop :=
  0 < runtime ∧ runtime ≤ deadline ∧ deadline ≤ period

/-- The calls that admit, move and drop deadline tasks, with the CPU they are made on. -/
inductive Op where
  | setDeadline (cpu pid runtime period deadline : Nat)
  | removeProcess (pid : Nat)
  | blockProcess (cpu pid : Nat)
  | wakeProcess (pid : Nat)
  | updateDeadlineTasks (cpu : Nat)

def step (s : Scheduler) : Op → Scheduler
  | .setDeadline cpu pid runtime period deadline =>
    (s.setDeadline cpu pid runtime period deadline).2
  | .removeProcess pid => s.removeProcess pid
  | .blockProcess cpu pid => s.blockProcess cpu pid
  | .wakeProcess pid => s.wakeProcess pid
  | .updateDeadlineTasks cpu => s.updateDeadlineTasks cpu

/-- At a proper request the pid has one entry, no other deadline task is blocked, and the sum fits
into 64 bits. The other calls are free. -/
def Ok (s : Scheduler) : Op → Prop
  | .setDeadline _ pid runtime period deadline => Proper runtime period deadline →
      s.occurs pid ≤ 1 ∧ s.OthersAwake pid ∧ s.FitsWords pid runtime period
  | _ => True

section

variable {s : Scheduler} {cpu pid runtime period deadline : Nat}

/-- A request that is refused changes nothing. One that is accepted is proper and passes the test,
and gives the task its reservation in the run queue or in the slot of the calling CPU. -/
theorem setDeadline_cases (s : Scheduler) (cpu pid runtime period deadline : Nat) :
    (s.setDeadline cpu pid runtime period deadline).2 = s ∨
      (Proper runtime period deadline ∧
        (s.utilisation pid runtime period).1 ≤ (s.utilisation pid runtime period).2 ∧
        ∃ set : SchedInfo → SchedInfo, (∀ info, (set info).reservation = some (runtime, period)) ∧
          ((0 < s.runs pid ∧ (s.setDeadline cpu pid runtime period deadline).2 =
              { s with runQueue := modifyPid pid set s.runQueue }) ∨
            ∃ info, s.current cpu = some info ∧ info.pid = pid ∧
              (s.setDeadline cpu pid runtime period deadline).2 =
                s.setCurrent cpu (some (set info)))) := by
  unfold setDeadline
  extract_lets params set
  have hset : ∀ info, (set info).reservation = some (runtime, period) := fun info => rfl
  split_ifs with hzero hrange hutil hrun hcur
  · exact .inl rfl
  · exact .inl rfl
  · exact .inl rfl
  · refine .inr ⟨⟨by omega, by omega, by omega⟩, by omega, set, hset, .inl ⟨?_, rfl⟩⟩
    obtain ⟨info, hmem, hpid⟩ := any_eq_true.mp hrun
    exact countP_pos_iff.mpr ⟨info, hmem, hpid⟩
  · cases hslot : s.current cpu with
    | none => rw [hslot] at hcur; cases hcur
    | some info =>
      have hpid : info.pid = pid := by simpa [hslot] using hcur
      exact .inr ⟨⟨by omega, by omega, by omega⟩, by omega, set, hset,
        .inr ⟨info, rfl, hpid, rfl⟩⟩
  · exact .inl rfl

/-- A proper request of a task that is found is accepted when it passes the test. -/
theorem setDeadline_accepts (hproper : Proper runtime period deadline) (hfound : s.Found cpu pid)
    (hutil : (s.utilisation pid runtime period).1 ≤ (s.utilisation pid runtime period).2) :
    (s.setDeadline cpu pid runtime period deadline).1 = .ok () := by
  obtain ⟨hpos, hle, hle'⟩ := hproper
  unfold setDeadline
  rw [if_neg (by omega), if_neg (by omega), if_neg (by omega)]
  extract_lets params set
  by_cases hrun : s.runQueue.any (·.pid = pid)
  · rw [if_pos hrun]
  · rw [if_neg hrun, if_pos (hfound.resolve_left hrun)]

/-- What the reservations of an accepted request add up to. -/
theorem total_setDeadline {x : ℚ} (cpu deadline : Nat) (hone : s.occurs pid ≤ 1)
    (hg : ∀ info, info.reservation = some (runtime, period) → g info = x) :
    (s.setDeadline cpu pid runtime period deadline).2 = s ∨
      (Proper runtime period deadline ∧
        (s.utilisation pid runtime period).1 ≤ (s.utilisation pid runtime period).2 ∧
        (s.setDeadline cpu pid runtime period deadline).2.total g = s.total (apart pid g) + x) := by
  rcases setDeadline_cases s cpu pid runtime period deadline with
    hsame | ⟨hproper, hutil, set, hset, hplace⟩
  · exact .inl hsame
  refine .inr ⟨hproper, hutil, ?_⟩
  have hset' : ∀ info, g (set info) = x := fun info => hg _ (hset info)
  rcases hplace with ⟨hrun, heq⟩ | ⟨info, hcur, hpid, heq⟩
  · rw [heq]
    unfold occurs at hone
    have hruns : s.runQueue.countP (·.pid = pid) = 1 := by
      show s.runs pid = 1
      omega
    have hwaits : s.waitQueue.countP (·.pid = pid) = 0 := by
      show s.waits pid = 0
      omega
    have hslots : s.onCpu pid = 0 := by omega
    unfold total
    rw [sum_modifyPid hset' hruns, sum_apart hwaits, s.slots_apart hslots]
    ring
  · rw [heq]
    exact s.total_setCurrent_of_one hset' hcur hpid hone

/-- 1 for a reservation with an empty period, which has no share. -/
def unperiodic (info : SchedInfo) : ℚ := if info.reservation.any (·.2 = 0) then 1 else 0

theorem unperiodic_nonneg (info : SchedInfo) : 0 ≤ unperiodic info := by
  unfold unperiodic
  split_ifs
  · exact zero_le_one
  · exact le_refl _

theorem share_nonneg (info : SchedInfo) : 0 ≤ info.share := by
  unfold share
  cases info.reservation with
  | none => exact le_refl _
  | some part => exact value_nonneg part

theorem reservation_renew (tick : Nat) (info : SchedInfo) :
    (renew tick info).reservation = info.reservation := by
  unfold renew reservation
  by_cases hpol : info.policy = .deadline
  · simp only [if_pos hpol]
    cases info.deadlineParams with
    | none => rfl
    | some d =>
      simp only [Option.map_some]
      split_ifs <;> rfl
  · rw [if_neg hpol]

/-- Every reservation has a period, and together they fit the processor. -/
structure Invariant (s : Scheduler) : Prop where
  periodic : s.total unperiodic = 0
  fits : s.load ≤ 1

/-- The counted reservations all have a period. -/
theorem Invariant.counted_pos (hinv : Invariant s) (pid runtime : Nat) (hperiod : 0 < period) :
    ∀ part ∈ s.counted pid runtime period, 0 < part.2 := by
  have hall := (s.total_eq_zero_iff unperiodic_nonneg).mp hinv.periodic
  intro part hpart
  rcases mem_append.mp hpart with hother | hself
  · obtain ⟨info, hinfo, hres⟩ := mem_filterMap.mp hother
    have hzero := hall info (mem_append_left _ hinfo)
    split_ifs at hres with hpid
    unfold unperiodic at hzero
    rw [hres] at hzero
    by_contra hpos
    have hnil : part.2 = 0 := by omega
    simp [hnil] at hzero
  · rw [mem_singleton.mp hself]
    exact hperiod

/-- Where the sum fits into 64 bits, the test compares the counted utilisation with one. -/
theorem Invariant.utilisation_le_iff (hinv : Invariant s) (hperiod : 0 < period)
    (hwords : s.FitsWords pid runtime period) :
    (s.utilisation pid runtime period).1 ≤ (s.utilisation pid runtime period).2 ↔
      ((s.counted pid runtime period).map value).sum ≤ 1 := by
  have hpos := hinv.counted_pos pid runtime hperiod
  obtain ⟨hden, hval⟩ := value_sum (0, 1) Nat.one_pos hpos
  have hzero : value (0, 1) = 0 := by simp [value]
  rw [hzero, zero_add] at hval
  rw [s.utilisation_eq, sumMod_eq hpos hwords.1 hwords.2, ← hval, ← not_lt, ← not_lt,
    one_lt_value hden]

theorem wait_eq_zero (hawake : s.OthersAwake pid) :
    (s.waitQueue.map (apart pid share)).sum = 0 := by
  refine sum_eq_zero fun x hx => ?_
  obtain ⟨info, hinfo, rfl⟩ := List.mem_map.mp hx
  unfold apart
  split_ifs with hpid
  · rfl
  · unfold share
    rw [(hawake info hinfo).resolve_left hpid]
    rfl

/-- An admitted request keeps the invariant. -/
theorem Invariant.setDeadline (hinv : Invariant s)
    (hok : Ok s (.setDeadline cpu pid runtime period deadline)) :
    Invariant (s.setDeadline cpu pid runtime period deadline).2 := by
  rcases setDeadline_cases s cpu pid runtime period deadline with hsame | ⟨hproper, hutil, -⟩
  · rw [hsame]
    exact hinv
  obtain ⟨hone, hawake, hwords⟩ := hok hproper
  obtain ⟨hruntime, hle, hle'⟩ := hproper
  have hperiod : 0 < period := by omega
  have hsum := s.sum_counted pid runtime period
  rw [wait_eq_zero hawake, add_zero] at hsum
  have hutil' := (hinv.utilisation_le_iff hperiod hwords).mp hutil
  rw [hsum] at hutil'
  refine ⟨?_, ?_⟩
  · -- the new reservation has a period, and the others are as before
    have hnew : ∀ info : SchedInfo, info.reservation = some (runtime, period) →
        unperiodic info = 0 := by
      intro info hres
      unfold unperiodic
      rw [hres]
      simpa using hperiod.ne'
    rcases total_setDeadline cpu deadline hone hnew with
      hsame | ⟨-, -, htotal⟩
    · rw [hsame]
      exact hinv.periodic
    · rw [htotal, add_zero, total_eq_zero_iff]
      · intro info hinfo
        unfold apart
        split_ifs
        · rfl
        · exact (s.total_eq_zero_iff unperiodic_nonneg).mp hinv.periodic info hinfo
      · exact apart_nonneg unperiodic_nonneg pid
  · have hnew : ∀ info : SchedInfo, info.reservation = some (runtime, period) →
        info.share = value (runtime, period) := by
      intro info hres
      unfold share
      rw [hres]
      rfl
    rcases total_setDeadline cpu deadline hone hnew with
      hsame | ⟨-, -, htotal⟩
    · rw [hsame]
      exact hinv.fits
    · exact htotal.trans_le hutil'

/-- Every admitted call keeps the invariant. -/
theorem Invariant.step (hinv : Invariant s) (op : Op) (hok : Ok s op) :
    Invariant (Admission.step s op) := by
  have hmoved : ∀ s' : Scheduler,
      (∀ g : SchedInfo → ℚ, (∀ a b : SchedInfo, a.reservation = b.reservation → g a = g b) →
        s'.total g = s.total g) → Invariant s' := by
    intro s' h
    refine ⟨?_, ?_⟩
    · rw [h unperiodic fun a b hab => by unfold unperiodic; rw [hab]]
      exact hinv.periodic
    · unfold load
      rw [h share fun a b hab => by unfold share; rw [hab]]
      exact hinv.fits
  cases op with
  | setDeadline cpu pid runtime period deadline => exact hinv.setDeadline hok
  | removeProcess pid =>
    have hzero := s.total_removeProcess_le pid unperiodic_nonneg
    have hnonneg := (s.removeProcess pid).total_nonneg unperiodic_nonneg
    rw [hinv.periodic] at hzero
    exact ⟨le_antisymm hzero hnonneg, (s.total_removeProcess_le pid share_nonneg).trans hinv.fits⟩
  | blockProcess cpu pid =>
    exact hmoved _ fun g hg => s.total_blockProcess cpu pid fun info n => hg _ _ rfl
  | wakeProcess pid => exact hmoved _ fun g _ => s.total_wakeProcess pid
  | updateDeadlineTasks cpu =>
    exact hmoved _ fun g hg => s.total_updateDeadlineTasks cpu fun tick info =>
      hg _ _ (reservation_renew tick info)

end

/-- A scheduler without deadline tasks meets the invariant. -/
theorem Invariant.start {s : Scheduler} (h : s.NoDeadlines) : Invariant s := by
  refine ⟨(s.total_eq_zero_iff unperiodic_nonneg).mpr fun info hinfo => ?_, ?_⟩
  · unfold unperiodic
    rw [h info hinfo]
    rfl
  · have hzero : s.load = 0 := by
      refine (s.total_eq_zero_iff share_nonneg).mpr fun info hinfo => ?_
      unfold share
      rw [h info hinfo]
      rfl
    rw [hzero]
    exact zero_le_one

/-- In every run from a scheduler without deadline tasks whose calls meet `Ok`, the admitted
utilisation is at most one; and a proper request of a task that is queued or runs on the calling
CPU, whose sum fits into 64 bits, is accepted when it keeps the utilisation within one. -/
theorem admission_bound_holds {start s : Scheduler} (hstart : start.NoDeadlines)
    (hreach : Reach step Ok start s) :
    s.load ≤ 1 ∧ ∀ cpu pid runtime period deadline : Nat, Proper runtime period deadline →
      s.Found cpu pid → s.FitsWords pid runtime period → s.requested pid runtime period ≤ 1 →
      (s.setDeadline cpu pid runtime period deadline).1 = .ok () := by
  have hinv : Invariant s :=
    hreach.invariant Invariant (.start hstart) fun s op hinv hok => hinv.step op hok
  refine ⟨hinv.fits, fun cpu pid runtime period deadline hproper hfound hwords hfits => ?_⟩
  have hperiod : 0 < period := by
    obtain ⟨hpos, hle, hle'⟩ := hproper
    omega
  refine setDeadline_accepts hproper hfound ((hinv.utilisation_le_iff hperiod hwords).mpr ?_)
  -- the blocked tasks are not counted, so the counted sum is at most the requested one
  have hsum := s.sum_counted pid runtime period
  have hwait := sum_nonneg (apart_nonneg share_nonneg pid) s.waitQueue
  linarith

instance (s : Scheduler) : Decidable s.NoDeadlines :=
  inferInstanceAs (Decidable (∀ info ∈ s.tasks, info.reservation = none))

instance (s : Scheduler) (op : Op) : Decidable (Ok s op) :=
  match op with
  | .setDeadline .. =>
    inferInstanceAs (Decidable (_ ∧ _ ∧ _ → _ ∧ (∀ info ∈ s.waitQueue, _) ∧ _ ∧ _))
  | .removeProcess _ | .blockProcess _ _ | .wakeProcess _ | .updateDeadlineTasks _ =>
    inferInstanceAs (Decidable True)

/-- Two tasks in the run queue. -/
def twoTasks : Scheduler := (Scheduler.new.addProcess 5 0).addProcess 6 0

/-- Two halves of the processor are admitted, one of the tasks is blocked and woken. -/
def twoHalves : List Op :=
  [.setDeadline 0 5 1 2 2, .setDeadline 0 6 5 10 10, .blockProcess 0 5, .updateDeadlineTasks 0,
    .wakeProcess 5]

/-- Two tasks of half the time each. -/
theorem admission_bound_holds_two_halves : (twoHalves.foldl step twoTasks).load ≤ 1 := by
  have hadmitted : Admitted step Ok twoTasks twoHalves := by decide +kernel
  have hstart : twoTasks.NoDeadlines := by decide +kernel
  exact (admission_bound_holds hstart (Reach.start.foldl hadmitted)).1

/-- A task that holds the whole processor is blocked, another one is admitted for the whole
processor, and the first one wakes up. -/
def admittedTwice : List Op :=
  [.setDeadline 0 5 1 1 1, .blockProcess 0 5, .setDeadline 0 6 1 1 1, .wakeProcess 5]

/-- A task that is blocked while another is admitted is not counted: the load passes 1. -/
theorem blocked_task_not_counted :
    twoTasks.NoDeadlines ∧
      Reach step (fun _ _ => True) twoTasks (admittedTwice.foldl step twoTasks) ∧
      ¬ (admittedTwice.foldl step twoTasks).load ≤ 1 :=
  ⟨by decide +kernel, Reach.free admittedTwice, by decide +kernel⟩

end Admission

end KnoxOS.Sched
