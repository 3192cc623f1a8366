import KnoxOS.Lib.Reach
import KnoxOS.Sched.Scheduler

/-!
# Fairness of the normal tasks

Runs of `tick` and `schedule` on one CPU whose tasks are all runnable and of the normal policy.
A run remembers the selected pids, the virtual runtime at which the running task was selected and
the ticks it has had since. `fairness_not_frozen` says that in every run in which only tasks of
nice value 0 and above are ticked, and no virtual runtime passes 64 bits, the running task's
virtual runtime grows with every tick, a task is not selected again while another one waits at the
same or a smaller virtual runtime, and between two selections of a task every other one is selected
or is ahead of it.
-/

namespace KnoxOS.Sched

open Lib List SchedInfo

/-- What one tick adds to the virtual runtime. -/
def SchedInfo.pace (info : SchedInfo) : Nat := 1024 / max info.weight 1

/-- A task of the normal policy that the CPU may run. -/
def Ready (cpu : Nat) (info : SchedInfo) : Prop :=
  info.policy = .normal ∧ Scheduler.allowed cpu info = true

/-- A fresh time slice. -/
def SchedInfo.refill (info : SchedInfo) : SchedInfo :=
  { info with timeSlice := info.effectiveTimeSlice }

variable {info : SchedInfo}

namespace Scheduler

section

variable (s : Scheduler) (cpu : Nat)

theorem requeue_runQueue :
    (s.requeue cpu).runQueue = s.runQueue ++ ((s.current cpu).map refill).toList := by
  unfold requeue
  cases s.current cpu with
  | none => exact (append_nil _).symm
  | some info => rfl

theorem requeue_enabled : (s.requeue cpu).enabled = s.enabled := by
  unfold requeue
  cases s.current cpu with
  | none => rfl
  | some info => rfl

/-- Once the running task is back at the end of the queue, `schedule` selects the first entry with
the least virtual runtime. -/
structure Picks (front : List SchedInfo) (info : SchedInfo) (back : List SchedInfo) : Prop where
  queue : (s.requeue cpu).runQueue = front ++ info :: back
  least : ∀ u ∈ front, info.vruntime < u.vruntime
  picked : (s.schedule cpu).1 = some info.pid
  rest : (s.schedule cpu).2.runQueue = front ++ back
  current : (s.schedule cpu).2.current cpu = some info.refill
  enabled : (s.schedule cpu).2.enabled = s.enabled

/-- What `schedule` does among ready tasks. -/
theorem schedule_ready (hready : ∀ info ∈ (s.requeue cpu).runQueue, Ready cpu info)
    (hne : (s.requeue cpu).runQueue ≠ []) : ∃ front info back, s.Picks cpu front info back := by
  have horder : ∀ info ∈ (s.requeue cpu).runQueue,
      info.order = toLex (2, (info.vruntime : Int)) := by
    intro info hinfo
    simp only [order, rankKey, rank, (hready info hinfo).1]
  rcases s.schedule_selects cpu with ⟨-, hnone⟩ | ⟨front, info, back, slice, hsel, hslice, hsched⟩
  · obtain ⟨first, hfirst⟩ := exists_mem_of_ne_nil _ hne
    exact absurd (hready first hfirst).2 (by simp [hnone first hfirst])
  · have hmem : info ∈ (s.requeue cpu).runQueue := by simp [hsel.queue]
    rw [hslice (by simp [rank, (hready info hmem).1])] at hsched
    refine ⟨front, info, back, hsel.queue, fun u hu => ?_, by rw [hsched], by rw [hsched], ?_, ?_⟩
    · have humem : u ∈ (s.requeue cpu).runQueue := by simp [hsel.queue, hu]
      simpa [horder info hmem, horder u humem, Prod.Lex.toLex_lt_toLex] using
        hsel.front u hu (hready u humem).2
    · rw [hsched]
      exact current_setCurrent _ cpu _
    · rw [hsched]
      exact s.requeue_enabled cpu

/-- A tick charges the task of the CPU and leaves the queue alone; it asks for a switch only where
there is a task. -/
theorem tick_enabled (henabled : s.enabled = true) :
    (s.tick cpu).2.runQueue = s.runQueue ∧ (s.tick cpu).2.enabled = true ∧
      (s.tick cpu).2.current cpu = (s.current cpu).map charge ∧
      ((s.tick cpu).1 = true → s.runQueue ++ (s.current cpu).toList ≠ []) := by
  unfold tick
  rw [if_neg (by rw [henabled]; decide)]
  extract_lets s' minVr
  have hsame : s'.current cpu = s.current cpu := rfl
  cases hcur : s.current cpu with
  | none =>
    rw [hcur] at hsame
    simp only [hsame]
    refine ⟨rfl, henabled, rfl, fun hdue hnil => ?_⟩
    have hempty : s'.runQueue = [] := (append_eq_nil_iff.mp hnil).1
    rw [hempty] at hdue
    cases hdue
  | some info =>
    rw [hcur] at hsame
    simp only [hsame]
    refine ⟨rfl, henabled, current_setCurrent s' cpu _, fun _ hnil => ?_⟩
    cases (append_eq_nil_iff.mp hnil).2

end

end Scheduler

namespace Fairness

/-- A run on one CPU: the scheduler, whether the last ticks asked for a switch, the selected pids
with the latest first, the virtual runtime of the running task when it was selected, and the ticks
since. -/
structure Run where
  sched : Scheduler
  due : Bool
  picked : List Nat
  startVr : Nat
  ran : Nat

inductive Op where
  | tick
  | schedule

/-- A tick, or the call of `schedule` that a tick asked for. -/
def step (cpu : Nat) (r : Run) : Op → Run
  | .tick =>
    { r with
      sched := (r.sched.tick cpu).2
      due := r.due || (r.sched.tick cpu).1
      ran := r.ran + 1 }
  | .schedule =>
    if r.due then
      { sched := (r.sched.schedule cpu).2
        due := false
        picked := (r.sched.schedule cpu).1.toList ++ r.picked
        startVr := ((r.sched.schedule cpu).2.current cpu).elim 0 SchedInfo.vruntime
        ran := 0 }
    else r

/-- The task that is ticked has nice value 0 or above, and its virtual runtime stays within 64
bits. -/
def Ok (cpu : Nat) (r : Run) : Op → Prop
  | .tick => ∀ info, r.sched.current cpu = some info →
      0 ≤ info.priority ∧ info.vruntime + info.pace < 2 ^ 64
  | .schedule => True

/-- The tasks of the run: queued, and running on the CPU. -/
def members (cpu : Nat) (s : Scheduler) : List SchedInfo := s.runQueue ++ (s.current cpu).toList

/-- The scheduler is enabled, its tasks are ready and have different pids, and nothing has been
selected yet. -/
structure Start (cpu : Nat) (r : Run) : Prop where
  enabled : r.sched.enabled = true
  ready : ∀ info ∈ members cpu r.sched, Ready cpu info
  distinct : ((members cpu r.sched).map SchedInfo.pid).Nodup
  due : r.due = false
  picked : r.picked = []

/-- What fairness asks of a state. -/
structure Fair (cpu : Nat) (r : Run) : Prop where
  /-- A task that has used up its slice is ahead of where it was selected. -/
  grows : ∀ info, r.sched.current cpu = some info → r.picked ≠ [] → info.timeSlice = 0 →
    r.startVr < info.vruntime
  /-- Virtual runtime grows by the same amount with each tick, no faster the larger the weight. -/
  paced : ∀ info, r.sched.current cpu = some info → r.picked ≠ [] →
    info.vruntime = r.startVr + r.ran * info.pace ∧
      ∀ other : SchedInfo, info.weight ≤ other.weight → other.pace ≤ info.pace
  /-- The running task is selected again only when every waiting task is ahead of it. -/
  yields : ∀ info, r.sched.current cpu = some info → (r.sched.schedule cpu).1 = some info.pid →
    ∀ u ∈ r.sched.runQueue, info.vruntime < u.vruntime
  /-- Between two selections of a task every other one is selected or is ahead of it. -/
  turns : ∀ p between earlier, r.picked = p :: (between ++ p :: earlier) → p ∉ between →
    ∀ u ∈ r.sched.runQueue, u.pid ∈ between ∨ r.startVr < u.vruntime
  /-- A task is selected again and again only while a waiting task's virtual runtime is larger
  than the number of repetitions. -/
  bounded : ∀ n p earlier, r.picked = List.replicate (n + 1) p ++ earlier → 0 < n →
    ∀ u ∈ r.sched.runQueue, n < u.vruntime

/-- How far the running task has come since it was selected. -/
structure Grown (r : Run) (info : SchedInfo) : Prop where
  slice : 2 ≤ info.timeSlice + r.ran
  vruntime : info.vruntime = r.startVr + r.ran * info.pace
  pace : 0 < r.ran → 0 < info.pace

/-- The invariant of the runs. `order` is what the tie-breaking rests on: in the queue, a task
stands behind every other one that has not been selected since its own last selection. -/
structure Invariant (cpu : Nat) (r : Run) : Prop where
  enabled : r.sched.enabled = true
  ready : ∀ info ∈ members cpu r.sched, Ready cpu info
  distinct : ((members cpu r.sched).map SchedInfo.pid).Nodup
  occupied : r.due = true → members cpu r.sched ≠ []
  asked : r.due = true → 0 < r.ran
  latest : ∀ p earlier, r.picked = p :: earlier →
    ∃ info, r.sched.current cpu = some info ∧ info.pid = p ∧ Grown r info
  order : ∀ t ∈ r.picked, ∀ u, u ∉ r.picked.takeWhile (· != t) → u ≠ t →
    u ∈ r.sched.runQueue.map SchedInfo.pid → t ∈ r.sched.runQueue.map SchedInfo.pid →
    [u, t].Sublist (r.sched.runQueue.map SchedInfo.pid)
  turns : ∀ p earlier, r.picked = p :: earlier → p ∈ earlier →
    ∀ u ∈ r.sched.runQueue, u.pid ∈ earlier.takeWhile (· != p) ∨ r.startVr < u.vruntime
  streak : ∀ n p earlier, r.picked = List.replicate (n + 1) p ++ earlier → n ≤ r.startVr

section

variable {cpu : Nat} {r : Run}

theorem Invariant.start (h : Start cpu r) : Invariant cpu r where
  enabled := h.enabled
  ready := h.ready
  distinct := h.distinct
  occupied := by rw [h.due]; nofun
  asked := by rw [h.due]; nofun
  latest := by rw [h.picked]; nofun
  order := by rw [h.picked]; nofun
  turns := by rw [h.picked]; nofun
  streak := by
    rw [h.picked]
    intro n p earlier heq
    cases heq

/-- Weights of nice values from 0 on are at most that of nice value 0. -/
theorem pace_pos (h : 0 ≤ info.priority) : 0 < info.pace := by
  have hweights : ∀ i : Fin 40, 20 ≤ i.val → cfsWeights.getD i.val 0 ≤ 1024 := by decide
  have hweight : info.weight ≤ 1024 := by
    refine hweights ⟨(max 0 (min (info.priority + 20) 39)).toNat, by omega⟩ ?_
    show 20 ≤ (max 0 (min (info.priority + 20) 39)).toNat
    omega
  exact Nat.div_pos (by omega) (by omega)

section

variable (hinv : Invariant cpu r)
include hinv

/-- The tasks with the running one changed, but for its pid and its readiness. -/
theorem Invariant.changed {f : SchedInfo → SchedInfo} (hpid : ∀ info, (f info).pid = info.pid)
    (hready : ∀ info, Ready cpu info → Ready cpu (f info)) :
    (r.sched.runQueue ++ ((r.sched.current cpu).map f).toList).map pid =
        (members cpu r.sched).map pid ∧
      ∀ info ∈ r.sched.runQueue ++ ((r.sched.current cpu).map f).toList, Ready cpu info := by
  have hall := hinv.ready
  unfold members at hall ⊢
  cases hc : r.sched.current cpu with
  | none =>
    rw [hc] at hall
    exact ⟨rfl, hall⟩
  | some old =>
    rw [hc] at hall
    refine ⟨by simp [hpid], fun info hinfo => ?_⟩
    rcases mem_append.mp hinfo with h | h
    · exact hall info (mem_append_left _ h)
    · cases mem_singleton.mp h
      exact hready old (hall old (mem_append_right _ (.head _)))

/-- A tick keeps the invariant: it changes the running task only. -/
theorem Invariant.tick (hok : Ok cpu r .tick) : Invariant cpu (step cpu r .tick) := by
  obtain ⟨hqueue, henabled, hcur, hdue⟩ := r.sched.tick_enabled cpu hinv.enabled
  have hmembers : members cpu (r.sched.tick cpu).2 =
      r.sched.runQueue ++ ((r.sched.current cpu).map Scheduler.charge).toList := by
    unfold members
    rw [hqueue, hcur]
  have hsched : (step cpu r .tick).sched = (r.sched.tick cpu).2 := rfl
  obtain ⟨hpids, hready⟩ := hinv.changed (f := Scheduler.charge) (fun _ => rfl) fun _ h => h
  refine ⟨henabled, ?_, ?_, ?_, fun _ => Nat.succ_pos _, ?_, ?_, ?_, hinv.streak⟩
  · rw [hsched, hmembers]
    exact hready
  · rw [hsched, hmembers, hpids]
    exact hinv.distinct
  · intro hdue' hnil
    rw [hsched, hmembers] at hnil
    rw [hnil] at hpids
    have hold := map_eq_nil_iff.mp hpids.symm
    rcases Bool.or_eq_true_iff.mp hdue' with h | h
    · exact hinv.occupied h hold
    · exact hdue h hold
  · intro p earlier heq
    obtain ⟨info, hinfo, hpid, hslice, hvr, hpace⟩ := hinv.latest p earlier heq
    obtain ⟨hnice, hword⟩ := hok info hinfo
    refine ⟨Scheduler.charge info, ?_, hpid, ?_, ?_, fun _ => pace_pos hnice⟩
    · rw [hsched, hcur, hinfo]
      rfl
    · show 2 ≤ info.timeSlice - 1 + (r.ran + 1)
      omega
    · show u64 (info.vruntime + info.pace) = r.startVr + (r.ran + 1) * info.pace
      unfold u64
      rw [Nat.mod_eq_of_lt hword, hvr, Nat.add_mul, Nat.one_mul, Nat.add_assoc]
  · rw [hsched, hqueue]
    exact hinv.order
  · rw [hsched, hqueue]
    exact hinv.turns

theorem Invariant.requeued :
    (r.sched.requeue cpu).runQueue.map pid = (members cpu r.sched).map pid ∧
      ∀ info ∈ (r.sched.requeue cpu).runQueue, Ready cpu info := by
  rw [r.sched.requeue_runQueue cpu]
  exact hinv.changed (fun _ => rfl) fun _ h => h

/-- The order of the queue still holds with the running task at its end. -/
theorem Invariant.order_requeued {t u : Nat} (ht : t ∈ r.picked)
    (hu : u ∉ r.picked.takeWhile (· != t)) (hne : u ≠ t) (hmu : u ∈ (members cpu r.sched).map pid)
    (hmt : t ∈ (members cpu r.sched).map pid) : [u, t].Sublist ((members cpu r.sched).map pid) := by
  have horder := hinv.order t ht u hu hne
  unfold members at hmu hmt ⊢
  rw [map_append] at hmu hmt ⊢
  cases hc : r.sched.current cpu with
  | none =>
    rw [hc] at hmu hmt
    simp only [Option.toList_none, map_nil, append_nil] at hmu hmt ⊢
    exact horder hmu hmt
  | some info =>
    rw [hc] at hmu hmt
    rcases mem_append.mp hmu with hu' | hu'
    · rcases mem_append.mp hmt with ht' | ht'
      · exact (horder hu' ht').trans (sublist_append_left _ _)
      · have htail : t = info.pid := mem_singleton.mp ht'
        rw [htail]
        exact (singleton_sublist.mpr hu').append (Sublist.refl [info.pid])
    · -- the running task has been selected after every other one
      have htail : u = info.pid := mem_singleton.mp hu'
      obtain ⟨p, earlier, heq⟩ : ∃ p earlier, r.picked = p :: earlier :=
        exists_cons_of_ne_nil (ne_nil_of_mem ht)
      obtain ⟨last, hlast, hpid, -⟩ := hinv.latest p earlier heq
      rw [hc] at hlast
      cases hlast
      rw [heq, takeWhile_cons_of_pos (by rw [← hpid, ← htail]; simpa using hne)] at hu
      exact absurd (by rw [htail, hpid]; exact .head _) hu

end

/-- Two members in this order, the second of which stands at a place of the list: the first one
stands before that place. -/
theorem mem_front_of_sublist {front back : List Nat} {u t : Nat}
    (hnodup : (front ++ t :: back).Nodup) (h : [u, t].Sublist (front ++ t :: back)) :
    u ∈ front := by
  obtain ⟨left, right, heq, hleft, hright⟩ := sublist_append_iff.mp h
  have hback : t ∉ back := (nodup_cons.mp (nodup_append.mp hnodup).2.1).1
  cases left with
  | nil =>
    cases heq
    -- the second would stand behind itself
    cases hright with
    | cons _ hrest => exact absurd (hrest.subset (.tail _ (.head _))) hback
    | cons_cons _ hrest => exact absurd (hrest.subset (.head _)) hback
  | cons a left =>
    rw [(cons.inj heq).1]
    exact hleft.subset (.head _)

section

variable {front back : List SchedInfo} (hinv : Invariant cpu r)
  (hpicks : r.sched.Picks cpu front info back)
include hinv hpicks

theorem Invariant.pids :
    (front ++ info :: back).map pid = (members cpu r.sched).map pid ∧
      ((front ++ info :: back).map pid).Nodup := by
  have hpids := hinv.requeued.1
  rw [hpicks.queue] at hpids
  exact ⟨hpids, hpids ▸ hinv.distinct⟩

theorem Invariant.eq_of_pid {u v : SchedInfo} (hu : u ∈ front ++ info :: back)
    (hv : v ∈ front ++ info :: back) (hpid : u.pid = v.pid) : u = v :=
  inj_on_of_nodup_map (hinv.pids hpicks).2 hu hv hpid

/-- The other tasks are different ones, and are tasks of the run. -/
theorem Invariant.others {u : SchedInfo} (hu : u ∈ front ++ back) :
    u ∈ front ++ info :: back ∧ u.pid ≠ info.pid ∧ u.pid ∈ (members cpu r.sched).map pid := by
  have hmem := ((sublist_cons_self info back).append_left front).subset hu
  obtain ⟨hpids, hdistinct⟩ := hinv.pids hpicks
  refine ⟨hmem, fun heq => ?_, hpids ▸ mem_map_of_mem hmem⟩
  rw [map_append, map_cons, nodup_middle, ← map_append] at hdistinct
  exact (nodup_cons.mp hdistinct).1 (heq ▸ mem_map_of_mem hu)

/-- A task that stands before the selected one is ahead of it. -/
theorem Invariant.ahead {u : SchedInfo} (hu : u ∈ front ++ info :: back)
    (hsub : [u.pid, info.pid].Sublist ((members cpu r.sched).map pid)) :
    info.vruntime < u.vruntime := by
  obtain ⟨hpids, hdistinct⟩ := hinv.pids hpicks
  rw [← hpids] at hsub
  rw [map_append, map_cons] at hsub hdistinct
  obtain ⟨v, hv, hpid⟩ := mem_map.mp (mem_front_of_sublist hdistinct hsub)
  rw [← hinv.eq_of_pid hpicks (mem_append_left _ hv) hu hpid]
  exact hpicks.least v hv

theorem Invariant.again {last : SchedInfo} (hcur : r.sched.current cpu = some last)
    (hpid : info.pid = last.pid) : info = last.refill := by
  refine hinv.eq_of_pid hpicks (mem_append_right _ (.head _)) ?_ hpid
  rw [← hpicks.queue, r.sched.requeue_runQueue cpu, hcur]
  exact mem_append_right _ (.head _)

/-- Without the selected task the queue keeps its order. -/
theorem Invariant.order_picked {t u : SchedInfo} (ht : t ∈ front ++ back) (hu : u ∈ front ++ back)
    (hpicked : t.pid ∈ info.pid :: r.picked)
    (hsince : u.pid ∉ (info.pid :: r.picked).takeWhile (· != t.pid)) (hne : u.pid ≠ t.pid) :
    [u.pid, t.pid].Sublist ((front ++ back).map pid) := by
  obtain ⟨-, hnet, hmemt⟩ := hinv.others hpicks ht
  obtain ⟨-, hneu, hmemu⟩ := hinv.others hpicks hu
  rw [takeWhile_cons_of_pos (by simpa using hnet.symm)] at hsince
  have hsub := (hinv.order_requeued ((mem_cons.mp hpicked).resolve_left hnet)
    (fun h => hsince (.tail _ h)) hne hmemu hmemt).erase info.pid
  rw [erase_of_not_mem (by simp [hneu.symm, hnet.symm]), ← (hinv.pids hpicks).1, map_append,
    map_cons, erase_append_right _ fun h => ?_, erase_cons_head, ← map_append] at hsub
  · exact hsub
  · obtain ⟨v, hv, hpid⟩ := mem_map.mp h
    exact (hinv.others hpicks (mem_append_left _ hv)).2.1 hpid

/-- A task that is selected again has been passed by, or the others are ahead of it: one that was
not selected since then stands in front, where ties are broken. -/
theorem Invariant.turns_picked (hagain : info.pid ∈ r.picked) {u : SchedInfo}
    (hu : u ∈ front ++ back) :
    u.pid ∈ r.picked.takeWhile (· != info.pid) ∨ info.vruntime < u.vruntime := by
  by_cases hsel : u.pid ∈ r.picked.takeWhile (· != info.pid)
  · exact .inl hsel
  · obtain ⟨hmem, hne, hpid⟩ := hinv.others hpicks hu
    refine .inr (hinv.ahead hpicks hmem (hinv.order_requeued hagain hsel hne hpid ?_))
    rw [← (hinv.pids hpicks).1]
    exact mem_map_of_mem (mem_append_right _ (.head _))

/-- The task selected again is the one that was running, a tick further. -/
theorem Invariant.streak_picked (hdue : r.due = true) {n : Nat} {earlier : List Nat}
    (heq : r.picked = List.replicate (n + 1) info.pid ++ earlier) : n + 1 ≤ info.vruntime := by
  have hstreak := hinv.streak n _ earlier heq
  obtain ⟨last, hlast, hpid, hgrown⟩ := hinv.latest _ _ heq
  have hran := hinv.asked hdue
  have hvr := hgrown.vruntime
  have hadd : 0 < r.ran * last.pace := Nat.mul_pos hran (hgrown.pace hran)
  rw [hinv.again hpicks hlast hpid.symm]
  show n + 1 ≤ last.vruntime
  omega

end

theorem Invariant.picks (hinv : Invariant cpu r) (hne : members cpu r.sched ≠ []) :
    ∃ front info back, r.sched.Picks cpu front info back := by
  obtain ⟨hpids, hready⟩ := hinv.requeued
  refine r.sched.schedule_ready cpu hready fun hnil => hne ?_
  rw [hnil] at hpids
  exact map_eq_nil_iff.mp hpids.symm

/-- The call of `schedule` that a tick asked for keeps the invariant. -/
theorem Invariant.schedule (hinv : Invariant cpu r) : Invariant cpu (step cpu r .schedule) := by
  unfold step
  by_cases hdue : r.due = true
  swap
  · rw [if_neg hdue]
    exact hinv
  rw [if_pos hdue]
  obtain ⟨front, info, back, hpicks⟩ := hinv.picks (hinv.occupied hdue)
  have hready := hinv.requeued.2
  rw [hpicks.queue] at hready
  rw [hpicks.picked]
  simp only [Option.toList_some, singleton_append]
  refine ⟨hpicks.enabled.trans hinv.enabled, ?_, ?_, nofun, nofun, ?_, ?_, ?_, ?_⟩
  · intro u hu
    unfold members at hu
    rw [hpicks.rest, hpicks.current] at hu
    rcases mem_append.mp hu with h | h
    · exact hready u (hinv.others hpicks h).1
    · cases mem_singleton.mp h
      have hinfo := hready info (mem_append_right _ (.head _))
      exact hinfo
  · unfold members
    rw [hpicks.rest, hpicks.current, map_append]
    have hdistinct := (hinv.pids hpicks).2
    rw [map_append, map_cons, nodup_middle, ← map_append] at hdistinct
    exact (perm_append_singleton info.pid _).nodup_iff.mpr hdistinct
  · intro p earlier heq
    cases heq
    refine ⟨info.refill, hpicks.current, rfl, ?_, ?_, nofun⟩
    · show 2 ≤ (max ((defaultTimeSlice : Int) - info.priority) 2).toNat + 0
      omega
    · rw [hpicks.current]
      simp [refill]
  · intro t ht u hu hne hmu hmt
    rw [hpicks.rest] at hmu hmt ⊢
    obtain ⟨u', hu', rfl⟩ := mem_map.mp hmu
    obtain ⟨t', ht', rfl⟩ := mem_map.mp hmt
    exact hinv.order_picked hpicks ht' hu' ht hu hne
  · intro p earlier heq hagain u hu
    cases heq
    rw [hpicks.rest] at hu
    rw [hpicks.current]
    exact hinv.turns_picked hpicks hagain hu
  · intro n p earlier heq
    cases n with
    | zero => exact Nat.zero_le _
    | succ n =>
      obtain ⟨rfl, hprev⟩ := cons.inj heq
      rw [hpicks.current]
      exact hinv.streak_picked hpicks hdue hprev

/-- The running task is selected again only when every waiting one is ahead: it waits at the end of
the queue, so one at the same virtual runtime would be found first. -/
theorem Invariant.yields (hinv : Invariant cpu r) (hcur : r.sched.current cpu = some info)
    (hagain : (r.sched.schedule cpu).1 = some info.pid) :
    ∀ u ∈ r.sched.runQueue, info.vruntime < u.vruntime := by
  intro u hu
  have hmembers : members cpu r.sched = r.sched.runQueue ++ [info] := by
    unfold members
    rw [hcur]
    rfl
  obtain ⟨front, next, back, hpicks⟩ := hinv.picks (by simp [hmembers])
  rw [hpicks.picked] at hagain
  have hpid : next.pid = info.pid := Option.some.inj hagain
  have hmem : u ∈ front ++ next :: back := by
    rw [← hpicks.queue, r.sched.requeue_runQueue cpu]
    exact mem_append_left _ hu
  have hlt := hinv.ahead hpicks hmem (by
    rw [hmembers, map_append, hpid]
    exact (singleton_sublist.mpr (mem_map_of_mem hu)).append (Sublist.refl [info.pid]))
  rw [hinv.again hpicks hcur hpid] at hlt
  exact hlt

theorem Invariant.grown (hinv : Invariant cpu r) (hcur : r.sched.current cpu = some info)
    (hne : r.picked ≠ []) : Grown r info := by
  obtain ⟨p, earlier, heq⟩ := exists_cons_of_ne_nil hne
  obtain ⟨last, hlast, -, hgrown⟩ := hinv.latest p earlier heq
  rw [hcur] at hlast
  cases hlast
  exact hgrown

/-- The invariant implies fairness. -/
theorem Invariant.fair (hinv : Invariant cpu r) : Fair cpu r where
  grows := by
    intro info hcur hne hslice
    have hgrown := hinv.grown hcur hne
    have htwo := hgrown.slice
    have hran : 0 < r.ran := by omega
    have hadd : 0 < r.ran * info.pace := Nat.mul_pos hran (hgrown.pace hran)
    have hvr := hgrown.vruntime
    omega
  paced := by
    intro info hcur hne
    refine ⟨(hinv.grown hcur hne).vruntime, fun other hle => ?_⟩
    exact Nat.div_le_div_left (by omega) (by omega)
  yields := fun info hcur hagain => hinv.yields hcur hagain
  turns := by
    intro p between earlier heq hbetween u hu
    have hturn := hinv.turns p _ heq (mem_append_right _ (.head _)) u hu
    rw [takeWhile_append_of_pos fun q hq => ?_, takeWhile_cons_of_neg (by simp),
      append_nil] at hturn
    · exact hturn
    · simp only [bne_iff_ne, ne_eq]
      exact fun h => hbetween (h ▸ hq)
  bounded := by
    intro n p earlier heq hn u hu
    have hstreak := hinv.streak n p earlier heq
    obtain ⟨m, rfl⟩ := Nat.exists_eq_succ_of_ne_zero hn.ne'
    rw [replicate_succ, replicate_succ, cons_append, cons_append] at heq
    have hturn := hinv.turns p _ heq (.head _) u hu
    rw [takeWhile_cons_of_neg (by simp)] at hturn
    have hlt := hturn.resolve_left (not_mem_nil)
    omega

end

/-- In every run on one CPU of ready tasks with different pids, in which only tasks of nice value 0
and above are ticked and no virtual runtime passes 64 bits, every state is fair. -/
theorem fairness_not_frozen {cpu : Nat} {start r : Run} (hstart : Start cpu start)
    (hreach : Reach (step cpu) (Ok cpu) start r) : Fair cpu r := by
  have hinv : Invariant cpu r := by
    refine hreach.invariant (Invariant cpu) (.start hstart) fun r op hinv hok => ?_
    cases op with
    | tick => exact hinv.tick hok
    | schedule => exact hinv.schedule
  exact hinv.fair

/-- A run before its first tick: the tasks of a new scheduler, with these nice values. -/
def fresh (tasks : List (Nat × Int)) : Run :=
  { sched := (tasks.foldl (fun s task => s.addProcess task.1 task.2) Scheduler.new).enable
    due := false
    picked := []
    startVr := 0
    ran := 0 }

/-- A task is selected, runs for ten ticks, and is switched. -/
def oneSlice : List Op := [.tick, .schedule] ++ List.replicate 10 .tick ++ [.schedule, .tick]

instance (cpu : Nat) (r : Run) (op : Op) : Decidable (Ok cpu r op) :=
  match op with
  | .tick =>
    match hcur : r.sched.current cpu with
    | none => .isTrue fun info hinfo => by rw [hcur] at hinfo; cases hinfo
    | some info => decidable_of_iff
        (0 ≤ info.priority ∧ info.vruntime + info.pace < 2 ^ 64)
        ⟨fun h info' hinfo => by rw [hcur] at hinfo; cases hinfo; exact h, fun h => h info hcur⟩
  | .schedule => .isTrue trivial

theorem fairness_not_frozen_one_slice :
    Fair 0 (oneSlice.foldl (step 0) (fresh [(5, 0), (6, 3)])) := by
  have hstart : Start 0 (fresh [(5, 0), (6, 3)]) := by
    refine ⟨rfl, fun info hinfo => ?_, by decide +kernel, rfl, rfl⟩
    have hready : ∀ info ∈ members 0 (fresh [(5, 0), (6, 3)]).sched,
        info.policy = .normal ∧ Scheduler.allowed 0 info = true := by decide +kernel
    exact hready info hinfo
  have hadmitted : Admitted (step 0) (Ok 0) (fresh [(5, 0), (6, 3)]) oneSlice := by decide +kernel
  exact fairness_not_frozen hstart (Reach.start.foldl hadmitted)

/-- A task of nice value -1 runs for its slice of eleven ticks. -/
def frozenSlice : List Op := [.tick, .schedule] ++ List.replicate 11 .tick

theorem negative_nice_is_frozen :
    Start 0 (fresh [(5, -1), (6, 0)]) ∧
      Reach (step 0) (fun _ _ => True) (fresh [(5, -1), (6, 0)])
        (frozenSlice.foldl (step 0) (fresh [(5, -1), (6, 0)])) ∧
      ¬ Fair 0 (frozenSlice.foldl (step 0) (fresh [(5, -1), (6, 0)])) := by
  refine ⟨⟨rfl, fun info hinfo => ?_, by decide +kernel, rfl, rfl⟩, Reach.free frozenSlice, ?_⟩
  · have hready : ∀ info ∈ members 0 (fresh [(5, -1), (6, 0)]).sched,
        info.policy = .normal ∧ Scheduler.allowed 0 info = true := by decide +kernel
    exact hready info hinfo
  · intro hfair
    -- the slice is used up and the virtual runtime is still that of the selection
    have hcur : (((frozenSlice.foldl (step 0) (fresh [(5, -1), (6, 0)])).sched.current 0).map
        fun info => (info.timeSlice, info.vruntime)) = some (0, 0) := by decide +kernel
    obtain ⟨info, hinfo, heq⟩ := Option.map_eq_some_iff.mp hcur
    have hlt := hfair.grows info hinfo (by decide +kernel) (Prod.mk.inj heq).1
    rw [(Prod.mk.inj heq).2] at hlt
    cases hlt

end Fairness

end KnoxOS.Sched
