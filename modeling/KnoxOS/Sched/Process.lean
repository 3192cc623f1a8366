import Mathlib.Algebra.Group.Nat.Defs
import Mathlib.Data.List.Nodup

/-!
# The process table

`ProcessTable` of `sched/process.rs` with its spawning, exit and wait functions. Processes are kept
in a vector; a lookup by pid takes the first match, and the wait functions differ in the filter by
which they select the zombie they remove.
-/

namespace KnoxOS.Sched

open List

/-- The last pid that is not a scheduled user task. -/
def desktopPid : Nat := 2

inductive ProcessState where
  | running
  | ready
  | sleeping
  | stopped
  | zombie
  deriving DecidableEq, Repr

structure Process where
  pid : Nat
  ppid : Nat
  name : String
  state : ProcessState := .ready
  uid : Nat := 1000
  gid : Nat := 1000
  cwd : String := "/home/user"
  root : String := "/"
  oldRoot : String := ""
  putOld : String := ""
  priority : Int := 0
  hasAddressSpace : Bool := false
  entryPoint : Nat := 0
  userStackTop : Nat := 0
  exitCode : Int := 0
  deriving DecidableEq, Repr

structure ProcessTable where
  processes : List Process
  nextPid : Nat
  deriving DecidableEq, Repr

/-- Addition on `u32`. -/
def u32 (n : Nat) : Nat := n % 2 ^ 32

theorem u32_of_lt {n : Nat} (h : n < 2 ^ 32) : u32 n = n := Nat.mod_eq_of_lt h

/-- `position` and `remove`: the first process that satisfies `p` leaves the vector. -/
def takeFirst (p : Process → Bool) (processes : List Process) : Option (Process × List Process) :=
  (processes.find? p).map fun q => (q, processes.eraseP p)

/-- Change the first process with the given pid. -/
def modifyProcess (pid : Nat) (f : Process → Process) : List Process → List Process
  | [] => []
  | p :: rest => if p.pid = pid then f p :: rest else p :: modifyProcess pid f rest

namespace ProcessTable

/-- The kernel, `init` and the desktop. -/
def new : ProcessTable where
  processes := [
    { pid := 0, ppid := 0, name := "[kernel]", state := .running, uid := 0, gid := 0, cwd := "/" },
    { pid := 1, ppid := 0, name := "init", state := .running, uid := 0, gid := 0, cwd := "/" },
    { pid := 2, ppid := 1, name := "knoxos-desktop", state := .running }]
  nextPid := 3

def getProcess (t : ProcessTable) (pid : Nat) : Option Process :=
  t.processes.find? (·.pid = pid)

def spawn (t : ProcessTable) (name : String) (ppid : Nat) : Nat × ProcessTable :=
  (t.nextPid, {
    processes := t.processes ++ [{ pid := t.nextPid, ppid := ppid, name := name }]
    nextPid := u32 (t.nextPid + 1) })

/-- The child copies its parent, a zombie included. -/
def fork (t : ProcessTable) (parentPid : Nat) : Option Nat × ProcessTable :=
  match t.getProcess parentPid with
  | none => (none, t)
  | some parent =>
    (some t.nextPid, {
      processes := t.processes ++
        [{ parent with pid := t.nextPid, ppid := parentPid, state := .ready, exitCode := 0 }]
      nextPid := u32 (t.nextPid + 1) })

/-- Make a process a zombie and give its living children to `init`. -/
def exitProcess (t : ProcessTable) (pid : Nat) (exitCode : Int) : Bool × ProcessTable :=
  if pid ≤ 1 then (false, t)
  else
    match t.getProcess pid with
    | none => (false, t)
    | some proc =>
      if proc.state = .zombie then (false, t)
      else
        let processes := modifyProcess pid
          (fun p => { p with state := .zombie, exitCode := exitCode }) t.processes
        (true, { t with processes := processes.map fun child =>
          if child.ppid = pid ∧ child.state ≠ .zombie then { child with ppid := 1 } else child })

def kill (t : ProcessTable) (pid : Nat) : Bool × ProcessTable := t.exitProcess pid (-9)

def setState (t : ProcessTable) (pid : Nat) (state : ProcessState) : ProcessTable :=
  { t with processes := modifyProcess pid (fun p => { p with state := state }) t.processes }

/-- Reap the first zombie with the given pid, or any zombie for pid 0. -/
def waitpid (t : ProcessTable) (pid : Nat) : Option (Nat × Int) × ProcessTable :=
  match takeFirst (fun p => (pid = 0 ∨ p.pid = pid) ∧ p.state = .zombie) t.processes with
  | none => (none, t)
  | some (child, rest) => (some (child.pid, child.exitCode), { t with processes := rest })

/-- The children that `waitpid_options` looks at. -/
def matchesWait (targetPid : Int) (parentPid : Nat) (p : Process) : Bool :=
  p.ppid = parentPid ∧ (targetPid ≤ 0 ∨ (p.pid : Int) = targetPid)

/-- Reap a zombie child, or report a stopped one under `WUNTRACED`; `ECHILD` without a child. -/
def waitpidOptions (t : ProcessTable) (targetPid : Int) (parentPid : Nat)
    (_wnohang wuntraced : Bool) : Except Int (Option (Nat × Int)) × ProcessTable :=
  if !t.processes.any (matchesWait targetPid parentPid) then (.error (-10), t)
  else
    match takeFirst (fun p => matchesWait targetPid parentPid p && p.state = .zombie)
        t.processes with
    | some (child, rest) => (.ok (some (child.pid, child.exitCode)), { t with processes := rest })
    | none =>
      if wuntraced then
        match t.processes.find? fun p =>
            matchesWait targetPid parentPid p && p.state = .stopped with
        | some child => (.ok (some (child.pid, 0x137F)), t)
        | none => (.ok none, t)
      else (.ok none, t)

/-- `wait_child`: the parent's pid is not used. -/
def waitChild (t : ProcessTable) (_parentPid : Nat) (targetPid : Int) :
    Option (Nat × Int) × ProcessTable :=
  t.waitpid (if targetPid < 0 then 0 else targetPid.toNat)

/-- Remove all zombie children of a process. -/
def reapZombies (t : ProcessTable) (ppid : Nat) : List Nat × ProcessTable :=
  ((t.processes.filter fun p => p.ppid = ppid ∧ p.state = .zombie).map (·.pid),
    { t with processes := t.processes.filter fun p => ¬ (p.ppid = ppid ∧ p.state = .zombie) })

end ProcessTable

/-! ## Lemmas on the vector -/

variable {p : Process → Bool} {q : Process} {l rest : List Process} {pid : Nat}
  {f : Process → Process} {t : ProcessTable}

/-- What is taken is in the vector and satisfies the predicate. -/
theorem takeFirst_eq_some (h : takeFirst p l = some (q, rest)) :
    q ∈ l ∧ p q = true ∧ rest = l.eraseP p := by
  unfold takeFirst at h
  rw [Option.map_eq_some_iff] at h
  obtain ⟨q', hfind, heq⟩ := h
  cases heq
  exact ⟨mem_of_find?_eq_some hfind, find?_some hfind, rfl⟩

theorem takeFirst_eq_none (h : takeFirst p l = none) : ∀ q ∈ l, p q = false := by
  unfold takeFirst at h
  rw [Option.map_eq_none_iff, find?_eq_none] at h
  exact fun q hq => Bool.eq_false_iff.mpr (h q hq)

/-- Where pids are unique, changing the first match changes the only one. -/
theorem modifyProcess_eq_map (hnodup : (l.map (·.pid)).Nodup) :
    modifyProcess pid f l = l.map fun p => if p.pid = pid then f p else p := by
  induction l with
  | nil => rfl
  | cons p rest ih =>
    rw [map_cons, nodup_cons] at hnodup
    rw [modifyProcess, map_cons, ih hnodup.2]
    split_ifs with hpid
    · -- no later process has the pid
      have hrest : (rest.map fun p => if p.pid = pid then f p else p) = rest := by
        refine map_congr_left (g := id) (fun p' hp' => ?_) |>.trans (map_id _)
        rw [if_neg]
        · rfl
        · intro heq
          exact hnodup.1 (mem_map.mpr ⟨p', hp', heq.trans hpid.symm⟩)
      rw [hrest]
    · rfl

theorem eq_of_pid_eq {q' : Process} (hnodup : (l.map (·.pid)).Nodup) (hq : q ∈ l) (hq' : q' ∈ l)
    (heq : q.pid = q'.pid) : q = q' :=
  inj_on_of_nodup_map hnodup hq hq' heq

/-- The first process with a pid is the one that changes. -/
theorem find?_modifyProcess (hf : ∀ p, (f p).pid = p.pid) (l : List Process) :
    (modifyProcess pid f l).find? (·.pid = pid) = (l.find? (·.pid = pid)).map f := by
  induction l with
  | nil => rfl
  | cons p l ih =>
    unfold modifyProcess
    by_cases hp : p.pid = pid
    · simp [hp, hf]
    · simp [hp, ih]

theorem ProcessTable.getProcess_setState (t : ProcessTable) (pid : Nat) (state : ProcessState) :
    (t.setState pid state).getProcess pid =
      (t.getProcess pid).map fun p => { p with state := state } := by
  refine find?_modifyProcess ?_ t.processes
  exact fun _ => rfl

theorem getProcess_eq_some (h : t.getProcess pid = some q) : q ∈ t.processes ∧ q.pid = pid := by
  exact ⟨mem_of_find?_eq_some h, by simpa using find?_some h⟩

/-! ## Unique pids -/

/-- No two processes share a pid, and the next pid is above them all. -/
structure ProcessTable.UniquePids (t : ProcessTable) : Prop where
  nodup : (t.processes.map (·.pid)).Nodup
  fresh : ∀ q ∈ t.processes, q.pid < t.nextPid

namespace ProcessTable.UniquePids

variable {t : ProcessTable}

section

variable (h : t.UniquePids)
include h

/-- A new process takes the next pid. -/
theorem append {child : Process} (hpid : child.pid = t.nextPid) (hnext : t.nextPid + 1 < 2 ^ 32) :
    UniquePids ⟨t.processes ++ [child], u32 (t.nextPid + 1)⟩ := by
  refine ⟨?_, fun q hq => ?_⟩
  · rw [map_append, nodup_append]
    refine ⟨h.nodup, by simp, ?_⟩
    intro pid hmem pid' hmem' heq
    obtain ⟨q, hq, rfl⟩ := mem_map.mp hmem
    simp only [map_cons, map_nil, mem_singleton] at hmem'
    have hlt := h.fresh q hq
    omega
  · rw [u32_of_lt hnext]
    rcases mem_append.mp hq with hold | hnew
    · exact Nat.lt_succ_of_lt (h.fresh q hold)
    · rw [mem_singleton.mp hnew, hpid]
      exact Nat.lt_succ_self _

/-- Processes change, but not their pids. -/
theorem map (hpid : ∀ q, (f q).pid = q.pid) :
    UniquePids { t with processes := t.processes.map f } := by
  refine ⟨?_, fun q hq => ?_⟩
  · simpa [Function.comp_def, hpid] using h.nodup
  · obtain ⟨old, hold, rfl⟩ := mem_map.mp hq
    rw [hpid]
    exact h.fresh old hold

/-- A process is found under its pid. -/
theorem getProcess_of_mem {q : Process} (hq : q ∈ t.processes) : t.getProcess q.pid = some q := by
  cases hfind : t.getProcess q.pid with
  | none => simpa using find?_eq_none.mp hfind q hq
  | some q' =>
    obtain ⟨hmem, hpid⟩ := getProcess_eq_some hfind
    rw [eq_of_pid_eq h.nodup hmem hq hpid]

theorem sublist {rest : List Process} (hsub : rest.Sublist t.processes) :
    UniquePids { t with processes := rest } :=
  ⟨(hsub.map _).nodup h.nodup, fun q hq => h.fresh q (hsub.subset hq)⟩

end

end ProcessTable.UniquePids

/-- A process after the exit of `pid`. -/
def afterExit (pid : Nat) (exitCode : Int) (p : Process) : Process :=
  if p.pid = pid then { p with state := .zombie, exitCode := exitCode }
  else if p.ppid = pid ∧ p.state ≠ .zombie then { p with ppid := 1 }
  else p

@[simp] theorem afterExit_pid (pid : Nat) (exitCode : Int) (p : Process) :
    (afterExit pid exitCode p).pid = p.pid := by
  unfold afterExit
  split_ifs <;> rfl

/-- A call on a process that is not alive changes nothing; the exit of a living one changes each
process by `afterExit`. -/
theorem exitProcess_cases (h : t.UniquePids) (pid : Nat) (exitCode : Int) :
    (t.exitProcess pid exitCode = (false, t) ∧
      (1 < pid → ∀ q ∈ t.processes, q.pid = pid → q.state = .zombie)) ∨
    (1 < pid ∧ (∃ q ∈ t.processes, q.pid = pid ∧ q.state ≠ .zombie) ∧
      t.exitProcess pid exitCode =
        (true, { t with processes := t.processes.map (afterExit pid exitCode) })) := by
  unfold ProcessTable.exitProcess
  split_ifs with hlow
  · exact .inl ⟨rfl, fun hhigh => absurd hlow (by omega)⟩
  cases hfind : t.getProcess pid with
  | none =>
    refine .inl ⟨rfl, fun _ q hq hpid => ?_⟩
    exact absurd hpid (by simpa using find?_eq_none.mp hfind q hq)
  | some proc =>
    obtain ⟨hmem, hpid⟩ := getProcess_eq_some hfind
    dsimp only
    split_ifs with hzombie
    · refine .inl ⟨rfl, fun _ q hq hq' => ?_⟩
      rw [eq_of_pid_eq h.nodup hq hmem (hq'.trans hpid.symm)]
      exact hzombie
    · refine .inr ⟨by omega, ⟨proc, hmem, hpid, hzombie⟩, ?_⟩
      rw [modifyProcess_eq_map h.nodup, map_map]
      refine congrArg (fun l => (true, { t with processes := l })) (map_congr_left ?_)
      intro p _
      simp only [Function.comp_apply, afterExit]
      by_cases hp : p.pid = pid
      · simp [hp]
      · simp [hp]

/-- A process keeps its parent when it exits. -/
theorem getProcess_exitProcess (t : ProcessTable) (hpid : 1 < pid) (exitCode : Int) :
    (t.exitProcess pid exitCode).2.getProcess pid = (t.getProcess pid).map fun q =>
      if q.state = .zombie then q else { q with state := .zombie, exitCode := exitCode } := by
  unfold ProcessTable.exitProcess
  rw [if_neg (Nat.not_le.mpr hpid)]
  cases hfind : t.getProcess pid with
  | none => exact hfind
  | some proc =>
    dsimp only
    split_ifs with hzombie
    · rw [hfind, Option.map_some, if_pos hzombie]
    · have hkeep : ((fun p : Process => decide (p.pid = pid)) ∘ fun child : Process =>
          if child.ppid = pid ∧ child.state ≠ .zombie then { child with ppid := 1 } else child) =
          fun p => decide (p.pid = pid) := by
        funext child
        simp only [Function.comp_apply]
        split_ifs <;> rfl
      unfold ProcessTable.getProcess at hfind ⊢
      rw [find?_map, hkeep, find?_modifyProcess (by exact fun _ => rfl), hfind]
      simp [hzombie]

/-- What `waitpid_options` can do. -/
inductive WaitCase (t : ProcessTable) (targetPid : Int) (parentPid : Nat) (wuntraced : Bool) :
    Except Int (Option (Nat × Int)) × ProcessTable → Prop where
  | none (result : Except Int (Option (Nat × Int)))
      (hresult : result = .error (-10) ∨ result = .ok none)
      (hnone : ∀ q ∈ t.processes, ProcessTable.matchesWait targetPid parentPid q = true →
        q.state ≠ .zombie ∧ (wuntraced = true → q.state ≠ .stopped)) :
      WaitCase t targetPid parentPid wuntraced (result, t)
  | reaped (child : Process) (hmem : child ∈ t.processes)
      (hmatch : ProcessTable.matchesWait targetPid parentPid child = true)
      (hzombie : child.state = .zombie) :
      WaitCase t targetPid parentPid wuntraced (.ok (some (child.pid, child.exitCode)),
        { t with processes := t.processes.eraseP fun p =>
            ProcessTable.matchesWait targetPid parentPid p && p.state = .zombie })
  | stopped (child : Process) (hmem : child ∈ t.processes)
      (hmatch : ProcessTable.matchesWait targetPid parentPid child = true)
      (hstopped : child.state = .stopped) (hwuntraced : wuntraced = true)
      (hnone : ∀ q ∈ t.processes, ProcessTable.matchesWait targetPid parentPid q = true →
        q.state ≠ .zombie) :
      WaitCase t targetPid parentPid wuntraced (.ok (some (child.pid, 0x137F)), t)

/-- The result of `waitpid_options` is one of these. -/
theorem waitpidOptions_cases (t : ProcessTable) (targetPid : Int) (parentPid : Nat)
    (wnohang wuntraced : Bool) : WaitCase t targetPid parentPid wuntraced
      (t.waitpidOptions targetPid parentPid wnohang wuntraced) := by
  unfold ProcessTable.waitpidOptions
  split
  · next hany =>
      refine .none _ (.inl rfl) fun q hq hmatch => ?_
      rw [Bool.not_eq_true', any_eq_false] at hany
      exact absurd hmatch (hany q hq)
  cases htake : takeFirst (fun p => ProcessTable.matchesWait targetPid parentPid p &&
      p.state = .zombie) t.processes with
  | some taken =>
    obtain ⟨hmem, hp, heq⟩ := takeFirst_eq_some htake
    rw [Bool.and_eq_true, decide_eq_true_iff] at hp
    dsimp only
    rw [heq]
    exact .reaped taken.1 hmem hp.1 hp.2
  | none =>
    have hnone : ∀ q ∈ t.processes, ProcessTable.matchesWait targetPid parentPid q = true →
        q.state ≠ .zombie := by
      intro q hq hmatch hzombie
      have hnot := takeFirst_eq_none htake q hq
      simp [hmatch, hzombie] at hnot
    dsimp only
    split
    · next hwuntraced =>
        split
        · next child hfind =>
            have hp := find?_some hfind
            rw [Bool.and_eq_true, decide_eq_true_iff] at hp
            exact .stopped child (mem_of_find?_eq_some hfind) hp.1 hp.2 hwuntraced hnone
        · next hfind =>
            refine .none _ (.inr rfl) fun q hq hmatch => ⟨hnone q hq hmatch, fun _ hstopped => ?_⟩
            have hnot := find?_eq_none.mp hfind q hq
            simp [hmatch, hstopped] at hnot
    · next hwuntraced =>
        exact .none _ (.inr rfl) fun q hq hmatch => ⟨hnone q hq hmatch, hwuntraced.elim⟩

/-- What `waitpid` can do. -/
theorem waitpid_cases (t : ProcessTable) (pid : Nat) :
    (t.waitpid pid = (none, t) ∧
      ∀ q ∈ t.processes, pid = 0 ∨ q.pid = pid → q.state ≠ .zombie) ∨
    ∃ child ∈ t.processes, (pid = 0 ∨ child.pid = pid) ∧ child.state = .zombie ∧
      t.waitpid pid = (some (child.pid, child.exitCode),
        { t with processes := t.processes.eraseP fun p =>
            (pid = 0 ∨ p.pid = pid) ∧ p.state = .zombie }) := by
  unfold ProcessTable.waitpid
  split
  · next htake =>
      refine .inl ⟨rfl, fun q hq hpid hzombie => ?_⟩
      have hnot := takeFirst_eq_none htake q hq
      simp [hpid, hzombie] at hnot
  · next child rest htake =>
      obtain ⟨hmem, hp, rfl⟩ := takeFirst_eq_some htake
      rw [decide_eq_true_iff] at hp
      exact .inr ⟨child, hmem, hp.1, hp.2, rfl⟩

end KnoxOS.Sched
