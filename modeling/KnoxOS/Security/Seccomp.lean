import Mathlib.Data.Finset.Max
import KnoxOS.Lib.Map
import KnoxOS.Lib.Word
import KnoxOS.Sched.Signals

/-!
# Seccomp filters

`security/seccomp.rs`: the filter programs a process installs, their interpreter, and the check
that `handle_syscall` makes before every system call. `check_syscall_meet_iff` says for which
results of the filters the check is their meet, for which further filter it only tightens, and for
which parent a forked child is allowed no more; `filters_ignored` has a call that each of the three
lets through. `built_filter_meaning_iff` says which numbers of a list the built filters count, and
`blacklist_forgets_first` has one they do not.
-/

namespace KnoxOS.Security

open Lib
open Std (TreeMap)

inductive SeccompMode where
  | disabled
  | strict
  | filter
  deriving DecidableEq, Repr

structure BpfInsn where
  code : UInt16
  jt : UInt8 := 0
  jf : UInt8 := 0
  k : UInt32
  deriving DecidableEq, Repr

def retKillProcess : UInt32 := 0x80000000
def retAllow : UInt32 := 0x7fff0000

/-- The bytes of `SeccompData`: number, architecture, instruction pointer and arguments. -/
def seccompData (nr : Nat) (args : Vector Nat 6) : List UInt8 :=
  leBytes 4 nr ++ leBytes 4 0xC000003E ++ leBytes 8 0 ++ args.toList.flatMap (leBytes 8)

def validateBpf (program : List BpfInsn) : Bool :=
  program.getLast?.any (·.code &&& 0x07 = 0x06) &&
    program.zipIdx.all fun (insn, i) => insn.code &&& 0x07 != 0x05 ||
      (i + 1 + insn.jt.toNat < program.length && i + 1 + insn.jf.toNat < program.length)

/-- The accumulator after a `BPF_LD`; only words at absolute offsets are loaded. -/
def load (data : List UInt8) (insn : BpfInsn) (accumulator : UInt32) : UInt32 :=
  if insn.code &&& 0xe0 = 0x20 ∧ insn.code &&& 0x18 = 0 ∧ insn.k.toNat + 4 ≤ data.length then
    UInt32.ofNat (leNat ((data.drop insn.k.toNat).take 4))
  else accumulator

/-- Run the rest of a program after jumping over its first `skip` instructions. The offset of an
unconditional jump is `k`, which `validate_bpf` does not look at. -/
def executeBpf (data : List UInt8) : List BpfInsn → (skip : Nat) → UInt32 → UInt32
  | [], _, _ => retKillProcess
  | _ :: rest, skip + 1, accumulator => executeBpf data rest skip accumulator
  | insn :: rest, 0, accumulator =>
    if insn.code &&& 0x07 = 0x00 then executeBpf data rest 0 (load data insn accumulator)
    else if insn.code &&& 0x07 = 0x05 then
      if insn.code &&& 0xf0 = 0x10 then
        executeBpf data rest (if accumulator = insn.k then insn.jt else insn.jf).toNat accumulator
      else executeBpf data rest insn.k.toNat accumulator
    else if insn.code &&& 0x07 = 0x06 then insn.k
    else executeBpf data rest 0 accumulator

/-- The state of a process. Filters are never taken away, and the first one ends `disabled`. -/
structure SeccompState where
  mode : SeccompMode
  filters : List (List BpfInsn)
  unfiltered : mode = .disabled → filters = []

/-- The actions a result can ask for, the most restrictive first; an unknown one is to deny. -/
inductive Action where
  | killProcess
  | killThread
  | trap
  | errno
  | unknown
  | log
  | allow
  deriving DecidableEq, Repr

/-- `result & 0xffff0000`, as the final match of `check_syscall` takes it apart. -/
def action (result : UInt32) : Action :=
  let bits := result.toNat / 0x10000 * 0x10000
  if bits = 0x7fff0000 then .allow
  else if bits = 0x7ffc0000 then .log
  else if bits = 0x00050000 then .errno
  else if bits = 0x00030000 then .trap
  else if bits = 0 then .killThread
  else if bits = 0x80000000 then .killProcess
  else .unknown

/-- What `check_syscall` returns, and the signal it sends to the process. -/
abbrev Answer := Except Int Unit × Option Sched.Signal

/-- The final match of `check_syscall`. -/
def Action.verdict (result : UInt32) : Action → Answer
  | .allow | .log | .unknown => (.ok (), none)
  | .errno => (.error (-(result.toNat % 0x10000)), none)
  | .trap => (.error (-1), some .sigsys)
  | .killThread | .killProcess => (.error (-1), some .sigkill)

def verdict (result : UInt32) : Answer := (action result).verdict result

/-- The loop of `check_syscall` over the results of the filters. -/
def leastResult (results : List UInt32) : UInt32 :=
  results.foldl (fun result action => if action < result then action else result) retAllow

/-- `read`, `write`, `rt_sigreturn`, `exit` and `exit_group`. -/
def strictCalls : List Nat := [0, 1, 15, 60, 231]

namespace SeccompState

def new : SeccompState := ⟨.disabled, [], fun _ => rfl⟩

def accepts (program : List BpfInsn) : Bool :=
  program ≠ [] && program.length ≤ 4096 && validateBpf program

def addFilter (s : SeccompState) (program : List BpfInsn) : Except Int Unit × SeccompState :=
  if accepts program then
    (.ok (), {
      mode := if s.mode = .disabled then .filter else s.mode
      filters := s.filters ++ [program]
      unfiltered := fun h => by split at h <;> simp_all })
  else (.error (-22), s)

/-- What each filter returns for a call. -/
def results (s : SeccompState) (nr : Nat) (args : Vector Nat 6) : List UInt32 :=
  s.filters.map fun filter => executeBpf (seccompData nr args) filter 0 0

/-- `check_syscall` for a process with this state. -/
def check (s : SeccompState) (nr : Nat) (args : Vector Nat 6) : Answer :=
  match s.mode with
  | .disabled => (.ok (), none)
  | .strict => (if nr ∈ strictCalls then .ok () else .error (-1), none)
  | .filter => verdict (leastResult (s.results nr args))

end SeccompState

/-- The table of the states by pid. -/
abbrev SeccompStates := TreeMap Nat SeccompState

def checkSyscall (states : SeccompStates) (pid nr : Nat) (args : Vector Nat 6) : Answer :=
  match states[pid]? with
  | none => (.ok (), none)
  | some s => s.check nr args

/-- The state `entry(pid).or_default()` yields. -/
def stateOf (states : SeccompStates) (pid : Nat) : SeccompState := states[pid]?.getD .new

def seccompSetModeFilter (states : SeccompStates) (pid : Nat) (program : List BpfInsn) :
    Except Int Unit × SeccompStates :=
  let (result, s) := (stateOf states pid).addFilter program
  (result, states.insert pid s)

/-- Neither `sys_fork` nor `sys_clone` calls `inherit_seccomp`, or anything else of this module. -/
def sysFork (states : SeccompStates) (_parent _child : Nat) : SeccompStates := states

/-! ## The filter that decides -/

/-- `ALLOW` and `LOG`. -/
def Permits (result : UInt32) : Prop := action result = .allow ∨ action result = .log

/-- `ERRNO`, `TRAP` and `KILL_THREAD`; `KILL_PROCESS` is above `ALLOW` and never taken. -/
def Denies (result : UInt32) : Prop :=
  action result = .errno ∨ action result = .trap ∨ action result = .killThread

/-- The least of the results, where it is a denial. -/
def Decisive (results : List UInt32) (r : UInt32) : Prop :=
  r ∈ results ∧ Denies r ∧ ∀ r' ∈ results, r ≤ r'

/-- The answer an action asks for. -/
def Action.Asks (r : UInt32) (answer : Answer) : Action → Prop
  | .killProcess | .killThread => answer = (.error (-1), some .sigkill)
  | .trap => answer = (.error (-1), some .sigsys)
  | .errno => answer = (.error (-(r.toNat % 0x10000)), none)
  | .unknown => answer.1 ≠ .ok ()
  | .log | .allow => answer = (.ok (), none)

/-- A call passes only with leave of all, and the most restrictive action decides. -/
structure Enforced (results : List UInt32) (answer : Answer) : Prop where
  leave : answer.1 = .ok () → ∀ r ∈ results, Permits r
  decided : ∀ r ∈ results, (∀ r' ∈ results, (action r).ctorIdx ≤ (action r').ctorIdx) →
    ∃ r' ∈ results, action r' = action r ∧ (action r').Asks r' answer

variable {s : SeccompState} {nr : Nat} {args : Vector Nat 6} {r : UInt32} {results : List UInt32}

theorem action_eq_iff (r : UInt32) :
    (action r = .killThread ↔ r.toNat < 0x10000) ∧ (action r = .trap ↔ r.toNat / 0x10000 = 3) ∧
      (action r = .errno ↔ r.toNat / 0x10000 = 5) ∧
      (action r = .killProcess ↔ r.toNat / 0x10000 = 0x8000) := by
  simp only [action]
  split_ifs <;> simp <;> omega

theorem Denies.lt_allow (h : Denies r) : r < retAllow := by
  rw [UInt32.lt_iff_toNat_lt, show retAllow.toNat = 0x7fff0000 from rfl]
  obtain ⟨hthread, htrap, herrno, -⟩ := action_eq_iff r
  rw [Denies, hthread, htrap, herrno] at h
  omega

/-- Of the results up to `ALLOW` the final match refuses the denials. -/
theorem verdict_ok_iff (h : r ≤ retAllow) : (verdict r).1 = .ok () ↔ ¬ Denies r := by
  have hle : r.toNat ≤ 0x7fff0000 := UInt32.le_iff_toNat_le.mp h
  have hprocess : action r ≠ .killProcess := by
    rw [ne_eq, (action_eq_iff r).2.2.2]
    omega
  unfold verdict Denies
  generalize action r = a at hprocess ⊢
  cases a <;> simp_all [Action.verdict]

theorem Denies.asks (h : Denies r) : (action r).Asks r (verdict r) := by
  unfold verdict Denies at *
  generalize action r = a at h ⊢
  cases a <;> simp_all [Action.Asks, Action.verdict]

theorem Denies.killThread (h : Denies r) (hkill : verdict r = (.error (-1), some .sigkill)) :
    action r = .killThread := by
  unfold verdict Denies at *
  generalize action r = a at h hkill ⊢
  cases a <;> simp_all [Action.verdict]

theorem Permits.verdict (h : Permits r) : verdict r = (.ok (), none) := by
  unfold Security.verdict Permits at *
  generalize action r = a at h ⊢
  cases a <;> simp_all [Action.verdict]

theorem Permits.asks (h : Permits r) : (action r).Asks r (.ok (), none) := by
  unfold Permits at h
  generalize action r = a at h ⊢
  cases a <;> simp_all [Action.Asks]

/-- Beside `KILL_PROCESS` no action is more restrictive than that of the least result. -/
theorem Denies.action_eq {r' : UInt32} (h : Denies r) (hle : r ≤ r')
    (hprocess : action r' ≠ .killProcess)
    (hrank : (action r').ctorIdx ≤ (action r).ctorIdx) : action r' = action r := by
  rw [UInt32.le_iff_toNat_le] at hle
  obtain ⟨hthread, htrap, herrno, -⟩ := action_eq_iff r
  obtain ⟨hthread', htrap', -, -⟩ := action_eq_iff r'
  unfold Denies at h
  generalize action r = a at *
  generalize action r' = a' at *
  cases a <;> cases a' <;> simp_all [Action.ctorIdx] <;> omega

/-- The least of some numbers, with one to begin with. -/
theorem foldl_min (results : List UInt32) (b : UInt32) :
    let least := results.foldl (fun result action => if action < result then action else result) b
    (least = b ∨ least ∈ results) ∧ least ≤ b ∧ ∀ r ∈ results, least ≤ r := by
  induction results generalizing b with
  | nil => exact ⟨.inl rfl, UInt32.le_refl b, by simp⟩
  | cons a results ih =>
    obtain ⟨hmem, hle, hall⟩ := ih (if a < b then a else b)
    have hab : (if a < b then a else b) ≤ a ∧ (if a < b then a else b) ≤ b := by
      split_ifs with h
      · exact ⟨UInt32.le_refl a, UInt32.le_of_lt h⟩
      · exact ⟨UInt32.not_lt.mp h, UInt32.le_refl b⟩
    refine ⟨?_, UInt32.le_trans hle hab.2, fun r hr => ?_⟩
    · rcases hmem with heq | hmem
      · rw [List.foldl_cons, heq]
        split_ifs
        · exact .inr List.mem_cons_self
        · exact .inl rfl
      · exact .inr (List.mem_cons_of_mem a hmem)
    · rcases List.mem_cons.mp hr with rfl | hr
      · exact UInt32.le_trans hle hab.1
      · exact hall r hr

theorem leastResult_spec (results : List UInt32) :
    (leastResult results = retAllow ∨ leastResult results ∈ results) ∧
      leastResult results ≤ retAllow ∧ ∀ r ∈ results, leastResult results ≤ r :=
  foldl_min results retAllow

/-- A decisive result is what the loop ends with. -/
theorem decisive_iff : Decisive results r ↔ Denies r ∧ r = leastResult results := by
  obtain ⟨hmem, -, hall⟩ := leastResult_spec results
  constructor
  · intro ⟨hr, hdenies, hleast⟩
    refine ⟨hdenies, UInt32.le_antisymm ?_ (hall r hr)⟩
    rcases hmem with heq | hmem
    · rw [heq]
      exact UInt32.le_of_lt hdenies.lt_allow
    · exact hleast _ hmem
  · rintro ⟨hdenies, rfl⟩
    refine ⟨hmem.resolve_left fun heq => ?_, hdenies, hall⟩
    exact absurd (heq ▸ hdenies.lt_allow) (UInt32.lt_irrefl _)

open SeccompState

theorem check_eq (hmode : s.mode ≠ .strict) :
    s.check nr args = verdict (leastResult (s.results nr args)) := by
  unfold check
  cases hm : s.mode with
  | strict => exact absurd hm hmode
  | disabled =>
    rw [results, s.unfiltered hm]
    show (Except.ok (), none) = verdict retAllow
    decide +kernel
  | filter => rfl

theorem check_ok_iff (hmode : s.mode ≠ .strict) :
    (s.check nr args).1 = .ok () ↔ ¬ ∃ r, Decisive (s.results nr args) r := by
  rw [check_eq hmode, verdict_ok_iff (leastResult_spec _).2.1]
  simp only [decisive_iff, exists_eq_right]

/-- One more result leaves a decisive one unless it is smaller and no denial itself. -/
theorem decisive_append_iff {new : UInt32} (h : Decisive results r) :
    (∃ r', Decisive (results ++ [new]) r') ↔ r ≤ new ∨ Denies new := by
  obtain ⟨hmem, hdenies, hleast⟩ := h
  constructor
  · intro ⟨r', hmem', hdenies', hleast'⟩
    rcases List.mem_append.mp hmem' with hold | hnew
    · exact .inl (UInt32.le_trans (hleast r' hold) (hleast' new (by simp)))
    · exact .inr (List.mem_singleton.mp hnew ▸ hdenies')
  · intro h
    by_cases hle : r ≤ new
    · refine ⟨r, List.mem_append_left _ hmem, hdenies, fun r' hr' => ?_⟩
      rcases List.mem_append.mp hr' with hold | hnew
      · exact hleast r' hold
      · exact List.mem_singleton.mp hnew ▸ hle
    · refine ⟨new, by simp, h.resolve_left hle, fun r' hr' => ?_⟩
      rcases List.mem_append.mp hr' with hold | hnew
      · exact UInt32.le_trans (UInt32.le_of_lt (UInt32.not_le.mp hle)) (hleast r' hold)
      · exact List.mem_singleton.mp hnew ▸ UInt32.le_refl _

/-! ## The check as a meet -/

/-- The results that bear on a call; strict mode is a filter of its own. -/
def policies (s : SeccompState) (nr : Nat) (args : Vector Nat 6) : List UInt32 :=
  if s.mode = .strict then (if nr ∈ strictCalls then retAllow else 0x00050001) :: s.results nr args
  else s.results nr args

/-- The filters agree on leave, or the least result is a denial and no filter kills the process
where it does less. In strict mode the filters are not run: they have to give leave where the mode
does, and to ask for no more than `ERRNO` where it does not. -/
def Meets (s : SeccompState) (nr : Nat) (args : Vector Nat 6) : Prop :=
  if s.mode = .strict then
    ∀ r ∈ s.results nr args, if nr ∈ strictCalls then Permits r
      else Action.errno.ctorIdx ≤ (action r).ctorIdx
  else
    (∀ r ∈ s.results nr args, Permits r) ∨ ∃ r, Decisive (s.results nr args) r ∧
      (action r = .killThread ∨ ∀ r' ∈ s.results nr args, action r' ≠ .killProcess)

/-- The new filter does not undercut the deciding result by something that is no denial. -/
def Tightens (s : SeccompState) (program : List BpfInsn) (nr : Nat) (args : Vector Nat 6) : Prop :=
  s.mode = .strict ∨ ∀ r, Decisive (s.results nr args) r →
    r ≤ executeBpf (seccompData nr args) program 0 0 ∨
      Denies (executeBpf (seccompData nr args) program 0 0)

/-- No call is refused. -/
def Unrestrained (s : SeccompState) : Prop :=
  s.mode ≠ .strict ∧ ∀ nr args r, ¬ Decisive (s.results nr args) r

theorem checkSyscall_eq (states : SeccompStates) (pid nr : Nat) (args : Vector Nat 6) :
    checkSyscall states pid nr args = (stateOf states pid).check nr args := by
  unfold checkSyscall stateOf
  cases states[pid]? <;> rfl

/-- The final match on the least result. -/
theorem enforced_least_iff :
    Enforced results (verdict (leastResult results)) ↔
      (∀ r ∈ results, Permits r) ∨ ∃ r, Decisive results r ∧
        (action r = .killThread ∨ ∀ r' ∈ results, action r' ≠ .killProcess) := by
  obtain ⟨hmem, hle, -⟩ := leastResult_spec results
  constructor
  · intro ⟨hleave, hdecided⟩
    by_cases hdenies : Denies (leastResult results)
    · refine .inr ⟨_, decisive_iff.mpr ⟨hdenies, rfl⟩, or_iff_not_imp_right.mpr fun hkills => ?_⟩
      push Not at hkills
      obtain ⟨r, hr, haction⟩ := hkills
      obtain ⟨r', -, heq, hasks⟩ := hdecided r hr fun r' _ => by
        rw [haction]
        exact Nat.zero_le _
      rw [heq, haction] at hasks
      exact hdenies.killThread hasks
    · exact .inl (hleave ((verdict_ok_iff hle).mpr hdenies))
  · rintro (hpermits | ⟨r, hdecisive, hkills⟩)
    · have hallow : Permits (leastResult results) := by
        rcases hmem with heq | hmem
        · rw [heq]
          exact .inl (by decide +kernel)
        · exact hpermits _ hmem
      rw [hallow.verdict]
      exact ⟨fun _ => hpermits, fun r hr _ => ⟨r, hr, rfl, (hpermits r hr).asks⟩⟩
    · obtain ⟨hdenies, rfl⟩ := decisive_iff.mp hdecisive
      refine ⟨fun hok => absurd hdenies ((verdict_ok_iff hle).mp hok), fun r hr hrank => ?_⟩
      by_cases hprocess : action r = .killProcess
      · -- the thread is killed as the process would have been
        have hthread := hkills.resolve_right fun h => h r hr hprocess
        refine ⟨r, hr, rfl, ?_⟩
        rw [hprocess, verdict, hthread]
        rfl
      · have heq := hdenies.action_eq (hdecisive.2.2 r hr) hprocess (hrank _ hdecisive.1)
        exact ⟨_, hdecisive.1, heq.symm, hdenies.asks⟩

/-- Strict mode beside filters that are not run. -/
theorem enforced_strict_iff :
    Enforced ((if nr ∈ strictCalls then retAllow else 0x00050001) :: results)
        (if nr ∈ strictCalls then .ok () else .error (-1), none) ↔
      ∀ r ∈ results, if nr ∈ strictCalls then Permits r
        else Action.errno.ctorIdx ≤ (action r).ctorIdx := by
  by_cases hnr : nr ∈ strictCalls
  · simp only [hnr, if_true]
    refine ⟨fun h r hr => h.leave rfl r (List.mem_cons_of_mem _ hr), fun h => ?_⟩
    have hpermits : ∀ r ∈ retAllow :: results, Permits r :=
      List.forall_mem_cons.mpr ⟨.inl (by decide +kernel), h⟩
    exact ⟨fun _ => hpermits, fun r hr _ => ⟨r, hr, rfl, (hpermits r hr).asks⟩⟩
  · simp only [hnr, if_false]
    have herrno : action 0x00050001 = .errno := by decide +kernel
    constructor
    · intro h r hr
      -- a more restrictive action would decide, and send a signal
      obtain ⟨least, hleast, hrank⟩ := (0x00050001 :: results).toFinset.exists_min_image
        (fun r => (action r).ctorIdx) ⟨_, List.mem_toFinset.mpr List.mem_cons_self⟩
      simp only [List.mem_toFinset] at hleast hrank
      obtain ⟨r', -, heq, hasks⟩ := h.decided least hleast hrank
      rw [heq] at hasks
      refine Nat.le_trans ?_ (hrank r (List.mem_cons_of_mem _ hr))
      generalize action least = a at hasks ⊢
      cases a <;> simp_all [Action.Asks, Action.ctorIdx]
    · intro h
      refine ⟨nofun, fun r hr hrank => ⟨0x00050001, List.mem_cons_self, ?_, ?_⟩⟩
      · have hle := hrank _ List.mem_cons_self
        rcases List.mem_cons.mp hr with rfl | hr
        · rfl
        · have hge := h r hr
          rw [herrno] at hle ⊢
          generalize action r = a at hle hge ⊢
          cases a <;> simp_all [Action.ctorIdx]
      · rw [herrno]
        rfl

theorem meets_iff : Enforced (policies s nr args) (s.check nr args) ↔ Meets s nr args := by
  unfold Meets policies
  by_cases hmode : s.mode = .strict
  · rw [if_pos hmode, if_pos hmode, check, hmode]
    exact enforced_strict_iff
  · rw [if_neg hmode, if_neg hmode, check_eq hmode, enforced_least_iff]

/-- A further filter keeps refusals exactly where it tightens the answer. -/
theorem tightens_iff {program : List BpfInsn} (haccepts : accepts program) :
    ((s.check nr args).1 ≠ .ok () → ((s.addFilter program).2.check nr args).1 ≠ .ok ()) ↔
      Tightens s program nr args := by
  have hs : (s.addFilter program).2.mode = (if s.mode = .disabled then .filter else s.mode) ∧
      (s.addFilter program).2.results nr args =
        s.results nr args ++ [executeBpf (seccompData nr args) program 0 0] := by
    simp [addFilter, haccepts, results]
  unfold Tightens
  by_cases hmode : s.mode = .strict
  · simp [check, hs.1, hmode]
  · have hmode' : (s.addFilter program).2.mode ≠ .strict := by
      rw [hs.1]
      split_ifs
      · exact nofun
      · exact hmode
    rw [ne_eq, ne_eq, check_ok_iff hmode, check_ok_iff hmode', not_not, not_not, hs.2,
      or_iff_right hmode, forall_exists_index]
    exact forall₂_congr fun r hr => decisive_append_iff hr

/-- When the check is the meet of the filters. It lets a call pass only if every filter's result is
`ALLOW` or `LOG`, and answers as the most restrictive of them asks for, exactly where `Meets` holds;
an accepted filter lets no refused call pass exactly where `Tightens` holds; and a forked child is
allowed at most what its parent is exactly where the parent is `Unrestrained`. -/
theorem check_syscall_meet_iff (states : SeccompStates) (pid child nr : Nat) (args : Vector Nat 6)
    (program : List BpfInsn) (haccepts : SeccompState.accepts program)
    (hfresh : states[child]? = none) :
    (Enforced (policies (stateOf states pid) nr args) (checkSyscall states pid nr args) ↔
      Meets (stateOf states pid) nr args) ∧
    (((checkSyscall states pid nr args).1 ≠ .ok () →
        (checkSyscall (seccompSetModeFilter states pid program).2 pid nr args).1 ≠ .ok ()) ↔
      Tightens (stateOf states pid) program nr args) ∧
    ((∀ nr args, (checkSyscall (sysFork states pid child) child nr args).1 = .ok () →
        (checkSyscall (sysFork states pid child) pid nr args).1 = .ok ()) ↔
      Unrestrained (stateOf states pid)) := by
  refine ⟨checkSyscall_eq states pid nr args ▸ meets_iff, ?_, ?_⟩
  · rw [checkSyscall_eq, checkSyscall_eq, ← tightens_iff haccepts]
    simp [seccompSetModeFilter, stateOf]
  · have hchild : ∀ nr args, (checkSyscall states child nr args).1 = .ok () := by
      simp [checkSyscall, hfresh]
    simp only [sysFork, hchild, true_imp_iff]
    simp only [checkSyscall_eq]
    unfold Unrestrained
    by_cases hmode : (stateOf states pid).mode = .strict
    · -- `open` is refused in strict mode
      simp only [hmode, ne_eq, not_true_eq_false, false_and, iff_false]
      intro h
      simpa [check, hmode, strictCalls] using h 2 (.replicate 6 0)
    · simp [check_ok_iff hmode, hmode]

/-- Two filters that only return a value, and the state of a process that has installed them. -/
def returning (a b : UInt32) : SeccompStates :=
  (seccompSetModeFilter (seccompSetModeFilter ∅ 7 [⟨6, 0, 0, a⟩]).2 7 [⟨6, 0, 0, b⟩]).2

/-- `TRAP` decides over `ERRNO`, and a filter that kills lets nothing pass. -/
theorem check_syscall_meet_trap :
    Enforced [0x50005, 0x30000] (checkSyscall (returning 0x50005 0x30000) 7 2 (.replicate 6 0)) ∧
    (checkSyscall (seccompSetModeFilter (returning 0x50005 0x30000) 7 [⟨6, 0, 0, 0⟩]).2 7 2
      (.replicate 6 0)).1 ≠ .ok () := by
  have hmeet := check_syscall_meet_iff (returning 0x50005 0x30000) 7 8 2 (.replicate 6 0)
    [⟨6, 0, 0, 0⟩] rfl (by decide +kernel)
  have hresults : (stateOf (returning 0x50005 0x30000) 7).mode = .filter ∧
      (stateOf (returning 0x50005 0x30000) 7).results 2 (.replicate 6 0) = [0x50005, 0x30000] := by
    decide +kernel
  have hdenies : Denies 0x30000 := .inr (.inl (by decide +kernel))
  have hleast : ∀ r ∈ [(0x50005 : UInt32), 0x30000], 0x30000 ≤ r ∧ action r ≠ .killProcess := by
    simp only [List.forall_mem_cons, List.not_mem_nil, false_imp_iff, implies_true, and_true]
    decide +kernel
  have henforced := hmeet.1.mpr
  simp only [Meets, policies, hresults, reduceCtorEq, if_false] at henforced
  refine ⟨henforced (.inr ⟨0x30000, ⟨by decide, hdenies, fun r hr => (hleast r hr).1⟩,
    .inr fun r hr => (hleast r hr).2⟩), ?_⟩
  refine hmeet.2.1.mpr (.inr fun r _ => .inr (.inr (.inr ?_))) (by decide +kernel)
  decide +kernel

/-- A filter whose result is `KILL_PROCESS` is passed over, also where another filter denies; an
unknown action below `ERRNO` lifts its denial; and the child of a confined process is not
confined. -/
theorem filters_ignored :
    (checkSyscall (returning 0x7fff0000 0x80000000) 7 2 (.replicate 6 0) = (.ok (), none) ∧
      checkSyscall (returning 0x50005 0x80000000) 7 2 (.replicate 6 0) = (.error (-5), none) ∧
      retKillProcess ∈ (stateOf (returning 0x7fff0000 0x80000000) 7).results 2 (.replicate 6 0)) ∧
    (checkSyscall (returning 0x7fff0000 0x50001) 7 2 (.replicate 6 0) = (.error (-1), none) ∧
      checkSyscall (seccompSetModeFilter (returning 0x7fff0000 0x50001) 7
        [⟨6, 0, 0, 0x40000⟩]).2 7 2 (.replicate 6 0) = (.ok (), none)) ∧
    checkSyscall (sysFork (returning 0x7fff0000 0x50001) 7 8) 8 2 (.replicate 6 0) =
      (.ok (), none) := by
  decide +kernel

/-! ## Built filters -/

/-- The distance over the `rest` of the comparisons to the last instruction has eight bits. -/
def comparisons : List UInt32 → List BpfInsn
  | [] => []
  | nr :: rest => ⟨0x15, UInt8.ofNat (rest.length + 1), 0, nr⟩ :: comparisons rest

/-- The four builders load the number (`BPF_LD | BPF_W | BPF_ABS`), compare it with each of the
list (`BPF_JMP | BPF_JEQ | BPF_K`) and return one of two values (`BPF_RET | BPF_K`). -/
def buildFilter (calls : List UInt32) (unmatched matched : UInt32) : List BpfInsn :=
  ⟨0x20, 0, 0, 0⟩ :: (comparisons calls ++ [⟨0x06, 0, 0, unmatched⟩, ⟨0x06, 0, 0, matched⟩])

/-- `SECCOMP_RET_ERRNO | errno`. -/
def retErrno (errno : UInt16) : UInt32 := 0x00050000 ||| errno.toUInt32

def buildBlacklistFilter (blocked : List UInt32) : List BpfInsn :=
  buildFilter blocked retAllow retKillProcess

def buildWhitelistFilter (allowed : List UInt32) : List BpfInsn :=
  buildFilter allowed retKillProcess retAllow

def buildErrnoFilter (blocked : List UInt32) (errno : UInt16) : List BpfInsn :=
  buildFilter blocked retAllow (retErrno errno)

def buildWhitelistErrnoFilter (allowed : List UInt32) (errno : UInt16) : List BpfInsn :=
  buildFilter allowed (retErrno errno) retAllow

variable {data : List UInt8} (calls : List UInt32) (unmatched matched : UInt32)

/-- A jump over 256 or more comparisons wraps round, but never beyond the last 255. -/
theorem executeBpf_comparisons (acc : UInt32) {skip : Nat} (hskip : skip ≤ calls.length + 1) :
    executeBpf data (comparisons calls ++ [⟨0x06, 0, 0, unmatched⟩, ⟨0x06, 0, 0, matched⟩]) skip
      acc = if skip = calls.length + 1 ∨ acc ∈ calls.drop (max skip (calls.length - 255))
        then matched else unmatched := by
  induction calls generalizing skip with
  | nil =>
    rcases Nat.le_one_iff_eq_zero_or_eq_one.mp hskip with rfl | rfl <;>
      simp +decide [comparisons, executeBpf]
  | cons call calls ih =>
    rw [List.length_cons] at hskip ⊢
    cases skip with
    | succ skip =>
      refine (ih (by omega)).trans (if_congr (or_congr Nat.add_right_cancel_iff.symm ?_) rfl rfl)
      rw [show max (skip + 1) (calls.length + 1 - 255) = max skip (calls.length - 255) + 1 by omega,
        List.drop_succ_cons]
    | zero =>
      have hdrop : acc ∈ (call :: calls).drop (calls.length + 1 - 255) ↔
          (acc = call ∧ calls.length < 255) ∨ acc ∈ calls.drop (calls.length - 255) := by
        by_cases hlong : calls.length < 255
        · simp [Nat.sub_eq_zero_of_le (show calls.length + 1 ≤ 255 by omega),
            Nat.sub_eq_zero_of_le (Nat.le_of_lt hlong), hlong]
        · simp [Nat.sub_add_comm (Nat.not_lt.mp hlong), hlong]
      have hstep : executeBpf data (comparisons (call :: calls) ++
          [⟨0x06, 0, 0, unmatched⟩, ⟨0x06, 0, 0, matched⟩]) 0 acc =
            executeBpf data (comparisons calls ++ [⟨0x06, 0, 0, unmatched⟩, ⟨0x06, 0, 0, matched⟩])
              (if acc = call then (calls.length + 1) % 256 else 0) acc := by
        simp +decide [executeBpf, comparisons, apply_ite]
      rw [hstep, ih (by split_ifs <;> omega)]
      refine if_congr ?_ rfl rfl
      rw [Nat.zero_max, hdrop]
      split_ifs with hcall
      · rw [and_iff_right hcall]
        by_cases hlong : calls.length < 255
        · exact iff_of_true (.inl (by omega)) (.inr (.inl hlong))
        · have hwrap : (calls.length + 1) % 256 ≠ calls.length + 1 ∧
              (calls.length + 1) % 256 ≤ calls.length - 255 := by omega
          simp [hlong, hwrap.1, max_eq_right hwrap.2]
      · simp [hcall]

/-- A built filter matches the last 255 of its calls. -/
theorem executeBpf_buildFilter (nr : UInt32) (args : Vector Nat 6) :
    executeBpf (seccompData nr.toNat args) (buildFilter calls unmatched matched) 0 0 =
      if nr ∈ calls.drop (calls.length - 255) then matched else unmatched := by
  have hword : (seccompData nr.toNat args).take 4 = leBytes 4 nr.toNat := by
    rw [seccompData, List.append_assoc, List.append_assoc, List.take_left' (length_leBytes 4 _)]
  have hload : load (seccompData nr.toNat args) ⟨0x20, 0, 0, 0⟩ 0 = nr := by
    rw [load, if_pos ⟨rfl, rfl, by simp [seccompData]⟩]
    show UInt32.ofNat (leNat ((seccompData nr.toNat args).take 4)) = nr
    rw [hword, leNat_leBytes_of_lt nr.toNat_lt, UInt32.ofNat_toNat]
  show executeBpf _ _ 0 (load (seccompData nr.toNat args) ⟨0x20, 0, 0, 0⟩ 0) = _
  rw [hload, executeBpf_comparisons calls unmatched matched nr (Nat.zero_le _)]
  simp

theorem length_comparisons : (comparisons calls).length = calls.length := by
  induction calls with
  | nil => rfl
  | cons call calls ih => rw [comparisons, List.length_cons, ih, List.length_cons]

/-- The jumps of the comparisons from index `k` on stay in a program of length `n`. -/
theorem jumps_comparisons {k n i : Nat} {insn : BpfInsn} (hn : k + calls.length + 1 < n)
    (he : (insn, i) ∈ (comparisons calls).zipIdx k) :
    i + 1 + insn.jt.toNat < n ∧ i + 1 + insn.jf.toNat < n := by
  induction calls generalizing k with
  | nil => exact absurd he List.not_mem_nil
  | cons call calls ih =>
    rw [List.length_cons] at hn
    rcases List.mem_cons.mp he with hfirst | he
    · cases hfirst
      rw [UInt8.toNat_ofNat', UInt8.toNat_zero]
      omega
    · exact ih (by omega) he

/-- The program has at most 4096 instructions. -/
theorem accepts_buildFilter :
    accepts (buildFilter calls unmatched matched) = true ↔ calls.length ≤ 4093 := by
  have hlength : (buildFilter calls unmatched matched).length = calls.length + 3 := by
    rw [buildFilter, List.length_cons, List.length_append, length_comparisons]
    rfl
  have hlast : (buildFilter calls unmatched matched).getLast? = some ⟨0x06, 0, 0, matched⟩ := by
    rw [buildFilter, ← List.cons_append, List.getLast?_append]
    rfl
  have hvalid : validateBpf (buildFilter calls unmatched matched) = true := by
    rw [validateBpf, hlast, hlength, Bool.and_eq_true, List.all_eq_true]
    refine ⟨by simp +decide, fun (insn, i) he => ?_⟩
    rw [buildFilter, List.zipIdx_cons, List.zipIdx_append, List.mem_cons, List.mem_append] at he
    rcases he with hfirst | he | hreturn
    · cases hfirst
      rfl
    · have hjumps := jumps_comparisons calls (n := calls.length + 3) (by omega) he
      simp [hjumps]
    · rcases List.mem_cons.mp hreturn with heq | hmatched
      · cases heq
        simp +decide
      · cases List.mem_singleton.mp hmatched
        simp +decide
  rw [accepts, hvalid, hlength]
  simp [buildFilter]

/-- When the built filters mean what their lists say. Up to 4093 numbers are accepted, and a number
of the list counts exactly where it is among the last 255. -/
theorem built_filter_meaning_iff (nr : UInt32) (errno : UInt16) (args : Vector Nat 6) :
    ∀ f ∈ [(buildBlacklistFilter calls, retKillProcess, retAllow),
        (buildWhitelistFilter calls, retAllow, retKillProcess),
        (buildErrnoFilter calls errno, retErrno errno, retAllow),
        (buildWhitelistErrnoFilter calls errno, retAllow, retErrno errno)],
      (accepts f.1 = true ↔ calls.length ≤ 4093) ∧
      (executeBpf (seccompData nr.toNat args) f.1 0 0 = (if nr ∈ calls then f.2.1 else f.2.2) ↔
        (nr ∈ calls → nr ∈ calls.drop (calls.length - 255))) := by
  have hlt : (retErrno errno).toNat < 2 ^ 19 := by
    rw [retErrno, UInt32.toNat_or]
    exact Nat.or_lt_two_pow (by decide) (Nat.lt_trans errno.toNat_lt (by decide))
  have herrno : retErrno errno ≠ retAllow := by
    intro h
    rw [h] at hlt
    exact absurd hlt (by decide)
  have hbuilt : ∀ unmatched matched, matched ≠ unmatched →
      (accepts (buildFilter calls unmatched matched) = true ↔ calls.length ≤ 4093) ∧
      (executeBpf (seccompData nr.toNat args) (buildFilter calls unmatched matched) 0 0 =
        (if nr ∈ calls then matched else unmatched) ↔
        (nr ∈ calls → nr ∈ calls.drop (calls.length - 255))) := by
    intro unmatched matched hne
    refine ⟨accepts_buildFilter calls unmatched matched, ?_⟩
    have hmem : nr ∈ calls.drop (calls.length - 255) → nr ∈ calls := List.mem_of_mem_drop
    rw [executeBpf_buildFilter]
    by_cases hlast : nr ∈ calls.drop (calls.length - 255)
    · simp [hlast, hmem hlast]
    · by_cases hnr : nr ∈ calls <;> simp [hlast, hnr, hne.symm]
  simp only [List.forall_mem_cons, List.not_mem_nil, false_imp_iff, implies_true, and_true]
  exact ⟨hbuilt _ _ (by decide), hbuilt _ _ (by decide), hbuilt _ _ herrno, hbuilt _ _ herrno.symm⟩

/-- The filter of `deny_self_test` denies `getpid` with `EPERM`. -/
theorem built_filter_meaning_getpid :
    executeBpf (seccompData 39 (.replicate 6 0)) (buildErrnoFilter [39] 1) 0 0 = 0x00050001 := by
  have hfilter := built_filter_meaning_iff [39] 39 1 (.replicate 6 0)
    (buildErrnoFilter [39] 1, retErrno 1, retAllow) (by simp)
  exact hfilter.2.mpr (by simp)

/-- The first of 256 numbers is not blocked. -/
theorem blacklist_forgets_first :
    accepts (buildBlacklistFilter (0 :: .replicate 255 1)) = true ∧
    executeBpf (seccompData 0 (.replicate 6 0)) (buildBlacklistFilter (0 :: .replicate 255 1)) 0 0 =
      retAllow := by
  decide +kernel

end KnoxOS.Security
