import KnoxOS.Sched.Signals

/-!
# Job control

Runs of `kill` with the three job-control signals and of `deliver_signals`, on any CPU, for one
process. A run remembers the signals that were sent. `job_control_holds` says that in every run in
which SIGCONT is sent only while no deliverable stop signal is queued, and stop signals only where
they are neither ignored nor taken by a signalfd, the process follows the last signal: a stop signal
that takes effect was sent after the last SIGCONT, nothing but a new SIGCONT resumes a stopped
process, and once everything is handled the process is stopped exactly when the last signal was a
stop signal.
-/

namespace KnoxOS.Sched

open Lib SignalKernel List

namespace ProcessSignals

/-- What a round of `deliver_signals` does to the queue: it takes out ignored entries and the one it
returns. -/
structure Taken (ps : ProcessSignals) (found : Option (PendingSignal × SignalAction))
    (ps' : ProcessSignals) : Prop where
  dispositions : ps'.dispositions = ps.dispositions
  mask : ps'.mask = ps.mask
  kept : ∀ e ∈ ps'.pending, e ∈ ps.pending
  gone : ∀ e ∈ ps.pending, e ∈ ps'.pending ∨ found = some (e, ps.getAction e.signal) ∨
    ps.getAction e.signal = .ignore
  hit : ∀ e action, found = some (e, action) → e ∈ ps.pending ∧ ps.deliverable e = true ∧
    action = ps.getAction e.signal

/-- Taking one entry out. -/
theorem dequeueSignal_spec {ps ps' : ProcessSignals} {entry : PendingSignal}
    (h : ps.dequeueSignal = some (entry, ps')) :
    ps'.dispositions = ps.dispositions ∧ ps'.mask = ps.mask ∧ entry ∈ ps.pending ∧
      ps.deliverable entry = true ∧ ∀ e, e ∈ ps.pending ↔ e = entry ∨ e ∈ ps'.pending := by
  obtain ⟨found, hfind, heq⟩ := Option.map_eq_some_iff.mp h
  cases heq
  refine ⟨rfl, rfl, mem_of_find?_eq_some hfind, find?_some hfind, fun e => ?_⟩
  exact ((perm_eraseP hfind).mem_iff).trans mem_cons

theorem getAction_congr {ps ps' : ProcessSignals} (h : ps'.dispositions = ps.dispositions)
    (sig : Signal) : ps'.getAction sig = ps.getAction sig := by
  unfold getAction
  rw [h]

/-- What is taken from the queue in search of an action. -/
theorem nextAction_taken (fuel : Nat) (ps : ProcessSignals) :
    Taken ps (ps.nextAction fuel).1 (ps.nextAction fuel).2 := by
  induction fuel generalizing ps with
  | zero => exact ⟨rfl, rfl, fun _ h => h, fun _ h => .inl h, nofun⟩
  | succ fuel ih =>
    unfold nextAction
    cases hdeq : ps.dequeueSignal with
    | none => exact ⟨rfl, rfl, fun _ h => h, fun _ h => .inl h, nofun⟩
    | some taken =>
      obtain ⟨entry, rest⟩ := taken
      obtain ⟨hdisp, hmask, hmem, hdel, hqueue⟩ := dequeueSignal_spec hdeq
      have hact := getAction_congr hdisp
      -- an entry that is not ignored ends the round
      have hstop : Taken ps (some (entry, rest.getAction entry.signal)) rest := by
        refine ⟨hdisp, hmask, fun e he => (hqueue e).mpr (.inr he), fun e he => ?_, ?_⟩
        · rcases (hqueue e).mp he with rfl | hrest
          · exact .inr (.inl (by rw [hact]))
          · exact .inl hrest
        · intro e action heq
          cases heq
          exact ⟨hmem, hdel, hact _⟩
      simp only
      split
      next haction =>
        obtain ⟨hdisp', hmask', hkept, hgone, hhit⟩ := ih rest
        refine ⟨hdisp'.trans hdisp, hmask'.trans hmask,
          fun e he => (hqueue e).mpr (.inr (hkept e he)), fun e he => ?_, ?_⟩
        · rcases (hqueue e).mp he with rfl | hrest
          · exact .inr (.inr ((hact _).symm.trans haction))
          · have hcase := hgone e hrest
            rw [hact] at hcase
            exact hcase
        · intro e action heq
          obtain ⟨hin, hdel', haction'⟩ := hhit e action heq
          refine ⟨(hqueue e).mpr (.inr hin), ?_, haction'.trans (hact _)⟩
          unfold deliverable at hdel' ⊢
          rw [← hmask]
          exact hdel'
      next => exact hstop

end ProcessSignals

namespace SignalKernel

/-- The process is stopped. -/
def Stopped (k : SignalKernel) (pid : Nat) : Prop :=
  (k.table.getProcess pid).any (·.state = .stopped) = true

instance (k : SignalKernel) (pid : Nat) : Decidable (k.Stopped pid) :=
  inferInstanceAs (Decidable (_ = true))

section

variable {k : SignalKernel} {pid : Nat} {e : PendingSignal} {sent : List PendingSignal}

/-- Setting a state decides whether the process is stopped. -/
theorem stopped_setState (state : ProcessState) (hproc : (k.table.getProcess pid).isSome) :
    ((k.table.setState pid state).getProcess pid).isSome ∧
      (((k.table.setState pid state).getProcess pid).any (·.state = .stopped) = true ↔
        state = .stopped) := by
  rw [k.table.getProcess_setState]
  cases hp : k.table.getProcess pid with
  | none => rw [hp] at hproc; cases hproc
  | some p => simp

/-- A user process is stopped by `stop_process`. -/
theorem stopProcess_spec (cpu : Nat) (huser : desktopPid < pid)
    (hproc : (k.table.getProcess pid).isSome) :
    (k.stopProcess cpu pid).Stopped pid ∧
      ((k.stopProcess cpu pid).table.getProcess pid).isSome ∧
      (k.stopProcess cpu pid).signals = k.signals := by
  unfold stopProcess
  rw [if_neg (by omega)]
  obtain ⟨hsome, hstopped⟩ := stopped_setState .stopped hproc
  exact ⟨hstopped.mpr rfl, hsome, rfl⟩

theorem continueProcess_awake (h : ¬ k.Stopped pid) : k.continueProcess pid = k := by
  unfold continueProcess
  split_ifs with huser hstopped
  · rfl
  · exact absurd hstopped h
  · rfl

/-- A process is not stopped after `continue_process`. -/
theorem continueProcess_spec (huser : desktopPid < pid) (hproc : (k.table.getProcess pid).isSome) :
    ¬ (k.continueProcess pid).Stopped pid ∧
      ((k.continueProcess pid).table.getProcess pid).isSome ∧
      (k.continueProcess pid).signals = k.signals := by
  by_cases hstop : k.Stopped pid
  · unfold continueProcess
    rw [if_neg (by omega)]
    have hcond : (k.table.getProcess pid).any (·.state = .stopped) = true := hstop
    rw [if_pos hcond]
    obtain ⟨hsome, hstopped⟩ := stopped_setState .ready hproc
    exact ⟨fun h => absurd (hstopped.mp h) (by decide), hsome, rfl⟩
  · rw [continueProcess_awake hstop]
    exact ⟨hstop, hproc, rfl⟩

end

end SignalKernel

namespace JobControl

/-- The job-control signals of a run. -/
inductive JobSignal where
  | stop
  | tstp
  | cont
deriving DecidableEq, Repr

def JobSignal.signal : JobSignal → Signal
  | .stop => .sigstop
  | .tstp => .sigtstp
  | .cont => .sigcont

/-- The tables, and the signals sent to the process with the latest first. -/
structure Run where
  kernel : SignalKernel
  sent : List PendingSignal

/-- The calls, each made on some CPU. -/
inductive Op where
  | kill (cpu : Nat) (sig : JobSignal) (sender : Nat)
  | deliver (cpu : Nat)

/-- One call for the process; signals are delivered only while it is not stopped. -/
def step (pid : Nat) (r : Run) : Op → Run
  | .kill cpu sig sender =>
    { kernel := (r.kernel.kill cpu pid sig.signal sender).2
      sent := ⟨sig.signal, sender, r.kernel.timestamp⟩ :: r.sent }
  | .deliver cpu =>
    if r.kernel.Stopped pid then r
    else { r with kernel := (r.kernel.deliverSignals cpu pid).2 }

/-- No handler is installed for a job-control signal. -/
def NoHandlers (ps : ProcessSignals) : Prop :=
  ∀ sig : JobSignal, ∀ addr, ps.getAction sig.signal ≠ .handler addr

/-- A user process that is not stopped, without handlers for the job-control signals and with an
empty queue. -/
structure Start (pid : Nat) (r : Run) : Prop where
  user : desktopPid < pid
  present : (r.kernel.table.getProcess pid).isSome
  awake : ¬ r.kernel.Stopped pid
  signals : ∃ ps, r.kernel.signals[pid]? = some ps ∧ NoHandlers ps ∧ ps.pending = []
  sent : r.sent = []

/-- SIGCONT is sent only while no deliverable stop signal is queued, SIGTSTP only while it is not
ignored, and no signalfd takes a job-control signal. -/
def Ok (pid : Nat) (r : Run) : Op → Prop
  | .kill _ sig _ => r.kernel.caught pid sig.signal = false ∧
      ∀ ps, r.kernel.signals[pid]? = some ps →
        (sig = .tstp → ps.getAction .sigtstp ≠ .ignore) ∧
        (sig = .cont → ∀ e ∈ ps.pending, ps.deliverable e = true →
          ps.getAction e.signal ≠ .stop)
  | .deliver _ => True

/-- The signals sent after the last SIGCONT. -/
def sinceCont (sent : List PendingSignal) : List PendingSignal :=
  sent.takeWhile fun e => e.signal != .sigcont

/-- The last signal sent is a stop signal. -/
def LastStops (sent : List PendingSignal) : Prop :=
  ∃ e earlier, sent = e :: earlier ∧ e.signal ≠ .sigcont

/-- What job control asks of a state. -/
structure Obeys (pid : Nat) (r : Run) : Prop where
  /-- A queued stop signal that takes effect was sent after the last SIGCONT. -/
  fresh : ¬ r.kernel.Stopped pid → ∀ ps, r.kernel.signals[pid]? = some ps →
    ∀ e, (ps.nextAction ps.pending.length).1 = some (e, .stop) → e ∈ sinceCont r.sent
  /-- A stopped process is resumed by a new SIGCONT only. -/
  held : r.kernel.Stopped pid → ∀ op, ¬ (step pid r op).kernel.Stopped pid →
    ∃ cpu sender, op = .kill cpu .cont sender
  /-- Once all signals are handled, the process follows the last one. -/
  settled : ∀ ps, r.kernel.signals[pid]? = some ps →
    r.kernel.Stopped pid ∨ ps.pending = [] → (r.kernel.Stopped pid ↔ LastStops r.sent)

/-- The invariant: a deliverable stop signal in the queue is newer than every SIGCONT, a stopped
process was sent a stop signal last, and one that is not stopped has its last stop signal still in
the queue. -/
structure Invariant (pid : Nat) (r : Run) (ps : ProcessSignals) : Prop where
  user : desktopPid < pid
  present : (r.kernel.table.getProcess pid).isSome
  signals : r.kernel.signals[pid]? = some ps
  noHandlers : NoHandlers ps
  origin : ∀ e ∈ ps.pending, ∃ sig : JobSignal, e.signal = sig.signal
  fresh : ∀ e ∈ ps.pending, ps.deliverable e = true → ps.getAction e.signal = .stop →
    e ∈ sinceCont r.sent
  last : r.kernel.Stopped pid → LastStops r.sent
  waiting : ¬ r.kernel.Stopped pid → ∀ e earlier, r.sent = e :: earlier → e.signal ≠ .sigcont →
    e ∈ ps.pending ∧ ps.getAction e.signal = .stop

section

variable {cpu pid : Nat} {r : Run} {ps : ProcessSignals}

theorem Invariant.start (h : Start pid r) : ∃ ps, Invariant pid r ps := by
  obtain ⟨ps, hps, hno, hempty⟩ := h.signals
  refine ⟨ps, h.user, h.present, hps, hno, ?_, ?_, fun hs => absurd hs h.awake, ?_⟩
  · rw [hempty]
    nofun
  · rw [hempty]
    nofun
  · rw [h.sent]
    nofun

/-- The action of a job-control signal without a handler. -/
theorem action_cases (hno : NoHandlers ps) (sig : JobSignal) :
    ps.getAction sig.signal = .ignore ∨
      ps.getAction sig.signal = if sig = .cont then .cont else .stop := by
  have hno' := hno sig
  unfold ProcessSignals.getAction at hno' ⊢
  cases hd : ps.dispositions[sig.signal.number]? with
  | none => cases sig <;> exact .inr rfl
  | some d =>
    rw [hd] at hno'
    cases d with
    | default => cases sig <;> exact .inr rfl
    | ignore => exact .inl rfl
    | handler addr => exact absurd rfl (hno' addr)

theorem lastStops_of_mem (h : e ∈ sinceCont sent) : LastStops sent := by
  cases sent with
  | nil => cases h
  | cons first earlier =>
    refine ⟨first, earlier, rfl, fun hcont => ?_⟩
    unfold sinceCont at h
    rw [takeWhile_cons_of_neg (by simpa using hcont)] at h
    cases h

theorem sinceCont_cons_of_ne (h : e.signal ≠ .sigcont) :
    sinceCont (e :: sent) = e :: sinceCont sent :=
  takeWhile_cons_of_pos (by simpa using h)

/-- The tables once the signal is in the queue. -/
def queued (k : SignalKernel) (pid : Nat) (ps : ProcessSignals) (sig : Signal) (sender : Nat) :
    SignalKernel :=
  { k with
    signals := k.signals.insert pid (ps.sendSignal ⟨sig, sender, k.timestamp⟩)
    timestamp := u64 (k.timestamp + 1) }

theorem kill_queued {k : SignalKernel} {sig : Signal} {sender : Nat}
    (hps : k.signals[pid]? = some ps) (hcaught : k.caught pid sig = false) :
    (k.kill cpu pid sig sender).2 = ((queued k pid ps sig sender).actAtOnce cpu pid sig).2 := by
  unfold SignalKernel.kill
  rw [hps]
  simp only
  rw [if_neg (by rw [hcaught]; simp)]
  rfl

section

variable (hinv : Invariant pid r ps)
include hinv

/-- Sending a job-control signal keeps the invariant. -/
theorem Invariant.kill {sig : JobSignal} {sender : Nat} (hok : Ok pid r (.kill cpu sig sender)) :
    ∃ ps', Invariant pid (step pid r (.kill cpu sig sender)) ps' := by
  obtain ⟨hcaught, hok⟩ := hok
  obtain ⟨htstp, hcont⟩ := hok ps hinv.signals
  generalize hentry : (⟨sig.signal, sender, r.kernel.timestamp⟩ : PendingSignal) = entry
  have hsignal : entry.signal = sig.signal := by rw [← hentry]
  -- the queue afterwards
  have hmem : ∀ e ∈ (ps.sendSignal entry).pending, e ∈ ps.pending ∨ e = entry := by
    intro e he
    rcases mem_append.mp he with h | h
    · exact .inl h
    · exact .inr (mem_singleton.mp h)
  have horigin : ∀ e ∈ (ps.sendSignal entry).pending, ∃ sig : JobSignal, e.signal = sig.signal := by
    intro e he
    rcases hmem e he with h | rfl
    · exact hinv.origin e h
    · exact ⟨sig, hsignal⟩
  have hnew : entry ∈ (ps.sendSignal entry).pending :=
    mem_append_right _ (mem_singleton.mpr rfl)
  have hlookup : (queued r.kernel pid ps sig.signal sender).signals[pid]? =
      some (ps.sendSignal entry) := by
    unfold queued
    rw [hentry]
    exact Std.TreeMap.getElem?_insert_self
  -- a stop signal is newer than every SIGCONT
  have hfresh : entry.signal ≠ .sigcont → ∀ e ∈ (ps.sendSignal entry).pending,
      ps.deliverable e = true → ps.getAction e.signal = .stop →
        e ∈ sinceCont (entry :: r.sent) := by
    intro hne e he hdel hact
    rw [sinceCont_cons_of_ne hne]
    rcases hmem e he with h | rfl
    · exact mem_cons_of_mem _ (hinv.fresh e h hdel hact)
    · exact mem_cons_self
  have hstep : step pid r (.kill cpu sig sender) =
      { kernel := ((queued r.kernel pid ps sig.signal sender).actAtOnce cpu pid sig.signal).2
        sent := entry :: r.sent } := by
    simp only [step]
    rw [kill_queued hinv.signals hcaught, hentry]
  rw [hstep]
  refine ⟨ps.sendSignal entry, ?_⟩
  cases sig with
  | stop =>
    obtain ⟨hstopped, hpresent, hsame⟩ :=
      stopProcess_spec (k := queued r.kernel pid ps .sigstop sender) cpu hinv.user
        hinv.present
    have hne : entry.signal ≠ .sigcont := by rw [hsignal]; decide
    exact ⟨hinv.user, hpresent, hsame ▸ hlookup, hinv.noHandlers, horigin, hfresh hne,
      fun _ => ⟨entry, r.sent, rfl, hne⟩, fun h => absurd hstopped h⟩
  | tstp =>
    have hne : entry.signal ≠ .sigcont := by rw [hsignal]; decide
    have hact : ps.getAction entry.signal = .stop := by
      rw [hsignal]
      exact (action_cases hinv.noHandlers .tstp).resolve_left (htstp rfl)
    refine ⟨hinv.user, hinv.present, hlookup, hinv.noHandlers, horigin, hfresh hne,
      fun _ => ⟨entry, r.sent, rfl, hne⟩, fun _ e earlier heq _ => ?_⟩
    cases heq
    exact ⟨hnew, hact⟩
  | cont =>
    obtain ⟨hawake, hpresent, hsame⟩ :=
      continueProcess_spec (k := queued r.kernel pid ps .sigcont sender) hinv.user
        hinv.present
    refine ⟨hinv.user, hpresent, hsame ▸ hlookup, hinv.noHandlers, horigin, ?_,
      fun h => absurd h hawake, fun _ e earlier heq hne => ?_⟩
    · intro e he hdel hact
      rcases hmem e he with h | rfl
      · exact absurd hact (hcont rfl e h hdel)
      · have hcase := action_cases hinv.noHandlers .cont
        rw [hsignal] at hact
        have hact' : ps.getAction JobSignal.cont.signal = .stop := hact
        rw [hact'] at hcase
        rcases hcase with h | h
        · cases h
        · cases h
    · cases heq
      exact absurd hsignal hne

/-- Delivering signals to a process that is not stopped keeps the invariant. -/
theorem Invariant.deliver : ∃ ps', Invariant pid (step pid r (.deliver cpu)) ps' := by
  simp only [step]
  by_cases hstop : r.kernel.Stopped pid
  · rw [if_pos hstop]
    exact ⟨ps, hinv⟩
  rw [if_neg hstop]
  unfold deliverSignals
  rw [hinv.signals]
  have htaken := ps.nextAction_taken ps.pending.length
  simp only
  generalize (ps.nextAction ps.pending.length).1 = found at htaken ⊢
  generalize (ps.nextAction ps.pending.length).2 = ps' at htaken ⊢
  have hact := ProcessSignals.getAction_congr htaken.dispositions
  have hno : NoHandlers ps' := by
    intro sig addr
    rw [hact]
    exact hinv.noHandlers sig addr
  have horigin : ∀ e ∈ ps'.pending, ∃ sig : JobSignal, e.signal = sig.signal :=
    fun e he => hinv.origin e (htaken.kept e he)
  have hfresh : ∀ e ∈ ps'.pending, ps'.deliverable e = true → ps'.getAction e.signal = .stop →
      e ∈ sinceCont r.sent := by
    intro e he hdel hstop'
    rw [hact] at hstop'
    unfold ProcessSignals.deliverable at hdel
    rw [htaken.mask] at hdel
    exact hinv.fresh e (htaken.kept e he) hdel hstop'
  -- a last stop signal that did not take effect is still queued
  have hwaiting : (∀ e, found ≠ some (e, .stop)) → ∀ e earlier, r.sent = e :: earlier →
      e.signal ≠ .sigcont → e ∈ ps'.pending ∧ ps'.getAction e.signal = .stop := by
    intro hfound e earlier heq hne
    obtain ⟨hmem, hstop'⟩ := hinv.waiting hstop e earlier heq hne
    refine ⟨?_, (hact _).trans hstop'⟩
    rcases htaken.gone e hmem with h | h | h
    · exact h
    · rw [hstop'] at h
      exact absurd h (hfound e)
    · rw [hstop'] at h
      cases h
  have hquiet : (∀ e, found ≠ some (e, .stop)) → Invariant pid
      { r with kernel := { r.kernel with signals := r.kernel.signals.insert pid ps' } } ps' :=
    fun hfound => ⟨hinv.user, hinv.present, Std.TreeMap.getElem?_insert_self, hno, horigin, hfresh,
      fun h => absurd h hstop, fun _ => hwaiting hfound⟩
  refine ⟨ps', ?_⟩
  cases hfound : found with
  | none => exact hquiet fun e h => by rw [hfound] at h; cases h
  | some hit =>
    obtain ⟨e, action⟩ := hit
    obtain ⟨hmem, hdel, haction⟩ := htaken.hit e action hfound
    obtain ⟨sig, hsig⟩ := hinv.origin e hmem
    have hcases := action_cases hinv.noHandlers sig
    rw [← hsig, ← haction] at hcases
    by_cases hact' : action = .stop
    · subst hact'
      obtain ⟨hstopped, hpresent, hsame⟩ := stopProcess_spec
        (k := { r.kernel with signals := r.kernel.signals.insert pid ps' }) cpu hinv.user
        hinv.present
      refine ⟨hinv.user, hpresent, ?_, hno, horigin, hfresh, fun _ => ?_,
        fun h => absurd hstopped h⟩
      · have hlookup : (r.kernel.signals.insert pid ps')[pid]? = some ps' :=
          Std.TreeMap.getElem?_insert_self
        exact hsame ▸ hlookup
      · exact lastStops_of_mem (hinv.fresh e hmem hdel haction.symm)
    · have hnone : ∀ e', found ≠ some (e', .stop) := by
        intro e' h
        rw [hfound] at h
        cases h
        exact hact' rfl
      -- the process is not stopped, so continuing it does nothing
      have hbase := hquiet hnone
      rcases hcases with h | h
      · rw [h]
        exact hbase
      · split_ifs at h with hcont
        · rw [h]
          have hsame := continueProcess_awake
            (k := { r.kernel with signals := r.kernel.signals.insert pid ps' }) hstop
          show Invariant pid { r with kernel := continueProcess _ pid } ps'
          rw [hsame]
          exact hbase
        · exact absurd h hact'

/-- A stopped process stays stopped under anything but SIGCONT. -/
theorem Invariant.held (hstop : r.kernel.Stopped pid) {op : Op}
    (hop : ∀ cpu sender, op ≠ .kill cpu .cont sender) : (step pid r op).kernel.Stopped pid := by
  cases op with
  | deliver cpu =>
    simp only [step]
    rw [if_pos hstop]
    exact hstop
  | kill cpu sig sender =>
    simp only [step]
    by_cases hcaught : r.kernel.caught pid sig.signal = true
    · -- a signalfd takes the signal, and the process table stays as it is
      have hkill : (r.kernel.kill cpu pid sig.signal sender).2 =
          (r.kernel.deliverToPid pid sig.signal sender).2 := by
        unfold SignalKernel.kill
        rw [hinv.signals]
        simp only
        rw [if_pos ⟨by cases sig <;> decide, hcaught⟩]
      rw [hkill]
      exact hstop
    · rw [kill_queued hinv.signals (by simpa using hcaught)]
      cases sig with
      | stop =>
        exact (stopProcess_spec (k := queued r.kernel pid ps .sigstop sender) cpu
          hinv.user hinv.present).1
      | tstp => exact hstop
      | cont => exact absurd rfl (hop cpu sender)

/-- The invariant says what job control asks for. -/
theorem Invariant.obeys : Obeys pid r where
  fresh := by
    intro _ ps' hps e hfound
    cases (hinv.signals.symm.trans hps)
    obtain ⟨hmem, hdel, haction⟩ := (ps.nextAction_taken ps.pending.length).hit e .stop hfound
    exact hinv.fresh e hmem hdel haction.symm
  held := by
    intro hstop op hresumed
    by_contra hop
    exact hresumed (hinv.held hstop fun cpu sender heq => hop ⟨cpu, sender, heq⟩)
  settled := by
    intro ps' hps hsettled
    cases (hinv.signals.symm.trans hps)
    refine ⟨hinv.last, fun ⟨e, earlier, heq, hne⟩ => ?_⟩
    by_contra hstop
    have hmem := (hinv.waiting hstop e earlier heq hne).1
    rw [hsettled.resolve_left hstop] at hmem
    cases hmem

end

end

/-- In every run from `Start` whose calls meet `Ok`, every state obeys job control. -/
theorem job_control_holds {pid : Nat} {start r : Run} (hstart : Start pid start)
    (hreach : Reach (step pid) (Ok pid) start r) : Obeys pid r := by
  obtain ⟨ps, hinv⟩ : ∃ ps, Invariant pid r ps := by
    refine hreach.invariant (fun r => ∃ ps, Invariant pid r ps) (Invariant.start hstart) ?_
    intro r op hinv hok
    obtain ⟨ps, hinv⟩ := hinv
    cases op with
    | kill cpu sig sender => exact hinv.kill hok
    | deliver cpu => exact hinv.deliver
  exact hinv.obeys

/-- A process with fresh signal state, before any signal. -/
def fresh : Run where
  kernel :=
    { table := (ProcessTable.new.spawn "job" 1).2
      sched := Scheduler.new
      signals := (∅ : Std.TreeMap Nat ProcessSignals).insert 3 .new
      timestamp := 0
      signalFds := ∅ }
  sent := []

theorem fresh_start : Start 3 fresh := by
  refine ⟨by decide, by decide +kernel, by decide +kernel, ⟨.new, ?_, ?_, rfl⟩, rfl⟩
  · exact Std.TreeMap.getElem?_insert_self
  · intro sig addr
    cases sig <;> exact nofun

instance (pid : Nat) (r : Run) (op : Op) : Decidable (Ok pid r op) :=
  match op with
  | .kill _ sig _ => @instDecidableAnd _ _ inferInstance <| decidable_of_iff
      (∀ ps ∈ r.kernel.signals[pid]?,
        (sig = .tstp → ps.getAction .sigtstp ≠ .ignore) ∧
        (sig = .cont → ∀ e ∈ ps.pending, ps.deliverable e = true →
          ps.getAction e.signal ≠ .stop)) Iff.rfl
  | .deliver _ => .isTrue trivial

/-- The process is stopped, continued and stopped again, each signal delivered before the next. -/
def stopAndGo : List Op :=
  [.kill 0 .tstp 1, .deliver 1, .kill 0 .cont 1, .deliver 1, .kill 0 .tstp 1, .deliver 1]

/-- A process that is stopped twice. -/
theorem job_control_holds_stop_and_go : Obeys 3 (stopAndGo.foldl (step 3) fresh) := by
  have hadmitted : Admitted (step 3) (Ok 3) fresh stopAndGo := by decide +kernel
  exact job_control_holds fresh_start (Reach.start.foldl hadmitted)

/-- SIGSTOP, then SIGCONT, then the queue is handled. -/
def stopThenCont : List Op := [.kill 0 .stop 1, .kill 0 .cont 1, .deliver 0]

/-- A stop that is handled after the SIGCONT stops the process again. -/
theorem stop_before_cont_stops_again :
    Start 3 fresh ∧
      Reach (step 3) (fun _ _ => True) fresh (stopThenCont.foldl (step 3) fresh) ∧
      ¬ Obeys 3 (stopThenCont.foldl (step 3) fresh) := by
  refine ⟨fresh_start, Reach.free stopThenCont, fun hobeys => ?_⟩
  have hsignals : ((stopThenCont.foldl (step 3) fresh).kernel.signals[3]?).isSome = true := by
    decide +kernel
  obtain ⟨ps, hps⟩ := Option.isSome_iff_exists.mp hsignals
  have hstopped : (stopThenCont.foldl (step 3) fresh).kernel.Stopped 3 := by decide +kernel
  obtain ⟨e, earlier, heq, hne⟩ := (hobeys.settled ps hps (.inl hstopped)).mp hstopped
  -- the last signal sent was SIGCONT
  have hlast : ((stopThenCont.foldl (step 3) fresh).sent.map PendingSignal.signal).head? =
      some .sigcont := by decide +kernel
  rw [heq] at hlast
  exact hne (Option.some.inj hlast)

end JobControl

end KnoxOS.Sched
