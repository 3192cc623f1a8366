import KnoxOS.Lib.Map
import KnoxOS.Lib.Parse
import KnoxOS.Lib.Reach
import KnoxOS.Lib.Vec

/-!
# Event polling

The epoll instance of `ipc/epoll.rs`. For an edge-triggered descriptor the instance keeps the
events of the last report and stays silent while the same events are ready. The kept set is not
cleared when the descriptor is found not ready, nor by `EPOLL_CTL_MOD`, so an edge back to that
set is not reported (`second_edge_is_lost`). The main theorem, `polls_report_iff`, says in terms
of the run's history which polls report all they have to.
-/

namespace KnoxOS.Epoll

open Function Lib List
open Std (TreeMap)

/-- A set of event bits. -/
abbrev Events := BitVec 32

def EPOLLIN : Events := 0x001
def EPOLLOUT : Events := 0x004
def EPOLLET : Events := 1 <<< 31
def EPOLLONESHOT : Events := 1 <<< 30

structure EpollEvent where
  events : Events
  data : Nat
deriving DecidableEq, Repr

structure EpollEntry where
  fd : Int
  path : String
  events : Events
  data : Nat
  edgeTriggered : Bool
  oneshot : Bool
  lastReady : Events
deriving DecidableEq, Repr

/-- The answers of the objects behind the descriptors: `pipe_available`, `pipe_space` and the
`would_read` of event, timer and signal descriptors. -/
structure Sources where
  pipeAvailable : Nat → Nat
  pipeSpace : Nat → Nat
  eventfdWouldRead : Int → Bool
  timerfdWouldRead : Int → Bool
  signalfdWouldRead : Int → Bool

/-! ### Readiness -/

/-- The watched events among those a descriptor is ready for. -/
def readyOf (interest : Events) (canRead canWrite : Bool) : Events :=
  (if interest &&& EPOLLIN ≠ 0 ∧ canRead then EPOLLIN else 0) |||
    (if interest &&& EPOLLOUT ≠ 0 ∧ canWrite then EPOLLOUT else 0)

def defaultFileReadiness (interest : Events) : Events := readyOf interest true true

/-- `check_path_readiness`. A path whose id does not parse is treated as a file. -/
def checkPathReadiness (src : Sources) (path : String) (interest : Events) : Events :=
  match (afterTag "pipe:" path).bind parseU32 with
  | some id => readyOf interest (0 < src.pipeAvailable id) (0 < src.pipeSpace id)
  | none =>
  match (afterTag "eventfd:" path).bind parseI32 with
  | some id => readyOf interest (src.eventfdWouldRead id) true
  | none =>
  match (afterTag "timerfd:" path).bind parseI32 with
  | some id => readyOf interest (src.timerfdWouldRead id) false
  | none =>
  match (afterTag "signalfd:" path).bind parseI32 with
  | some id => readyOf interest (src.signalfdWouldRead id) false
  | none => defaultFileReadiness interest

/-- The events an entry is ready for. -/
def EpollEntry.ready (src : Sources) (e : EpollEntry) : Events :=
  checkPathReadiness src e.path e.events

theorem readyOf_zero (canRead canWrite : Bool) : readyOf 0 canRead canWrite = 0 := by
  simp [readyOf]

/-- Nothing is ready that is not watched. -/
theorem ready_of_events_eq_zero {src : Sources} {e : EpollEntry} (h : e.events = 0) :
    e.ready src = 0 := by
  unfold EpollEntry.ready checkPathReadiness
  rw [h]
  split
  · exact readyOf_zero _ _
  · split
    · exact readyOf_zero _ _
    · split
      · exact readyOf_zero _ _
      · split <;> exact readyOf_zero _ _

/-! ### The instance -/

structure EpollInstance where
  entries : TreeMap Int EpollEntry

/-- The state of a poll: the entries, the events so far with their descriptors, and the one-shot
descriptors that fired. -/
structure PollState where
  entries : TreeMap Int EpollEntry
  reports : List (Int × EpollEvent)
  toDisable : List Int

/-- The entry as a report leaves it in the loop. -/
def EpollEntry.noted (e : EpollEntry) (ready : Events) : EpollEntry :=
  if e.edgeTriggered then { e with lastReady := ready } else e

/-- The entry as a one-shot report leaves it after the loop. -/
def EpollEntry.disabled (e : EpollEntry) : EpollEntry := { e with events := 0 }

/-- The round of the loop for one entry, with a buffer of `len` events. Once that is full no entry
changes anything, as after the `break`. -/
def pollEntry (src : Sources) (len : Nat) (st : PollState) (e : Int × EpollEntry) : PollState :=
  if len ≤ st.reports.length then st
  else
    let ready := e.2.ready src
    if ready = 0 then st
    else if e.2.edgeTriggered ∧ ready = e.2.lastReady then st
    else
      { entries := st.entries.insert e.1 (e.2.noted ready)
        reports := st.reports ++ [(e.1, ⟨ready, e.2.data⟩)]
        toDisable := if e.2.oneshot then st.toDisable ++ [e.2.fd] else st.toDisable }

namespace EpollInstance

def add (s : EpollInstance) (fd : Int) (event : EpollEvent) (path : String) :
    Except Int EpollInstance :=
  if s.entries.contains fd then .error (-17)
  else
    .ok ⟨s.entries.insert fd
      { fd := fd
        path := path
        events := event.events &&& ~~~(EPOLLET ||| EPOLLONESHOT)
        data := event.data
        edgeTriggered := event.events &&& EPOLLET ≠ 0
        oneshot := event.events &&& EPOLLONESHOT ≠ 0
        lastReady := 0 }⟩

def modify (s : EpollInstance) (fd : Int) (event : EpollEvent) : Except Int EpollInstance :=
  match s.entries[fd]? with
  | none => .error (-2)
  | some entry =>
    .ok ⟨s.entries.insert fd
      { entry with
        events := event.events &&& ~~~(EPOLLET ||| EPOLLONESHOT)
        data := event.data
        edgeTriggered := event.events &&& EPOLLET ≠ 0
        oneshot := event.events &&& EPOLLONESHOT ≠ 0 }⟩

def delete (s : EpollInstance) (fd : Int) : Except Int EpollInstance :=
  if s.entries.contains fd then .ok ⟨s.entries.erase fd⟩ else .error (-2)

/-- `epoll_ctl_with_path` on an instance. -/
def ctl (s : EpollInstance) (op fd : Int) (event : EpollEvent) (path : String) :
    Except Int EpollInstance :=
  if op = 1 then s.add fd event path
  else if op = 3 then s.modify fd event
  else if op = 2 then s.delete fd
  else .error (-22)

/-- `poll` with a buffer of `len` events. -/
def poll (s : EpollInstance) (src : Sources) (len : Nat) :
    List (Int × EpollEvent) × EpollInstance :=
  let st := s.entries.toList.foldl (pollEntry src len) ⟨s.entries, [], []⟩
  let entries := st.toDisable.foldl (fun entries fd => entries.modify fd .disabled) st.entries
  (st.reports, ⟨entries⟩)

end EpollInstance

/-! ### What a poll reports -/

/-- The entry is ready, and not as it was at its last report if it is edge-triggered. -/
def EpollEntry.fires (src : Sources) (e : EpollEntry) : Bool :=
  e.ready src ≠ 0 && !(e.edgeTriggered && e.ready src == e.lastReady)

/-- The entry after a poll that reported it. -/
def EpollEntry.settled (src : Sources) (e : EpollEntry) : EpollEntry :=
  if e.oneshot then (e.noted (e.ready src)).disabled else e.noted (e.ready src)

section

variable (src : Sources) (e : EpollEntry)

theorem EpollEntry.settled_fd : (e.settled src).fd = e.fd := by
  unfold settled noted
  split_ifs <;> rfl

theorem EpollEntry.settled_oneshot : (e.settled src).oneshot = e.oneshot := by
  unfold settled noted
  split_ifs <;> rfl

theorem EpollEntry.settled_lastReady :
    (e.settled src).lastReady = if e.edgeTriggered then e.ready src else e.lastReady := by
  unfold settled noted
  split_ifs <;> rfl

end

/-- The report of an entry. -/
def reportOf (src : Sources) (e : Int × EpollEntry) : Int × EpollEvent :=
  (e.1, ⟨e.2.ready src, e.2.data⟩)

/-- The entries a poll reports: the first `len` that fire. -/
def EpollInstance.taken (s : EpollInstance) (src : Sources) (len : Nat) : List (Int × EpollEntry) :=
  (s.entries.toList.filter fun e => e.2.fires src).take len

/-- One entry of a poll: it is reported if it fires and there is room. -/
theorem pollEntry_eq (src : Sources) (len : Nat) (st : PollState) (e : Int × EpollEntry) :
    pollEntry src len st e =
      if st.reports.length < len ∧ e.2.fires src = true then
        { entries := st.entries.insert e.1 (e.2.noted (e.2.ready src))
          reports := st.reports ++ [reportOf src e]
          toDisable := st.toDisable ++ if e.2.oneshot then [e.2.fd] else [] }
      else st := by
  unfold pollEntry EpollEntry.fires reportOf
  by_cases hlen : len ≤ st.reports.length
  · rw [if_pos hlen, if_neg (by omega)]
  · by_cases hready : e.2.ready src = 0
    · simp [hlen, hready]
    · by_cases hsame : e.2.edgeTriggered = true ∧ e.2.ready src = e.2.lastReady
      · simp [hlen, hsame.1, hsame.2]
      · have hfires : (e.2.ready src ≠ 0 &&
            !(e.2.edgeTriggered && e.2.ready src == e.2.lastReady)) = true := by
          simp only [Bool.and_eq_true, decide_eq_true_eq, Bool.not_eq_true',
            Bool.and_eq_false_imp, beq_eq_false_iff_ne]
          exact ⟨hready, fun hedge heq => hsame ⟨hedge, heq⟩⟩
        simp only [if_neg hlen, if_neg hready, if_neg hsame,
          if_pos (And.intro (Nat.lt_of_not_le hlen) hfires)]
        cases e.2.oneshot <;> simp

/-- The loop of `poll`, entry by entry. -/
theorem foldl_pollEntry (src : Sources) (len : Nat) (l : List (Int × EpollEntry)) (st : PollState) :
    l.foldl (pollEntry src len) st =
      let taken := (l.filter fun e => e.2.fires src).take (len - st.reports.length)
      { entries := taken.foldl (fun m e => m.insert e.1 (e.2.noted (e.2.ready src))) st.entries
        reports := st.reports ++ taken.map (reportOf src)
        toDisable := st.toDisable ++ (taken.filter fun e => e.2.oneshot).map fun e => e.2.fd } := by
  induction l generalizing st with
  | nil => simp
  | cons e l ih =>
    rw [foldl_cons, ih, pollEntry_eq]
    by_cases hfires : e.2.fires src = true
    · by_cases hlen : st.reports.length < len
      · obtain ⟨n, hn⟩ : ∃ n, len - st.reports.length = n + 1 :=
          Nat.exists_eq_add_one.mpr (by omega)
        have hn' : len - (st.reports.length + 1) = n := by omega
        simp only [if_pos (And.intro hlen hfires), filter_cons, if_pos hfires, hn,
          take_succ_cons, foldl_cons, length_append, length_singleton, hn',
          map_cons]
        cases e.2.oneshot <;> simp
      · have hfull : len - st.reports.length = 0 := by omega
        simp [hlen, hfull]
    · simp [hfires]

namespace EpollInstance

variable {s : EpollInstance} {src : Sources} {len : Nat} {e : EpollEntry} {fd : Int}

theorem mem_taken (h : (fd, e) ∈ s.taken src len) :
    s.entries[fd]? = some e ∧ e.fires src = true := by
  obtain ⟨hmem, hfires⟩ := mem_filter.mp (mem_of_mem_take h)
  exact ⟨mem_toList_iff.mp hmem, hfires⟩

theorem poll_reports (s : EpollInstance) (src : Sources) (len : Nat) :
    (s.poll src len).1 = (s.taken src len).map (reportOf src) := by
  unfold poll
  rw [foldl_pollEntry]
  rfl

/-- A poll changes the entries it reports. -/
theorem poll_entries (hkeys : ∀ (fd : Int) (e : EpollEntry), s.entries[fd]? = some e → e.fd = fd)
    (src : Sources)
    (len : Nat) (fd : Int) :
    (s.poll src len).2.entries[fd]? =
      s.entries[fd]?.map fun e => if (fd, e) ∈ s.taken src len then e.settled src else e := by
  unfold poll
  rw [foldl_pollEntry]
  rw [lookup_foldl_modify (f := EpollEntry.disabled) fun _ => rfl]
  show (if fd ∈ ((s.taken src len).filter _).map _ then
    Option.map _ ((s.taken src len).foldl _ s.entries)[fd]?
      else ((s.taken src len).foldl _ s.entries)[fd]?) = _
  have huniq : ∀ {e}, s.entries[fd]? = some e → ∀ {e'}, (fd, e') ∈ s.taken src len → e' = e := by
    intro e hmem e' htaken
    have := (mem_taken htaken).1
    rw [hmem] at this
    exact (Option.some.inj this).symm
  -- the descriptors to disable are those of the one-shot entries taken
  have hdisable : fd ∈ ((s.taken src len).filter fun e => e.2.oneshot).map (fun e => e.2.fd) ↔
      ∃ e, (fd, e) ∈ s.taken src len ∧ e.oneshot = true := by
    rw [mem_map]
    constructor
    · rintro ⟨⟨k, e⟩, hmem, hfd⟩
      obtain ⟨htaken, hone⟩ := mem_filter.mp hmem
      have hkey : k = fd := (hkeys k e (mem_taken htaken).1).symm.trans hfd
      exact ⟨e, hkey ▸ htaken, hone⟩
    · rintro ⟨e, htaken, hone⟩
      exact ⟨(fd, e), mem_filter.mpr ⟨htaken, hone⟩, hkeys fd e (mem_taken htaken).1⟩
  have hnot : (∀ e, (fd, e) ∉ s.taken src len) →
      ((s.taken src len).foldl (fun m e => m.insert e.1 (e.2.noted (e.2.ready src))) s.entries)[fd]?
        = s.entries[fd]? := fun hnot =>
    lookup_foldl_insert_of_notMem (fun e : EpollEntry => e.noted (e.ready src)) hnot s.entries
  cases hentry : s.entries[fd]? with
  | none =>
    have hnone : ∀ e, (fd, e) ∉ s.taken src len := by
      intro e htaken
      have := (mem_taken htaken).1
      rw [hentry] at this
      cases this
    rw [if_neg, hnot hnone, hentry]
    · rfl
    · exact fun hmem => (hdisable.mp hmem).elim fun e he => hnone e he.1
  | some e =>
    rw [Option.map_some]
    by_cases htaken : (fd, e) ∈ s.taken src len
    · have hlookup := lookup_foldl_insert_of_mem (fun e : EpollEntry => e.noted (e.ready src))
        htaken (fun e' he' => huniq hentry he') s.entries
      rw [if_pos htaken, EpollEntry.settled, hlookup]
      by_cases hone : e.oneshot = true
      · rw [if_pos hone, if_pos (hdisable.mpr ⟨e, htaken, hone⟩)]
        rfl
      · rw [if_neg hone, if_neg]
        intro hmem
        obtain ⟨e', he', hone'⟩ := hdisable.mp hmem
        rw [huniq hentry he'] at hone'
        exact hone hone'
    · have hnone : ∀ e', (fd, e') ∉ s.taken src len := by
        intro e' he'
        rw [huniq hentry he'] at he'
        exact htaken he'
      rw [if_neg htaken, if_neg, hnot hnone, hentry]
      exact fun hmem => (hdisable.mp hmem).elim fun e' he' => hnone e' he'.1

/-- The report of a descriptor. -/
theorem lookup_poll (hmem : s.entries[fd]? = some e) :
    (s.poll src len).1.lookup fd =
      if (fd, e) ∈ s.taken src len then some ⟨e.ready src, e.data⟩ else none := by
  rw [s.poll_reports]
  have huniq : ∀ {e'}, (fd, e') ∈ s.taken src len → e' = e := by
    intro e' htaken
    have := (mem_taken htaken).1
    rw [hmem] at this
    exact (Option.some.inj this).symm
  split_ifs with htaken
  · cases hlookup : ((s.taken src len).map (reportOf src)).lookup fd with
    | none =>
      have := lookup_eq_none_iff.mp hlookup _ (mem_map_of_mem htaken)
      exact absurd rfl (bne_iff_ne.mp this)
    | some event =>
      obtain ⟨l, l', hsplit, -⟩ := lookup_eq_some_iff.mp hlookup
      have hin : (fd, event) ∈ (s.taken src len).map (reportOf src) := by
        rw [hsplit]
        exact mem_append_right l mem_cons_self
      obtain ⟨⟨k, e'⟩, htaken', heq⟩ := mem_map.mp hin
      cases heq
      rw [huniq htaken']
  · refine lookup_eq_none_iff.mpr fun r hr => bne_iff_ne.mpr ?_
    obtain ⟨⟨k, e'⟩, htaken', rfl⟩ := mem_map.mp hr
    rintro rfl
    have hsame := huniq htaken'
    rw [hsame] at htaken'
    exact htaken htaken'

/-- An entry that fires is reported if there is room after the ones before it. -/
theorem mem_taken_iff (hmem : s.entries[fd]? = some e) (hfires : e.fires src = true) :
    (fd, e) ∈ s.taken src len ↔
      s.entries.toList.countP (fun x => x.1 < fd && x.2.fires src) < len := by
  have hsorted : s.entries.toList.Pairwise fun x y => x.1 < y.1 :=
    TreeMap.ordered_keys_toList.imp fun h => Int.compare_eq_lt.mp h
  have hin : (fd, e) ∈ s.entries.toList.filter fun e => e.2.fires src :=
    mem_filter.mpr ⟨mem_toList_iff.mpr hmem, hfires⟩
  unfold taken
  rw [mem_take_iff_rank Prod.fst (hsorted.filter _) hin, countP_filter]

end EpollInstance

/-! ### Runs -/

/-- The history of a watched descriptor: the events absent at some moment since it was last reported
or armed, by `EPOLL_CTL_ADD` or `EPOLL_CTL_MOD`; those of its last edge-triggered report; and the
reports since it was last armed. -/
structure Watch where
  absent : Events
  reported : Events
  fired : Nat
deriving DecidableEq, Repr

/-- An instance, the objects behind its descriptors, and the history. -/
structure EpollRun where
  epoll : EpollInstance
  src : Sources
  watch : Int → Watch

inductive EpollOp where
  | change (src : Sources)
  | ctl (op fd : Int) (event : EpollEvent) (path : String)
  | poll (len : Nat)

open EpollInstance

namespace EpollRun

/-- An empty instance. -/
def init (src : Sources) : EpollRun := ⟨⟨∅⟩, src, fun _ => ⟨0, 0, 0⟩⟩

/-- The history after a poll that made these reports. -/
def afterPoll (s : EpollRun) (reports : List (Int × EpollEvent)) (fd : Int) : Watch :=
  match reports.lookup fd, s.epoll.entries[fd]? with
  | some event, some entry =>
    { absent := ~~~event.events
      reported := if entry.edgeTriggered then event.events else (s.watch fd).reported
      fired := (s.watch fd).fired + 1 }
  | _, _ => s.watch fd

/-- One step. When the objects change, watched events that are not ready are absent. -/
def step (s : EpollRun) : EpollOp → EpollRun
  | .change src =>
    { s with
      src := src
      watch := fun fd => match s.epoll.entries[fd]? with
        | none => s.watch fd
        | some entry => { s.watch fd with absent := (s.watch fd).absent ||| ~~~entry.ready src } }
  | .ctl op fd event path =>
    match s.epoll.ctl op fd event path with
    | .error _ => s
    | .ok epoll =>
      { s with
        epoll := epoll
        watch := Function.update s.watch fd
          ⟨~~~0, if op = 1 then 0 else (s.watch fd).reported, 0⟩ }
  | .poll len =>
    let (reports, epoll) := s.epoll.poll s.src len
    { s with epoll := epoll, watch := s.afterPoll reports }

/-- The events a poll has to report for an entry: all that are ready or, if it is edge-triggered,
those that became ready after the last report or are ready after `EPOLL_CTL_MOD`. -/
def owed (s : EpollRun) (entry : EpollEntry) : Events :=
  if entry.edgeTriggered then (s.watch entry.fd).absent &&& entry.ready s.src
  else entry.ready s.src

/-- A poll with a buffer of `len` events reports all it has to. -/
def Reports (s : EpollRun) (len : Nat) : Prop :=
  ∀ (fd : Int) (e : EpollEntry), s.epoll.entries[fd]? = some e → s.owed e ≠ 0 →
    ∃ event, (fd, event) ∈ (s.epoll.poll s.src len).1 ∧ event.data = e.data ∧
      s.owed e &&& event.events = s.owed e

/-- The descriptors before `fd` that are ready, and not as last reported if edge-triggered. -/
def ahead (s : EpollRun) (fd : Int) : Nat :=
  s.epoll.entries.toList.countP fun x => x.1 < fd && (x.2.ready s.src ≠ 0 &&
    !(x.2.edgeTriggered && x.2.ready s.src == (s.watch x.1).reported))

/-- Every descriptor with something to report finds room in the buffer and, if edge-triggered, is
not ready for exactly the events of its last report. -/
def Clear (s : EpollRun) (len : Nat) : Prop :=
  ∀ (fd : Int) (e : EpollEntry), s.epoll.entries[fd]? = some e → s.owed e ≠ 0 →
    s.ahead fd < len ∧ (e.edgeTriggered = true → e.ready s.src ≠ (s.watch fd).reported)

/-- What every run keeps: an entry has its key as its descriptor, `last_ready` holds the last
edge-triggered report, and a one-shot entry that fired watches nothing. -/
structure Kept (s : EpollRun) : Prop where
  key : ∀ (fd : Int) (e : EpollEntry), s.epoll.entries[fd]? = some e → e.fd = fd
  last : ∀ (fd : Int) (e : EpollEntry), s.epoll.entries[fd]? = some e →
    e.lastReady = (s.watch fd).reported
  once : ∀ (fd : Int) (e : EpollEntry), s.epoll.entries[fd]? = some e → e.oneshot = true →
    (s.watch fd).fired = 0 ∨ (s.watch fd).fired = 1 ∧ e.events = 0

namespace Kept

variable {s : EpollRun}

theorem init (src : Sources) : (EpollRun.init src).Kept := by
  constructor <;> simp [EpollRun.init]

/-- The objects behind the descriptors change. -/
theorem change (h : s.Kept) (src : Sources) : (s.step (.change src)).Kept := by
  have hwatch : ∀ fd, ((s.step (.change src)).watch fd).reported = (s.watch fd).reported ∧
      ((s.step (.change src)).watch fd).fired = (s.watch fd).fired := by
    intro fd
    simp only [step]
    split <;> exact ⟨rfl, rfl⟩
  refine ⟨h.key, fun fd e he => ?_, fun fd e he hone => ?_⟩
  · rw [(hwatch fd).1]
    exact h.last fd e he
  · rw [(hwatch fd).2]
    exact h.once fd e he hone

variable {e : EpollEntry} {fd : Int}

section

variable (h : s.Kept)
include h

/-- The entry of a descriptor is replaced, and its reports are counted anew. -/
theorem insert {w : Watch} (hkey : e.fd = fd) (hlast : e.lastReady = w.reported)
    (hfired : w.fired = 0) :
    EpollRun.Kept
      { s with
        epoll := ⟨s.epoll.entries.insert fd e⟩
        watch := update s.watch fd w } := by
  have hcases : ∀ {fd' : Int} {e' : EpollEntry}, (s.epoll.entries.insert fd e)[fd']? = some e' →
      fd' = fd ∧ e' = e ∨ fd' ≠ fd ∧ s.epoll.entries[fd']? = some e' := by
    intro fd' e' he'
    rw [lookup_insert] at he'
    split_ifs at he' with hfd
    · exact .inl ⟨hfd.symm, (Option.some.inj he').symm⟩
    · exact .inr ⟨Ne.symm hfd, he'⟩
  constructor
  · intro fd' e' he'
    rcases hcases he' with ⟨rfl, rfl⟩ | ⟨-, he'⟩
    · exact hkey
    · exact h.key fd' e' he'
  · intro fd' e' he'
    show e'.lastReady = (update s.watch fd w fd').reported
    rcases hcases he' with ⟨rfl, rfl⟩ | ⟨hne, he'⟩
    · rw [update_self]
      exact hlast
    · rw [update_of_ne hne]
      exact h.last fd' e' he'
  · intro fd' e' he' hone
    show (update s.watch fd w fd').fired = 0 ∨
      (update s.watch fd w fd').fired = 1 ∧ e'.events = 0
    rcases hcases he' with ⟨rfl, rfl⟩ | ⟨hne, he'⟩
    · rw [update_self]
      exact .inl hfired
    · rw [update_of_ne hne]
      exact h.once fd' e' he' hone

/-- A call of `epoll_ctl`. -/
theorem ctl (op fd : Int) (event : EpollEvent) (path : String) :
    (s.step (.ctl op fd event path)).Kept := by
  simp only [step]
  cases hctl : s.epoll.ctl op fd event path with
  | error code => exact h
  | ok epoll =>
    unfold EpollInstance.ctl at hctl
    by_cases hadd : op = 1
    · simp only [if_pos hadd, add] at hctl ⊢
      split_ifs at hctl
      cases hctl
      exact h.insert rfl rfl rfl
    · by_cases hmod : op = 3
      · simp only [if_neg hadd, if_pos hmod, EpollInstance.modify] at hctl ⊢
        split at hctl
        · cases hctl
        next e he =>
          cases hctl
          exact h.insert (h.key fd e he) (h.last fd e he) rfl
      · simp only [if_neg hadd, if_neg hmod, delete] at hctl ⊢
        split_ifs at hctl with hdel hmem
        cases hctl
        have hother : ∀ {fd' : Int} {e : EpollEntry}, (s.epoll.entries.erase fd)[fd']? = some e →
            fd' ≠ fd ∧ s.epoll.entries[fd']? = some e := by
          intro fd' e he
          rw [lookup_erase] at he
          split_ifs at he with hfd
          exact ⟨Ne.symm hfd, he⟩
        constructor
        · exact fun fd' e he => h.key fd' e (hother he).2
        · intro fd' e he
          show e.lastReady = (update s.watch fd _ fd').reported
          rw [update_of_ne (hother he).1]
          exact h.last fd' e (hother he).2
        · intro fd' e he hone
          show (update s.watch fd _ fd').fired = 0 ∨
            (update s.watch fd _ fd').fired = 1 ∧ e.events = 0
          rw [update_of_ne (hother he).1]
          exact h.once fd' e (hother he).2 hone

/-- A poll. -/
theorem poll (len : Nat) : (s.step (.poll len)).Kept := by
  have hentries := poll_entries h.key s.src len
  -- an entry after the poll comes from an entry before it, reported or not
  have hcases : ∀ {fd : Int} {e' : EpollEntry},
      (s.step (.poll len)).epoll.entries[fd]? = some e' → ∃ e, s.epoll.entries[fd]? = some e ∧
        ((e.fires s.src = true ∧ e' = e.settled s.src ∧ (s.step (.poll len)).watch fd =
          ⟨~~~e.ready s.src, if e.edgeTriggered then e.ready s.src else (s.watch fd).reported,
            (s.watch fd).fired + 1⟩) ∨
        (e' = e ∧ (s.step (.poll len)).watch fd = s.watch fd)) := by
    intro fd e' he'
    have hlookup : s.epoll.entries[fd]?.map (fun e =>
        if (fd, e) ∈ s.epoll.taken s.src len then e.settled s.src else e) = some e' :=
      (hentries fd).symm.trans he'
    obtain ⟨e, he, heq⟩ := Option.map_eq_some_iff.mp hlookup
    have hwatch : (s.step (.poll len)).watch fd = s.afterPoll (s.epoll.poll s.src len).1 fd := rfl
    rw [hwatch, afterPoll, lookup_poll he]
    refine ⟨e, he, ?_⟩
    by_cases htaken : (fd, e) ∈ s.epoll.taken s.src len
    · rw [if_pos htaken] at heq
      rw [if_pos htaken, he]
      exact .inl ⟨(mem_taken htaken).2, heq.symm, rfl⟩
    · rw [if_neg htaken] at heq
      rw [if_neg htaken]
      exact .inr ⟨heq.symm, rfl⟩
  constructor
  · intro fd e' he'
    obtain ⟨e, he, ⟨-, rfl, -⟩ | ⟨rfl, -⟩⟩ := hcases he'
    · exact (e.settled_fd s.src).trans (h.key fd e he)
    · exact h.key fd e' he
  · intro fd e' he'
    obtain ⟨e, he, ⟨-, rfl, hwatch⟩ | ⟨rfl, hwatch⟩⟩ := hcases he'
    · rw [hwatch, e.settled_lastReady]
      split_ifs
      · rfl
      · exact h.last fd e he
    · rw [hwatch]
      exact h.last fd e' he
  · intro fd e' he' hone
    obtain ⟨e, he, ⟨hfires, rfl, hwatch⟩ | ⟨rfl, hwatch⟩⟩ := hcases he'
    · -- an entry that fires watches something, so it is its first report
      have hwas : e.oneshot = true := (e.settled_oneshot s.src).symm.trans hone
      have hevents : e.events ≠ 0 := by
        intro hzero
        simp [EpollEntry.fires, ready_of_events_eq_zero hzero] at hfires
      rw [hwatch]
      rcases h.once fd e he hwas with hfired | ⟨-, hzero⟩
      · refine .inr ⟨congrArg (· + 1) hfired, ?_⟩
        unfold EpollEntry.settled
        rw [if_pos hwas]
        rfl
      · exact absurd hzero hevents
    · rw [hwatch]
      exact h.once fd e' he hone

theorem step (op : EpollOp) : (s.step op).Kept := by
  cases op with
  | change src => exact h.change src
  | ctl op fd event path => exact h.ctl op fd event path
  | poll len => exact h.poll len

theorem fires_eq (he : s.epoll.entries[fd]? = some e) :
    e.fires s.src = (e.ready s.src ≠ 0 &&
      !(e.edgeTriggered && e.ready s.src == (s.watch fd).reported)) := by
  rw [← h.last fd e he]
  rfl

/-- A descriptor is reported if it fires and there is room. -/
theorem mem_taken_iff {len : Nat} (he : s.epoll.entries[fd]? = some e)
    (hready : e.ready s.src ≠ 0) : (fd, e) ∈ s.epoll.taken s.src len ↔ s.ahead fd < len ∧
      (e.edgeTriggered = true → e.ready s.src ≠ (s.watch fd).reported) := by
  have hfires : e.fires s.src = true ↔
      (e.edgeTriggered = true → e.ready s.src ≠ (s.watch fd).reported) := by
    rw [h.fires_eq he, Bool.and_eq_true, decide_eq_true_eq, and_iff_right hready,
      Bool.not_eq_true', Bool.and_eq_false_imp, beq_eq_false_iff_ne]
  have hahead : s.epoll.entries.toList.countP (fun x => x.1 < fd && x.2.fires s.src) =
      s.ahead fd := by
    refine countP_congr fun x hx => ?_
    rw [h.fires_eq (mem_toList_iff.mp hx)]
  constructor
  · intro htaken
    have hf := (mem_taken htaken).2
    rw [EpollInstance.mem_taken_iff he hf, hahead] at htaken
    exact ⟨htaken, hfires.mp hf⟩
  · rintro ⟨hlen, hnew⟩
    rw [EpollInstance.mem_taken_iff he (hfires.mpr hnew), hahead]
    exact hlen

end

end Kept

/-- A poll reports an event of a descriptor if it takes the entry, with all it owes. -/
theorem reports_iff_taken {s : EpollRun} {fd : Int} {e : EpollEntry} {len : Nat}
    (he : s.epoll.entries[fd]? = some e) :
    (∃ event, (fd, event) ∈ (s.epoll.poll s.src len).1 ∧ event.data = e.data ∧
      s.owed e &&& event.events = s.owed e) ↔ (fd, e) ∈ s.epoll.taken s.src len := by
  rw [s.epoll.poll_reports]
  constructor
  · rintro ⟨event, hmem, -, -⟩
    obtain ⟨⟨k, e'⟩, htaken, heq⟩ := mem_map.mp hmem
    cases heq
    have := (mem_taken htaken).1
    rw [he] at this
    rwa [Option.some.inj this]
  · intro htaken
    refine ⟨_, mem_map_of_mem htaken, rfl, ?_⟩
    unfold owed
    split_ifs
    · rw [BitVec.and_assoc, BitVec.and_self]
    · exact BitVec.and_self

end EpollRun

/-- In every run a one-shot descriptor is reported at most once between two calls that arm it; and a
poll reports every level-triggered descriptor that is ready and every edge of an edge-triggered one
exactly when it is clear. -/
theorem polls_report_iff {src : Sources} {s : EpollRun}
    (hrun : Reach EpollRun.step (fun _ _ => True) (.init src) s) :
    (∀ (fd : Int) (e : EpollEntry), s.epoll.entries[fd]? = some e → e.oneshot = true →
      (s.watch fd).fired ≤ 1) ∧ ∀ len, s.Reports len ↔ s.Clear len := by
  have h : s.Kept := hrun.invariant EpollRun.Kept (.init src) fun s op h _ => h.step op
  refine ⟨fun fd e he hone => ?_, fun len => ?_⟩
  · rcases h.once fd e he hone with hfired | ⟨hfired, -⟩ <;> omega
  · refine forall_congr' fun fd => forall_congr' fun e => forall_congr' fun he =>
      forall_congr' fun howed => ?_
    have hready : e.ready s.src ≠ 0 := by
      intro hzero
      refine howed ?_
      unfold EpollRun.owed
      rw [hzero]
      split_ifs
      · exact BitVec.and_zero
      · rfl
    exact (EpollRun.reports_iff_taken he).trans (h.mem_taken_iff he hready)

/-- Only the pipes named in the list have data to read, and every pipe has room. -/
def Sources.ofPipes (readable : List Nat) : Sources where
  pipeAvailable id := if id ∈ readable then 1 else 0
  pipeSpace _ := 1
  eventfdWouldRead _ := false
  timerfdWouldRead _ := false
  signalfdWouldRead _ := false

/-- An edge-triggered and a one-shot descriptor on pipes that become readable. -/
def watchedPipes : List EpollOp :=
  [.ctl 1 3 ⟨EPOLLIN ||| EPOLLET, 30⟩ "pipe:1", .ctl 1 4 ⟨EPOLLIN ||| EPOLLONESHOT, 40⟩ "pipe:2",
    .poll 8, .change (.ofPipes [1, 2])]

theorem polls_report_iff_two_pipes :
    (watchedPipes.foldl EpollRun.step (.init (.ofPipes []))).epoll.entries[(4 : Int)]?.isSome ∧
      ((watchedPipes.foldl EpollRun.step (.init (.ofPipes []))).Reports 8 ↔
        (watchedPipes.foldl EpollRun.step (.init (.ofPipes []))).Clear 8) :=
  ⟨by decide +kernel, (polls_report_iff (Reach.free watchedPipes)).2 8⟩

/-- An edge-triggered pipe is reported, emptied and written again, and the next poll reports
nothing. -/
theorem second_edge_is_lost :
    ∃ s, Reach EpollRun.step (fun _ _ => True) (.init (.ofPipes [])) s ∧
      (∃ e, s.epoll.entries[(3 : Int)]? = some e ∧ s.owed e = EPOLLIN) ∧
      (s.epoll.poll s.src 8).1 = [] := by
  refine ⟨_, Reach.free [.ctl 1 3 ⟨EPOLLIN ||| EPOLLET, 30⟩ "pipe:1", .change (.ofPipes [1]),
    .poll 8, .change (.ofPipes []), .poll 8, .change (.ofPipes [1])], ⟨⟨3, "pipe:1", EPOLLIN, 30,
      true, false, EPOLLIN⟩, ?_, ?_⟩, ?_⟩
  · decide +kernel
  · decide +kernel
  · decide +kernel

end KnoxOS.Epoll
