import KnoxOS.Lib.Map
import KnoxOS.Lib.Priority
import KnoxOS.Lib.Reach

/-!
# POSIX message queues

The message queues of `ipc/mqueue.rs`: queues keyed by name, descriptors that name their queue,
and messages kept in the order of falling priority. `mq_unlink` of a queue that is open only sets
a flag, and `mq_open` and a second `mq_unlink` still find the queue under its name
(`unlinked_queue_reopened`). `Spec` is what the calls are for: names and descriptors refer to
queues by identity, and a queue hands out its first message of highest priority. The main
theorem, `queues_deliver`, says that the calls answer as `Spec` does as long as no call names a
queue that waits for its removal.
-/

namespace KnoxOS.Mqueue

open Function Lib List Option
open Std (TreeMap)

structure MqAttr where
  mqFlags : Int
  mqMaxmsg : Int
  mqMsgsize : Int
  mqCurmsgs : Int
deriving DecidableEq, Repr

def defaultMaxMsgs : Int := 10

def defaultMsgSize : Int := 8192

def MqAttr.default : MqAttr := ⟨0, defaultMaxMsgs, defaultMsgSize, 0⟩

/-- A message of a queue. -/
structure Message where
  data : List UInt8
  priority : Nat
deriving DecidableEq, Repr

/-- `MessageQueue`. The open count, a `u32` in the source, counts descriptors, whose numbers have 32
bits: it does not overflow while no number is given out twice. -/
structure MessageQueue where
  name : String
  attr : MqAttr
  messages : List Message
  mode : Nat
  unlinkPending : Bool
  openCount : Nat
deriving DecidableEq, Repr

structure MqDescriptor where
  queueName : String
  flags : Nat
  pid : Nat
deriving DecidableEq, Repr

/-- The three statics: the queues by name, the descriptors, the next descriptor number. -/
structure State where
  queues : TreeMap String MessageQueue
  descriptors : TreeMap Int MqDescriptor
  nextMqfd : Int

/-- The tables at boot. -/
def State.init : State := ⟨∅, ∅, 1000⟩

def oCreat : Nat := 0x40

def oExcl : Nat := 0x80

def oNonblock : Nat := 0x800

/-- A name without a leading slash gets one. -/
def fullName (name : String) : String :=
  if name.toList.head? = some '/' then name else "/" ++ name

/-- The attributes of a new queue: sizes that are not positive take their defaults. -/
def newAttr (attr : Option MqAttr) : MqAttr :=
  let qa := attr.getD .default
  ⟨0, if qa.mqMaxmsg > 0 then qa.mqMaxmsg else defaultMaxMsgs,
    if qa.mqMsgsize > 0 then qa.mqMsgsize else defaultMsgSize, 0⟩

/-- `mq_open`, called by `pid`; the flags are given by their bits. -/
def mqOpen (s : State) (name : String) (oflag mode : Nat) (attr : Option MqAttr) (pid : Nat) :
    Except Int Int × State :=
  let name := fullName name
  let found := s.queues[name]?
  if oflag &&& oCreat ≠ 0 ∧ oflag &&& oExcl ≠ 0 ∧ found.isSome then (.error (-17), s)
  else if oflag &&& oCreat = 0 ∧ found.isNone then (.error (-2), s)
  else
    let queue := found.getD ⟨name, newAttr attr, [], mode, false, 0⟩
    (.ok s.nextMqfd,
      ⟨s.queues.insert name { queue with openCount := queue.openCount + 1 },
        s.descriptors.insert s.nextMqfd ⟨name, oflag, pid⟩, (s.nextMqfd + 1).bmod (2 ^ 32)⟩)

def mqClose (s : State) (mqd : Int) : Except Int Unit × State :=
  match s.descriptors[mqd]? with
  | none => (.error (-9), s)
  | some desc =>
    let descriptors := s.descriptors.erase mqd
    match s.queues[desc.queueName]? with
    | none => (.ok (), { s with descriptors := descriptors })
    | some q =>
      let q := { q with openCount := q.openCount - 1 }
      let queues := if q.openCount = 0 ∧ q.unlinkPending then s.queues.erase desc.queueName
        else s.queues.insert desc.queueName q
      (.ok (), { s with queues := queues, descriptors := descriptors })

def mqUnlink (s : State) (name : String) : Except Int Unit × State :=
  let name := fullName name
  match s.queues[name]? with
  | none => (.error (-2), s)
  | some q =>
    let queues := if q.openCount > 0 then s.queues.insert name { q with unlinkPending := true }
      else s.queues.erase name
    (.ok (), { s with queues := queues })

/-- `mq_send`. A full queue answers `EAGAIN` whether the descriptor would block or not. -/
def mqSend (s : State) (mqd : Int) (data : List UInt8) (priority : Nat) : Except Int Unit × State :=
  match s.descriptors[mqd]? with
  | none => (.error (-9), s)
  | some desc =>
    let nonblock := desc.flags &&& oNonblock ≠ 0
    match s.queues[desc.queueName]? with
    | none => (.error (-9), s)
    | some q =>
      if data.length > q.attr.mqMsgsize.toNat then (.error (-90), s)
      else if q.messages.length ≥ q.attr.mqMaxmsg.toNat then
        (if nonblock then .error (-11) else .error (-11), s)
      else
        let q := { q with
          messages := Priority.place Message.priority q.messages ⟨data, priority⟩
          attr := { q.attr with mqCurmsgs := q.attr.mqCurmsgs + 1 } }
        (.ok (), { s with queues := s.queues.insert desc.queueName q })

/-- `mq_receive` into a buffer of `len` bytes, with the bytes stored there and the priority. -/
def mqReceive (s : State) (mqd : Int) (len : Nat) : Except Int (List UInt8 × Nat) × State :=
  match s.descriptors[mqd]? with
  | none => (.error (-9), s)
  | some desc =>
    let nonblock := desc.flags &&& oNonblock ≠ 0
    match s.queues[desc.queueName]? with
    | none => (.error (-9), s)
    | some q =>
      if len < q.attr.mqMsgsize.toNat then (.error (-90), s)
      else
        match q.messages with
        | [] => (if nonblock then .error (-11) else .error (-11), s)
        | msg :: messages =>
          let q := { q with
            messages := messages
            attr := { q.attr with mqCurmsgs := q.attr.mqCurmsgs - 1 } }
          (.ok (msg.data.take (min msg.data.length len), msg.priority),
            { s with queues := s.queues.insert desc.queueName q })

def mqGetattr (s : State) (mqd : Int) : Except Int MqAttr :=
  match s.descriptors[mqd]? with
  | none => .error (-9)
  | some desc =>
    match s.queues[desc.queueName]? with
    | none => .error (-9)
    | some q => .ok q.attr

/-- The calls. -/
inductive Op where
  | mqOpen (name : String) (oflag mode : Nat) (attr : Option MqAttr) (pid : Nat)
  | mqClose (mqd : Int)
  | mqUnlink (name : String)
  | mqSend (mqd : Int) (data : List UInt8) (priority : Nat)
  | mqReceive (mqd : Int) (len : Nat)
  | mqGetattr (mqd : Int)

/-- What a call returns. -/
inductive Outcome where
  | opened (r : Except Int Int)
  | closed (r : Except Int Unit)
  | unlinked (r : Except Int Unit)
  | sent (r : Except Int Unit)
  | received (r : Except Int (List UInt8 × Nat))
  | attr (r : Except Int MqAttr)

/-- One call. -/
def State.call (s : State) : Op → Outcome × State
  | .mqOpen name oflag mode attr pid =>
    let (r, s) := Mqueue.mqOpen s name oflag mode attr pid
    (.opened r, s)
  | .mqClose mqd =>
    let (r, s) := Mqueue.mqClose s mqd
    (.closed r, s)
  | .mqUnlink name =>
    let (r, s) := Mqueue.mqUnlink s name
    (.unlinked r, s)
  | .mqSend mqd data priority =>
    let (r, s) := Mqueue.mqSend s mqd data priority
    (.sent r, s)
  | .mqReceive mqd len =>
    let (r, s) := Mqueue.mqReceive s mqd len
    (.received r, s)
  | .mqGetattr mqd => (.attr (Mqueue.mqGetattr s mqd), s)

/-! ### What the calls are for -/

/-- A queue with the messages sent to it, received from it and still in it, in the order of the
calls. -/
structure SpecQueue where
  maxmsg : Int
  msgsize : Int
  sent : List Message
  received : List Message
  queued : List Message

/-- Names and descriptors that refer to queues by identity. -/
structure Spec where
  names : String → Option Nat
  fds : Int → Option Nat
  queues : Nat → SpecQueue
  nextId : Nat

/-- No names and no descriptors. -/
def Spec.init : Spec := ⟨fun _ => none, fun _ => none, fun _ => ⟨0, 0, [], [], []⟩, 0⟩

namespace Spec

/-- Opening joins the queue of the name, or makes an empty one under `O_CREAT`; `mqd` is the
descriptor number to use. -/
def mqOpen (s : Spec) (mqd : Int) (name : String) (oflag : Nat) (attr : Option MqAttr) :
    Except Int Int × Spec :=
  match s.names (fullName name) with
  | some id =>
    if oflag &&& oCreat ≠ 0 ∧ oflag &&& oExcl ≠ 0 then (.error (-17), s)
    else (.ok mqd, { s with fds := Function.update s.fds mqd (some id) })
  | none =>
    if oflag &&& oCreat = 0 then (.error (-2), s)
    else (.ok mqd,
      { names := Function.update s.names (fullName name) (some s.nextId)
        fds := Function.update s.fds mqd (some s.nextId)
        queues := Function.update s.queues s.nextId
          ⟨(newAttr attr).mqMaxmsg, (newAttr attr).mqMsgsize, [], [], []⟩
        nextId := s.nextId + 1 })

/-- Closing forgets the descriptor. -/
def mqClose (s : Spec) (mqd : Int) : Except Int Unit × Spec :=
  match s.fds mqd with
  | none => (.error (-9), s)
  | some _ => (.ok (), { s with fds := Function.update s.fds mqd none })

/-- Unlinking forgets the name, and leaves descriptors and queues alone. -/
def mqUnlink (s : Spec) (name : String) : Except Int Unit × Spec :=
  match s.names (fullName name) with
  | none => (.error (-2), s)
  | some _ => (.ok (), { s with names := Function.update s.names (fullName name) none })

/-- Sending puts the message behind those sent before it. -/
def mqSend (s : Spec) (mqd : Int) (data : List UInt8) (priority : Nat) : Except Int Unit × Spec :=
  match s.fds mqd with
  | none => (.error (-9), s)
  | some id =>
    let q := s.queues id
    if data.length > q.msgsize.toNat then (.error (-90), s)
    else if q.queued.length ≥ q.maxmsg.toNat then (.error (-11), s)
    else (.ok (), { s with queues := Function.update s.queues id { q with
      sent := q.sent ++ [⟨data, priority⟩], queued := q.queued ++ [⟨data, priority⟩] } })

/-- Receiving takes the first of the messages with the highest priority, unmodified. -/
def mqReceive (s : Spec) (mqd : Int) (len : Nat) : Except Int (List UInt8 × Nat) × Spec :=
  match s.fds mqd with
  | none => (.error (-9), s)
  | some id =>
    let q := s.queues id
    if len < q.msgsize.toNat then (.error (-90), s)
    else
      match Priority.first Message.priority q.queued with
      | none => (.error (-11), s)
      | some msg => (.ok (msg.data, msg.priority), { s with
          queues := Function.update s.queues id { q with
            received := q.received ++ [msg]
            queued := Priority.rest Message.priority q.queued } })

/-- The attributes report the number of messages in the queue. -/
def mqGetattr (s : Spec) (mqd : Int) : Except Int MqAttr :=
  match s.fds mqd with
  | none => .error (-9)
  | some id => .ok ⟨0, (s.queues id).maxmsg, (s.queues id).msgsize, (s.queues id).queued.length⟩

/-- One call; `mqd` is the descriptor number that an `mq_open` uses. -/
def call (s : Spec) (mqd : Int) : Op → Outcome × Spec
  | .mqOpen name oflag _ attr _ =>
    let (r, s) := s.mqOpen mqd name oflag attr
    (.opened r, s)
  | .mqClose mqd =>
    let (r, s) := s.mqClose mqd
    (.closed r, s)
  | .mqUnlink name =>
    let (r, s) := s.mqUnlink name
    (.unlinked r, s)
  | .mqSend mqd data priority =>
    let (r, s) := s.mqSend mqd data priority
    (.sent r, s)
  | .mqReceive mqd len =>
    let (r, s) := s.mqReceive mqd len
    (.received r, s)
  | .mqGetattr mqd => (.attr (s.mqGetattr mqd), s)

end Spec

/-! ### The tables stand for the specification -/

/-- The number of descriptors of the queue with this name. -/
def opened (descriptors : TreeMap Int MqDescriptor) (name : String) : Nat :=
  sumBy (fun d => if d.queueName = name then 1 else 0) descriptors

/-- A queue of the table stands for one of the specification: the same limits, the messages in the
order they are handed out in, and the right count. -/
structure Matches (q : MessageQueue) (sq : SpecQueue) : Prop where
  flags : q.attr.mqFlags = 0
  maxmsg : q.attr.mqMaxmsg = sq.maxmsg
  msgsize : q.attr.mqMsgsize = sq.msgsize
  curmsgs : q.attr.mqCurmsgs = q.messages.length
  room : q.messages.length ≤ q.attr.mqMaxmsg.toNat
  order : Priority.Stable Message.priority q.messages sq.queued
  small : ∀ m ∈ q.messages, m.data.length ≤ q.attr.mqMsgsize.toNat

theorem Matches.congr {q q' : MessageQueue} {sq : SpecQueue} (h : Matches q sq)
    (hattr : q'.attr = q.attr) (hmsgs : q'.messages = q.messages) : Matches q' sq := by
  obtain ⟨name', attr', messages', mode', pending', count'⟩ := q'
  cases hattr
  cases hmsgs
  exact ⟨h.flags, h.maxmsg, h.msgsize, h.curmsgs, h.room, h.order, h.small⟩

/-- The tables stand for the specification, the queue under each name for the queue `ident` says. A
queue that waits for its removal has lost its name there. -/
structure Refines (ident : String → Nat) (s : State) (a : Spec) : Prop where
  queue : ∀ n q, s.queues[n]? = some q → Matches q (a.queues (ident n)) ∧ ident n < a.nextId ∧
    a.names n = if q.unlinkPending then none else some (ident n)
  absent : ∀ n, s.queues[n]? = none → a.names n = none
  inj : ∀ m n, s.queues[m]?.isSome → s.queues[n]?.isSome → ident m = ident n → m = n
  desc : ∀ d x, s.descriptors[d]? = some x → a.fds d = some (ident x.queueName)
  free : ∀ d, s.descriptors[d]? = none → a.fds d = none
  count : ∀ n, opened s.descriptors n = (s.queues[n]?.map MessageQueue.openCount).getD 0

theorem opened_insert {descriptors : TreeMap Int MqDescriptor} {d : Int}
    (hfree : descriptors[d]? = none) (x : MqDescriptor) (n : String) :
    opened (descriptors.insert d x) n =
      opened descriptors n + if x.queueName = n then 1 else 0 := by
  have hsum := sumBy_insert (fun x => if x.queueName = n then 1 else 0) descriptors d x
  rwa [hfree] at hsum

theorem opened_erase {descriptors : TreeMap Int MqDescriptor} {d : Int} {x : MqDescriptor}
    (hx : descriptors[d]? = some x) (n : String) :
    opened (descriptors.erase d) n + (if x.queueName = n then 1 else 0) = opened descriptors n := by
  have hsum := sumBy_erase (fun x => if x.queueName = n then 1 else 0) descriptors d
  rwa [hx] at hsum

namespace Refines

variable {ident : String → Nat} {s : State} {a : Spec}

theorem init : Refines (fun _ => 0) .init .init where
  queue n q hq := by simp [State.init] at hq
  absent _ _ := rfl
  inj m n hm := by simp [State.init] at hm
  desc d x hx := by simp [State.init] at hx
  free _ _ := rfl
  count _ := rfl

/-- A descriptor's queue is in the table. -/
theorem present (h : Refines ident s a) {d : Int} {x : MqDescriptor}
    (hx : s.descriptors[d]? = some x) : ∃ q, s.queues[x.queueName]? = some q := by
  have hcount := h.count x.queueName
  have herase := opened_erase hx x.queueName
  rw [if_pos rfl] at herase
  cases hq : s.queues[x.queueName]? with
  | none =>
    rw [hq] at hcount
    simp only [map_none, getD_none] at hcount
    omega
  | some q => exact ⟨q, rfl⟩

variable {n : String} {q : MessageQueue}

section

variable (h : Refines ident s a)
include h

/-- What a descriptor number stands for. -/
theorem fd_cases (mqd : Int) :
    s.descriptors[mqd]? = none ∧ a.fds mqd = none ∨
      ∃ x q, s.descriptors[mqd]? = some x ∧ a.fds mqd = some (ident x.queueName) ∧
        s.queues[x.queueName]? = some q ∧ Matches q (a.queues (ident x.queueName)) := by
  cases hx : s.descriptors[mqd]? with
  | none => exact .inl ⟨rfl, h.free mqd hx⟩
  | some x =>
    obtain ⟨q, hq⟩ := h.present hx
    exact .inr ⟨x, q, rfl, h.desc mqd x hx, hq, (h.queue _ q hq).1⟩

/-- Changing the entry of a name to `r`, its queue and name in the specification, and the
descriptors. -/
theorem change (hq : s.queues[n]? = some q) {s' : State} {a' : Spec} {r : Option MessageQueue}
    (htable : ∀ m, s'.queues[m]? = if n = m then r else s.queues[m]?)
    (hnext : a'.nextId = a.nextId) (hqueues : ∀ id, id ≠ ident n → a'.queues id = a.queues id)
    (hnames : ∀ m, n ≠ m → a'.names m = a.names m)
    (hsome : ∀ q' ∈ r, Matches q' (a'.queues (ident n)) ∧
      a'.names n = if q'.unlinkPending then none else some (ident n))
    (hnone : r = none → a'.names n = none)
    (hdesc : ∀ d x, s'.descriptors[d]? = some x → a'.fds d = some (ident x.queueName))
    (hfree : ∀ d, s'.descriptors[d]? = none → a'.fds d = none)
    (hcount : ∀ m, opened s'.descriptors m =
      if n = m then (r.map MessageQueue.openCount).getD 0 else opened s.descriptors m) :
    Refines ident s' a' where
  queue m p hp := by
    rw [htable] at hp
    rw [hnext]
    by_cases hnm : n = m
    · subst hnm
      rw [if_pos rfl] at hp
      obtain ⟨hmatch, hname⟩ := hsome p hp
      exact ⟨hmatch, (h.queue n q hq).2.1, hname⟩
    · rw [if_neg hnm] at hp
      have hne : ident m ≠ ident n := fun heq =>
        hnm (h.inj n m (by simp [hq]) (by simp [hp]) heq.symm)
      rw [hqueues _ hne, hnames m hnm]
      exact h.queue m p hp
  absent m hm := by
    rw [htable] at hm
    by_cases hnm : n = m
    · subst hnm
      exact hnone (by simpa using hm)
    · rw [hnames m hnm]
      exact h.absent m (by rwa [if_neg hnm] at hm)
  inj m k hm hk := by
    have hkeep : ∀ m : String, s'.queues[m]?.isSome → s.queues[m]?.isSome := by
      intro m hm
      rw [htable] at hm
      by_cases hnm : n = m
      · subst hnm
        simp [hq]
      · rwa [if_neg hnm] at hm
    exact h.inj m k (hkeep m hm) (hkeep k hk)
  desc := hdesc
  free := hfree
  count m := by
    rw [hcount, htable]
    split_ifs
    · rfl
    · exact h.count m

/-- Changing what a queue holds, in the table and in the specification. -/
theorem update {q' : MessageQueue} {sq : SpecQueue} (hq : s.queues[n]? = some q)
    (hcount : q'.openCount = q.openCount) (hpending : q'.unlinkPending = q.unlinkPending)
    (hmatch : Matches q' sq) : Refines ident { s with queues := s.queues.insert n q' }
      { a with queues := Function.update a.queues (ident n) sq } := by
  obtain ⟨-, -, hname⟩ := h.queue n q hq
  refine h.change hq (fun m => lookup_insert _ _ m _) rfl
    (fun _ hid => update_of_ne hid _ _) (fun _ _ => rfl) ?_ nofun h.desc h.free fun m => ?_
  · intro q'' hq''
    cases hq''
    refine ⟨?_, by rwa [hpending]⟩
    show Matches q' (Function.update a.queues (ident n) sq (ident n))
    rwa [update_self]
  · split_ifs with hm
    · rw [← hm, h.count n, hq, map_some, map_some, hcount]
    · rfl

/-- A send is answered alike, and queues the message alike. -/
theorem mqSend (mqd : Int) (data : List UInt8) (priority : Nat) :
    (mqSend s mqd data priority).1 = (a.mqSend mqd data priority).1 ∧
      Refines ident (mqSend s mqd data priority).2 (a.mqSend mqd data priority).2 := by
  unfold Mqueue.mqSend Spec.mqSend
  obtain ⟨hx, hfd⟩ | ⟨x, q, hx, hfd, hq, hm⟩ := h.fd_cases mqd
  · simp only [hx, hfd]
    exact ⟨trivial, h⟩
  have hlen : (a.queues (ident x.queueName)).queued.length = q.messages.length :=
    hm.order.perm.length_eq.symm
  simp only [hx, hfd, hq, ← hm.maxmsg, ← hm.msgsize, hlen]
  by_cases hbig : data.length > q.attr.mqMsgsize.toNat
  · simp only [if_pos hbig]
    exact ⟨trivial, h⟩
  by_cases hfull : q.messages.length ≥ q.attr.mqMaxmsg.toNat
  · simp only [if_neg hbig, if_pos hfull, ite_self]
    exact ⟨trivial, h⟩
  simp only [if_neg hbig, if_neg hfull]
  refine ⟨trivial, h.update hq rfl rfl ?_⟩
  have horder := hm.order.place (⟨data, priority⟩ : Message)
  have hlen' := horder.perm.length_eq
  rw [length_append, length_singleton, hlen] at hlen'
  refine ⟨hm.flags, rfl, rfl, ?_, ?_, horder, ?_⟩
  · rw [hlen', hm.curmsgs]
    rfl
  · show (Priority.place _ q.messages _).length ≤ q.attr.mqMaxmsg.toNat
    omega
  · intro m hmem
    rcases mem_append.mp (horder.mem_iff.mp hmem) with hold | hnew
    · exact hm.small m (hm.order.mem_iff.mpr hold)
    · rw [mem_singleton.mp hnew]
      exact Nat.le_of_not_lt hbig

/-- A receive is answered alike, and takes the message out alike. -/
theorem mqReceive (mqd : Int) (len : Nat) :
    (mqReceive s mqd len).1 = (a.mqReceive mqd len).1 ∧
      Refines ident (mqReceive s mqd len).2 (a.mqReceive mqd len).2 := by
  unfold Mqueue.mqReceive Spec.mqReceive
  obtain ⟨hx, hfd⟩ | ⟨x, q, hx, hfd, hq, hm⟩ := h.fd_cases mqd
  · simp only [hx, hfd]
    exact ⟨trivial, h⟩
  simp only [hx, hfd, hq, ← hm.msgsize]
  by_cases hshort : len < q.attr.mqMsgsize.toNat
  · simp only [if_pos hshort]
    exact ⟨trivial, h⟩
  simp only [if_neg hshort]
  have horder := hm.order
  cases hmsgs : q.messages with
  | nil =>
    rw [hmsgs] at horder
    have hnil : (a.queues (ident x.queueName)).queued = [] := by
      simpa using horder.perm.length_eq.symm
    have hnone : Priority.first Message.priority [] = none := rfl
    simp only [hnil, hnone, ite_self]
    exact ⟨trivial, h⟩
  | cons msg messages =>
    rw [hmsgs] at horder
    have hsmall := hm.small msg (by simp [hmsgs])
    simp only [horder.first_eq]
    refine ⟨by rw [Nat.min_eq_left (by omega), take_length], h.update hq rfl rfl ?_⟩
    have hcur := hm.curmsgs
    have hroom := hm.room
    rw [hmsgs, length_cons] at hcur hroom
    refine ⟨hm.flags, hm.maxmsg, rfl, ?_, ?_, horder.pop, ?_⟩
    · show q.attr.mqCurmsgs - 1 = (messages.length : Int)
      omega
    · show messages.length ≤ q.attr.mqMaxmsg.toNat
      omega
    · intro m hmem
      exact hm.small m (by rw [hmsgs]; exact mem_cons_of_mem _ hmem)

theorem mqGetattr (mqd : Int) : mqGetattr s mqd = a.mqGetattr mqd := by
  unfold Mqueue.mqGetattr Spec.mqGetattr
  obtain ⟨hx, hfd⟩ | ⟨x, q, hx, hfd, hq, hm⟩ := h.fd_cases mqd
  · simp only [hx, hfd]
  · simp only [hx, hfd, hq, ← hm.maxmsg, ← hm.msgsize, hm.order.perm.length_eq.symm,
      ← hm.curmsgs, ← hm.flags]

/-- A close is answered alike. The queue goes with its last descriptor if it waits for that, and
then no descriptor names it. -/
theorem mqClose (mqd : Int) :
    (mqClose s mqd).1 = (a.mqClose mqd).1 ∧ Refines ident (mqClose s mqd).2 (a.mqClose mqd).2 := by
  unfold Mqueue.mqClose Spec.mqClose
  obtain ⟨hx, hfd⟩ | ⟨x, q, hx, hfd, hq, hm⟩ := h.fd_cases mqd
  · simp only [hx, hfd]
    exact ⟨trivial, h⟩
  obtain ⟨-, -, hname⟩ := h.queue _ q hq
  simp only [hx, hfd, hq]
  refine ⟨trivial, h.change (r := if q.openCount - 1 = 0 ∧ q.unlinkPending then none
    else some { q with openCount := q.openCount - 1 }) hq ?_ rfl (fun _ _ => rfl) (fun _ _ => rfl)
    ?_ ?_ ?_ ?_ ?_⟩
  · intro m
    split
    · exact lookup_erase _ _ m
    · exact lookup_insert _ _ m _
  · intro q' hq'
    split at hq'
    · cases hq'
    · cases hq'
      exact ⟨hm.congr rfl rfl, hname⟩
  · intro hgone
    split at hgone
    next hlast => exact hname.trans (if_pos hlast.2)
    next => cases hgone
  · intro d y hy
    obtain ⟨hd, hy⟩ := lookup_erase_some hy
    show Function.update a.fds mqd none d = _
    rw [update_of_ne hd.symm]
    exact h.desc d y hy
  · intro d hy
    show Function.update a.fds mqd none d = none
    by_cases hd : mqd = d
    · rw [hd, update_self]
    · rw [lookup_erase, if_neg hd] at hy
      rw [update_of_ne (Ne.symm hd)]
      exact h.free d hy
  · intro m
    have hone := opened_erase hx m
    by_cases hm : x.queueName = m
    · subst hm
      rw [if_pos rfl, h.count, hq] at hone
      change _ = q.openCount at hone
      rw [if_pos rfl]
      split
      · show opened (s.descriptors.erase mqd) _ = 0
        omega
      · show opened (s.descriptors.erase mqd) _ = q.openCount - 1
        omega
    · rw [if_neg hm] at hone ⊢
      exact hone

/-- An unlink of a queue that does not wait for its removal is answered alike. -/
theorem mqUnlink {name : String}
    (hsettled : ∀ q ∈ s.queues[fullName name]?, q.unlinkPending = false) :
    (mqUnlink s name).1 = (a.mqUnlink name).1 ∧
      Refines ident (mqUnlink s name).2 (a.mqUnlink name).2 := by
  unfold Mqueue.mqUnlink Spec.mqUnlink
  cases hq : s.queues[fullName name]? with
  | none =>
    simp only [hq, h.absent _ hq]
    exact ⟨trivial, h⟩
  | some q =>
    obtain ⟨hm, -, hname⟩ := h.queue _ q hq
    have hcount := h.count (fullName name)
    rw [hsettled q hq] at hname
    rw [hq] at hcount
    simp only [hq, hname, Bool.false_eq_true, if_false]
    refine ⟨trivial, h.change (r := if q.openCount > 0 then some { q with unlinkPending := true }
      else none) hq ?_ rfl (fun _ _ => rfl) (fun m hm => update_of_ne hm.symm _ _) ?_
      (fun _ => update_self ..) h.desc h.free ?_⟩
    · intro m
      split
      · exact lookup_insert _ _ m _
      · exact lookup_erase _ _ m
    · intro q' hq'
      split at hq'
      · cases hq'
        exact ⟨hm.congr rfl rfl, update_self ..⟩
      · cases hq'
    · intro m
      by_cases hm : fullName name = m
      · subst hm
        rw [if_pos rfl]
        split
        · exact hcount
        · exact hcount.trans (Nat.eq_zero_of_not_pos ‹_›)
      · rw [if_neg hm]

/-- The descriptor tables after an open under a free number. -/
theorem open_descriptors (mqd : Int) (x : MqDescriptor) {id : Nat} (ident' : String → Nat)
    (hid : ident' x.queueName = id)
    (hsame : ∀ (d : Int) (y : MqDescriptor), s.descriptors[d]? = some y →
      ident' y.queueName = ident y.queueName) :
    (∀ d y, (s.descriptors.insert mqd x)[d]? = some y →
      Function.update a.fds mqd (some id) d = some (ident' y.queueName)) ∧
    ∀ d, (s.descriptors.insert mqd x)[d]? = none →
      Function.update a.fds mqd (some id) d = none := by
  constructor
  · intro d y hy
    obtain ⟨rfl, rfl⟩ | ⟨hd, hy⟩ := lookup_insert_some hy
    · rw [update_self, hid]
    · rw [update_of_ne hd.symm, hsame d y hy]
      exact h.desc d y hy
  · intro d hd'
    rw [lookup_insert] at hd'
    split_ifs at hd' with hd
    rw [update_of_ne (Ne.symm hd)]
    exact h.free d hd'

/-- Opening an existing queue that does not wait for its removal. -/
theorem join (hq : s.queues[n]? = some q) (hfree : s.descriptors[s.nextMqfd]? = none)
    (flags pid : Nat) (next : Int) :
    Refines ident
      ⟨s.queues.insert n { q with openCount := q.openCount + 1 },
        s.descriptors.insert s.nextMqfd ⟨n, flags, pid⟩, next⟩
      { a with fds := Function.update a.fds s.nextMqfd (some (ident n)) } := by
  obtain ⟨hm, -, hname⟩ := h.queue n q hq
  obtain ⟨hdesc, hclosed⟩ := h.open_descriptors s.nextMqfd ⟨n, flags, pid⟩ ident rfl
    fun _ _ _ => rfl
  refine h.change hq (fun m => lookup_insert _ _ m _) rfl (fun _ _ => rfl) (fun _ _ => rfl) ?_ nofun
    hdesc hclosed fun m => ?_
  · intro q' hq'
    cases hq'
    exact ⟨hm.congr rfl rfl, hname⟩
  · rw [opened_insert hfree]
    split_ifs with hm
    · rw [← hm, h.count n, hq]
      rfl
    · rfl

/-- Opening a new queue, under a new identity. -/
theorem create (hq : s.queues[n]? = none) (hfree : s.descriptors[s.nextMqfd]? = none)
    (attr : Option MqAttr) (mode flags pid : Nat) (next : Int) :
    Refines (Function.update ident n a.nextId)
      ⟨s.queues.insert n ⟨n, newAttr attr, [], mode, false, 1⟩,
        s.descriptors.insert s.nextMqfd ⟨n, flags, pid⟩, next⟩
      { names := Function.update a.names n (some a.nextId)
        fds := Function.update a.fds s.nextMqfd (some a.nextId)
        queues := Function.update a.queues a.nextId
          ⟨(newAttr attr).mqMaxmsg, (newAttr attr).mqMsgsize, [], [], []⟩
        nextId := a.nextId + 1 } := by
  -- every old queue keeps its identity, which is below the new one
  have hold : ∀ (m : String) (q : MessageQueue), s.queues[m]? = some q →
      Function.update ident n a.nextId m = ident m ∧ ident m < a.nextId := by
    intro m q hm
    refine ⟨update_of_ne ?_ _ _, (h.queue m q hm).2.1⟩
    intro heq
    rw [heq, hq] at hm
    cases hm
  obtain ⟨hdesc, hclosed⟩ := h.open_descriptors s.nextMqfd ⟨n, flags, pid⟩
    (Function.update ident n a.nextId) (update_self ..) fun d y hy => by
      obtain ⟨q, hq⟩ := h.present hy
      exact (hold _ q hq).1
  refine ⟨fun m q hm => ?_, fun m hm => ?_, fun m k hm hk heq => ?_, hdesc, hclosed, fun m => ?_⟩
  · obtain ⟨rfl, rfl⟩ | ⟨hnm, hm⟩ := lookup_insert_some hm
    · rw [update_self]
      refine ⟨?_, Nat.lt_succ_self _, update_self ..⟩
      show Matches _ (Function.update a.queues a.nextId _ a.nextId)
      rw [update_self]
      exact ⟨rfl, rfl, rfl, rfl, Nat.zero_le _, Priority.Stable.nil, by simp⟩
    · obtain ⟨hid, hlt⟩ := hold m q hm
      obtain ⟨hmatch, -, hname⟩ := h.queue m q hm
      rw [hid]
      refine ⟨?_, Nat.lt_succ_of_lt hlt, ?_⟩
      · show Matches q (Function.update a.queues a.nextId _ (ident m))
        rwa [update_of_ne (Nat.ne_of_lt hlt)]
      · show Function.update a.names n _ m = _
        rwa [update_of_ne hnm.symm]
  · rw [lookup_insert] at hm
    split_ifs at hm with hnm
    show Function.update a.names n _ m = none
    rw [update_of_ne (Ne.symm hnm)]
    exact h.absent m hm
  · obtain ⟨q, hmq⟩ := isSome_iff_exists.mp hm
    obtain ⟨p, hkp⟩ := isSome_iff_exists.mp hk
    rcases lookup_insert_some hmq with ⟨rfl, -⟩ | ⟨-, hmq⟩ <;>
      rcases lookup_insert_some hkp with ⟨rfl, -⟩ | ⟨-, hkp⟩
    · rfl
    · rw [update_self, (hold k p hkp).1] at heq
      exact absurd heq.symm (Nat.ne_of_lt (hold k p hkp).2)
    · rw [update_self, (hold m q hmq).1] at heq
      exact absurd heq (Nat.ne_of_lt (hold m q hmq).2)
    · rw [(hold m q hmq).1, (hold k p hkp).1] at heq
      exact h.inj m k (by simp [hmq]) (by simp [hkp]) heq
  · rw [opened_insert hfree, h.count m, lookup_insert]
    by_cases hm : n = m
    · subst hm
      simp [hq]
    · simp [hm]

/-- An open under a free number, of a queue that does not wait for its removal, is answered alike.
-/
theorem mqOpen {name : String} (oflag mode : Nat) (attr : Option MqAttr) (pid : Nat)
    (hsettled : ∀ q ∈ s.queues[fullName name]?, q.unlinkPending = false)
    (hfree : s.descriptors[s.nextMqfd]? = none) :
    (mqOpen s name oflag mode attr pid).1 = (a.mqOpen s.nextMqfd name oflag attr).1 ∧
      ∃ ident', Refines ident' (mqOpen s name oflag mode attr pid).2
        (a.mqOpen s.nextMqfd name oflag attr).2 := by
  unfold Mqueue.mqOpen Spec.mqOpen
  cases hq : s.queues[fullName name]? with
  | none =>
    simp only [hq, h.absent _ hq, isSome_none, isNone_none, and_true, and_false,
      Bool.false_eq_true, if_false, getD_none]
    by_cases hcreat : oflag &&& oCreat = 0
    · simp only [if_pos hcreat]
      exact ⟨trivial, ident, h⟩
    · simp only [if_neg hcreat]
      exact ⟨trivial, _, h.create hq hfree attr mode oflag pid _⟩
  | some q =>
    have hpending := hsettled q hq
    obtain ⟨-, -, hname⟩ := h.queue _ q hq
    rw [hpending] at hname
    simp only [hq, hname, isSome_some, isNone_some, and_true, and_false,
      Bool.false_eq_true, if_false, getD_some]
    by_cases hexcl : oflag &&& oCreat ≠ 0 ∧ oflag &&& oExcl ≠ 0
    · simp only [if_pos hexcl]
      exact ⟨trivial, ident, h⟩
    · simp only [if_neg hexcl]
      exact ⟨trivial, ident, h.join hq hfree oflag pid _⟩

end

end Refines

/-! ### Runs -/

/-- The tables beside the specification. -/
structure Trace where
  state : State
  spec : Spec

/-- Both at boot. -/
def Trace.init : Trace := ⟨.init, .init⟩

/-- One call on both. -/
def Trace.step (t : Trace) (op : Op) : Trace :=
  ⟨(t.state.call op).2, (t.spec.call t.state.nextMqfd op).2⟩

/-- The call names no queue that waits for its removal, and an open uses a free descriptor number.
-/
def Settled (s : State) : Op → Prop
  | .mqOpen name _ _ _ _ =>
    (∀ q ∈ s.queues[fullName name]?, q.unlinkPending = false) ∧
      s.descriptors[s.nextMqfd]? = none
  | .mqUnlink name => ∀ q ∈ s.queues[fullName name]?, q.unlinkPending = false
  | _ => True

instance (s : State) : ∀ op, Decidable (Settled s op)
  | .mqOpen _ _ _ _ _ => inferInstanceAs (Decidable (_ ∧ _))
  | .mqUnlink name => inferInstanceAs (Decidable (∀ q ∈ s.queues[fullName name]?, _))
  | .mqClose _ => inferInstanceAs (Decidable True)
  | .mqSend _ _ _ => inferInstanceAs (Decidable True)
  | .mqReceive _ _ => inferInstanceAs (Decidable True)
  | .mqGetattr _ => inferInstanceAs (Decidable True)

variable {a : Spec}

/-- A settled call is answered as the specification does, and the tables still stand for it. -/
theorem Refines.call {ident : String → Nat} {s : State} (h : Refines ident s a) {op : Op}
    (hsettled : Settled s op) :
    (s.call op).1 = (a.call s.nextMqfd op).1 ∧
      ∃ ident', Refines ident' (s.call op).2 (a.call s.nextMqfd op).2 := by
  cases op with
  | mqOpen name oflag mode attr pid =>
    obtain ⟨hsame, hnext⟩ := h.mqOpen oflag mode attr pid hsettled.1 hsettled.2
    exact ⟨congrArg Outcome.opened hsame, hnext⟩
  | mqClose mqd =>
    obtain ⟨hsame, hnext⟩ := h.mqClose mqd
    exact ⟨congrArg Outcome.closed hsame, ident, hnext⟩
  | mqUnlink name =>
    obtain ⟨hsame, hnext⟩ := h.mqUnlink hsettled
    exact ⟨congrArg Outcome.unlinked hsame, ident, hnext⟩
  | mqSend mqd data priority =>
    obtain ⟨hsame, hnext⟩ := h.mqSend mqd data priority
    exact ⟨congrArg Outcome.sent hsame, ident, hnext⟩
  | mqReceive mqd len =>
    obtain ⟨hsame, hnext⟩ := h.mqReceive mqd len
    exact ⟨congrArg Outcome.received hsame, ident, hnext⟩
  | mqGetattr mqd => exact ⟨congrArg Outcome.attr (h.mqGetattr mqd), ident, h⟩

/-- What was sent to a queue was received from it or is still in it. -/
def Spec.Conserves (a : Spec) : Prop :=
  ∀ id, (a.queues id).sent.Perm ((a.queues id).received ++ (a.queues id).queued)

theorem Spec.Conserves.update (h : a.Conserves) (id : Nat) {q : SpecQueue}
    (hq : q.sent.Perm (q.received ++ q.queued)) {names : String → Option Nat}
    {fds : Int → Option Nat} {nextId : Nat} :
    Spec.Conserves ⟨names, fds, Function.update a.queues id q, nextId⟩ := by
  intro k
  by_cases hk : k = id
  · subst hk
    simpa using hq
  · simpa [update_of_ne hk] using h k

/-- Every call of the specification conserves the messages. -/
theorem Spec.Conserves.call (h : a.Conserves) (mqd : Int) (op : Op) :
    (a.call mqd op).2.Conserves := by
  cases op with
  | mqOpen name oflag mode attr pid =>
    simp only [Spec.call, Spec.mqOpen]
    cases a.names (fullName name) with
    | none =>
      by_cases hcreat : oflag &&& oCreat = 0
      · simp only [if_pos hcreat]
        exact h
      · simp only [if_neg hcreat]
        exact h.update _ (List.Perm.refl [])
    | some id =>
      by_cases hexcl : oflag &&& oCreat ≠ 0 ∧ oflag &&& oExcl ≠ 0
      · simp only [if_pos hexcl]
        exact h
      · simp only [if_neg hexcl]
        exact h
  | mqClose mqd =>
    simp only [Spec.call, Spec.mqClose]
    cases a.fds mqd with
    | none => exact h
    | some id => exact h
  | mqUnlink name =>
    simp only [Spec.call, Spec.mqUnlink]
    cases a.names (fullName name) with
    | none => exact h
    | some id => exact h
  | mqSend mqd data priority =>
    simp only [Spec.call, Spec.mqSend]
    cases a.fds mqd with
    | none => exact h
    | some id =>
      simp only
      split_ifs
      · exact h
      · exact h
      · refine h.update id ?_
        rw [← append_assoc]
        exact (h id).append_right _
  | mqReceive mqd len =>
    simp only [Spec.call, Spec.mqReceive]
    cases a.fds mqd with
    | none => exact h
    | some id =>
      by_cases hshort : len < (a.queues id).msgsize.toNat
      · simp only [if_pos hshort]
        exact h
      simp only [if_neg hshort]
      cases hfirst : Priority.first Message.priority (a.queues id).queued with
      | none => exact h
      | some msg =>
        have hperm : (a.queues id).sent.Perm ((a.queues id).received ++ [msg] ++
            Priority.rest Message.priority (a.queues id).queued) := by
          rw [append_assoc]
          exact (h id).trans ((Priority.perm_of_first hfirst).append_left _)
        exact h.update (q := { a.queues id with
          received := (a.queues id).received ++ [msg]
          queued := Priority.rest Message.priority (a.queues id).queued }) id hperm
  | mqGetattr mqd => exact h

/-- In every run of settled calls the reported count of a queue is the number of its messages and at
most its limit, its open count is the number of its descriptors, every message is received at most
once, and every further settled call is answered as the specification answers it. -/
theorem queues_deliver {t : Trace}
    (hrun : Reach Trace.step (fun t op => Settled t.state op) .init t) :
    (∀ (name : String) (q : MessageQueue), t.state.queues[name]? = some q →
      q.attr.mqCurmsgs = q.messages.length ∧ q.messages.length ≤ q.attr.mqMaxmsg.toNat ∧
        q.openCount = opened t.state.descriptors name) ∧
    (∀ id, (t.spec.queues id).sent.Perm
      ((t.spec.queues id).received ++ (t.spec.queues id).queued)) ∧
    ∀ op, Settled t.state op → (t.state.call op).1 = (t.spec.call t.state.nextMqfd op).1 := by
  have hinv : (∃ ident, Refines ident t.state t.spec) ∧ t.spec.Conserves := by
    refine hrun.invariant (fun t => (∃ ident, Refines ident t.state t.spec) ∧ t.spec.Conserves)
      ⟨⟨_, Refines.init⟩, fun _ => List.Perm.refl []⟩ fun t op h hsettled => ?_
    obtain ⟨⟨ident, hrefines⟩, hconserves⟩ := h
    exact ⟨(hrefines.call hsettled).2, hconserves.call _ op⟩
  obtain ⟨⟨ident, hrefines⟩, hconserves⟩ := hinv
  refine ⟨fun name q hq => ?_, hconserves, fun op hsettled => (hrefines.call hsettled).1⟩
  have hmatch := (hrefines.queue name q hq).1
  have hcount := hrefines.count name
  rw [hq] at hcount
  exact ⟨hmatch.curmsgs, hmatch.room, hcount.symm⟩

/-- Three messages of two priorities sent, one received, and the name given up and, after a close,
made again. -/
def settledCalls : List Op :=
  [.mqOpen "q" 0x42 0o600 none 1, .mqSend 1000 [1] 1, .mqSend 1000 [2] 7, .mqSend 1000 [3] 7,
    .mqReceive 1000 8192, .mqUnlink "/q", .mqClose 1000, .mqOpen "q" 0x42 0o600 none 1]

theorem queues_deliver_eight_calls :
    Admitted Trace.step (fun t op => Settled t.state op) .init settledCalls ∧
      ((settledCalls.foldl Trace.step .init).state.call (.mqReceive 1001 8192)).1 =
        .received (.error (-11)) := by
  have hadmitted : Admitted Trace.step (fun t op => Settled t.state op) .init settledCalls := by
    decide +kernel
  refine ⟨hadmitted, ?_⟩
  rw [(queues_deliver (Reach.start.foldl hadmitted)).2.2 (.mqReceive 1001 8192) trivial]
  rfl

/-- After its name is unlinked, an open queue is still found under it: an open without `O_CREAT`
joins it, where the specification finds no queue. -/
theorem unlinked_queue_reopened :
    ∃ t, Reach Trace.step (fun _ _ => True) .init t ∧ t.spec.names "/q" = none ∧
      (t.state.call (.mqOpen "/q" 0 0o600 none 1)).1 = .opened (.ok 1001) ∧
      (t.spec.call 1001 (.mqOpen "/q" 0 0o600 none 1)).1 = .opened (.error (-2)) := by
  refine ⟨_, Reach.free [.mqOpen "/q" 0x42 0o600 none 1, .mqUnlink "/q"], ?_⟩
  refine ⟨rfl, rfl, rfl⟩

end KnoxOS.Mqueue
