import Std.Data.TreeMap
import KnoxOS.Lib.Map
import KnoxOS.Lib.Reach
import KnoxOS.Sched.Process
import KnoxOS.Sched.Scheduler

/-!
# Signals

`sched/signals.rs`: the signals with their default actions, the signal state of a process, and the
calls that send and deliver signals. What a call does to a task beyond the tables modelled here,
ending it or running a handler, is returned as an `Effect`.
-/

namespace KnoxOS.Sched

open Std (TreeMap)
open Lib

inductive Signal where
  | sighup | sigint | sigquit | sigill | sigtrap | sigabrt | sigbus | sigfpe | sigkill | sigusr1
  | sigsegv | sigusr2 | sigpipe | sigalrm | sigterm | sigstkflt | sigchld | sigcont | sigstop
  | sigtstp | sigttin | sigttou | sigurg | sigxcpu | sigxfsz | sigvtalrm | sigprof | sigwinch
  | sigio | sigpwr | sigsys
deriving DecidableEq, Repr

inductive SignalAction where
  | terminate
  | coreDump
  | stop
  | cont
  | ignore
  | handler (addr : Nat)
deriving DecidableEq, Repr

inductive SignalDisposition where
  | default
  | ignore
  | handler (addr : Nat)
deriving DecidableEq, Repr

namespace Signal

/-- The signals in the order of their numbers, from 1 on. -/
def all : List Signal :=
  [.sighup, .sigint, .sigquit, .sigill, .sigtrap, .sigabrt, .sigbus, .sigfpe, .sigkill, .sigusr1,
    .sigsegv, .sigusr2, .sigpipe, .sigalrm, .sigterm, .sigstkflt, .sigchld, .sigcont, .sigstop,
    .sigtstp, .sigttin, .sigttou, .sigurg, .sigxcpu, .sigxfsz, .sigvtalrm, .sigprof, .sigwinch,
    .sigio, .sigpwr, .sigsys]

/-- `sig as u32`. -/
def number (sig : Signal) : Nat := all.idxOf sig + 1

def defaultAction : Signal → SignalAction
  | .sighup | .sigint | .sigterm | .sigusr1 | .sigusr2 | .sigpipe | .sigalrm | .sigprof
  | .sigvtalrm | .sigstkflt | .sigio | .sigpwr => .terminate
  | .sigquit | .sigill | .sigabrt | .sigbus | .sigfpe | .sigsegv | .sigxcpu | .sigxfsz | .sigsys
  | .sigtrap => .coreDump
  | .sigkill => .terminate
  | .sigstop | .sigtstp | .sigttin | .sigttou => .stop
  | .sigcont => .cont
  | .sigchld | .sigurg | .sigwinch => .ignore

def isCatchable (sig : Signal) : Bool := sig ≠ .sigkill ∧ sig ≠ .sigstop

end Signal

structure PendingSignal where
  signal : Signal
  senderPid : Nat
  timestamp : Nat
deriving DecidableEq, Repr

/-- `SignalMask`: a word with one bit for each blocked signal. -/
structure SignalMask where
  bits : Nat
deriving DecidableEq, Repr

namespace SignalMask

/-- `SignalMask::is_blocked`: SIGKILL and SIGSTOP never are. -/
def isBlocked (mask : SignalMask) (sig : Signal) : Bool :=
  if !sig.isCatchable then false else mask.bits &&& 2 ^ sig.number != 0

def block (mask : SignalMask) (sig : Signal) : SignalMask :=
  if sig.isCatchable then ⟨mask.bits ||| 2 ^ sig.number⟩ else mask

end SignalMask

structure ProcessSignals where
  dispositions : TreeMap Nat SignalDisposition
  pending : List PendingSignal
  mask : SignalMask

namespace ProcessSignals

def new : ProcessSignals := ⟨∅, [], ⟨0⟩⟩

def getAction (ps : ProcessSignals) (sig : Signal) : SignalAction :=
  match ps.dispositions[sig.number]? with
  | some .ignore => .ignore
  | some (.handler addr) => .handler addr
  | _ => sig.defaultAction

def sendSignal (ps : ProcessSignals) (entry : PendingSignal) : ProcessSignals :=
  { ps with pending := ps.pending ++ [entry] }

/-- Whether an entry of the queue can be taken out. -/
def deliverable (ps : ProcessSignals) (entry : PendingSignal) : Bool :=
  !ps.mask.isBlocked entry.signal

def dequeueSignal (ps : ProcessSignals) : Option (PendingSignal × ProcessSignals) :=
  (ps.pending.find? ps.deliverable).map fun entry =>
    (entry, { ps with pending := ps.pending.eraseP ps.deliverable })

/-- The loop of `deliver_signals`: entries are taken out until one is not ignored. Each round takes
one entry out, so the length of the queue is fuel enough. -/
def nextAction : Nat → ProcessSignals → Option (PendingSignal × SignalAction) × ProcessSignals
  | 0, ps => (none, ps)
  | fuel + 1, ps =>
    match ps.dequeueSignal with
    | none => (none, ps)
    | some (entry, ps) =>
      match ps.getAction entry.signal with
      | .ignore => nextAction fuel ps
      | action => (some (entry, action), ps)

end ProcessSignals

/-- `SignalFdInstance`, with signal number and sender of each queued record; the other fields of a
record are zero. -/
structure SignalFd where
  mask : Nat
  ownerPid : Nat
  pending : List (Nat × Nat)
deriving DecidableEq, Repr

/-- The tables the signal calls work on. -/
structure SignalKernel where
  table : ProcessTable
  sched : Scheduler
  signals : TreeMap Nat ProcessSignals
  timestamp : Nat
  signalFds : TreeMap Nat SignalFd

/-- What remains to be done to the task. -/
inductive Effect where
  | none
  | terminate (pid : Nat) (code : Int)
  | runHandler (pid : Nat) (signal : Signal) (addr : Nat)
deriving DecidableEq, Repr

namespace SignalKernel

/-- `stop_process`, on a CPU. -/
def stopProcess (k : SignalKernel) (cpu pid : Nat) : SignalKernel :=
  if pid ≤ desktopPid then k
  else
    { k with
      table := k.table.setState pid .stopped
      sched := k.sched.blockProcess cpu pid }

/-- `continue_process`; the second wake-up is that of `user_task::wake`. -/
def continueProcess (k : SignalKernel) (pid : Nat) : SignalKernel :=
  if pid ≤ desktopPid then k
  else if (k.table.getProcess pid).any (·.state = .stopped) then
    { k with
      table := k.table.setState pid .ready
      sched := (k.sched.wakeProcess pid).wakeProcess pid }
  else k

/-- Whether a signalfd of the process takes the signal. -/
def caught (k : SignalKernel) (pid : Nat) (sig : Signal) : Bool :=
  k.signalFds.toList.any fun e => e.2.ownerPid = pid && e.2.mask &&& 2 ^ sig.number != 0

def deliverToPid (k : SignalKernel) (pid : Nat) (sig : Signal) (sender : Nat) :
    Bool × SignalKernel :=
  (k.caught pid sig,
    { k with signalFds := k.signalFds.map fun _ fd =>
        if fd.ownerPid = pid ∧ fd.mask &&& 2 ^ sig.number ≠ 0 then
          { fd with pending := fd.pending ++ [(sig.number, sender)] }
        else fd })

/-- What `kill` does once the signal is queued. -/
def actAtOnce (k : SignalKernel) (cpu pid : Nat) : Signal → Effect × SignalKernel
  | .sigkill => (.terminate pid (-9), k)
  | .sigstop => (.none, k.stopProcess cpu pid)
  | .sigcont => (.none, k.continueProcess pid)
  | _ => (.none, k)

/-- `kill`, on a CPU. -/
def kill (k : SignalKernel) (cpu pid : Nat) (sig : Signal) (sender : Nat) :
    Except Int Effect × SignalKernel :=
  match k.signals[pid]? with
  | none => (.error (-3), k)
  | some ps =>
    if sig ≠ .sigkill ∧ k.caught pid sig then (.ok .none, (k.deliverToPid pid sig sender).2)
    else
      let queued := { k with
        signals := k.signals.insert pid (ps.sendSignal ⟨sig, sender, k.timestamp⟩)
        timestamp := u64 (k.timestamp + 1) }
      (.ok (queued.actAtOnce cpu pid sig).1, (queued.actAtOnce cpu pid sig).2)

/-- The part of `deliver_signals` after an entry was taken out. -/
def react (k : SignalKernel) (cpu pid : Nat) (entry : PendingSignal) :
    SignalAction → Effect × SignalKernel
  | .terminate | .coreDump => (.terminate pid (-(entry.signal.number : Int)), k)
  | .stop => (.none, k.stopProcess cpu pid)
  | .cont => (.none, k.continueProcess pid)
  | .ignore => (.none, k)
  | .handler addr =>
    (.runHandler pid entry.signal addr, { k with sched := k.sched.wakeProcess pid })

/-- `deliver_signals`, on a CPU. -/
def deliverSignals (k : SignalKernel) (cpu pid : Nat) : Effect × SignalKernel :=
  match k.signals[pid]? with
  | none => (.none, k)
  | some ps =>
    let found := ps.nextAction ps.pending.length
    let k := { k with signals := k.signals.insert pid found.2 }
    match found.1 with
    | none => (.none, k)
    | some (entry, action) => k.react cpu pid entry action

end SignalKernel

end KnoxOS.Sched
