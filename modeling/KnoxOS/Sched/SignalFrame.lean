import KnoxOS.Sched.Signals
import KnoxOS.Vmm.User

/-!
# Signal frames

A handler is entered with a frame on the user stack that holds the interrupted registers and the
signal mask, and `rt_sigreturn` loads both from the frame at the user stack pointer. Nothing is
checked on the way back: `sigreturn_unprivileged_iff` says for which bytes at the stack pointer the
context that is resumed has no more privilege than user code.
-/

namespace KnoxOS.Sched

open Std (TreeMap)
open Lib Vmm

/-- The registers of `CpuContext` that signal calls and `enter_context` move. -/
structure CpuContext where
  rax : UInt64
  rbx : UInt64
  rcx : UInt64
  rdx : UInt64
  rsi : UInt64
  rdi : UInt64
  rbp : UInt64
  rsp : UInt64
  r8 : UInt64
  r9 : UInt64
  r10 : UInt64
  r11 : UInt64
  r12 : UInt64
  r13 : UInt64
  r14 : UInt64
  r15 : UInt64
  rip : UInt64
  rflags : UInt64
  cs : UInt64
  ss : UInt64
deriving DecidableEq, Repr

namespace CpuContext

def new : CpuContext where
  rax := 0
  rbx := 0
  rcx := 0
  rdx := 0
  rsi := 0
  rdi := 0
  rbp := 0
  rsp := 0
  r8 := 0
  r9 := 0
  r10 := 0
  r11 := 0
  r12 := 0
  r13 := 0
  r14 := 0
  r15 := 0
  rip := 0
  rflags := 0x202
  cs := 0x08
  ss := 0x10

def newUserThread (entryPoint stackTop : UInt64) : CpuContext :=
  { new with
    rip := entryPoint
    rsp := stackTop
    rbp := stackTop
    cs := 0x23
    ss := 0x1B
    rflags := 0x202 }

end CpuContext

/-- What `iretq` loads. -/
structure IretFrame where
  rip : UInt64
  cs : UInt64
  rflags : UInt64
  rsp : UInt64
  ss : UInt64
deriving DecidableEq, Repr

/-- `enter_context` for a target in ring 3: the flags are loaded as they are, with IF set. -/
def enterContext (ctx : CpuContext) : Option IretFrame :=
  if ctx.cs &&& 3 = 0 then none
  else some ⟨ctx.rip, ctx.cs, ctx.rflags ||| 0x200, ctx.rsp, ctx.ss⟩

structure ProcessContext where
  pid : Nat
  context : CpuContext
deriving DecidableEq, Repr

/-! ## The frame -/

/-- `SignalFrame`, in the order of its fields in memory. -/
structure SignalFrame where
  trampoline : List UInt8
  savedRip : UInt64
  savedRsp : UInt64
  savedRflags : UInt64
  savedRax : UInt64
  savedRbx : UInt64
  savedRcx : UInt64
  savedRdx : UInt64
  savedRsi : UInt64
  savedRdi : UInt64
  savedRbp : UInt64
  savedR8 : UInt64
  savedR9 : UInt64
  savedR10 : UInt64
  savedR11 : UInt64
  savedR12 : UInt64
  savedR13 : UInt64
  savedR14 : UInt64
  savedR15 : UInt64
  signo : UInt32
  pad : UInt32
  savedMask : UInt64
deriving DecidableEq, Repr

/-- The word at an address. -/
def wordAt (bytes : Nat → UInt8) (offset : Nat) : UInt64 :=
  UInt64.ofNat (leWord fun k => bytes (offset + k))

namespace SignalFrame

/-- `size_of::<SignalFrame>()`. -/
def size : Nat := 176

/-- `SignalFrame::new`: the trampoline is `mov rax, 15; syscall; int3`. -/
def new (signo : UInt32) : SignalFrame where
  trampoline := [0x48, 0xc7, 0xc0, 0x0f, 0x00, 0x00, 0x00, 0x0f, 0x05, 0xcc, 0, 0, 0, 0, 0, 0]
  savedRip := 0
  savedRsp := 0
  savedRflags := 0
  savedRax := 0
  savedRbx := 0
  savedRcx := 0
  savedRdx := 0
  savedRsi := 0
  savedRdi := 0
  savedRbp := 0
  savedR8 := 0
  savedR9 := 0
  savedR10 := 0
  savedR11 := 0
  savedR12 := 0
  savedR13 := 0
  savedR14 := 0
  savedR15 := 0
  signo := signo
  pad := 0
  savedMask := 0

/-- The words behind the trampoline; `signo` and the padding share one. -/
def words (f : SignalFrame) : List UInt64 :=
  [f.savedRip, f.savedRsp, f.savedRflags, f.savedRax, f.savedRbx, f.savedRcx, f.savedRdx,
    f.savedRsi, f.savedRdi, f.savedRbp, f.savedR8, f.savedR9, f.savedR10, f.savedR11, f.savedR12,
    f.savedR13, f.savedR14, f.savedR15, f.signo.toUInt64 ||| f.pad.toUInt64 <<< 32, f.savedMask]

/-- The byte of the frame at an offset. -/
def byte (f : SignalFrame) (offset : Nat) : UInt8 :=
  if offset < 16 then byteAt f.trampoline offset
  else wordByte (f.words.getD ((offset - 16) / 8) 0).toNat ((offset - 16) % 8)

/-- The frame as it is written to memory. -/
def bytes (f : SignalFrame) : List UInt8 := bytesFrom f.byte 0 size

/-- The frame that bytes in memory are read as. -/
def ofBytes (bytes : Nat → UInt8) : SignalFrame where
  trampoline := bytesFrom bytes 0 16
  savedRip := wordAt bytes 16
  savedRsp := wordAt bytes 24
  savedRflags := wordAt bytes 32
  savedRax := wordAt bytes 40
  savedRbx := wordAt bytes 48
  savedRcx := wordAt bytes 56
  savedRdx := wordAt bytes 64
  savedRsi := wordAt bytes 72
  savedRdi := wordAt bytes 80
  savedRbp := wordAt bytes 88
  savedR8 := wordAt bytes 96
  savedR9 := wordAt bytes 104
  savedR10 := wordAt bytes 112
  savedR11 := wordAt bytes 120
  savedR12 := wordAt bytes 128
  savedR13 := wordAt bytes 136
  savedR14 := wordAt bytes 144
  savedR15 := wordAt bytes 152
  signo := (wordAt bytes 160).toUInt32
  pad := (wordAt bytes 160 >>> 32).toUInt32
  savedMask := wordAt bytes 168

end SignalFrame

/-! ## Delivery and return -/

/-- The tables the calls work on; `pages` holds the page tables of each process. -/
structure UserKernel where
  contexts : List ProcessContext
  signals : TreeMap Nat ProcessSignals
  pages : Nat → PageMap
  mem : PhysMem

/-- `-4`, the result of an interrupted system call. -/
def eintr : UInt64 := 0xFFFFFFFFFFFFFFFC

/-- The stack pointer the handler is entered with: room for the frame below the interrupted one,
rounded down to a multiple of 16. -/
def frameRsp (rsp : UInt64) : UInt64 := (if rsp < 176 then 0 else rsp - 176) &&& ~~~0xF

namespace UserKernel

def getUserContext (k : UserKernel) (pid : Nat) : Option CpuContext :=
  (k.contexts.find? (·.pid = pid)).map (·.context)

/-- Change the saved context of a process. -/
def modifyContext (k : UserKernel) (pid : Nat) (f : CpuContext → CpuContext) : UserKernel :=
  { k with contexts :=
      modifyFirst (·.pid = pid) (fun pc => { pc with context := f pc.context }) k.contexts }

def setUserContext (k : UserKernel) (pid : Nat) (rip rsp rdi : UInt64) : UserKernel :=
  k.modifyContext pid fun ctx => { ctx with rip := rip, rsp := rsp, rdi := rdi }

def restoreUserContext (k : UserKernel) (pid : Nat) (frame : SignalFrame) : UserKernel :=
  k.modifyContext pid fun ctx =>
    { ctx with
      rip := frame.savedRip
      rsp := frame.savedRsp
      rflags := frame.savedRflags
      rax := frame.savedRax
      rbx := frame.savedRbx
      rcx := frame.savedRcx
      rdx := frame.savedRdx
      rsi := frame.savedRsi
      rdi := frame.savedRdi
      rbp := frame.savedRbp
      r8 := frame.savedR8
      r9 := frame.savedR9
      r10 := frame.savedR10
      r11 := frame.savedR11
      r12 := frame.savedR12
      r13 := frame.savedR13
      r14 := frame.savedR14
      r15 := frame.savedR15 }

/-- The frame for an interrupted context. The result of the system call, `-EINTR`, takes the place
of RAX whether there is a call or not. -/
def newFrame (k : UserKernel) (pid : Nat) (signal : Signal) (ctx : CpuContext) : SignalFrame :=
  { SignalFrame.new (UInt32.ofNat signal.number) with
    savedRip := ctx.rip
    savedRsp := ctx.rsp
    savedRflags := ctx.rflags
    savedRax := eintr
    savedRbx := ctx.rbx
    savedRcx := ctx.rcx
    savedRdx := ctx.rdx
    savedRsi := ctx.rsi
    savedRdi := ctx.rdi
    savedRbp := ctx.rbp
    savedR8 := ctx.r8
    savedR9 := ctx.r9
    savedR10 := ctx.r10
    savedR11 := ctx.r11
    savedR12 := ctx.r12
    savedR13 := ctx.r13
    savedR14 := ctx.r14
    savedR15 := ctx.r15
    savedMask := match k.signals[pid]? with
      | some ps => UInt64.ofNat ps.mask.bits
      | none => 0 }

def setupSignalFrame (k : UserKernel) (pid : Nat) (signal : Signal) (handler : UInt64) :
    UserKernel :=
  match k.getUserContext pid with
  | none => k
  | some ctx =>
    let newRsp := frameRsp ctx.rsp
    let k := { k with
      mem := writeUserMemory k.mem (k.pages pid) newRsp (k.newFrame pid signal ctx).bytes
      signals := k.signals.modify pid fun ps => { ps with mask := ps.mask.block signal } }
    k.setUserContext pid handler newRsp (UInt64.ofNat signal.number)

/-- The address `sigreturn` reads the frame from: the live user stack pointer, or without one the
saved one. -/
def sigreturnRsp (k : UserKernel) (pid : Nat) (live : UInt64) : Option UInt64 :=
  if live ≠ 0 then some live else (k.getUserContext pid).map (·.rsp)

/-- The frame at an address of the process. -/
def frameAt (k : UserKernel) (pid : Nat) (rsp : UInt64) : SignalFrame :=
  SignalFrame.ofBytes (byteAt (readUserMemory k.mem (k.pages pid) rsp SignalFrame.size))

/-- `sigreturn`, with the live user stack pointer. -/
def sigreturn (k : UserKernel) (pid : Nat) (live : UInt64) :
    Option (UInt64 × UInt64) × UserKernel :=
  match k.sigreturnRsp pid live with
  | none => (none, k)
  | some rsp =>
    let frame := k.frameAt pid rsp
    let k := { k with
      signals := k.signals.modify pid fun ps => { ps with mask := ⟨frame.savedMask.toNat⟩ } }
    (some (frame.savedRip, frame.savedRsp), k.restoreUserContext pid frame)

theorem getUserContext_modifyContext (k : UserKernel) (pid : Nat) (f : CpuContext → CpuContext) :
    (k.modifyContext pid f).getUserContext pid = (k.getUserContext pid).map f := by
  unfold getUserContext modifyContext
  rw [find?_modifyFirst]
  · rw [Option.map_map, Option.map_map]
    rfl
  · intro pc hpc
    exact hpc

/-- What `sigreturn` does to a process with a saved context. -/
theorem sigreturn_spec {k : UserKernel} {pid : Nat} {live rsp : UInt64}
    (h : k.sigreturnRsp pid live = some rsp) :
    (k.sigreturn pid live).2 =
      { k with signals := k.signals.modify pid fun ps =>
          { ps with mask := ⟨(k.frameAt pid rsp).savedMask.toNat⟩ } }.restoreUserContext pid
        (k.frameAt pid rsp) := by
  unfold sigreturn
  rw [h]

end UserKernel

/-! ## Privilege -/

/-- A canonical address of the user half. -/
def UserHalf (addr : UInt64) : Prop := addr < 0x800000000000

/-- IF. -/
def interruptFlag : UInt64 := 0x200

/-- IOPL. -/
def ioplFlags : UInt64 := 0x3000

/-- The other system flags: TF, NT, RF, VM, AC, VIF, VIP and ID. -/
def otherSystemFlags : UInt64 := 0x3F4100

/-- The context `after` has no more privilege than user code that had the context `before`. -/
structure Unprivileged (before after : CpuContext) : Prop where
  interrupts : after.rflags &&& interruptFlag ≠ 0
  iopl : after.rflags &&& ioplFlags = 0
  flags : after.rflags &&& otherSystemFlags = before.rflags &&& otherSystemFlags
  rip : UserHalf after.rip
  rsp : UserHalf after.rsp

/-- `sigreturn` grants no privilege: the context that will be resumed is unprivileged, and SIGKILL
and SIGSTOP can be delivered. -/
def SigreturnUnprivileged (k : UserKernel) (pid : Nat) (live : UInt64) (before : CpuContext) :
    Prop :=
  (∃ after, (k.sigreturn pid live).2.getUserContext pid = some after ∧
    Unprivileged before after) ∧
  ∀ ps, (k.sigreturn pid live).2.signals[pid]? = some ps → ∀ e : PendingSignal,
    e.signal = .sigkill ∨ e.signal = .sigstop → ps.deliverable e = true

/-- The word of user memory at an address. -/
def UserKernel.userWord (k : UserKernel) (pid : Nat) (addr : UInt64) : UInt64 :=
  UInt64.ofNat (leWord fun i => loadByte k.mem (k.pages pid) (addr + UInt64.ofNat i))

theorem UserKernel.wordAt_readUserMemory (k : UserKernel) (pid : Nat) (rsp : UInt64) {offset : Nat}
    (h : offset + 8 ≤ SignalFrame.size) :
    wordAt (byteAt (readUserMemory k.mem (k.pages pid) rsp SignalFrame.size)) offset =
      k.userWord pid (rsp + UInt64.ofNat offset) := by
  refine congrArg UInt64.ofNat (leWord_congr fun i hi => ?_)
  rw [byteAt_readUserMemory _ _ _ (by omega), UInt64.add_assoc, UInt64.ofNat_add]

/-- `sigreturn` grants no privilege exactly when the words at the stack pointer do not ask for any:
the saved flags have IF, no IOPL and the system flags of the context, and the saved RIP and RSP are
canonical user addresses. -/
theorem sigreturn_unprivileged_iff {k : UserKernel} {pid : Nat} {live rsp : UInt64}
    {before : CpuContext} (hctx : k.getUserContext pid = some before)
    (hrsp : k.sigreturnRsp pid live = some rsp) :
    SigreturnUnprivileged k pid live before ↔
      k.userWord pid (rsp + 32) &&& interruptFlag ≠ 0 ∧
      k.userWord pid (rsp + 32) &&& ioplFlags = 0 ∧
      k.userWord pid (rsp + 32) &&& otherSystemFlags = before.rflags &&& otherSystemFlags ∧
      UserHalf (k.userWord pid (rsp + 16)) ∧ UserHalf (k.userWord pid (rsp + 24)) := by
  have hrip : (k.frameAt pid rsp).savedRip = k.userWord pid (rsp + 16) :=
    k.wordAt_readUserMemory pid rsp (by decide)
  have hsp : (k.frameAt pid rsp).savedRsp = k.userWord pid (rsp + 24) :=
    k.wordAt_readUserMemory pid rsp (by decide)
  have hflags : (k.frameAt pid rsp).savedRflags = k.userWord pid (rsp + 32) :=
    k.wordAt_readUserMemory pid rsp (by decide)
  -- the context after the call
  obtain ⟨after, hafter, hrip', hsp', hflags'⟩ : ∃ after,
      (k.sigreturn pid live).2.getUserContext pid = some after ∧
      after.rip = (k.frameAt pid rsp).savedRip ∧ after.rsp = (k.frameAt pid rsp).savedRsp ∧
      after.rflags = (k.frameAt pid rsp).savedRflags := by
    rw [UserKernel.sigreturn_spec hrsp]
    unfold UserKernel.restoreUserContext
    rw [UserKernel.getUserContext_modifyContext]
    have hsame : UserKernel.getUserContext { k with signals := k.signals.modify pid fun ps =>
        { ps with mask := ⟨(k.frameAt pid rsp).savedMask.toNat⟩ } } pid = some before := hctx
    rw [hsame]
    exact ⟨_, rfl, rfl, rfl, rfl⟩
  rw [← hrip, ← hsp, ← hflags, ← hrip', ← hsp', ← hflags']
  constructor
  · intro hsafe
    obtain ⟨⟨after', hafter', hun⟩, -⟩ := hsafe
    rw [hafter] at hafter'
    cases hafter'
    exact ⟨hun.interrupts, hun.iopl, hun.flags, hun.rip, hun.rsp⟩
  · intro hwords
    obtain ⟨hif, hiopl, hother, hrip, hsp⟩ := hwords
    refine ⟨⟨after, hafter, hif, hiopl, hother, hrip, hsp⟩, fun ps _ e he => ?_⟩
    -- no mask blocks the two signals
    unfold ProcessSignals.deliverable
    rcases he with he | he
    · rw [he]
      rfl
    · rw [he]
      rfl

instance (addr : UInt64) : Decidable (UserHalf addr) :=
  inferInstanceAs (Decidable (addr < 0x800000000000))

/-- Process 3 runs at `0x400000` with its stack in the page at `0x1000`. -/
def oneProcess : UserKernel where
  contexts := [⟨3, .newUserThread 0x400000 0x1800⟩]
  signals := (∅ : TreeMap Nat ProcessSignals).insert 3 .new
  pages := fun _ page => if page = 0x1000 then some 0x5000 else none
  mem := fun _ _ => 0

/-- A handler that returns at once. -/
theorem sigreturn_unprivileged_iff_handler_return :
    SigreturnUnprivileged (oneProcess.setupSignalFrame 3 .sigusr1 0x401000) 3 0x1750
      { CpuContext.newUserThread 0x400000 0x1800 with
        rip := 0x401000, rsp := 0x1750, rdi := 10 } := by
  have hrsp : (oneProcess.setupSignalFrame 3 .sigusr1 0x401000).sigreturnRsp 3 0x1750 =
      some 0x1750 := rfl
  refine (sigreturn_unprivileged_iff ?_ hrsp).mpr ?_
  · decide +kernel
  · decide +kernel

/-- A frame with an I/O privilege level of 3. -/
def forgedFrame : SignalFrame :=
  { SignalFrame.new 0 with savedRip := 0x400000, savedRsp := 0x1800, savedRflags := 0x3202 }

/-- The process has written the frame to its stack. -/
def forged : UserKernel :=
  { oneProcess with
    mem := writeUserMemory oneProcess.mem (oneProcess.pages 3) 0x1100 forgedFrame.bytes }

/-- `sigreturn` loads the level, and `enter_context` resumes the process with it. -/
theorem forged_frame_raises_iopl :
    (∃ before, forged.getUserContext 3 = some before ∧
      ¬ SigreturnUnprivileged forged 3 0x1100 before) ∧
    (((forged.sigreturn 3 0x1100).2.getUserContext 3).bind enterContext).map
      (·.rflags &&& ioplFlags) = some 0x3000 := by
  refine ⟨⟨.newUserThread 0x400000 0x1800, rfl, fun hsafe => ?_⟩, by decide +kernel⟩
  obtain ⟨⟨after, hafter, hun⟩, -⟩ := hsafe
  have hiopl : ((forged.sigreturn 3 0x1100).2.getUserContext 3).map
      (·.rflags &&& ioplFlags) = some 0x3000 := by decide +kernel
  rw [hafter, Option.map_some, hun.iopl] at hiopl
  exact absurd hiopl (by decide)

end KnoxOS.Sched
