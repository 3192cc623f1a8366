import KnoxOS.Sched.SignalFrame

/-!
# Handlers that return

A signal interrupts a process, its handler runs, is itself interrupted by further signals any
number of levels deep, and each handler ends with `rt_sigreturn` at its own frame.
`delivery_not_transparent` says what such an episode does to the interrupted code: the handler is
always entered with a stack pointer that the calling convention does not allow, and where the frames
of the running handlers are kept, the signal mask and all registers but RAX come back, RAX is
replaced by the result of an interrupted system call, and the frame lies in the red zone.
-/

namespace KnoxOS.Sched

open SignalFrame UserKernel Option
open Std (TreeMap)
open Lib Vmm

/-- The general registers, RIP, RSP and RFLAGS, in the order of the signal frame. -/
def CpuContext.registers (ctx : CpuContext) : List UInt64 :=
  [ctx.rip, ctx.rsp, ctx.rflags, ctx.rax, ctx.rbx, ctx.rcx, ctx.rdx, ctx.rsi, ctx.rdi, ctx.rbp,
    ctx.r8, ctx.r9, ctx.r10, ctx.r11, ctx.r12, ctx.r13, ctx.r14, ctx.r15]

/-- An address of the frame at `base`. -/
def InFrame (base addr : UInt64) : Prop := ∃ i < SignalFrame.size, addr = base + UInt64.ofNat i

/-! ## The stack pointer of a handler -/

/-- Clearing the low four bits rounds down to a multiple of 16. -/
theorem toNat_and_not_fifteen (x : UInt64) : (x &&& ~~~0xF).toNat = x.toNat / 16 * 16 := by
  have hmask : (~~~(0xF : UInt64)).toNat = 2 ^ 64 - (15 + 1) := by decide
  rw [UInt64.toNat_and, hmask]
  refine Nat.eq_of_testBit_eq fun i => ?_
  have h16 : (16 : Nat) = 2 ^ 4 := by decide
  have h15 : (15 : Nat) = 2 ^ 4 - 1 := by decide
  rw [Nat.testBit_and, Nat.testBit_two_pow_sub_succ (by decide), h16, Nat.testBit_mul_two_pow,
    Nat.testBit_div_two_pow, h15, Nat.testBit_two_pow_sub_one]
  by_cases hlow : 4 ≤ i
  · have hsub : i - 4 + 4 = i := by omega
    rw [hsub]
    by_cases hhigh : i < 64
    · simp [hlow, hhigh]
    · have hzero : x.toNat.testBit i = false := by
        refine Nat.testBit_lt_two_pow (Nat.lt_of_lt_of_le x.toNat_lt ?_)
        exact Nat.pow_le_pow_right (by decide) (by omega)
      simp [hzero]
  · simp [hlow]
    omega

theorem toNat_frameRsp {rsp : UInt64} (h : 176 ≤ rsp.toNat) :
    (frameRsp rsp).toNat = (rsp.toNat - 176) / 16 * 16 := by
  unfold frameRsp
  have hge : ¬ rsp < 176 := by
    exact Nat.not_lt.mpr h
  rw [if_neg hge, toNat_and_not_fifteen, UInt64.toNat_sub_of_le _ _ (by
    exact h)]
  rfl

/-! ## Frames in memory -/

/-- A word of the frame is read back from its bytes. -/
theorem SignalFrame.wordAt_byte (f : SignalFrame) (i : Nat) :
    wordAt f.byte (16 + 8 * i) = f.words.getD i 0 := by
  have hbytes : ∀ j < 8, f.byte (16 + 8 * i + j) = wordByte (f.words.getD i 0).toNat j := by
    intro j hj
    have hdiv : (16 + 8 * i + j - 16) / 8 = i := by omega
    have hmod : (16 + 8 * i + j - 16) % 8 = j := by omega
    unfold byte
    rw [if_neg (by omega), hdiv, hmod]
  unfold wordAt
  rw [leWord_congr hbytes, leWord_wordByte (UInt64.toNat_lt _)]
  exact UInt64.ofNat_toNat

section

variable {k : UserKernel} {pid : Nat} {rsp : UInt64} {frame : SignalFrame} {i : Nat}

/-- The words of a frame that lies in user memory. -/
theorem UserKernel.wordAt_frame
    (h : ∀ i < size, loadByte k.mem (k.pages pid) (rsp + UInt64.ofNat i) = frame.byte i)
    (hi : i < 20) :
    wordAt (byteAt (readUserMemory k.mem (k.pages pid) rsp size)) (16 + 8 * i) =
      frame.words.getD i 0 := by
  rw [← frame.wordAt_byte]
  refine congrArg UInt64.ofNat (leWord_congr fun j hj => ?_)
  have hlt : 16 + 8 * i + j < size := by
    unfold size
    omega
  rw [byteAt_readUserMemory _ _ _ hlt, h _ hlt]

/-- `sigreturn` at a frame gives the process its registers and its mask. -/
theorem UserKernel.sigreturn_frame {ctx : CpuContext} {ps : ProcessSignals} (hrsp : rsp ≠ 0)
    (hctx : k.getUserContext pid = some ctx) (hps : k.signals[pid]? = some ps)
    (h : ∀ i < size,
      loadByte k.mem (k.pages pid) (rsp + UInt64.ofNat i) = frame.byte i) :
    (∃ ctx', (k.sigreturn pid rsp).2.getUserContext pid = some ctx' ∧
      ctx'.registers = frame.words.take 18) ∧
    ∃ ps', (k.sigreturn pid rsp).2.signals[pid]? = some ps' ∧
      ps'.mask = ⟨frame.savedMask.toNat⟩ := by
  have hwords := fun (i : Nat) (hi : i < 20) => wordAt_frame h hi
  have hmask : (k.frameAt pid rsp).savedMask = frame.savedMask := hwords 19 (by decide)
  rw [sigreturn_spec (if_pos hrsp)]
  unfold restoreUserContext
  constructor
  · rw [getUserContext_modifyContext]
    have hsame : getUserContext { k with signals := k.signals.modify pid fun ps =>
        { ps with mask := ⟨(k.frameAt pid rsp).savedMask.toNat⟩ } } pid = some ctx := hctx
    rw [hsame]
    refine ⟨_, rfl, ?_⟩
    have hall := List.map_congr_left fun i hi =>
      hwords i (Nat.lt_trans (List.mem_range.mp hi) (by decide : 18 < 20))
    exact hall
  · refine ⟨{ ps with mask := ⟨frame.savedMask.toNat⟩ }, ?_, rfl⟩
    show (k.signals.modify pid _)[pid]? = _
    rw [Lib.lookup_modify, if_pos rfl, hps, hmask]
    rfl

end

/-! ## Episodes -/

/-- What a step of the process or of its handlers leaves alone: the bytes at the addresses in
`keep`. The process still has a context and signal state afterwards; its registers, its mask, its
page tables and the rest of its memory may change. -/
structure Kept (pid : Nat) (keep : UInt64 → Prop) (k k' : UserKernel) : Prop where
  context : (k.getUserContext pid).isSome → (k'.getUserContext pid).isSome
  signals : (k.signals[pid]?).isSome → (k'.signals[pid]?).isSome
  bytes : ∀ addr, keep addr →
    loadByte k'.mem (k'.pages pid) addr = loadByte k.mem (k.pages pid) addr

/-- There is mapped stack for a frame below the interrupted stack pointer. It overlaps none of the
frames in `keep`, and their pages and its own have different physical pages. -/
structure FrameFits (k : UserKernel) (pid : Nat) (keep : UInt64 → Prop) (ctx : CpuContext) :
    Prop where
  room : 192 ≤ ctx.rsp.toNat
  half : UserHalf ctx.rsp
  mapped : ∀ i < SignalFrame.size,
    (k.pages pid (pageOf (frameRsp ctx.rsp + UInt64.ofNat i))).isSome
  free : ∀ addr, InFrame (frameRsp ctx.rsp) addr → ¬ keep addr
  unshared : (k.pages pid).PrivateOn fun addr => keep addr ∨ InFrame (frameRsp ctx.rsp) addr

/-- What happens while a handler runs: steps of user code that keep the frames of the running
handlers, and further signals with handlers of their own. -/
inductive Inside (pid : Nat) : (UInt64 → Prop) → UserKernel → UserKernel → Prop where
  | done (keep : UInt64 → Prop) (k : UserKernel) : Inside pid keep k k
  | user {keep : UInt64 → Prop} {k k₁ k' : UserKernel} (hstep : Kept pid keep k k₁)
      (rest : Inside pid keep k₁ k') : Inside pid keep k k'
  | signal {keep : UInt64 → Prop} {k k₁ k' : UserKernel} {ctx : CpuContext} (sig : Signal)
      (handler : UInt64) (hctx : k.getUserContext pid = some ctx)
      (hfits : FrameFits k pid keep ctx)
      (inner : Inside pid (fun addr => keep addr ∨ InFrame (frameRsp ctx.rsp) addr)
        (k.setupSignalFrame pid sig handler) k₁)
      (rest : Inside pid keep (k₁.sigreturn pid (frameRsp ctx.rsp)).2 k') : Inside pid keep k k'

/-- A signal is delivered in state `k`, and its handler returns to state `k'`. -/
structure Episode (pid : Nat) (sig : Signal) (handler : UInt64) (ctx : CpuContext)
    (ps : ProcessSignals) (k k' : UserKernel) : Prop where
  context : k.getUserContext pid = some ctx
  signals : k.signals[pid]? = some ps
  mask : ps.mask.bits < 2 ^ 64
  fits : FrameFits k pid (fun _ => False) ctx
  returns : ∃ k₁, Inside pid (InFrame (frameRsp ctx.rsp)) (k.setupSignalFrame pid sig handler) k₁ ∧
    k' = (k₁.sigreturn pid (frameRsp ctx.rsp)).2

/-- The registers after the handler are the interrupted ones; the result of an interrupted system
call is in RAX. -/
def RegistersRestored (pid : Nat) (inSyscall : Bool) (ctx : CpuContext) (k' : UserKernel) : Prop :=
  ∃ ctx', k'.getUserContext pid = some ctx' ∧
    ctx'.registers = (if inSyscall then { ctx with rax := eintr } else ctx).registers

def MaskRestored (pid : Nat) (ps : ProcessSignals) (k' : UserKernel) : Prop :=
  ∃ ps', k'.signals[pid]? = some ps' ∧ ps'.mask = ps.mask

/-- An address at or above the red zone, the 128 bytes below the stack pointer. -/
def AboveRedZone (ctx : CpuContext) (addr : UInt64) : Prop := ctx.rsp.toNat ≤ addr.toNat + 128

/-- Delivery changes no user byte at or above the red zone; `sigreturn` stores nothing. -/
def RedZoneSpared (pid : Nat) (sig : Signal) (handler : UInt64) (ctx : CpuContext)
    (k : UserKernel) : Prop :=
  ∀ addr, UserHalf addr → AboveRedZone ctx addr →
    loadByte (k.setupSignalFrame pid sig handler).mem (k.pages pid) addr =
      loadByte k.mem (k.pages pid) addr

/-- On entry to the handler, RSP + 8 is a multiple of 16. -/
def EntryAligned (pid : Nat) (sig : Signal) (handler : UInt64) (k : UserKernel) : Prop :=
  ∃ entry, (k.setupSignalFrame pid sig handler).getUserContext pid = some entry ∧
    (entry.rsp.toNat + 8) % 16 = 0

/-- Delivery is transparent to the interrupted code. -/
structure Transparent (pid : Nat) (sig : Signal) (handler : UInt64) (inSyscall : Bool)
    (ctx : CpuContext) (ps : ProcessSignals) (k k' : UserKernel) : Prop where
  registers : RegistersRestored pid inSyscall ctx k'
  mask : MaskRestored pid ps k'
  redZone : RedZoneSpared pid sig handler ctx k
  aligned : EntryAligned pid sig handler k

section

variable {pid : Nat} {sig : Signal} {handler : UInt64} {ctx : CpuContext} {k k' : UserKernel}
  {keep : UInt64 → Prop}

theorem Kept.trans {k₁ : UserKernel} (h : Kept pid keep k k₁) (h' : Kept pid keep k₁ k') :
    Kept pid keep k k' where
  context := fun hsome => h'.context (h.context hsome)
  signals := fun hsome => h'.signals (h.signals hsome)
  bytes := fun addr hkeep => (h'.bytes addr hkeep).trans (h.bytes addr hkeep)

theorem Kept.mono {keep' : UInt64 → Prop} (h : Kept pid keep' k k')
    (hsub : ∀ addr, keep addr → keep' addr) : Kept pid keep k k' :=
  ⟨h.context, h.signals, fun addr hkeep => h.bytes addr (hsub addr hkeep)⟩

/-- The tables after the frame was written and the handler set up. -/
theorem setupSignalFrame_spec (hctx : k.getUserContext pid = some ctx) :
    k.setupSignalFrame pid sig handler =
      { k with
        mem := writeUserMemory k.mem (k.pages pid) (frameRsp ctx.rsp)
          (k.newFrame pid sig ctx).bytes
        signals := k.signals.modify pid fun ps =>
          { ps with mask := ps.mask.block sig } }.setUserContext pid handler (frameRsp ctx.rsp)
            (UInt64.ofNat sig.number) := by
  unfold setupSignalFrame
  rw [hctx]

@[simp] theorem SignalFrame.length_bytes (f : SignalFrame) : f.bytes.length = size := by
  simp [bytes, bytesFrom]

theorem SignalFrame.byteAt_bytes (f : SignalFrame) (hi : i < size) :
    byteAt f.bytes i = f.byte i := by
  simp [bytes, bytesFrom, byteAt, hi]

section

variable (hctx : k.getUserContext pid = some ctx)
include hctx

/-- The context the handler is entered with. -/
theorem setupSignalFrame_context :
    (k.setupSignalFrame pid sig handler).getUserContext pid =
      some { ctx with
        rip := handler, rsp := frameRsp ctx.rsp, rdi := UInt64.ofNat sig.number } := by
  rw [setupSignalFrame_spec hctx]
  unfold setUserContext
  rw [getUserContext_modifyContext]
  have hsame : getUserContext { k with
      mem := writeUserMemory k.mem (k.pages pid) (frameRsp ctx.rsp) (k.newFrame pid sig ctx).bytes
      signals := k.signals.modify pid fun ps =>
        { ps with mask := ps.mask.block sig } } pid = some ctx := hctx
  rw [hsame]
  rfl

/-- Delivery keeps the frames it does not overwrite. -/
theorem setupSignalFrame_kept (hfits : FrameFits k pid keep ctx) :
    Kept pid keep k (k.setupSignalFrame pid sig handler) where
  context := fun _ => by
    rw [setupSignalFrame_context hctx]
    rfl
  signals := fun hsome => by
    rw [setupSignalFrame_spec hctx]
    show ((k.signals.modify pid _)[pid]?).isSome
    rw [Lib.lookup_modify, if_pos rfl, isSome_map]
    exact hsome
  bytes := fun addr hkeep => by
    rw [setupSignalFrame_spec hctx]
    refine loadByte_writeUserMemory_outside hfits.unshared (.inl hkeep) _
      (fun i hi => .inr ⟨i, hi, rfl⟩) fun i hi heq => ?_
    exact hfits.free addr ⟨i, hi, heq⟩ hkeep

/-- The frame is in memory once the handler is set up. -/
theorem setupSignalFrame_frame (hfits : FrameFits k pid keep ctx) (hi : i < size) :
    loadByte (k.setupSignalFrame pid sig handler).mem
      ((k.setupSignalFrame pid sig handler).pages pid) (frameRsp ctx.rsp + UInt64.ofNat i) =
      (k.newFrame pid sig ctx).byte i := by
  rw [← byteAt_bytes _ hi, setupSignalFrame_spec hctx]
  refine loadByte_writeUserMemory_inside hfits.unshared _ ?_ ?_ ?_ ?_ <;> rw [length_bytes]
  · decide
  · exact fun i hi => .inr ⟨i, hi, rfl⟩
  · exact hfits.mapped
  · exact hi

end

/-- Returning from a handler writes nothing to user memory. -/
theorem sigreturn_kept (live : UInt64) : Kept pid keep k (k.sigreturn pid live).2 := by
  cases hrsp : k.sigreturnRsp pid live with
  | none =>
    unfold sigreturn
    rw [hrsp]
    exact ⟨id, id, fun _ _ => rfl⟩
  | some rsp =>
    rw [sigreturn_spec hrsp]
    refine ⟨fun hsome => ?_, fun hsome => ?_, fun _ _ => rfl⟩
    · unfold restoreUserContext
      rw [getUserContext_modifyContext, isSome_map]
      exact hsome
    · show ((k.signals.modify pid _)[pid]?).isSome
      rw [Lib.lookup_modify, if_pos rfl, isSome_map]
      exact hsome

/-- Whatever happens while a handler runs, the frames of the running handlers stay as they are. -/
theorem Inside.kept (h : Inside pid keep k k') : Kept pid keep k k' := by
  induction h with
  | done keep k => exact ⟨id, id, fun _ _ => rfl⟩
  | user hstep _ ih => exact hstep.trans ih
  | signal sig handler hctx hfits _ _ ihInner ihRest =>
    have hinner := ihInner.mono fun addr hkeep => Or.inl hkeep
    exact (setupSignalFrame_kept hctx hfits).trans
      (hinner.trans ((sigreturn_kept _).trans ihRest))

end

section

variable {pid : Nat} {sig : Signal} {handler : UInt64} {ctx : CpuContext} {ps : ProcessSignals}
  {k k' : UserKernel}

/-- After the handler, RAX holds `-EINTR`, and the other registers and the mask are those at the
interruption. -/
theorem Episode.restores (h : Episode pid sig handler ctx ps k k') :
    (∃ ctx', k'.getUserContext pid = some ctx' ∧
      ctx'.registers = ({ ctx with rax := eintr } : CpuContext).registers) ∧
    MaskRestored pid ps k' := by
  obtain ⟨k₁, hinside, rfl⟩ := h.returns
  have hkept := hinside.kept
  have hdelivered : Kept pid _ k (k.setupSignalFrame pid sig handler) :=
    setupSignalFrame_kept h.context h.fits
  obtain ⟨ctx₁, hctx₁⟩ := isSome_iff_exists.mp
    (hkept.context (hdelivered.context (by rw [h.context]; rfl)))
  obtain ⟨ps₁, hps₁⟩ := isSome_iff_exists.mp
    (hkept.signals (hdelivered.signals (by rw [h.signals]; rfl)))
  have hbase : frameRsp ctx.rsp ≠ 0 := by
    intro hzero
    have hnat := toNat_frameRsp (Nat.le_trans (by decide) h.fits.room)
    rw [hzero] at hnat
    have hroom := h.fits.room
    have hzero' : (0 : UInt64).toNat = 0 := rfl
    omega
  have hframe : ∀ i < size, loadByte k₁.mem (k₁.pages pid)
      (frameRsp ctx.rsp + UInt64.ofNat i) = (k.newFrame pid sig ctx).byte i := by
    intro i hi
    rw [hkept.bytes _ ⟨i, hi, rfl⟩]
    exact setupSignalFrame_frame h.context h.fits hi
  obtain ⟨hregisters, ps', hps', hmask⟩ :=
    sigreturn_frame hbase hctx₁ hps₁ hframe
  refine ⟨hregisters, ps', hps', hmask.trans ?_⟩
  have hsaved : (k.newFrame pid sig ctx).savedMask = UInt64.ofNat ps.mask.bits := by
    unfold newFrame
    rw [h.signals]
  rw [hsaved, UInt64.toNat_ofNat', Nat.mod_eq_of_lt h.mask]

/-- The registers come back in a system call, or where RAX held EINTR already. -/
theorem Episode.registersRestored_iff (h : Episode pid sig handler ctx ps k k') (inSyscall : Bool) :
    RegistersRestored pid inSyscall ctx k' ↔ inSyscall = true ∨ ctx.rax = eintr := by
  obtain ⟨ctx', hctx', hregisters⟩ := h.restores.1
  constructor
  · intro hrestored
    obtain ⟨ctx'', hctx'', hregisters'⟩ := hrestored
    rw [hctx'] at hctx''
    cases hctx''
    cases inSyscall with
    | true => exact .inl rfl
    | false =>
      rw [hregisters] at hregisters'
      -- RAX is the fourth register of the list
      have hrax := congrArg (fun l => l.getD 3 0) hregisters'
      exact .inr hrax.symm
  · intro hcase
    refine ⟨ctx', hctx', hregisters.trans ?_⟩
    cases inSyscall with
    | true => rfl
    | false =>
      have hrax := hcase.resolve_left (by decide)
      rw [← hrax]
      rfl

/-- The red zone is spared only if the bytes of the frame were there before. -/
theorem Episode.redZone_overwritten (h : Episode pid sig handler ctx ps k k') {i : Nat}
    (hi : i < size) (hzone : AboveRedZone ctx (frameRsp ctx.rsp + UInt64.ofNat i))
    (hspared : RedZoneSpared pid sig handler ctx k) :
    loadByte k.mem (k.pages pid) (frameRsp ctx.rsp + UInt64.ofNat i) =
      (k.newFrame pid sig ctx).byte i := by
  have hhalf : UserHalf (frameRsp ctx.rsp + UInt64.ofNat i) := by
    have hnat := toNat_frameRsp (Nat.le_trans (by decide) h.fits.room)
    have hrsp : ctx.rsp.toNat < 0x800000000000 := h.fits.half
    have hroom := h.fits.room
    unfold size at hi
    show (frameRsp ctx.rsp + UInt64.ofNat i).toNat < 0x800000000000
    rw [UInt64.toNat_add, UInt64.toNat_ofNat', hnat]
    omega
  rw [← hspared _ hhalf hzone, ← setupSignalFrame_frame h.context h.fits hi]
  rw [setupSignalFrame_spec h.context]
  rfl

theorem not_entryAligned (hctx : k.getUserContext pid = some ctx) :
    ¬ EntryAligned pid sig handler k := by
  intro ⟨entry, hentry, halign⟩
  rw [setupSignalFrame_context hctx] at hentry
  cases hentry
  have haligned : (frameRsp ctx.rsp).toNat % 16 = 0 := by
    unfold frameRsp
    rw [toNat_and_not_fifteen]
    omega
  dsimp only at halign
  omega

/-- No delivery is transparent, since no handler is entered with the alignment of the calling
convention. Where the frames of the running handlers are kept, the mask comes back, the registers do
exactly when a system call was interrupted or RAX was `-EINTR` already, and the red zone is spared
only if the frame's bytes were there before. -/
theorem delivery_not_transparent (hctx : k.getUserContext pid = some ctx) (inSyscall : Bool) :
    ¬ Transparent pid sig handler inSyscall ctx ps k k' ∧ ¬ EntryAligned pid sig handler k ∧
      (Episode pid sig handler ctx ps k k' → MaskRestored pid ps k' ∧
        (RegistersRestored pid inSyscall ctx k' ↔ inSyscall = true ∨ ctx.rax = eintr) ∧
        (RedZoneSpared pid sig handler ctx k → ∀ i < SignalFrame.size,
          AboveRedZone ctx (frameRsp ctx.rsp + UInt64.ofNat i) →
          loadByte k.mem (k.pages pid) (frameRsp ctx.rsp + UInt64.ofNat i) =
            (k.newFrame pid sig ctx).byte i)) := by
  have haligned : ¬ EntryAligned pid sig handler k := not_entryAligned hctx
  refine ⟨fun htrans => haligned htrans.aligned, haligned, fun h => ⟨h.restores.2, ?_, ?_⟩⟩
  · exact h.registersRestored_iff inSyscall
  · exact fun hspared i hi hzone => h.redZone_overwritten hi hzone hspared

end

/-- Process 3 with the result of a computation in RAX. -/
def computing : CpuContext := { CpuContext.newUserThread 0x400000 0x1800 with rax := 7 }

def computingProcess : UserKernel := { oneProcess with contexts := [⟨3, computing⟩] }

theorem oneProcess_private (pid : Nat) (on : UInt64 → Prop) :
    (oneProcess.pages pid).PrivateOn on := by
  intro a b phys _ _ hp hq
  simp only [oneProcess] at hp hq
  split at hp
  · split at hq
    · next hp' hq' => rw [hp', hq']
    · cases hq
  · cases hp

/-- SIGUSR1 interrupts the computation and SIGUSR2 its handler, which has returned. -/
def nestedReturned : UserKernel :=
  (((computingProcess.setupSignalFrame 3 .sigusr1 0x401000).setupSignalFrame 3 .sigusr2
    0x402000).sigreturn 3 0x16A0).2

/-- The handler of SIGUSR1 has returned, too. -/
def computingReturned : UserKernel := (nestedReturned.sigreturn 3 0x1750).2

/-- The handler of the example is entered, interrupted and left. -/
theorem computing_episode :
    Episode 3 .sigusr1 0x401000 computing .new computingProcess computingReturned := by
  have hctx : (computingProcess.setupSignalFrame 3 .sigusr1 0x401000).getUserContext 3 =
      some { computing with rip := 0x401000, rsp := 0x1750, rdi := 10 } := by decide +kernel
  refine ⟨rfl, Std.TreeMap.getElem?_insert_self, by decide, ?_, nestedReturned, ?_, rfl⟩
  · exact ⟨by decide, by decide, by decide +kernel, fun _ _ => id, oneProcess_private 3 _⟩
  · refine .signal .sigusr2 0x402000 hctx ?_ (.done _ _) (.done _ _)
    refine ⟨by decide, by decide, by decide +kernel, ?_, oneProcess_private 3 _⟩
    intro addr hin hin'
    obtain ⟨i, hi, rfl⟩ := hin
    obtain ⟨j, hj, heq⟩ := hin'
    have hnat := congrArg UInt64.toNat heq
    have hinner : (frameRsp 0x1750).toNat = 0x16A0 := by decide
    have houter : (frameRsp computing.rsp).toNat = 0x1750 := by decide
    rw [UInt64.toNat_add, UInt64.toNat_add, UInt64.toNat_ofNat', UInt64.toNat_ofNat', hinner,
      houter] at hnat
    unfold size at hi hj
    omega

theorem delivery_not_transparent_computing :
    ¬ Transparent 3 .sigusr1 0x401000 false computing .new computingProcess computingReturned ∧
      MaskRestored 3 .new computingReturned :=
  ⟨(delivery_not_transparent computing_episode.context false).1,
    ((delivery_not_transparent computing_episode.context false).2.2 computing_episode).1⟩

/-- The computation loses its RAX, and a byte of its red zone is overwritten. -/
theorem delivery_clobbers_rax :
    Episode 3 .sigusr1 0x401000 computing .new computingProcess computingReturned ∧
    ¬ Transparent 3 .sigusr1 0x401000 false computing .new computingProcess computingReturned ∧
    computing.rax = 7 ∧ (computingReturned.getUserContext 3).map (·.rax) = some eintr ∧
    ¬ RedZoneSpared 3 .sigusr1 0x401000 computing computingProcess := by
  have hrax : (computingReturned.getUserContext 3).map (·.rax) = some eintr := by decide +kernel
  refine ⟨computing_episode, fun htrans => ?_, rfl, hrax, fun hspared => ?_⟩
  · obtain ⟨ctx', hctx', hregisters⟩ := htrans.registers
    rw [hctx', map_some] at hrax
    have hrax' : ctx'.rax = 7 := congrArg (fun l => l.getD 3 0) hregisters
    rw [hrax'] at hrax
    exact absurd hrax (by decide)
  · have hbyte := hspared (computing.rsp - 87) (by decide) (by unfold AboveRedZone; decide)
    exact absurd hbyte (by decide +kernel)

end KnoxOS.Sched
