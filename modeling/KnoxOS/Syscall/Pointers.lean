import KnoxOS.Lib.Bytes
import KnoxOS.Lib.Word

/-!
# Pointers from user space

The system calls `read`, `write`, `stat`, `getdents64`, `futex` and `quotactl` of `syscall/fs.rs`,
`syscall/thread.rs` and `fs/quota.rs`, as far as they touch memory through their arguments. Safe
code stays inside the slice it is given, so the layers below are their answer and the bytes they put
into a slice, or the number of bytes they look at. No call looks at where its pointers lead:
`confined_iff` says that a call keeps to user space just where its arguments do, or it is refused
before it reaches them, and `read_into_kernel` has a read that does neither.
-/

namespace KnoxOS.Syscall

open Lib

abbrev Addr := BitVec 64

/-- A range of addresses, which wraps at the end of the address space. -/
structure Range where
  start : Addr
  len : Nat

def Range.Covers (r : Range) (a : Addr) : Prop := (a - r.start).toNat < r.len

instance (r : Range) (a : Addr) : Decidable (r.Covers a) := inferInstanceAs (Decidable (_ < _))

/-- The lower canonical half. -/
def IsUser (a : Addr) : Prop := a.toNat < 2 ^ 47

/-- Every address of the range is in user space. -/
def Range.InUser (r : Range) : Prop := ∀ a, r.Covers a → IsUser a

theorem Range.InUser.mono {start : Addr} {n m : Nat} (h : InUser ⟨start, m⟩) (hle : n ≤ m) :
    InUser ⟨start, n⟩ := fun a ha => h a (Nat.lt_of_lt_of_le ha hle)

/-- A part of a range. -/
theorem Range.InUser.slice {start : Addr} {off n m : Nat} (h : InUser ⟨start, m⟩)
    (hle : off + n ≤ m) : InUser ⟨start + BitVec.ofNat 64 off, n⟩ := by
  intro a ha
  refine h a ?_
  unfold Covers at *
  dsimp only at *
  have hsplit : a - start = a - (start + BitVec.ofNat 64 off) + BitVec.ofNat 64 off := by grind
  rw [hsplit, BitVec.toNat_add, BitVec.toNat_ofNat]
  exact Nat.lt_of_le_of_lt (Nat.mod_le _ _) (by omega)

/-- Memory, with the ranges that a call has read or written through its arguments. -/
structure World where
  mem : Addr → UInt8
  touched : List Range

namespace World

def load (w : World) (r : Range) : List UInt8 × World :=
  ((List.range r.len).map fun i => w.mem (r.start + BitVec.ofNat 64 i),
    { w with touched := r :: w.touched })

def store (w : World) (a : Addr) (bytes : List UInt8) : World :=
  { mem := fun x =>
      if (Range.mk a bytes.length).Covers x then byteAt bytes (x - a).toNat else w.mem x
    touched := ⟨a, bytes.length⟩ :: w.touched }

end World

inductive SyscallError where
  | badFileDescriptor
  | fileNotFound
  | ioError
  | brokenPipe
  | invalidArgument
  | notDirectory
  | wouldBlock
  | notImplemented
  /-- The codes of `quotactl`. -/
  | errno (code : Int)
deriving DecidableEq, Repr

/-- What a call returns, and the memory it leaves. -/
abbrev Outcome := Except SyscallError Nat × World

section

variable (w : World)

/-- A descriptor as a call of `read` finds it: for the length of the buffer, what it answers and the
bytes it has for it. -/
abbrev Source := Nat → Except Int Nat × List UInt8

/-- A descriptor as a call of `write` finds it: for the length of the buffer, what it answers and
how many bytes it looks at. -/
abbrev Sink := Nat → Except Int Nat × Nat

def sysRead (bufPtr : Addr) (count : Nat) (fd : Source) : Outcome :=
  ((fd count).1.mapError fun e =>
      if e = -9 then .badFileDescriptor else if e = -2 then .fileNotFound else .ioError,
    w.store bufPtr ((fd count).2.take count))

def sysWrite (bufPtr : Addr) (count : Nat) (fd : Sink) : Outcome :=
  ((fd count).1.mapError fun e =>
      if e = -9 then .badFileDescriptor else if e = -32 then .brokenPipe else .ioError,
    (w.load ⟨bufPtr, min (fd count).2 count⟩).2)

/-- The loop of `read_user_string`, with `left` rounds to go. -/
def stringLen (mem : Addr → UInt8) (ptr : Addr) : (left len : Nat) → Nat
  | 0, len => len
  | left + 1, len =>
    if mem (ptr + BitVec.ofNat 64 len) = 0 then len else stringLen mem ptr left (len + 1)

/-- The bytes that `read_user_string` looks at, with the one that ends the string. -/
def stringRange (mem : Addr → UInt8) (ptr : Addr) : Range := ⟨ptr, stringLen mem ptr 4096 0 + 1⟩

/-- `sys_stat`; `stat` is the answer for the bytes of a path, `FileStat` has 96 bytes. -/
def sysStat (pathPtr statBuf : Addr)
    (stat : List UInt8 → Except SyscallError (Vector UInt8 96)) : Outcome :=
  if pathPtr = 0 then (.error .invalidArgument, w)
  else
    let (bytes, w) := w.load (stringRange w.mem pathPtr)
    match stat bytes.dropLast with
    | .error e => (.error e, w)
    | .ok s => (.ok 0, w.store statBuf s.toList)

def reclen (name : List UInt8) : Nat := (19 + name.length + 1 + 7) / 8 * 8

/-- The entries that fit, from `offset` on. -/
def putEntries (dirp : Addr) (count : Nat) : List (List UInt8) → Nat → World → Nat × World
  | [], offset, w => (offset, w)
  | name :: names, offset, w =>
    if offset + reclen name > count then (offset, w)
    else putEntries dirp count names (offset + reclen name)
      (w.store (dirp + BitVec.ofNat 64 offset) (leBytes 8 1 ++ leBytes 8 (offset + reclen name) ++
        leBytes 2 (reclen name) ++ [8] ++ name ++ [0]))

def sysGetdents64 (dirp : Addr) (count : BitVec 32) :
    Except SyscallError (List (List UInt8)) → Outcome
  | .error e => (.error e, w)
  | .ok names =>
    let (offset, w) := putEntries dirp count.toNat names 0 w
    (.ok offset, w)

/-- The command, without the private and the clock flag. -/
def futexCmd (op : BitVec 32) : Nat := (op &&& 0x7F).toNat

/-- `sys_futex`; `woken` is the answer of `futex_wake`. -/
def sysFutex (uaddr : Addr) (op : BitVec 32) (val : UInt32) (pid woken : Nat) : Outcome :=
  let (bytes, loaded) := w.load ⟨uaddr, 4⟩
  let current := UInt32.ofNat (leNat bytes)
  match futexCmd op with
  | 0 | 9 | 6 => (if current ≠ val then .error .wouldBlock else .ok 0, loaded)
  | 1 | 10 | 3 | 5 | 7 => (.ok woken, w)
  | 4 => (if current ≠ val then .error .wouldBlock else .ok woken, loaded)
  | 8 =>
    if current = 0 then (.ok 0, loaded.store uaddr (leBytes 4 pid))
    else (.error .wouldBlock, loaded)
  | 2 => (.error .notImplemented, w)
  | _ => (.error .invalidArgument, w)

/-- `quotactl`, called by `uid` on a quota with the bytes `dq`. -/
def quotactl (cmd : Int) (addr : Addr) (uid : Nat) (dq : Vector UInt8 64) : Outcome :=
  let asRoot : Except SyscallError Nat := if uid = 0 then .ok 0 else .error (.errno (-1))
  if cmd = 0x800002 ∨ cmd = 0x800003 then (asRoot, w)
  else if cmd = 0x800007 then (.ok 0, if addr = 0 then w else w.store addr dq.toList)
  else if cmd = 0x800008 then
    if addr = 0 then (.error (.errno (-22)), w) else (asRoot, (w.load ⟨addr, 64⟩).2)
  else if cmd = 0x800001 then (.ok 0, w)
  else (.error (.errno (-22)), w)

end

/-- The calls, with the descriptors and the answers of the layers below them. -/
inductive UserCall where
  | read (bufPtr : Addr) (count : BitVec 64) (fd : Source)
  | write (bufPtr : Addr) (count : BitVec 64) (fd : Sink)
  | stat (pathPtr statBuf : Addr) (answer : List UInt8 → Except SyscallError (Vector UInt8 96))
  | getdents64 (dirp : Addr) (count : BitVec 32) (answer : Except SyscallError (List (List UInt8)))
  | futex (uaddr : Addr) (op : BitVec 32) (val : UInt32) (pid woken : Nat)
  | quotactl (cmd : Int) (addr : Addr) (uid : Nat) (dq : Vector UInt8 64)

namespace UserCall

def run (mem : Addr → UInt8) : UserCall → Outcome
  | read bufPtr count fd => sysRead ⟨mem, []⟩ bufPtr count.toNat fd
  | write bufPtr count fd => sysWrite ⟨mem, []⟩ bufPtr count.toNat fd
  | stat pathPtr statBuf answer => sysStat ⟨mem, []⟩ pathPtr statBuf answer
  | getdents64 dirp count answer => sysGetdents64 ⟨mem, []⟩ dirp count answer
  | futex uaddr op val pid woken => sysFutex ⟨mem, []⟩ uaddr op val pid woken
  | quotactl cmd addr uid dq => Syscall.quotactl ⟨mem, []⟩ cmd addr uid dq

/-- The ranges that the arguments stand for. -/
def args (mem : Addr → UInt8) : UserCall → List Range
  | read bufPtr count _ | write bufPtr count _ => [⟨bufPtr, count.toNat⟩]
  | stat pathPtr statBuf _ => [stringRange mem pathPtr, ⟨statBuf, 96⟩]
  | getdents64 dirp count _ => [⟨dirp, count.toNat⟩]
  | futex uaddr _ _ _ _ => [⟨uaddr, 4⟩]
  | quotactl _ addr _ _ => [⟨addr, 64⟩]

/-- The call touches user space only, so it copies no kernel byte; where an argument leads into the
kernel, the call fails and changes no kernel byte. -/
structure Confined (mem : Addr → UInt8) (call : UserCall) : Prop where
  touched : ∀ r ∈ (call.run mem).2.touched, r.InUser
  refused : (∃ r ∈ call.args mem, ¬ r.InUser) → (∃ e, (call.run mem).1 = .error e) ∧
    ∀ a, ¬ IsUser a → (call.run mem).2.mem a = mem a

/-- The call fails before it follows a pointer out of user space: the descriptor refuses a buffer of
this length, and the bytes it has or looks at stay below the kernel. -/
def Refused (mem : Addr → UInt8) : UserCall → Prop
  | read bufPtr count fd => (∃ e, (fd count.toNat).1 = .error e) ∧
      Range.InUser ⟨bufPtr, ((fd count.toNat).2.take count.toNat).length⟩
  | write bufPtr count fd => (∃ e, (fd count.toNat).1 = .error e) ∧
      Range.InUser ⟨bufPtr, min (fd count.toNat).2 count.toNat⟩
  | stat pathPtr _ answer => pathPtr = 0 ∨ (stringRange mem pathPtr).InUser ∧
      ∃ e, answer (World.load ⟨mem, []⟩ (stringRange mem pathPtr)).1.dropLast = .error e
  | getdents64 _ _ answer => ∃ e, answer = .error e
  | futex _ op _ _ _ => futexCmd op = 2 ∨ 10 < futexCmd op
  | quotactl cmd addr uid _ => if cmd = 0x800002 ∨ cmd = 0x800003 then uid ≠ 0
      else if cmd = 0x800008 then addr = 0 else cmd ≠ 0x800001 ∧ cmd ≠ 0x800007

variable {mem : Addr → UInt8}

/-- The entries of a directory are written inside the buffer. -/
theorem touched_putEntries {dirp : Addr} {count : Nat} (h : Range.InUser ⟨dirp, count⟩)
    (names : List (List UInt8)) (offset : Nat) (w : World)
    (hw : ∀ r ∈ w.touched, r.InUser) :
    ∀ r ∈ (putEntries dirp count names offset w).2.touched, r.InUser := by
  induction names generalizing offset w with
  | nil => exact hw
  | cons name names ih =>
    unfold putEntries
    split_ifs with hfull
    · exact hw
    · refine ih _ _ fun r hr => ?_
      rcases List.mem_cons.mp hr with rfl | hr
      · refine h.slice ?_
        simp [reclen] at hfull ⊢
        omega
      · exact hw r hr

/-- A refused call keeps to user space. -/
structure Stopped (mem : Addr → UInt8) (call : UserCall) : Prop where
  refused : call.Refused mem
  failed : ∃ e, (call.run mem).1 = .error e
  touched : ∀ r ∈ (call.run mem).2.touched, r.InUser
  kept : ∀ a, ¬ IsUser a → (call.run mem).2.mem a = mem a

/-- Any other call: what it touches lies in its arguments, and where one of them leads into the
kernel, it succeeds or follows it. -/
structure Followed (mem : Addr → UInt8) (call : UserCall) : Prop where
  not_refused : ¬ call.Refused mem
  touched : (∀ r ∈ call.args mem, r.InUser) → ∀ r ∈ (call.run mem).2.touched, r.InUser
  result : (∃ r ∈ call.args mem, ¬ r.InUser) → (∃ n, (call.run mem).1 = .ok n) ∨
    ∃ r ∈ (call.run mem).2.touched, ¬ r.InUser

section

variable {call : UserCall} {r : Range} {e : SyscallError}

theorem Stopped.of_eq (hrefused : call.Refused mem) (hrun : call.run mem = (.error e, ⟨mem, []⟩)) :
    Stopped mem call := by
  refine ⟨hrefused, ?_, ?_, ?_⟩
  all_goals rw [hrun]
  · exact ⟨e, rfl⟩
  · exact nofun
  · exact fun _ _ => rfl

section

variable (htouched : (call.run mem).2.touched = [r])
  (hkept : r.InUser → ∀ a, ¬ IsUser a → (call.run mem).2.mem a = mem a)
  (hargs : (∀ x ∈ call.args mem, x.InUser) → r.InUser)
include htouched hkept hargs

/-- A call that fails after it has touched one range is refused where that lies in user space. -/
theorem stopped_or_followed_of_error (hfailed : (call.run mem).1 = .error e)
    (hrefused : call.Refused mem ↔ r.InUser) : Stopped mem call ∨ Followed mem call := by
  have honly : r.InUser → ∀ x ∈ (call.run mem).2.touched, x.InUser := by
    intro hr x hx
    rw [htouched, List.mem_singleton] at hx
    exact hx ▸ hr
  by_cases hr : r.InUser
  · exact .inl ⟨hrefused.mpr hr, ⟨e, hfailed⟩, honly hr, hkept hr⟩
  · refine .inr ⟨hr ∘ hrefused.mp, fun h => honly (hargs h), fun _ => .inr ⟨r, ?_, hr⟩⟩
    rw [htouched]
    exact List.mem_cons_self

/-- A call that passes a buffer on. -/
theorem stopped_or_followed_of_buffer {result : Except Int Nat} {f : Int → SyscallError}
    (hresult : (call.run mem).1 = result.mapError f)
    (hrefused : call.Refused mem ↔ (∃ e, result = .error e) ∧ r.InUser) :
    Stopped mem call ∨ Followed mem call := by
  cases result with
  | error e =>
    exact stopped_or_followed_of_error htouched hkept hargs hresult
      (hrefused.trans (and_iff_right ⟨e, rfl⟩))
  | ok n =>
    refine .inr ⟨fun h => ?_, fun h => ?_, fun _ => .inl ⟨n, hresult⟩⟩
    · obtain ⟨⟨e, he⟩, -⟩ := hrefused.mp h
      cases he
    · rw [htouched]
      exact List.forall_mem_singleton.mpr (hargs h)

end

/-- A call with one argument is refused, or it touches that range only, and does so or succeeds. -/
theorem stopped_or_followed_of_one (hargs : call.args mem = [r])
    (h : call.Refused mem ∧ (∃ e, call.run mem = (.error e, ⟨mem, []⟩)) ∨
      ¬ call.Refused mem ∧ (∀ x ∈ (call.run mem).2.touched, x = r) ∧
        ((∃ n, (call.run mem).1 = .ok n) ∨ r ∈ (call.run mem).2.touched)) :
    Stopped mem call ∨ Followed mem call := by
  rcases h with ⟨hrefused, e, hrun⟩ | ⟨hnot, honly, hres⟩
  · exact .inl (.of_eq hrefused hrun)
  · refine .inr ⟨hnot, fun huser x hx => ?_, ?_⟩
    · rw [honly x hx]
      exact huser r (hargs ▸ List.mem_cons_self)
    · rw [hargs]
      rintro ⟨x, hx, hkernel⟩
      rw [List.mem_singleton.mp hx] at hkernel
      exact hres.imp_right fun hr => ⟨r, hr, hkernel⟩

end

/-- A call stops at a pointer outside user space, or follows its pointers inside it. -/
theorem stopped_or_followed (mem : Addr → UInt8) (call : UserCall) :
    Stopped mem call ∨ Followed mem call := by
  cases call with
  | read bufPtr count fd =>
    have hbuf : ((fd count.toNat).2.take count.toNat).length ≤ count.toNat :=
      List.length_take_le ..
    exact stopped_or_followed_of_buffer rfl (fun hr a ha => if_neg fun hc => ha (hr a hc))
      (fun h => (h _ List.mem_cons_self).mono hbuf) rfl Iff.rfl
  | write bufPtr count fd =>
    have hbuf : min (fd count.toNat).2 count.toNat ≤ count.toNat := Nat.min_le_right ..
    exact stopped_or_followed_of_buffer rfl (fun _ _ _ => rfl)
      (fun h => (h _ List.mem_cons_self).mono hbuf) rfl Iff.rfl
  | stat pathPtr statBuf answer =>
    by_cases hnull : pathPtr = 0
    · exact .inl (.of_eq (.inl hnull) (if_pos hnull))
    cases hanswer : answer (World.load ⟨mem, []⟩ (stringRange mem pathPtr)).1.dropLast with
    | error e =>
      have hrun : (stat pathPtr statBuf answer).run mem =
          (.error e, ⟨mem, [stringRange mem pathPtr]⟩) := by
        simp only [run, sysStat, if_neg hnull, hanswer]
        rfl
      refine stopped_or_followed_of_error (by rw [hrun]) (fun _ _ _ => by rw [hrun])
        (fun h => h _ List.mem_cons_self) (by rw [hrun])
        ⟨fun h => ?_, fun h => .inr ⟨h, e, hanswer⟩⟩
      exact (h.resolve_left hnull).1
    | ok record =>
      have hrun : (stat pathPtr statBuf answer).run mem = (.ok 0,
          (World.mk mem [stringRange mem pathPtr]).store statBuf record.toList) := by
        simp only [run, sysStat, if_neg hnull, hanswer]
        rfl
      refine .inr ⟨?_, fun h => ?_, fun _ => .inl ⟨0, by rw [hrun]⟩⟩
      · rintro (h | ⟨-, e, he⟩)
        · exact hnull h
        · rw [hanswer] at he
          cases he
      · rw [hrun]
        simpa [World.store, args, and_comm] using h
  | getdents64 dirp count answer =>
    cases answer with
    | error e => exact .inl (.of_eq ⟨e, rfl⟩ rfl)
    | ok names =>
      exact .inr ⟨nofun, fun h => touched_putEntries (h _ List.mem_cons_self) names 0 _ nofun,
        fun _ => .inl ⟨_, rfl⟩⟩
  | futex uaddr op val pid woken =>
    refine stopped_or_followed_of_one (r := ⟨uaddr, 4⟩) rfl ?_
    unfold Refused run sysFutex
    dsimp only
    generalize futexCmd op = cmd
    split
    case h_1 | h_2 | h_3 => exact .inr ⟨by decide, by simp [World.load], .inr List.mem_cons_self⟩
    case h_4 | h_5 | h_6 | h_7 | h_8 => exact .inr ⟨by decide, nofun, .inl ⟨_, rfl⟩⟩
    case h_9 => exact .inr ⟨by decide, by simp [World.load], .inr List.mem_cons_self⟩
    case h_10 =>
      split
      · exact .inr ⟨by decide, by simp [World.load, World.store], .inl ⟨_, rfl⟩⟩
      · exact .inr ⟨by decide, by simp [World.load], .inr List.mem_cons_self⟩
    case h_11 => exact .inl ⟨.inl rfl, _, rfl⟩
    case h_12 => exact .inl ⟨by grind, _, rfl⟩
  | quotactl cmd addr uid dq =>
    refine stopped_or_followed_of_one (r := ⟨addr, 64⟩) rfl ?_
    unfold Refused run Syscall.quotactl
    by_cases hswitch : cmd = 0x800002 ∨ cmd = 0x800003
    · simp only [if_pos hswitch]
      by_cases huid : uid = 0
      · exact .inr ⟨not_not.mpr huid, nofun, .inl ⟨0, if_pos huid⟩⟩
      · exact .inl ⟨huid, _, by rw [if_neg huid]⟩
    simp only [if_neg hswitch]
    by_cases hset : cmd = 0x800008
    · have hget : ¬ cmd = 0x800007 := by omega
      simp only [if_pos hset, if_neg hget]
      by_cases hnull : addr = 0
      · exact .inl ⟨hnull, _, if_pos hnull⟩
      · simp only [if_neg hnull]
        exact .inr ⟨hnull, by simp [World.load], .inr List.mem_cons_self⟩
    simp only [if_neg hset]
    by_cases hget : cmd = 0x800007
    · simp only [if_pos hget]
      refine .inr ⟨fun hc => hc.2 hget, ?_, .inl ⟨0, rfl⟩⟩
      split
      · exact nofun
      · simp [World.store]
    simp only [if_neg hget]
    by_cases hsync : cmd = 0x800001
    · simp only [if_pos hsync]
      exact .inr ⟨fun hc => hc.1 hsync, nofun, .inl ⟨0, rfl⟩⟩
    · exact .inl ⟨⟨hsync, hget⟩, _, if_neg hsync⟩

/-- A call keeps to user space just where its arguments do, or where it is refused before it follows
one that does not. -/
theorem confined_iff (mem : Addr → UInt8) (call : UserCall) :
    Confined mem call ↔ (∀ r ∈ call.args mem, r.InUser) ∨ call.Refused mem := by
  rcases stopped_or_followed mem call with h | h
  · exact iff_of_true ⟨h.touched, fun _ => ⟨h.failed, h.kept⟩⟩ (.inr h.refused)
  · rw [or_iff_left h.not_refused]
    refine ⟨fun hc => ?_, fun hargs =>
      ⟨h.touched hargs, fun ⟨r, hr, hnot⟩ => absurd (hargs r hr) hnot⟩⟩
    by_contra hnot
    have hout : ∃ r ∈ call.args mem, ¬ r.InUser := by simpa using hnot
    rcases h.result hout with ⟨n, hok⟩ | ⟨r, hr, hkernel⟩
    · obtain ⟨⟨e, he⟩, -⟩ := hc.refused hout
      rw [hok] at he
      cases he
    · exact hkernel (hc.touched r hr)

/-- A read of one byte to an address of the kernel succeeds and changes the byte there. -/
theorem read_into_kernel :
    let call := UserCall.read 0xFFFF800000000000 1 fun _ => (.ok 1, [65])
    (call.run fun _ => 0).2.mem 0xFFFF800000000000 = 65 ∧ ¬ Confined (fun _ => 0) call := by
  refine ⟨by decide +kernel, fun h => ?_⟩
  have huser := h.touched _ List.mem_cons_self 0xFFFF800000000000 (by decide)
  exact absurd huser (by unfold IsUser; decide)

end UserCall

end KnoxOS.Syscall
