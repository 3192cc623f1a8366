import Mathlib.Algebra.Group.Int.Defs
import Mathlib.Data.List.Pairwise
import KnoxOS.Lib.Map
import KnoxOS.Lib.Reach

/-!
# File locks

The advisory locks of `ipc/flock.rs`: whole-file `flock` locks and POSIX record locks share one
list for each inode. A record lock covers the bytes from `start` to `start + len`, or to the end
of the file when `len` is 0. Unlocking a range, and locking it again, drops every record lock of
the process that meets the range, with the bytes it covers outside the range
(`partial_unlock_drops_lock`), and `start + len` wraps. The main theorem, `record_locks_per_byte`,
says that without such requests the record locks are a map from bytes to lock states.
-/

namespace KnoxOS.FileLocks

open Lib List
open Std (TreeMap)

inductive LockType where
  | readLock
  | writeLock
  | unlock
deriving DecidableEq, Repr

/-- The largest `i64`. -/
def i64Max : Int := 2 ^ 63 - 1

/-- The `i64` a sum wraps to. -/
def i64 (x : Int) : Int := x.bmod (2 ^ 64)

def fRdlck : Int := 0

def fWrlck : Int := 1

def fUnlck : Int := 2

/-- The request and the answer of a record-lock call. -/
structure Flock where
  lType : Int
  lStart : Int
  lLen : Int
  lPid : Int
deriving DecidableEq, Repr

/-- A lock of an inode. -/
structure FileLock where
  lockType : LockType
  pid : Nat
  start : Int
  len : Int
  isFlock : Bool
deriving DecidableEq, Repr

/-- The first byte behind a range; a length of 0 reaches to the end of the file. -/
def stop (start len : Int) : Int := if len = 0 then i64Max else i64 (start + len)

namespace FileLock

def overlaps (l : FileLock) (start len : Int) : Bool :=
  l.start < stop start len && start < stop l.start l.len

def conflictsWith (l : FileLock) (lockType : LockType) (pid : Nat) : Bool :=
  if l.pid = pid then false else !(l.lockType == .readLock && lockType == .readLock)

/-- A record lock of another process that meets the range and forbids the request. -/
def blocks (l : FileLock) (lockType : LockType) (start len : Int) (pid : Nat) : Bool :=
  !l.isFlock && l.overlaps start len && l.conflictsWith lockType pid

/-- A record lock of the process that meets the range. -/
def meets (l : FileLock) (start len : Int) (pid : Nat) : Bool :=
  l.pid == pid && !l.isFlock && l.overlaps start len

end FileLock

/-- The lock table, `FILE_LOCKS`. -/
abbrev Table := TreeMap Nat (List FileLock)

/-- The locks of an inode. -/
def Table.locks (t : Table) (inode : Nat) : List FileLock := t[inode]?.getD []

/-- The list of an inode is kept only while it holds a lock. -/
def Table.put (t : Table) (inode : Nat) (locks : List FileLock) : Table :=
  if locks = [] then t.erase inode else t.insert inode locks

/-- `acquire_flock`; the conflict is `EAGAIN` whether the caller would block or not. -/
def acquireFlock (t : Table) (inode : Nat) (lockType : LockType) (pid : Nat) (nonblock : Bool) :
    Except Int Unit × Table :=
  let locks := t.locks inode
  if locks.any fun l => l.isFlock && l.conflictsWith lockType pid then
    -- the conflicting lock lies in the list, so `or_default` added none
    (if nonblock then .error (-11) else .error (-11), t)
  else
    (.ok (), t.insert inode (locks.filter (fun l => !(l.isFlock && l.pid == pid)) ++
      [⟨lockType, pid, 0, 0, true⟩]))

def releaseFlock (t : Table) (inode pid : Nat) : Except Int Unit × Table :=
  (.ok (), t.put inode ((t.locks inode).filter fun l => !(l.isFlock && l.pid == pid)))

/-- `flock`, with `LOCK_SH`, `LOCK_EX`, `LOCK_UN` and `LOCK_NB`, the bits of the operation. -/
def flock (t : Table) (inode operation pid : Nat) : Except Int Unit × Table :=
  let nonblock := operation &&& 4 ≠ 0
  let op := operation - (operation &&& 4)
  if op = 1 then acquireFlock t inode .readLock pid nonblock
  else if op = 2 then acquireFlock t inode .writeLock pid nonblock
  else if op = 8 then releaseFlock t inode pid
  else (.error (-22), t)

/-- The lock type of an `l_type` field. -/
def lockTypeOf (lType : Int) : Option LockType :=
  if lType = fRdlck then some .readLock
  else if lType = fWrlck then some .writeLock
  else if lType = fUnlck then some .unlock
  else none

/-- The `l_type` field of a lock type. -/
def LockType.code : LockType → Int
  | .readLock => fRdlck
  | .writeLock => fWrlck
  | .unlock => fUnlck

/-- The first record lock that stands against a request. -/
def blocker (t : Table) (inode : Nat) (lockType : LockType) (info : Flock) (pid : Nat) :
    Option FileLock :=
  (t.locks inode).find? fun l => l.blocks lockType info.lStart info.lLen pid

/-- `getlk` answers the first lock that stands against the request, or `F_UNLCK`. -/
def getlk (t : Table) (inode : Nat) (info : Flock) (pid : Nat) : Except Int Unit × Flock :=
  match lockTypeOf info.lType with
  | none | some .unlock => (.error (-22), info)
  | some lockType =>
    match blocker t inode lockType info pid with
    | some l => (.ok (), ⟨l.lockType.code, l.start, l.len, (l.pid : Int).bmod (2 ^ 32)⟩)
    | none => (.ok (), { info with lType := fUnlck })

/-- The locks left when the process gives up its record locks that meet the range. -/
def kept (t : Table) (inode : Nat) (info : Flock) (pid : Nat) : List FileLock :=
  (t.locks inode).filter fun l => !l.meets info.lStart info.lLen pid

/-- `setlk`; the conflict is `EAGAIN` whether the caller would block or not. -/
def setlk (t : Table) (inode : Nat) (info : Flock) (pid : Nat) (blocking : Bool) :
    Except Int Unit × Table :=
  match lockTypeOf info.lType with
  | none => (.error (-22), t)
  | some .unlock => (.ok (), t.put inode (kept t inode info pid))
  | some lockType =>
    if (blocker t inode lockType info pid).isSome then
      (if blocking then .error (-11) else .error (-11), t)
    else
      (.ok (), t.insert inode
        (kept t inode info pid ++ [⟨lockType, pid, info.lStart, info.lLen, false⟩]))

/-- `posix_lock`, with `F_GETLK`, `F_SETLK`, `F_SETLKW` and their open-file-description forms. -/
def posixLock (t : Table) (inode : Nat) (cmd : Int) (info : Flock) (pid : Nat) :
    Except Int Unit × Flock × Table :=
  if cmd = 5 ∨ cmd = 36 then
    let (r, info) := getlk t inode info pid
    (r, info, t)
  else if cmd = 6 ∨ cmd = 37 then
    let (r, t) := setlk t inode info pid false
    (r, info, t)
  else if cmd = 7 ∨ cmd = 38 then
    let (r, t) := setlk t inode info pid true
    (r, info, t)
  else (.error (-22), info, t)

def releaseAllLocks (t : Table) (pid : Nat) : Table :=
  t.toList.foldl (fun t e => t.put e.1 (e.2.filter fun l => l.pid != pid)) t

/-! ### Bytes and their locks -/

/-- A range whose end does not wrap: start and sum are an `i64`, and the length is not negative. -/
def Ranged (start len : Int) : Prop :=
  -2 ^ 63 ≤ start ∧ 0 ≤ len ∧ start + len ≤ i64Max

instance (start len : Int) : Decidable (Ranged start len) :=
  inferInstanceAs (Decidable (_ ∧ _))

/-- The byte lies in the range. The last byte of a file is before `i64::MAX`. -/
def InRange (start len byte : Int) : Prop := start ≤ byte ∧ byte < stop start len

instance (start len byte : Int) : Decidable (InRange start len byte) :=
  inferInstanceAs (Decidable (_ ∧ _))

theorem Ranged.stop_eq {start len : Int} (h : Ranged start len) :
    stop start len = if len = 0 then i64Max else start + len := by
  obtain ⟨hstart, hlen, hsum⟩ := h
  unfold stop i64
  split_ifs
  · rfl
  · rw [Int.bmod_eq_of_le] <;> unfold i64Max at hsum <;> omega

open FileLock

/-- The overlap test finds exactly the ranges with a common byte. -/
theorem FileLock.overlaps_iff {l : FileLock} {start len : Int} (hl : Ranged l.start l.len)
    (h : Ranged start len) :
    l.overlaps start len = true ↔ ∃ byte, InRange l.start l.len byte ∧ InRange start len byte := by
  unfold overlaps InRange
  rw [h.stop_eq, hl.stop_eq, Bool.and_eq_true, decide_eq_true_eq, decide_eq_true_eq]
  obtain ⟨-, hlen, hsum⟩ := h
  obtain ⟨-, hlen', hsum'⟩ := hl
  constructor
  · intro hover
    refine ⟨max l.start start, ?_⟩
    split_ifs at hover ⊢ <;> omega
  · intro hbyte
    omega

/-- The lock is a record lock of the process on the byte. -/
def FileLock.On (l : FileLock) (pid : Nat) (byte : Int) : Prop :=
  l.isFlock = false ∧ l.pid = pid ∧ InRange l.start l.len byte

instance (l : FileLock) (pid : Nat) (byte : Int) : Decidable (l.On pid byte) :=
  inferInstanceAs (Decidable (_ ∧ _))

/-- The state of a byte for a process: the first record lock on it. -/
def held (locks : List FileLock) (pid : Nat) (byte : Int) : Option LockType :=
  (locks.find? fun l => l.On pid byte).map FileLock.lockType

/-- The locks of an inode: ranges do not wrap, a process has at most one lock on a byte, and two
processes share a byte only to read it. -/
structure Sound (locks : List FileLock) : Prop where
  ranged : ∀ l ∈ locks, l.isFlock = false → Ranged l.start l.len ∧ l.lockType ≠ .unlock
  single : locks.Pairwise fun a b => ∀ pid byte, a.On pid byte → ¬ b.On pid byte
  fair : ∀ a ∈ locks, ∀ b ∈ locks, ∀ p q byte, p ≠ q → a.On p byte → b.On q byte →
    a.lockType = .readLock

namespace Sound

variable {locks : List FileLock} {l : FileLock}

theorem nil : Sound [] :=
  ⟨by simp, Pairwise.nil, by simp⟩

theorem filter (h : Sound locks) (keep : FileLock → Bool) : Sound (locks.filter keep) where
  ranged l hl := h.ranged l (mem_of_mem_filter hl)
  single := h.single.sublist filter_sublist
  fair a ha b hb := h.fair a (mem_of_mem_filter ha) b (mem_of_mem_filter hb)

variable {byte : Int} {pid : Nat}

section

variable (h : Sound locks)
include h

theorem unique {a b : FileLock} (ha : a ∈ locks) (hb : b ∈ locks) (haon : a.On pid byte)
    (hbon : b.On pid byte) : a = b := by
  by_contra hne
  have hsymm : Std.Symm fun a b : FileLock => ∀ pid byte, a.On pid byte → ¬ b.On pid byte :=
    ⟨fun x y hxy pid byte hy hx => hxy pid byte hx hy⟩
  exact h.single.forall ha hb hne pid byte haon hbon

/-- A lock more, on no byte of its process, that shares a byte only to read it. -/
theorem push (hranged : l.isFlock = false → Ranged l.start l.len ∧ l.lockType ≠ .unlock)
    (hsingle : ∀ a ∈ locks, ∀ p byte, a.On p byte → ¬ l.On p byte)
    (hfair : ∀ a ∈ locks, ∀ p q byte, p ≠ q → a.On p byte → l.On q byte →
      a.lockType = .readLock ∧ l.lockType = .readLock) : Sound (locks ++ [l]) := by
  refine ⟨fun x hx hrecord => ?_, ?_, fun a ha b hb p q byte hpq haon hbon => ?_⟩
  · rcases mem_append.mp hx with hx | hx
    · exact h.ranged x hx hrecord
    · rw [mem_singleton.mp hx] at hrecord ⊢
      exact hranged hrecord
  · refine pairwise_append.mpr ⟨h.single, pairwise_singleton .., fun a ha b hb => ?_⟩
    rw [mem_singleton.mp hb]
    exact hsingle a ha
  · rcases mem_append.mp ha with ha | ha <;> rcases mem_append.mp hb with hb | hb
    · exact h.fair a ha b hb p q byte hpq haon hbon
    · rw [mem_singleton.mp hb] at hbon
      exact (hfair a ha p q byte hpq haon hbon).1
    · rw [mem_singleton.mp ha] at haon ⊢
      exact (hfair b hb q p byte hpq.symm hbon haon).2
    · rw [mem_singleton.mp ha] at haon
      rw [mem_singleton.mp hb] at hbon
      exact absurd (haon.2.1.symm.trans hbon.2.1) hpq

/-- A byte's state is the type of the lock on it. -/
theorem held_eq_some {lockType : LockType} :
    held locks pid byte = some lockType ↔ ∃ l ∈ locks, l.On pid byte ∧ l.lockType = lockType := by
  unfold held
  rw [Option.map_eq_some_iff]
  constructor
  · intro hsome
    obtain ⟨l, hfind, hty⟩ := hsome
    exact ⟨l, mem_of_find?_eq_some hfind, by simpa using find?_some hfind, hty⟩
  · intro hex
    obtain ⟨l, hl, hon, hty⟩ := hex
    cases hfind : locks.find? fun l => l.On pid byte with
    | none => exact absurd hon (by simpa using find?_eq_none.mp hfind l hl)
    | some x =>
      have hx : x.On pid byte := by simpa using find?_some hfind
      rw [h.unique (mem_of_find?_eq_some hfind) hl hx hon]
      exact ⟨l, rfl, hty⟩

/-- Lists with the same locks on a byte give it the same state. -/
theorem held_congr {locks' : List FileLock} (h' : Sound locks')
    (hsame : ∀ l, l.On pid byte → (l ∈ locks' ↔ l ∈ locks)) :
    held locks' pid byte = held locks pid byte := by
  refine Option.ext fun lockType => ?_
  rw [h.held_eq_some, h'.held_eq_some]
  constructor
  · intro hex
    obtain ⟨l, hl, hon, hty⟩ := hex
    exact ⟨l, (hsame l hon).mp hl, hon, hty⟩
  · intro hex
    obtain ⟨l, hl, hon, hty⟩ := hex
    exact ⟨l, (hsame l hon).mpr hl, hon, hty⟩

end

end Sound

/-! ### What a request does -/

/-- A lock of another process that does not allow the requested one. -/
def Clash (other requested : LockType) : Prop :=
  requested ≠ .unlock ∧ ¬ (other = .readLock ∧ requested = .readLock)

/-- The state a granted request gives the bytes of its range. -/
def LockType.state : LockType → Option LockType
  | .unlock => none
  | lockType => some lockType

/-- The own locks that a request drops lie inside its range. -/
def Covered (t : Table) (inode : Nat) (info : Flock) (pid : Nat) : Prop :=
  ∀ l ∈ t.locks inode, l.meets info.lStart info.lLen pid = true →
    info.lStart ≤ l.start ∧ stop l.start l.len ≤ stop info.lStart info.lLen

instance (t : Table) (inode : Nat) (info : Flock) (pid : Nat) :
    Decidable (Covered t inode info pid) :=
  inferInstanceAs (Decidable (∀ l ∈ t.locks inode, _))

/-- The outcome of a lock request as the per-byte map has it: granted when no other process holds a
clashing lock on a byte of the range; then the bytes of the range are set for the process and
nothing else is, and a refused request changes nothing. -/
structure PerByte (t : Table) (inode : Nat) (info : Flock) (pid : Nat) (lockType : LockType)
    (r : Except Int Unit) (t' : Table) : Prop where
  granted : r = .ok () ↔ ∀ byte, InRange info.lStart info.lLen byte → ∀ q, q ≠ pid →
    ∀ other, held (t.locks inode) q byte = some other → ¬ Clash other lockType
  inside : r = .ok () → ∀ byte, InRange info.lStart info.lLen byte →
    held (t'.locks inode) pid byte = lockType.state
  outside : r = .ok () → ∀ i q byte,
    ¬ (i = inode ∧ q = pid ∧ InRange info.lStart info.lLen byte) →
      held (t'.locks i) q byte = held (t.locks i) q byte
  refused : r ≠ .ok () → t' = t

@[simp] theorem Table.locks_insert (t : Table) (inode i : Nat) (locks : List FileLock) :
    Table.locks (t.insert inode locks) i = if inode = i then locks else t.locks i := by
  unfold Table.locks
  rw [lookup_insert]
  split_ifs <;> rfl

@[simp] theorem Table.locks_put (t : Table) (inode i : Nat) (locks : List FileLock) :
    (t.put inode locks).locks i = if inode = i then locks else t.locks i := by
  unfold Table.put
  by_cases hempty : locks = []
  · rw [if_pos hempty, hempty]
    unfold Table.locks
    rw [lookup_erase]
    split_ifs <;> rfl
  · rw [if_neg hempty, Table.locks_insert]

theorem sound_replace {t t' : Table} {inode : Nat} {locks : List FileLock}
    (h : ∀ i, Sound (t.locks i)) (hlocks : Sound locks)
    (hat : ∀ i, t'.locks i = if inode = i then locks else t.locks i) (i : Nat) :
    Sound (t'.locks i) := by
  rw [hat]
  split_ifs
  · exact hlocks
  · exact h i

section Request

variable {t : Table} {inode : Nat} {info : Flock} {pid : Nat} {lockType : LockType}

/-- A lock stands against a request when it holds a clashing lock on a byte of the range. -/
theorem blocker_isSome (pid : Nat) (h : Sound (t.locks inode))
    (hrange : Ranged info.lStart info.lLen) (htype : lockType ≠ .unlock) :
    (blocker t inode lockType info pid).isSome = true ↔
      ∃ byte, InRange info.lStart info.lLen byte ∧ ∃ q, q ≠ pid ∧
        ∃ other, held (t.locks inode) q byte = some other ∧ Clash other lockType := by
  have hclash : ∀ l : FileLock, l.conflictsWith lockType pid = true ↔
      l.pid ≠ pid ∧ Clash l.lockType lockType := by
    intro l
    unfold conflictsWith Clash
    by_cases hpid : l.pid = pid
    · simp [hpid]
    · simp [hpid, htype, imp_iff_not_or]
  unfold blocker
  rw [find?_isSome]
  constructor
  · intro hex
    obtain ⟨l, hl, hblocks⟩ := hex
    simp only [blocks, Bool.and_eq_true, Bool.not_eq_true', hclash] at hblocks
    obtain ⟨⟨hrecord, hover⟩, hpid, hclash⟩ := hblocks
    obtain ⟨byte, hin, hin'⟩ := (overlaps_iff (h.ranged l hl hrecord).1 hrange).mp hover
    exact ⟨byte, hin', l.pid, hpid, l.lockType,
      h.held_eq_some.mpr ⟨l, hl, ⟨hrecord, rfl, hin⟩, rfl⟩, hclash⟩
  · intro hex
    obtain ⟨byte, hin, q, hq, other, hheld, hclash'⟩ := hex
    obtain ⟨l, hl, ⟨hrecord, rfl, hin'⟩, rfl⟩ := h.held_eq_some.mp hheld
    refine ⟨l, hl, ?_⟩
    simp only [blocks, Bool.and_eq_true, Bool.not_eq_true', hclash]
    exact ⟨⟨hrecord, (overlaps_iff (h.ranged l hl hrecord).1 hrange).mpr
      ⟨byte, hin', hin⟩⟩, hq, hclash'⟩

/-- Dropping the own locks in the range frees its bytes. -/
theorem not_on_of_mem_kept (h : Sound (t.locks inode)) (hrange : Ranged info.lStart info.lLen)
    (hl : l ∈ kept t inode info pid) {byte : Int} (hin : InRange info.lStart info.lLen byte) :
    ¬ l.On pid byte := by
  intro hon
  obtain ⟨hrecord, hpid, hbyte⟩ := hon
  obtain ⟨hmem, hkeep⟩ := mem_filter.mp hl
  have hover := (overlaps_iff (h.ranged l hmem hrecord).1 hrange).mpr ⟨byte, hbyte, hin⟩
  simp [meets, hpid, hrecord, hover] at hkeep

/-- Outside the range, or for another process, a covered request drops no lock. -/
theorem mem_kept (hcover : Covered t inode info pid) {q : Nat} {byte : Int} (hon : l.On q byte)
    (hout : ¬ (q = pid ∧ InRange info.lStart info.lLen byte)) :
    l ∈ kept t inode info pid ↔ l ∈ t.locks inode := by
  obtain ⟨-, hpid, hbyte⟩ := hon
  refine ⟨mem_of_mem_filter, fun hmem => mem_filter.mpr ⟨hmem, ?_⟩⟩
  rw [Bool.not_eq_true', Bool.eq_false_iff]
  intro hmeets
  obtain ⟨hstart, hstop⟩ := hcover l hmem hmeets
  simp only [meets, Bool.and_eq_true, beq_iff_eq] at hmeets
  refine hout ⟨by rw [← hpid]; exact hmeets.1.1, ?_, ?_⟩
  · exact Int.le_trans hstart hbyte.1
  · exact Int.lt_of_lt_of_le hbyte.2 hstop

section

variable (h : Sound (t.locks inode)) (hrange : Ranged info.lStart info.lLen)
include h hrange

/-- A new lock is sound beside the kept ones when no lock stands against it. -/
theorem sound_push (htype : lockType ≠ .unlock)
    (hfree : (blocker t inode lockType info pid).isSome = false) :
    Sound (kept t inode info pid ++ [⟨lockType, pid, info.lStart, info.lLen, false⟩]) := by
  have hnone := (blocker_isSome pid h hrange htype).not.mp (by simp [hfree])
  refine (h.filter _).push (fun _ => ⟨hrange, htype⟩) ?_ ?_
  · rintro a ha p byte haon ⟨-, rfl, hin⟩
    exact not_on_of_mem_kept h hrange ha hin haon
  · -- another process on a byte of the range reads it, and so does the new lock
    rintro a ha p q byte hpq haon ⟨-, rfl, hin⟩
    by_contra hclash
    exact hnone ⟨byte, hin, p, hpq, a.lockType,
      h.held_eq_some.mpr ⟨a, mem_of_mem_filter ha, haon, rfl⟩, htype, hclash⟩

/-- Unlocking a range that covers the locks it drops acts byte by byte. -/
theorem unlock_perByte (hcover : Covered t inode info pid) :
    PerByte t inode info pid .unlock (.ok ()) (t.put inode (kept t inode info pid)) := by
  refine ⟨⟨fun _ byte _ q _ other _ hclash => hclash.1 rfl, fun _ => rfl⟩, fun _ byte hin => ?_,
    fun _ i q byte hout => ?_, fun hne => absurd rfl hne⟩
  · rw [Table.locks_put, if_pos rfl]
    show Option.map _ _ = none
    rw [Option.map_eq_none_iff, find?_eq_none]
    intro l hl hon
    exact not_on_of_mem_kept h hrange hl hin (by simpa using hon)
  · rw [Table.locks_put]
    by_cases hi : inode = i
    · subst hi
      rw [if_pos rfl]
      refine h.held_congr (h.filter _) fun l hon => mem_kept hcover hon fun hboth => ?_
      exact hout ⟨rfl, hboth⟩
    · rw [if_neg hi]

/-- Locking a range that covers the locks it drops acts byte by byte. -/
theorem lock_perByte (hcover : Covered t inode info pid) (htype : lockType ≠ .unlock)
    (hfree : (blocker t inode lockType info pid).isSome = false) :
    PerByte t inode info pid lockType (.ok ()) (t.insert inode
      (kept t inode info pid ++ [⟨lockType, pid, info.lStart, info.lLen, false⟩])) := by
  have hpush := sound_push h hrange htype hfree
  have hnone := (blocker_isSome pid h hrange htype).not.mp (by simp [hfree])
  refine ⟨⟨fun _ byte hin q hq other hheld hclash => ?_, fun _ => rfl⟩, fun _ byte hin => ?_,
    fun _ i q byte hout => ?_, fun hne => absurd rfl hne⟩
  · exact hnone ⟨byte, hin, q, hq, other, hheld, hclash⟩
  · have hstate : lockType.state = some lockType := by
      cases lockType <;> first | rfl | simp at htype
    rw [Table.locks_insert, if_pos rfl, hstate, hpush.held_eq_some]
    exact ⟨_, mem_append_right _ (mem_singleton_self _), ⟨rfl, rfl, hin⟩, rfl⟩
  · rw [Table.locks_insert]
    by_cases hi : inode = i
    · subst hi
      rw [if_pos rfl]
      refine h.held_congr hpush fun l hon => ?_
      have hout' : ¬ (q = pid ∧ InRange info.lStart info.lLen byte) :=
        fun hboth => hout ⟨rfl, hboth⟩
      rw [mem_append, mem_singleton, mem_kept hcover hon hout']
      refine or_iff_left fun hnew => hout' ?_
      rw [hnew] at hon
      exact ⟨hon.2.1.symm, hon.2.2⟩
    · rw [if_neg hi]

end

end Request

/-- A record-lock request whose range does not wrap, and that is refused or covers the own locks it
drops. -/
def Whole (t : Table) (inode : Nat) (info : Flock) (pid : Nat) : Prop :=
  ∀ lockType ∈ lockTypeOf info.lType, Ranged info.lStart info.lLen ∧
    ((lockType ≠ .unlock ∧ (blocker t inode lockType info pid).isSome = true) ∨
      Covered t inode info pid)

instance (t : Table) (inode : Nat) (info : Flock) (pid : Nat) :
    Decidable (Whole t inode info pid) :=
  inferInstanceAs (Decidable (∀ lockType ∈ lockTypeOf info.lType, _))

section Setlk

variable {t : Table} {inode : Nat} {info : Flock} {pid : Nat} {lockType : LockType}
  (htype : lockTypeOf info.lType = some lockType)
include htype

/-- A request for a lock is refused when a lock stands against it. -/
theorem setlk_lock (hlock : lockType ≠ .unlock) (blocking : Bool) :
    setlk t inode info pid blocking =
      if (blocker t inode lockType info pid).isSome then
        (if blocking then .error (-11) else .error (-11), t)
      else (.ok (), t.insert inode
        (kept t inode info pid ++ [⟨lockType, pid, info.lStart, info.lLen, false⟩])) := by
  cases lockType with
  | readLock => simp only [setlk, htype]
  | writeLock => simp only [setlk, htype]
  | unlock => exact absurd rfl hlock

theorem setlk_ok_iff (hlock : lockType ≠ .unlock) (blocking : Bool) :
    (setlk t inode info pid blocking).1 = .ok () ↔
      (blocker t inode lockType info pid).isSome = false := by
  rw [setlk_lock htype hlock]
  cases hblocked : (blocker t inode lockType info pid).isSome with
  | true => cases blocking <;> simp
  | false => simp

/-- `setlk` grants and refuses as the per-byte map does. -/
theorem setlk_perByte (h : Sound (t.locks inode)) (hwhole : Whole t inode info pid)
    (blocking : Bool) :
    PerByte t inode info pid lockType (setlk t inode info pid blocking).1
      (setlk t inode info pid blocking).2 := by
  obtain ⟨hrange, hcover⟩ := hwhole lockType htype
  by_cases hunlock : lockType = .unlock
  · subst hunlock
    simp only [setlk, htype]
    refine unlock_perByte h hrange (hcover.resolve_left ?_)
    exact fun hrefused => hrefused.1 rfl
  have hiff : (setlk t inode info pid blocking).1 = .ok () ↔
      (blocker t inode lockType info pid).isSome = false := setlk_ok_iff htype hunlock blocking
  by_cases hblocked : (blocker t inode lockType info pid).isSome = true
  · have herr : (setlk t inode info pid blocking).1 ≠ .ok () := by simp [hiff, hblocked]
    obtain ⟨byte, hin, q, hq, other, hheld, hclash⟩ :=
      (blocker_isSome pid h hrange hunlock).mp hblocked
    refine ⟨⟨fun hok => absurd hok herr, fun hfree => ?_⟩, fun hok => absurd hok herr,
      fun hok => absurd hok herr, fun _ => ?_⟩
    · exact absurd hclash (hfree byte hin q hq other hheld)
    · rw [setlk_lock htype hunlock, if_pos hblocked]
  · rw [setlk_lock htype hunlock, if_neg hblocked]
    refine lock_perByte h hrange (hcover.resolve_left fun hrefused => hblocked hrefused.2)
      hunlock ?_
    simpa using hblocked

/-- `getlk` reports a lock exactly when `setlk` refuses the request. -/
theorem getlk_iff_refused (h : Sound (t.locks inode)) (hlock : lockType ≠ .unlock)
    (blocking : Bool) : (getlk t inode info pid).1 = .ok () ∧
      ((getlk t inode info pid).2.lType ≠ fUnlck ↔
        (setlk t inode info pid blocking).1 ≠ .ok ()) := by
  have hget : getlk t inode info pid = match blocker t inode lockType info pid with
      | some l => (.ok (), ⟨l.lockType.code, l.start, l.len, (l.pid : Int).bmod (2 ^ 32)⟩)
      | none => (.ok (), { info with lType := fUnlck }) := by
    cases lockType with
    | readLock => simp only [getlk, htype]
    | writeLock => simp only [getlk, htype]
    | unlock => exact absurd rfl hlock
  have hrefused : (setlk t inode info pid blocking).1 ≠ .ok () ↔
      (blocker t inode lockType info pid).isSome = true := by
    rw [ne_eq, setlk_ok_iff htype hlock, Bool.not_eq_false]
  rw [hget, hrefused]
  cases hblocked : blocker t inode lockType info pid with
  | none => simp
  | some l =>
    -- a stored record lock is never of type `Unlock`, so its code is not `F_UNLCK`
    have hmem := mem_of_find?_eq_some hblocked
    have hblocks := find?_some hblocked
    simp only [blocks, Bool.and_eq_true, Bool.not_eq_true'] at hblocks
    have hne := (h.ranged l hmem hblocks.1.1).2
    have hcode : l.lockType.code ≠ fUnlck := by
      cases hl : l.lockType with
      | readLock => simp [LockType.code, fRdlck, fUnlck]
      | writeLock => simp [LockType.code, fWrlck, fUnlck]
      | unlock => exact absurd hl hne
    simpa using hcode

omit htype in
/-- `setlk` keeps every inode's locks sound. -/
theorem sound_setlk (h : ∀ i, Sound (t.locks i)) (hwhole : Whole t inode info pid)
    (blocking : Bool) (i : Nat) : Sound ((setlk t inode info pid blocking).2.locks i) := by
  cases htype : lockTypeOf info.lType with
  | none =>
    simp only [setlk, htype]
    exact h i
  | some lockType =>
    obtain ⟨hrange, -⟩ := hwhole lockType htype
    by_cases hunlock : lockType = .unlock
    · subst hunlock
      simp only [setlk, htype]
      exact sound_replace h ((h inode).filter _) (t.locks_put inode · _) i
    rw [setlk_lock htype hunlock]
    by_cases hblocked : (blocker t inode lockType info pid).isSome = true
    · rw [if_pos hblocked]
      exact h i
    · rw [if_neg hblocked]
      have hpush := sound_push (h inode) hrange hunlock (by simpa using hblocked)
      exact sound_replace h hpush (t.locks_insert inode · _) i

end Setlk

/-! ### Runs -/

/-- The calls on the lock table. -/
inductive Op where
  | posixLock (inode : Nat) (cmd : Int) (info : Flock) (pid : Nat)
  | flock (inode operation pid : Nat)
  | releaseAllLocks (pid : Nat)

/-- The table after a call. -/
def Table.step (t : Table) : Op → Table
  | .posixLock inode cmd info pid => (KnoxOS.FileLocks.posixLock t inode cmd info pid).2.2
  | .flock inode operation pid => (KnoxOS.FileLocks.flock t inode operation pid).2
  | .releaseAllLocks pid => KnoxOS.FileLocks.releaseAllLocks t pid

/-- Every request to set a record lock is whole. -/
def Op.Whole (t : Table) : Op → Prop
  | .posixLock inode cmd info pid =>
    cmd = 6 ∨ cmd = 37 ∨ cmd = 7 ∨ cmd = 38 → FileLocks.Whole t inode info pid
  | _ => True

instance (t : Table) : ∀ op, Decidable (Op.Whole t op)
  | .posixLock _ _ _ _ => inferInstanceAs (Decidable (_ → _))
  | .flock _ _ _ => inferInstanceAs (Decidable True)
  | .releaseAllLocks _ => inferInstanceAs (Decidable True)

theorem Sound.push_flock {locks : List FileLock} (h : Sound locks) (hl : l.isFlock = true) :
    Sound (locks ++ [l]) := by
  have hoff : ∀ p byte, ¬ l.On p byte := fun p byte hon =>
    Bool.noConfusion (hl.symm.trans hon.1)
  exact h.push (by simp [hl]) (fun _ _ p byte _ => hoff p byte)
    fun _ _ _ q byte _ _ hon => absurd hon (hoff q byte)

variable {t : Table}

section

variable (h : ∀ i, Sound (t.locks i))
include h

/-- `acquire_flock` keeps every inode's locks sound. -/
theorem sound_acquireFlock (inode : Nat) (lockType : LockType) (pid : Nat) (nonblock : Bool)
    (i : Nat) : Sound ((acquireFlock t inode lockType pid nonblock).2.locks i) := by
  unfold acquireFlock
  by_cases hany : ((t.locks inode).any fun l => l.isFlock && l.conflictsWith lockType pid) = true
  · simp only [if_pos hany]
    exact h i
  · simp only [if_neg hany]
    exact sound_replace h (((h inode).filter _).push_flock rfl) (t.locks_insert inode · _) i

theorem sound_flock (inode operation pid i : Nat) :
    Sound ((flock t inode operation pid).2.locks i) := by
  unfold flock
  extract_lets nonblock op
  split_ifs
  · exact sound_acquireFlock h inode _ pid _ i
  · exact sound_acquireFlock h inode _ pid _ i
  · exact sound_replace h ((h inode).filter _) (t.locks_put inode · _) i
  · exact h i

/-- `release_all_locks` keeps every inode's locks sound. -/
theorem sound_releaseAllLocks (pid i : Nat) : Sound ((releaseAllLocks t pid).locks i) := by
  have hentries : ∀ e ∈ t.toList, Sound e.2 := by
    intro e he
    have hlookup : t[e.1]? = some e.2 := mem_toList_iff.mp he
    have hsound := h e.1
    rwa [Table.locks, hlookup] at hsound
  -- the fold replaces one list after another by a filtered one
  have hfold : ∀ (entries : List (Nat × List FileLock)) (acc : Table),
      (∀ e ∈ entries, Sound e.2) → (∀ i, Sound (acc.locks i)) →
      Sound (Table.locks (entries.foldl
        (fun t e => t.put e.1 (e.2.filter fun l => l.pid != pid)) acc) i) := by
    intro entries
    induction entries with
    | nil => exact fun acc _ hacc => hacc i
    | cons e entries ih =>
      intro acc hall hacc
      refine ih _ (fun e he => hall e (mem_cons_of_mem _ he)) ?_
      exact sound_replace hacc ((hall e (mem_cons_self ..)).filter _)
        (acc.locks_put e.1 · _)
  exact hfold t.toList t hentries h

/-- One call keeps every inode's locks sound. -/
theorem sound_step {op : Op} (hwhole : op.Whole t) (i : Nat) : Sound ((t.step op).locks i) := by
  cases op with
  | posixLock inode cmd info pid =>
    simp only [Table.step, posixLock]
    split_ifs with hget hset hsetw
    · exact h i
    · exact sound_setlk h (hwhole (by omega)) false i
    · exact sound_setlk h (hwhole (by omega)) true i
    · exact h i
  | flock inode operation pid => exact sound_flock h inode operation pid i
  | releaseAllLocks pid => exact sound_releaseAllLocks h pid i

end

/-- In every run whose requests to set a record lock are whole, two processes share a byte only to
read it, every further such request acts byte by byte, and `F_GETLK` reports a lock exactly when
`F_SETLK` refuses. -/
theorem record_locks_per_byte {t : Table} (hrun : Reach Table.step (fun t op => op.Whole t) ∅ t) :
    (∀ inode p q byte x y, p ≠ q → held (t.locks inode) p byte = some x →
      held (t.locks inode) q byte = some y → x = .readLock ∧ y = .readLock) ∧
    ∀ inode info pid lockType blocking, lockTypeOf info.lType = some lockType →
      (Whole t inode info pid → PerByte t inode info pid lockType
        (setlk t inode info pid blocking).1 (setlk t inode info pid blocking).2) ∧
      (lockType ≠ .unlock → (getlk t inode info pid).1 = .ok () ∧
        ((getlk t inode info pid).2.lType ≠ fUnlck ↔
          (setlk t inode info pid blocking).1 ≠ .ok ())) := by
  have hsound : ∀ i, Sound (t.locks i) :=
    hrun.invariant (fun t => ∀ i, Sound (t.locks i)) (fun _ => Sound.nil)
      fun _ _ h hwhole i => sound_step h hwhole i
  refine ⟨fun inode p q byte x y hpq hx hy => ?_, fun inode info pid lockType blocking htype =>
    ⟨fun hwhole => setlk_perByte htype (hsound inode) hwhole blocking,
      fun hlock => getlk_iff_refused htype (hsound inode) hlock blocking⟩⟩
  obtain ⟨a, ha, haon, rfl⟩ := (hsound inode).held_eq_some.mp hx
  obtain ⟨b, hb, hbon, rfl⟩ := (hsound inode).held_eq_some.mp hy
  exact ⟨(hsound inode).fair a ha b hb p q byte hpq haon hbon,
    (hsound inode).fair b hb a ha q p byte (Ne.symm hpq) hbon haon⟩

/-- Two processes read-lock overlapping ranges, one gets a longer lock, the other gives its own up.
-/
def wholeCalls : List Op :=
  [.posixLock 1 6 ⟨fRdlck, 0, 10, 0⟩ 1, .posixLock 1 6 ⟨fRdlck, 5, 0, 0⟩ 2,
    .flock 1 2 3, .posixLock 1 6 ⟨fRdlck, 0, 20, 0⟩ 1, .posixLock 1 6 ⟨fUnlck, 0, 0, 0⟩ 2]

theorem record_locks_per_byte_five_calls :
    Admitted Table.step (fun t op => op.Whole t) ∅ wholeCalls ∧
      PerByte (wholeCalls.foldl Table.step ∅) 1 ⟨fWrlck, 10, 20, 0⟩ 2 .writeLock (.error (-11))
        (wholeCalls.foldl Table.step ∅) := by
  have hadmitted : Admitted Table.step (fun t op => op.Whole t) ∅ wholeCalls := by decide +kernel
  have hwhole : Whole (wholeCalls.foldl Table.step ∅) 1 ⟨fWrlck, 10, 20, 0⟩ 2 := by
    decide +kernel
  have hblocked : (blocker (wholeCalls.foldl Table.step ∅) 1 .writeLock ⟨fWrlck, 10, 20, 0⟩
      2).isSome = true := by decide +kernel
  have hset : setlk (wholeCalls.foldl Table.step ∅) 1 ⟨fWrlck, 10, 20, 0⟩ 2 false =
      (.error (-11), wholeCalls.foldl Table.step ∅) := by
    have htype : lockTypeOf (⟨fWrlck, 10, 20, 0⟩ : Flock).lType = some .writeLock := rfl
    rw [setlk_lock htype (by decide), if_pos hblocked]
    rfl
  have hbyte := ((record_locks_per_byte (Reach.start.foldl hadmitted)).2 1 ⟨fWrlck, 10, 20, 0⟩ 2
    .writeLock false rfl).1 hwhole
  rw [hset] at hbyte
  exact ⟨hadmitted, hbyte⟩

/-- Unlocking the first half of a range drops the lock on the second half. -/
theorem partial_unlock_drops_lock :
    ∃ t, Reach Table.step (fun _ _ => True) ∅ t ∧
      held (t.locks 1) 1 7 = some .writeLock ∧
      (setlk t 1 ⟨fUnlck, 0, 5, 0⟩ 1 false).1.isOk = true ∧ ¬ InRange 0 5 7 ∧
      held ((setlk t 1 ⟨fUnlck, 0, 5, 0⟩ 1 false).2.locks 1) 1 7 = none := by
  refine ⟨_, Reach.free [.posixLock 1 6 ⟨fWrlck, 0, 10, 0⟩ 1], ?_⟩
  decide +kernel

end KnoxOS.FileLocks
