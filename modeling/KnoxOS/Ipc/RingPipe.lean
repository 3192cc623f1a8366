import KnoxOS.Lib.Reach
import KnoxOS.Lib.Ring

/-!
# The ring-buffer pipe

The pipe of `ipc/pipe.rs`: a circular buffer with a read position, a write position and a count
of queued bytes, whose size `set_size` changes at run time. Indexing the buffer outside its
bounds panics in the source; here `write`, `read`, `peek` and `setSize` return `none` there.
`set_size` copies the queue to the front of the new buffer and puts the write position right
behind it, so a queue that exactly fills the new buffer leaves the write position at the
capacity, where the next write that copies a byte panics (`exact_fit_write_panics`). The main
theorem, `ring_is_fifo`, says that without such a write the pipe is a first-in first-out queue.
-/

namespace KnoxOS.RingPipe

open Lib List Option

/-- The errors of the pipe calls that are modelled. -/
inductive PipeError where
  | brokenPipe
  | wouldBlock
  | tooSmall
deriving DecidableEq, Repr

/-- The state of the two ends. -/
inductive PipeState where
  | opened
  | readClosed
  | writeClosed
  | fullyClosed
deriving DecidableEq, Repr

/-- The size of a new buffer, `PIPE_BUF_SIZE`. -/
def pipeBufSize : Nat := 65536

/-- Writes of at most `PIPE_BUF` bytes are atomic. -/
def pipeBuf : Nat := 4096

/-- The largest buffer, in pages. -/
def pipeMaxPages : Nat := 16

/-- The flag `O_NONBLOCK`. -/
def oNonblock : Nat := 0x800

/-- A pipe. The read and write waiters are pids; a call that makes progress clears the other list.
-/
structure Pipe where
  id : Nat
  buffer : List UInt8
  readPos : Nat
  writePos : Nat
  dataLen : Nat
  capacity : Nat
  flags : Nat
  readers : Nat
  writers : Nat
  state : PipeState
  bytesRead : Nat
  bytesWritten : Nat
  readWaiters : List Nat
  writeWaiters : List Nat
deriving DecidableEq, Repr

namespace Pipe

def new (id flags : Nat) : Pipe where
  id := id
  buffer := List.replicate pipeBufSize 0
  readPos := 0
  writePos := 0
  dataLen := 0
  capacity := pipeBufSize
  flags := flags
  readers := 1
  writers := 1
  state := .opened
  bytesRead := 0
  bytesWritten := 0
  readWaiters := []
  writeWaiters := []

/-- The error of a call that cannot go on: the same with `O_NONBLOCK` and without, when the caller
retries. -/
def blocked (p : Pipe) : PipeError :=
  if p.flags &&& oNonblock ≠ 0 then .wouldBlock else .wouldBlock

/-- How many of `len` bytes `write` takes: all or none of a short write, what there is room for of a
long one. -/
def toWrite (p : Pipe) (len : Nat) : Except PipeError Nat :=
  if p.readers = 0 then .error .brokenPipe
  else if len = 0 then .ok 0
  else if p.capacity - p.dataLen = 0 then .error p.blocked
  else if len ≤ pipeBuf then
    if p.capacity - p.dataLen < len then .error p.blocked else .ok len
  else .ok (min len (p.capacity - p.dataLen))

def write (p : Pipe) (data : List UInt8) : Option (Except PipeError Nat × Pipe) :=
  match p.toWrite data.length with
  | .error e => some (.error e, p)
  | .ok n =>
    -- an empty write returns before the buffer and the waiters are touched
    if data = [] then some (.ok 0, p)
    else do
      let (buffer, writePos) ← Ring.put p.capacity p.buffer p.writePos (data.take n)
      some (.ok n, { p with
        buffer := buffer
        writePos := writePos
        dataLen := p.dataLen + n
        bytesWritten := (p.bytesWritten + n) % 2 ^ 64
        readWaiters := [] })

/-- `Pipe::read` into a buffer of `len` bytes; the bytes stored there are the result. -/
def read (p : Pipe) (len : Nat) : Option (Except PipeError (List UInt8) × Pipe) :=
  if p.dataLen = 0 then
    if p.writers = 0 then some (.ok [], p) else some (.error p.blocked, p)
  else do
    let n := min len p.dataLen
    let (bytes, readPos) ← Ring.get p.capacity p.buffer p.readPos n
    some (.ok bytes, { p with
      readPos := readPos
      dataLen := p.dataLen - n
      bytesRead := (p.bytesRead + n) % 2 ^ 64
      writeWaiters := [] })

/-- `Pipe::peek` into a buffer of `len` bytes. -/
def peek (p : Pipe) (len : Nat) : Option (List UInt8) := do
  let (bytes, _) ← Ring.get p.capacity p.buffer p.readPos (min len p.dataLen)
  return bytes

/-- The size `set_size` gives the buffer: a power of two from a page to `PIPE_MAX_PAGES` pages. -/
def roundSize (newSize : Nat) : Nat :=
  (min (max newSize 4096) (pipeMaxPages * 4096)).nextPowerOfTwo

def setSize (p : Pipe) (newSize : Nat) : Option (Except PipeError Nat × Pipe) :=
  let size := roundSize newSize
  if size < p.dataLen then some (.error .tooSmall, p)
  else do
    let (bytes, _) ← Ring.get p.capacity p.buffer p.readPos p.dataLen
    some (.ok size, { p with
      buffer := bytes ++ List.replicate (size - p.dataLen) 0
      capacity := size
      readPos := 0
      writePos := p.dataLen })

def closeRead (p : Pipe) : Pipe :=
  let readers := p.readers - 1
  { p with
    readers := readers
    state := if readers = 0 then (if p.writers = 0 then .fullyClosed else .readClosed)
      else p.state }

def closeWrite (p : Pipe) : Pipe :=
  let writers := p.writers - 1
  { p with
    writers := writers
    state := if writers = 0 then (if p.readers = 0 then .fullyClosed else .writeClosed)
      else p.state }

/-- The queued bytes, oldest first. -/
def queue (p : Pipe) : List UInt8 := Ring.window p.capacity p.buffer p.readPos p.dataLen

@[simp] theorem length_queue (p : Pipe) : p.queue.length = p.dataLen := by simp [queue]

end Pipe

/-! ### Calls and the queue they stand for -/

/-- The calls on a pipe. -/
inductive Op where
  | write (data : List UInt8)
  | read (len : Nat)
  | peek (len : Nat)
  | setSize (newSize : Nat)
  | closeRead
  | closeWrite
deriving DecidableEq, Repr

/-- What a call returns. -/
inductive Outcome where
  | wrote (result : Except PipeError Nat)
  | got (result : Except PipeError (List UInt8))
  | seen (bytes : List UInt8)
  | resized (result : Except PipeError Nat)
  | closed

/-- One call; `none` is a panic. -/
def Pipe.call (p : Pipe) : Op → Option (Outcome × Pipe)
  | .write data => (p.write data).map fun (r, p') => (.wrote r, p')
  | .read len => (p.read len).map fun (r, p') => (.got r, p')
  | .peek len => (p.peek len).map fun bytes => (.seen bytes, p)
  | .setSize newSize => (p.setSize newSize).map fun (r, p') => (.resized r, p')
  | .closeRead => some (.closed, p.closeRead)
  | .closeWrite => some (.closed, p.closeWrite)

/-- The calls of a first-in first-out byte queue whose short writes are atomic. -/
inductive Fifo : List UInt8 → Op → Outcome → List UInt8 → Prop where
  | accept {q data : List UInt8} {n : Nat} (hn : n ≤ data.length)
      (hshort : data.length ≤ pipeBuf → n = data.length) :
      Fifo q (.write data) (.wrote (.ok n)) (q ++ data.take n)
  | refuse {q data : List UInt8} {e : PipeError} : Fifo q (.write data) (.wrote (.error e)) q
  | read {q : List UInt8} {len : Nat} : Fifo q (.read len) (.got (.ok (q.take len))) (q.drop len)
  | empty {len : Nat} {e : PipeError} : Fifo [] (.read len) (.got (.error e)) []
  | peek {q : List UInt8} {len : Nat} : Fifo q (.peek len) (.seen (q.take len)) q
  | resize {q : List UInt8} {newSize : Nat} {r : Except PipeError Nat} :
      Fifo q (.setSize newSize) (.resized r) q
  | closeRead {q : List UInt8} : Fifo q .closeRead .closed q
  | closeWrite {q : List UInt8} : Fifo q .closeWrite .closed q

/-- The bytes a call put into the queue. -/
def taken : Op → Outcome → List UInt8
  | .write data, .wrote (.ok n) => data.take n
  | _, _ => []

/-- The bytes a call took out of the queue. -/
def given : Op → Outcome → List UInt8
  | .read _, .got (.ok bytes) => bytes
  | _, _ => []

theorem Fifo.balance {q q' : List UInt8} {op : Op} {out : Outcome} (h : Fifo q op out q') :
    q ++ taken op out = given op out ++ q' := by
  cases h <;> simp [taken, given]

theorem Fifo.of_read {q q' : List UInt8} {len : Nat} {got : Except PipeError (List UInt8)}
    (h : Fifo q (.read len) (.got got) q') :
    q' = q.drop len ∧ (got = .ok (q.take len) ∨ q = [] ∧ ∃ e, got = .error e) := by
  cases h with
  | read => exact ⟨rfl, .inl rfl⟩
  | empty => exact ⟨drop_nil.symm, .inr ⟨rfl, _, rfl⟩⟩

/-! ### Runs -/

/-- A pipe beside the bytes accepted and delivered so far, whether the last granted `set_size` chose
exactly the number of queued bytes, and whether a call panicked. -/
structure Trace where
  pipe : Pipe
  accepted : List UInt8
  delivered : List UInt8
  exactFit : Bool
  crashed : Bool

/-- A new pipe. -/
def Trace.new (id flags : Nat) : Trace := ⟨.new id flags, [], [], false, false⟩

/-- Whether a granted `set_size` chose exactly the number of queued bytes. -/
def fits (p : Pipe) (before : Bool) : Outcome → Bool
  | .resized (.ok size) => size == p.dataLen
  | _ => before

/-- One call of a run. -/
def Trace.step (t : Trace) (op : Op) : Trace :=
  match t.pipe.call op with
  | none => { t with crashed := true }
  | some (out, p) =>
    ⟨p, t.accepted ++ taken op out, t.delivered ++ given op out, fits t.pipe t.exactFit out,
      t.crashed⟩

/-- A write of `data` would copy bytes into the buffer. -/
def Pipe.Copies (p : Pipe) (data : List UInt8) : Prop :=
  data ≠ [] ∧ ∃ n, p.toWrite data.length = .ok n

/-- No write copies bytes into a buffer that the last granted `set_size` made exactly as long as the
queue. -/
def Roomy (t : Trace) : Op → Prop
  | .write data => t.exactFit = true → ¬ t.pipe.Copies data
  | _ => True

/-! ### What one call does -/

/-- The buffer has the length the pipe says, reading starts inside it, and the queue fits. -/
structure Pipe.Sound (p : Pipe) : Prop where
  length : p.buffer.length = p.capacity
  inside : p.readPos < p.capacity
  fits : p.dataLen ≤ p.capacity

/-- Writing goes on right behind the queue. -/
def Pipe.Behind (p : Pipe) : Prop := p.writePos = (p.readPos + p.dataLen) % p.capacity

namespace Pipe

variable {p : Pipe} {data : List UInt8}

theorem toWrite_ok {len n : Nat} (h : p.toWrite len = .ok n) :
    n ≤ len ∧ (len ≤ pipeBuf → n = len) ∧
      (len ≠ 0 → 0 < n ∧ p.dataLen < p.capacity ∧ p.dataLen + n ≤ p.capacity) := by
  unfold toWrite at h
  split_ifs at h with hreaders hlen hfull hshort hroom
  · cases h
    omega
  · cases h
    omega
  · cases h
    omega

theorem toWrite_whole_iff {len : Nat} (hlen : len ≠ 0) :
    p.toWrite len = .ok len ↔ p.readers ≠ 0 ∧ p.dataLen + len ≤ p.capacity := by
  unfold toWrite
  split_ifs <;> simp <;> omega

theorem sound_new (id flags : Nat) : (new id flags).Sound :=
  ⟨length_replicate, Nat.zero_lt_succ _, Nat.zero_le _⟩

theorem behind_new (id flags : Nat) : (new id flags).Behind := rfl

/-- A write that copies its bytes behind the queue appends them to it. -/
theorem Sound.write_ok (h : p.Sound) (hbehind : p.Behind) {n : Nat} (hdata : data ≠ [])
    (hn : p.toWrite data.length = .ok n) :
    ∃ p', p.write data = some (.ok n, p') ∧ p'.queue = p.queue ++ data.take n ∧ p'.Sound ∧
      p'.Behind ∧ p'.readers = p.readers := by
  obtain ⟨hle, -, hroom⟩ := toWrite_ok hn
  obtain ⟨-, hlt, hfit⟩ := hroom (fun hzero => hdata (length_eq_zero_iff.mp hzero))
  have hlen : (data.take n).length = n := by simpa using hle
  obtain ⟨cells, hput, hcells, hwin⟩ := Ring.put_spec p.buffer (data.take n) p.readPos
    p.dataLen h.length h.inside (by omega) hlt
  rw [hlen, ← hbehind] at hput
  rw [hlen] at hwin
  simp only [Pipe.write, hn, if_neg hdata, hput]
  exact ⟨_, rfl, hwin, ⟨hcells, h.inside, hfit⟩, rfl, rfl⟩

/-- A write acts as the queue does if the bytes it copies go behind the queue. -/
theorem Sound.write (h : p.Sound) (hbehind : p.Copies data → p.Behind) :
    ∃ r p', p.write data = some (r, p') ∧ Fifo p.queue (.write data) (.wrote r) p'.queue ∧
      p'.Sound ∧ (p'.Behind ∨ p' = p) := by
  cases hn : p.toWrite data.length with
  | error e =>
    refine ⟨.error e, p, ?_, .refuse, h, .inr rfl⟩
    simp only [Pipe.write, hn]
  | ok n =>
    by_cases hdata : data = []
    · refine ⟨.ok 0, p, by simp only [Pipe.write, hn, if_pos hdata], ?_, h, .inr rfl⟩
      subst hdata
      have haccept : Fifo p.queue (.write []) (.wrote (.ok 0)) (p.queue ++ [].take 0) :=
        .accept (Nat.le_refl 0) fun _ => rfl
      rwa [take_nil, append_nil] at haccept
    · obtain ⟨p', hwrite, hqueue, hsound, hbehind', -⟩ :=
        h.write_ok (hbehind ⟨hdata, n, hn⟩) hdata hn
      obtain ⟨hle, hshort, -⟩ := toWrite_ok hn
      refine ⟨.ok n, p', hwrite, ?_, hsound, .inl hbehind'⟩
      rw [hqueue]
      exact .accept hle hshort

/-- A write that copies bytes panics when the write position is the capacity. -/
theorem write_panics (hlen : p.buffer.length = p.capacity) (hpos : p.writePos = p.capacity)
    (hcopies : p.Copies data) : p.write data = none := by
  obtain ⟨hdata, n, hn⟩ := hcopies
  obtain ⟨-, -, hroom⟩ := toWrite_ok hn
  obtain ⟨hpos', -⟩ := hroom (fun hzero => hdata (length_eq_zero_iff.mp hzero))
  obtain ⟨a, rest, rfl⟩ := exists_cons_of_ne_nil hdata
  obtain ⟨k, rfl⟩ : ∃ k, n = k + 1 := ⟨n - 1, by omega⟩
  simp only [Pipe.write, hn, if_neg hdata, take_succ_cons,
    Ring.put_outside a (rest.take k) (Nat.le_of_eq (hlen.trans hpos.symm))]
  rfl

/-- A read takes the oldest bytes. -/
theorem Sound.read (h : p.Sound) (len : Nat) :
    ∃ r p', p.read len = some (r, p') ∧ Fifo p.queue (.read len) (.got r) p'.queue ∧
      p'.Sound ∧ (p.Behind → p'.Behind) := by
  have hfits := h.fits
  unfold Pipe.read
  by_cases hempty : p.dataLen = 0
  · have hqueue : p.queue = [] := length_eq_zero_iff.mp (by rw [length_queue, hempty])
    simp only [if_pos hempty]
    by_cases hwriters : p.writers = 0
    · simp only [if_pos hwriters]
      refine ⟨_, _, rfl, ?_, h, fun hb => hb⟩
      have hread : Fifo [] (.read len) (.got (.ok (take len []))) (drop len []) := .read
      rw [take_nil, drop_nil] at hread
      rw [hqueue]
      exact hread
    · simp only [if_neg hwriters]
      refine ⟨_, _, rfl, ?_, h, fun hb => hb⟩
      rw [hqueue]
      exact .empty
  · simp only [if_neg hempty, Ring.get_eq_window _ _ _ h.length h.inside]
    have hn : min len p.dataLen ≤ p.dataLen := Nat.min_le_right _ _
    have htake : p.queue.take len =
        Ring.window p.capacity p.buffer p.readPos (min len p.dataLen) := by
      rw [← Ring.take_window _ _ h.inside hn, take_eq_take_min, length_queue]
      rfl
    have hdrop : p.queue.drop len = Ring.window p.capacity p.buffer
        ((p.readPos + min len p.dataLen) % p.capacity) (p.dataLen - min len p.dataLen) := by
      rw [← Ring.drop_window _ _ h.inside hn]
      by_cases hlen : len ≤ p.dataLen
      · rw [Nat.min_eq_left hlen]
        rfl
      · rw [Nat.min_eq_right (by omega), drop_of_length_le (by simp; omega),
          drop_of_length_le (by simp)]
    refine ⟨_, _, rfl, ?_, ⟨h.length, Nat.mod_lt _ (by have := h.inside; omega), ?_⟩, ?_⟩
    · show Fifo _ _ _ (Ring.window p.capacity p.buffer _ _)
      rw [← htake, ← hdrop]
      exact .read
    · show p.dataLen - min len p.dataLen ≤ p.capacity
      omega
    · intro hbehind
      show p.writePos = ((p.readPos + min len p.dataLen) % p.capacity +
        (p.dataLen - min len p.dataLen)) % p.capacity
      rw [Nat.mod_add_mod, hbehind]
      congr 1
      omega

/-- A read moves the read position and the count only. -/
theorem read_keeps {len : Nat} {r : Except PipeError (List UInt8)} {p' : Pipe}
    (h : p.read len = some (r, p')) :
    p'.writePos = p.writePos ∧ p'.capacity = p.capacity ∧ p'.readers = p.readers := by
  unfold Pipe.read at h
  split_ifs at h
  · cases h
    exact ⟨rfl, rfl, rfl⟩
  · cases h
    exact ⟨rfl, rfl, rfl⟩
  · obtain ⟨_, _, hsome⟩ := bind_eq_some_iff.mp h
    cases hsome
    exact ⟨rfl, rfl, rfl⟩

theorem Sound.peek (h : p.Sound) (len : Nat) : p.peek len = some (p.queue.take len) := by
  have hn : min len p.dataLen ≤ p.dataLen := Nat.min_le_right _ _
  unfold Pipe.peek
  rw [Ring.get_eq_window _ _ _ h.length h.inside, ← Ring.take_window _ _ h.inside hn]
  rw [take_eq_take_min (i := len), length_queue]
  rfl

theorem roundSize_pos (newSize : Nat) : 0 < roundSize newSize :=
  Nat.pos_of_isPowerOfTwo (Nat.isPowerOfTwo_nextPowerOfTwo _)

/-- Resizing copies the queue to the front of the new buffer. Writing goes on behind it, or at the
capacity if the queue fills the buffer. -/
theorem Sound.setSize (h : p.Sound) (newSize : Nat) :
    (roundSize newSize < p.dataLen ∧ p.setSize newSize = some (.error .tooSmall, p)) ∨
      ∃ p', p.setSize newSize = some (.ok (roundSize newSize), p') ∧ p'.queue = p.queue ∧
        p'.Sound ∧ p'.writePos = p.dataLen ∧ p'.capacity = roundSize newSize ∧
        p'.readers = p.readers ∧ (roundSize newSize ≠ p.dataLen → p'.Behind) := by
  unfold Pipe.setSize
  by_cases hsmall : roundSize newSize < p.dataLen
  · simp only [if_pos hsmall]
    exact .inl ⟨hsmall, trivial⟩
  · simp only [if_neg hsmall, Ring.get_eq_window _ _ _ h.length h.inside]
    have hqueue : p.queue.length = p.dataLen := length_queue p
    refine .inr ⟨_, rfl, ?_, ⟨?_, roundSize_pos newSize, Nat.le_of_not_lt hsmall⟩, rfl, rfl, rfl,
      ?_⟩
    · have hroom : ([] : List Nat).length + p.queue.length ≤ roundSize newSize := by
        rw [length_nil]
        omega
      have hfront := Ring.window_middle [] p.queue
        (replicate (roundSize newSize - p.dataLen) 0) hroom
      rw [hqueue] at hfront
      exact hfront
    · show (p.queue ++ replicate (roundSize newSize - p.dataLen) 0).length = roundSize newSize
      rw [length_append, length_replicate]
      omega
    · intro hne
      show p.dataLen = (0 + p.dataLen) % roundSize newSize
      rw [Nat.zero_add, Nat.mod_eq_of_lt (by omega)]

/-- A pipe as calls leave it: writing goes on behind the queue or at the capacity. -/
def Live (p : Pipe) : Prop := p.Sound ∧ (p.Behind ∨ p.writePos = p.capacity)

/-- A call whose bytes go behind the queue acts as the queue does. -/
theorem Sound.call (h : p.Sound) {op : Op}
    (hbehind : ∀ data, op = .write data → p.Copies data → p.Behind) :
    ∃ out p', p.call op = some (out, p') ∧ Fifo p.queue op out p'.queue ∧ p'.Sound ∧
      (∀ fit, (fit = false → p.Behind) → RingPipe.fits p fit out = false → p'.Behind) ∧
      (p.Live → p'.Live) := by
  cases op with
  | write data =>
    obtain ⟨r, p', hwrite, hfifo, hsound, hpos⟩ := h.write (hbehind data rfl)
    refine ⟨.wrote r, p', by simp [Pipe.call, hwrite], hfifo, hsound, ?_⟩
    obtain hpos | rfl := hpos
    · exact ⟨fun _ _ _ => hpos, fun _ => ⟨hsound, .inl hpos⟩⟩
    · exact ⟨fun _ hfit => hfit, fun h => h⟩
  | read len =>
    obtain ⟨r, p', hread, hfifo, hsound, hkeep⟩ := h.read len
    obtain ⟨hend, hcapacity, -⟩ := read_keeps hread
    refine ⟨.got r, p', by simp [Pipe.call, hread], hfifo, hsound, fun _ hfit h => hkeep (hfit h),
      fun hlive => ⟨hsound, ?_⟩⟩
    rw [hend, hcapacity]
    exact hlive.2.imp_left hkeep
  | peek len =>
    refine ⟨.seen (p.queue.take len), p, ?_, .peek, h, fun _ hfit => hfit, fun h => h⟩
    simp [Pipe.call, h.peek len]
  | setSize newSize =>
    obtain ⟨-, hset⟩ | ⟨p', hset, hqueue, hsound, hend, hcapacity, -, hpos⟩ := h.setSize newSize
    · exact ⟨.resized (.error .tooSmall), p, by simp [Pipe.call, hset], .resize, h,
        fun _ hfit => hfit, fun h => h⟩
    · refine ⟨.resized (.ok (roundSize newSize)), p', by simp [Pipe.call, hset], ?_, hsound,
        fun _ _ hfit => hpos (by simpa [RingPipe.fits] using hfit), fun _ => ⟨hsound, ?_⟩⟩
      · rw [hqueue]
        exact .resize
      · rw [hend, hcapacity, or_iff_not_imp_right]
        exact fun hne => hpos (Ne.symm hne)
  | closeRead =>
    have hsound : p.closeRead.Sound := ⟨h.1, h.2, h.3⟩
    exact ⟨_, _, rfl, .closeRead, hsound, fun _ hfit => hfit, fun hlive => ⟨hsound, hlive.2⟩⟩
  | closeWrite =>
    have hsound : p.closeWrite.Sound := ⟨h.1, h.2, h.3⟩
    exact ⟨_, _, rfl, .closeWrite, hsound, fun _ hfit => hfit, fun hlive => ⟨hsound, hlive.2⟩⟩

theorem Live.behind (h : p.Live) (hcopies : p.Copies data) {r : Except PipeError Nat × Pipe}
    (hwrite : p.write data = some r) : p.Behind := by
  refine h.2.resolve_right fun hend => ?_
  rw [write_panics h.1.length hend hcopies] at hwrite
  cases hwrite

end Pipe

/-! ### Whole runs -/

/-- Every pipe that calls reach is live. -/
theorem Trace.live {id flags : Nat} {t : Trace}
    (hrun : Reach Trace.step (fun _ _ => True) (.new id flags) t) : t.pipe.Live := by
  refine hrun.invariant (fun t => t.pipe.Live) ⟨Pipe.sound_new id flags, .inl rfl⟩
    fun t op h _ => ?_
  unfold Trace.step
  cases hcall : t.pipe.call op with
  | none => exact h
  | some r =>
    have hbehind : ∀ data, op = .write data → t.pipe.Copies data → t.pipe.Behind := by
      rintro data rfl hcopies
      obtain ⟨_, hwrite, -⟩ := map_eq_some_iff.mp hcall
      exact h.behind hcopies hwrite
    obtain ⟨out, p, hcall', -, -, -, hlive⟩ := h.1.call hbehind
    cases hcall.symm.trans hcall'
    exact hlive h

/-- What every run keeps: no call panicked, the pipe is sound, writing goes on behind the queue
unless it was fitted exactly, and the accepted bytes are the delivered and the queued. -/
structure Trace.Good (t : Trace) : Prop where
  running : t.crashed = false
  sound : t.pipe.Sound
  behind : t.exactFit = false → t.pipe.Behind
  bytes : t.accepted = t.delivered ++ t.pipe.queue

/-- A call that does not write into an exactly fitted buffer acts as the queue does, and keeps the
pipe sound. -/
theorem Trace.Good.call {t : Trace} (h : t.Good) {op : Op} (hroomy : Roomy t op) :
    ∃ out p, t.pipe.call op = some (out, p) ∧ Fifo t.pipe.queue op out p.queue ∧ p.Sound ∧
      (fits t.pipe t.exactFit out = false → p.Behind) := by
  have hbehind : ∀ data, op = .write data → t.pipe.Copies data → t.pipe.Behind := by
    rintro data rfl hcopies
    exact h.behind (Bool.eq_false_iff.mpr fun hfit => hroomy hfit hcopies)
  obtain ⟨out, p, hcall, hfifo, hsound, hfits, -⟩ := h.sound.call hbehind
  exact ⟨out, p, hcall, hfifo, hsound, hfits _ h.behind⟩

theorem Trace.good_new (id flags : Nat) : (Trace.new id flags).Good :=
  ⟨rfl, Pipe.sound_new id flags, fun _ => Pipe.behind_new id flags, rfl⟩

theorem Trace.Good.step {t : Trace} (h : t.Good) (op : Op) (hroomy : Roomy t op) :
    (t.step op).Good := by
  obtain ⟨out, p, hcall, hfifo, hsound, hbehind⟩ := h.call hroomy
  simp only [Trace.step, hcall]
  refine ⟨h.running, hsound, hbehind, ?_⟩
  rw [h.bytes, append_assoc, append_assoc, hfifo.balance]

/-- In every roomy run no index leaves the buffer, the queue fits, the bytes read are the first of
the bytes accepted and the others are queued, and every further roomy call acts on the queued bytes
as a first-in first-out queue with atomic short writes does. -/
theorem ring_is_fifo {id flags : Nat} {t : Trace}
    (hrun : Reach Trace.step Roomy (.new id flags) t) :
    t.crashed = false ∧ t.pipe.readPos < t.pipe.buffer.length ∧
      t.pipe.dataLen ≤ t.pipe.capacity ∧ t.pipe.capacity = t.pipe.buffer.length ∧
      t.delivered <+: t.accepted ∧ t.accepted = t.delivered ++ t.pipe.queue ∧
      ∀ op, Roomy t op →
        ∃ out p, t.pipe.call op = some (out, p) ∧ Fifo t.pipe.queue op out p.queue := by
  have hgood : t.Good :=
    hrun.invariant Trace.Good (Trace.good_new id flags) fun _ op h hroomy => h.step op hroomy
  have hinside := hgood.sound.inside
  rw [← hgood.sound.length] at hinside
  refine ⟨hgood.running, hinside, hgood.sound.fits, hgood.sound.length.symm,
    ⟨t.pipe.queue, hgood.bytes.symm⟩, hgood.bytes, fun op hroomy => ?_⟩
  obtain ⟨out, p, hcall, hfifo, -⟩ := hgood.call hroomy
  exact ⟨out, p, hcall, hfifo⟩

/-- Three bytes written, the buffer shrunk to a page, and two of the bytes read. -/
theorem ring_is_fifo_three_calls :
    ((((Trace.new 1 0).step (.write [1, 2, 3])).step (.setSize 4096)).step (.read 2)).crashed =
      false := by
  have hfirst : Roomy (.new 1 0) (.write [1, 2, 3]) := by
    intro hfit
    cases hfit
  have hrest : ∀ t, Reach Trace.step Roomy (.new 1 0) t →
      Reach Trace.step Roomy (.new 1 0) ((t.step (.setSize 4096)).step (.read 2)) :=
    fun t h => (h.next (Op.setSize 4096) True.intro).next (Op.read 2) True.intro
  have hrun := hrest _ (Reach.start.next _ hfirst)
  exact (ring_is_fifo hrun).1

/-- A page of queued bytes is shrunk to a page and a byte read: the next write indexes the buffer at
its end. -/
theorem Trace.Good.exact_fit {t : Trace} (h : t.Good) (hreaders : t.pipe.readers ≠ 0)
    (hpage : t.pipe.dataLen = 4096) :
    ∃ t' : Trace, t' = (t.step (.setSize 4096)).step (.read 1) ∧ t'.crashed = false ∧
      t'.pipe.dataLen < t'.pipe.capacity ∧ t'.pipe.call (.write [0]) = none := by
  have hsize : Pipe.roundSize 4096 = 4096 := by decide +kernel
  have hgood := (h.step (.setSize 4096) True.intro).step (.read 1) True.intro
  refine ⟨_, rfl, hgood.running, ?_⟩
  obtain ⟨hsmall, -⟩ | ⟨p, hset, hqueue, hsound, hpos, hcap, hreaders', -⟩ :=
    h.sound.setSize 4096
  · omega
  obtain ⟨r, p', hread, hfifo, hsound', -⟩ := hsound.read 1
  have hlast : ((t.step (.setSize 4096)).step (.read 1)).pipe = p' := by
    simp [Trace.step, Pipe.call, hset, hread]
  obtain ⟨hpos', hcap', hreaders''⟩ := Pipe.read_keeps hread
  have hlen := congrArg length hfifo.of_read.1
  rw [hqueue, Pipe.length_queue, length_drop, Pipe.length_queue, hpage] at hlen
  have hcapacity : p'.capacity = 4096 := by rw [hcap', hcap, hsize]
  have hwritePos : p'.writePos = p'.capacity := by rw [hpos', hpos, hpage, hcapacity]
  have hcopies : p'.Copies [0] := by
    refine ⟨cons_ne_nil _ _, 1, ?_⟩
    rw [← hreaders', ← hreaders''] at hreaders
    simp [Pipe.toWrite, hreaders, hcapacity, hlen, pipeBuf]
  rw [hlast]
  refine ⟨by omega, ?_⟩
  simp only [Pipe.call, Pipe.write_panics hsound'.length hwritePos hcopies, map_none]

/-- A page written to a new pipe is queued whole. -/
theorem Trace.step_new_page (id flags : Nat) {page : List UInt8} (hpage : page.length = 4096) :
    ((Trace.new id flags).step (.write page)).Good ∧
      ((Trace.new id flags).step (.write page)).pipe.dataLen = 4096 ∧
      ((Trace.new id flags).step (.write page)).pipe.readers = 1 := by
  have hne : page ≠ [] := by
    intro hnil
    rw [hnil] at hpage
    cases hpage
  have hwhole : (Pipe.new id flags).toWrite page.length = .ok 4096 := by
    rw [hpage]
    rfl
  have hroomy : Roomy (.new id flags) (.write page) := by
    intro hfit
    cases hfit
  obtain ⟨p, hwrite, hqueue, -, -, hreaders⟩ :=
    (Pipe.sound_new id flags).write_ok (Pipe.behind_new id flags) hne hwhole
  have hcall : (Trace.new id flags).pipe.call (.write page) = some (.wrote (.ok 4096), p) := by
    show ((Pipe.new id flags).write page).map _ = _
    rw [hwrite]
    rfl
  have hlen := congrArg length hqueue
  rw [length_append, Pipe.length_queue, length_take, hpage] at hlen
  refine ⟨(Trace.good_new id flags).step _ hroomy, ?_, ?_⟩
  · simp only [Trace.step, hcall]
    exact hlen
  · simp only [Trace.step, hcall]
    exact hreaders

theorem Trace.reach_page : ∃ t, Reach Trace.step (fun _ _ => True) (.new 1 0) t ∧ t.Good ∧
    t.pipe.dataLen = 4096 ∧ t.pipe.readers = 1 :=
  ⟨_, Reach.start.next _ True.intro, step_new_page 1 0 (length_replicate (a := 0))⟩

/-- A page of bytes written, the buffer shrunk to a page and a byte read: writing a byte, for which
there is room, panics. -/
theorem exact_fit_write_panics :
    ∃ t, Reach Trace.step (fun _ _ => True) (.new 1 0) t ∧ t.crashed = false ∧
      t.pipe.dataLen < t.pipe.capacity ∧ t.pipe.call (.write [0]) = none := by
  obtain ⟨_, hrun, hgood, hfull, hreaders⟩ := Trace.reach_page
  obtain ⟨t, ht, hrunning, hroom, hpanic⟩ := hgood.exact_fit (by omega) hfull
  refine ⟨t, ?_, hrunning, hroom, hpanic⟩
  rw [ht]
  exact (hrun.next _ True.intro).next _ True.intro

/-! ### Splicing -/

/-- The second half of `pipe_splice` and `pipe_tee`. A missing pipe is `none`, as is the error
`NotFound`. -/
def writeTo (dst : Option Pipe) (data : List UInt8) :
    Option (Except (Option PipeError) Nat × Option Pipe) :=
  match dst with
  | none => some (.error none, none)
  | some q => (q.write data).map fun (r, q) => (r.mapError some, some q)

/-- `pipe_splice`, with the two pipes it leaves. Here and in `pipe_tee` the allocation of the
temporary buffer is left out. -/
def pipeSplice (src dst : Option Pipe) (len : Nat) :
    Option (Except (Option PipeError) Nat × Option Pipe × Option Pipe) :=
  match src with
  | none => some (.error none, none, dst)
  | some p => do
    match ← p.read len with
    | (.error e, p) => some (.error (some e), some p, dst)
    | (.ok data, p) => (writeTo dst data).map fun (r, dst) => (r, some p, dst)

/-- `pipe_tee`, which only peeks at the source. -/
def pipeTee (src dst : Option Pipe) (len : Nat) :
    Option (Except (Option PipeError) Nat × Option Pipe × Option Pipe) :=
  match src with
  | none => some (.error none, none, dst)
  | some p => do (writeTo dst (← p.peek len)).map fun (r, dst) => (r, some p, dst)

def queued (p : Option Pipe) : List UInt8 := p.elim [] Pipe.queue

/-- The destination gets what leaves the source, as much as the call returns. -/
def Moves (src dst : Option Pipe) (r : Except (Option PipeError) Nat × Option Pipe × Option Pipe) :
    Prop :=
  ∃ moved, queued src = moved ++ queued r.2.1 ∧ queued r.2.2 = queued dst ++ moved ∧
    moved.length = r.1.toOption.getD 0

/-- No bytes are given, or there is a destination that takes as many. -/
def Takes (dst : Option Pipe) (n : Nat) : Prop :=
  n = 0 ∨ ∃ q ∈ dst, q.Behind ∧ q.readers ≠ 0 ∧ q.dataLen + n ≤ q.capacity

section

variable {src dst : Option Pipe} (hdst : ∀ q ∈ dst, q.Live)
include hdst

/-- A target queues all of the data exactly when it takes that many bytes. -/
theorem writeTo_whole_iff (data : List UInt8) :
    (∃ r, writeTo dst data = some r ∧ queued r.2 = queued dst ++ data ∧
      data.length = r.1.toOption.getD 0) ↔ Takes dst data.length := by
  unfold writeTo
  cases dst with
  | none => simp [Takes, queued, Except.toOption]
  | some q =>
    have hlive := hdst q rfl
    by_cases hdata : data = []
    · by_cases hreaders : q.readers = 0 <;>
        simp [Takes, hdata, Pipe.write, Pipe.toWrite, hreaders, Except.mapError, Except.toOption]
    · have hlen : data.length ≠ 0 := fun h => hdata (length_eq_zero_iff.mp h)
      have hwhole := Pipe.toWrite_whole_iff (p := q) hlen
      cases hn : q.toWrite data.length with
      | error e =>
        simp [Takes, hlen, ← hwhole, Pipe.write, hn, Except.toOption, Except.mapError]
      | ok n =>
        by_cases hbehind : q.Behind
        · obtain ⟨q', hwrite, hqueue, -⟩ := hlive.1.write_ok hbehind hdata hn
          simp only [Takes, hlen, false_or, mem_some_iff, exists_eq_left', hbehind, true_and,
            ← hwhole, hwrite, hn]
          constructor
          · rintro ⟨_, ⟨⟩, -, hcount⟩
            exact congrArg _ hcount.symm
          · rintro ⟨⟩
            rw [take_length] at hqueue
            exact ⟨_, rfl, hqueue, rfl⟩
        · have hnone : q.write data = none := eq_none_iff_forall_ne_some.mpr fun r hwrite =>
            hbehind (hlive.behind ⟨hdata, n, hn⟩ hwrite)
          simp [Takes, hlen, hnone, hbehind]

/-- For pipes that calls reach, `pipe_splice` moves bytes without losing any exactly when the source
gives none or the destination takes all it gives, and `pipe_tee` appends a part of the source's
bytes, which stay there, exactly when the bytes it copies go behind the destination's queue. -/
theorem splice_moves_iff (hsrc : ∀ p ∈ src, p.Live) (len : Nat) :
    ((∃ r, pipeSplice src dst len = some r ∧ Moves src dst r) ↔
      Takes dst (min len (queued src).length)) ∧
    ((∃ r, pipeTee src dst len = some r ∧ r.2.1 = src ∧
        ∃ seen, seen <+: queued src ∧ queued r.2.2 = queued dst ++ seen) ↔
      ∀ q ∈ dst, q.Copies ((queued src).take len) → q.Behind) := by
  cases src with
  | none =>
    refine ⟨iff_of_true ⟨_, rfl, [], rfl, (append_nil _).symm, rfl⟩ (.inl (Nat.min_zero _)),
      iff_of_true ⟨_, rfl, rfl, [], nil_prefix, (append_nil _).symm⟩ fun q hq h => ?_⟩
    exact absurd take_nil h.1
  | some p =>
    have hlive := hsrc p rfl
    constructor
    · obtain ⟨got, p', hread, hfifo, -⟩ := hlive.1.read len
      obtain ⟨hdrop, rfl | ⟨hnil, e, rfl⟩⟩ := hfifo.of_read
      · -- the read has taken these bytes, whatever becomes of the write
        have hmoved : ∀ moved, p.queue = moved ++ p'.queue ↔ moved = p.queue.take len := by
          intro moved
          nth_rewrite 1 [hdrop, ← take_append_drop len p.queue]
          rw [append_left_inj, eq_comm]
        rw [← length_take, ← writeTo_whole_iff hdst]
        simp [pipeSplice, hread, Moves, queued, hmoved]
      · refine iff_of_true ⟨_, by rw [pipeSplice, hread]; rfl, [], ?_, (append_nil _).symm, rfl⟩
          (.inl (by simp [queued, hnil]))
        simp [queued, hdrop, hnil]
    · simp only [pipeTee, hlive.1.peek len]
      show (∃ r, (writeTo dst (p.queue.take len)).map _ = some r ∧ _) ↔ _
      constructor
      · rintro ⟨r, hr, -⟩ q rfl hcopies
        obtain ⟨_, hto, -⟩ := map_eq_some_iff.mp hr
        obtain ⟨_, hwrite, -⟩ := map_eq_some_iff.mp hto
        exact (hdst q rfl).behind hcopies hwrite
      · intro hbehind
        cases dst with
        | none => exact ⟨_, rfl, rfl, [], nil_prefix, rfl⟩
        | some q =>
          obtain ⟨r, q', hwrite, hfifo, -⟩ := (hdst q rfl).1.write (hbehind q rfl)
          refine ⟨(r.mapError some, some p, some q'),
            congrArg (Option.map _ ∘ Option.map _) hwrite, rfl,
            taken (.write (p.queue.take len)) (.wrote r), ?_, hfifo.balance.symm⟩
          cases r with
          | ok n =>
            show (p.queue.take len).take n <+: p.queue
            rw [take_take]
            exact take_prefix _ _
          | error e => exact nil_prefix

end

/-- A page moved into a new pipe. -/
theorem splice_moves_iff_page : ∃ (t : Trace) (r : _), t.pipe.dataLen = 4096 ∧
    pipeSplice (some t.pipe) (some (.new 2 0)) 4096 = some r ∧
      Moves (some t.pipe) (some (.new 2 0)) r := by
  obtain ⟨t, hrun, -, hpage, -⟩ := Trace.reach_page
  have hroom : 0 + min 4096 (queued (some t.pipe)).length ≤ 65536 := by omega
  obtain ⟨r, hr⟩ := (splice_moves_iff
    (fun q hq => mem_some.mp hq ▸ Trace.live (t := .new 2 0) .start)
    (fun p hp => mem_some.mp hp ▸ Trace.live hrun) 4096).1.mpr
    (.inr ⟨_, rfl, rfl, Nat.one_ne_zero, hroom⟩)
  exact ⟨t, r, hpage, hr⟩

/-- A byte of a page taken out for a destination that is not there. -/
theorem splice_to_missing_loses : ∃ t r, Reach Trace.step (fun _ _ => True) (.new 1 0) t ∧
    pipeSplice (some t.pipe) none 1 = some r ∧ ¬ Moves (some t.pipe) none r := by
  obtain ⟨t, hrun, hgood, hpage, -⟩ := Trace.reach_page
  obtain ⟨got, p', hread, hfifo, -⟩ := hgood.sound.read 1
  obtain ⟨hdrop, rfl | ⟨hnil, -⟩⟩ := hfifo.of_read
  · refine ⟨t, (.error none, some p', none), hrun, by simp [pipeSplice, hread, writeTo], ?_⟩
    rintro ⟨moved, hleft, -, hnone⟩
    have hlen := congrArg length hleft
    simp [queued, hdrop, hpage] at hlen
    change moved.length = 0 at hnone
    omega
  · simp [← Pipe.length_queue, hnil] at hpage

end KnoxOS.RingPipe
