import KnoxOS.PageCache.Cache

/-!
# Calls in steps

The calls of `mm/page_cache.rs` on one inode, cut where they give up the lock of the cache. A
`Thread` is the control point of a call with its local variables; `Thread.next` runs it up to the
next point where other calls can come in between. A thread also keeps, for every page whose bytes
it holds or is about to load, the version that the page had when the thread looked it up; the
versions are no part of the code and no step depends on them.

`call_alone` says that a call whose steps are not interrupted does what the function of `State`
does.
-/

namespace KnoxOS.PageCache

open Lib State Function
open Std (TreeMap)

/-- The calls on an inode. -/
inductive Call where
  | read (offset len : Nat)
  | prefetch (offset count : Nat)
  | write (offset : Nat) (data : List UInt8)
  | flush

/-- What a call returns. -/
inductive Outcome where
  | bytes (result : Except PageCacheError (List UInt8))
  | count (n : Nat)
  | flushed (result : Except PageCacheError Nat)

/-- The variables of the loop of `read`: the bytes so far, the page, the offset in it and the number
of bytes still wanted. -/
structure ReadLoop where
  out : List UInt8
  index : Nat
  skip : Nat
  want : Nat

/-- Copy from the page and go on to the next one. -/
def ReadLoop.take (l : ReadLoop) (data : List UInt8) : ReadLoop :=
  let copyLen := min (pageSize - l.skip) l.want
  ⟨l.out ++ slice data l.skip copyLen, l.index + 1, 0, l.want - copyLen⟩

/-- The variables of the loop of `prefetch`: the page, the pages left and the pages loaded. -/
structure PrefetchLoop where
  index : Nat
  left : Nat
  loaded : Nat

/-- The arguments of `write` and the variables of its loop: the bytes written, the page, the offset
in it and the bytes that are left. -/
structure WriteLoop where
  offset : Nat
  len : Nat
  total : Nat
  index : Nat
  skip : Nat
  data : List UInt8

namespace WriteLoop

/-- The bytes that go to the page. -/
def chunk (l : WriteLoop) : List UInt8 := l.data.take (min (pageSize - l.skip) l.data.length)

def advance (l : WriteLoop) : WriteLoop :=
  let copyLen := min (pageSize - l.skip) l.data.length
  { l with
    total := l.total + copyLen
    index := l.index + 1
    skip := 0
    data := l.data.drop copyLen }

end WriteLoop

/-- A page that `flush_inode` copied, and its version at that time. -/
structure Snapshot where
  index : Nat
  data : List UInt8
  seen : Nat

/-- The points between the steps of a call. `seen` is the version of the page at its lookup. -/
inductive Thread where
  | readStart (offset len : Nat)
  | readFind (l : ReadLoop)
  | readLoad (l : ReadLoop) (seen : Nat)
  | readInsert (l : ReadLoop) (seen : Nat) (data : List UInt8)
  | readAhead (l : ReadLoop) (data : List UInt8)
  | fetchLoad (index seen : Nat) (todo : List (Nat × Nat)) (l : ReadLoop)
  | fetchInsert (index seen : Nat) (data : List UInt8) (todo : List (Nat × Nat)) (l : ReadLoop)
  | prefetchFind (l : PrefetchLoop)
  | prefetchLoad (l : PrefetchLoop) (seen : Nat)
  | prefetchInsert (l : PrefetchLoop) (seen : Nat) (data : List UInt8)
  | writeFind (l : WriteLoop)
  | writeLoad (l : WriteLoop) (seen : Nat)
  | writeInsert (l : WriteLoop) (seen : Nat) (page : List UInt8)
  | writeNote (l : WriteLoop)
  | flushStart
  | flushBegin (path : String) (fileSize : Nat)
  | flushWrite (path : String) (fileSize : Nat) (toWrite : List Snapshot) (flushed : Nat)
      (snap : Snapshot) (rest : List Snapshot)
  | flushEnd (toWrite : List Snapshot) (flushed : Nat)
  | returned (result : Outcome)

namespace State

/-- The part of `update_readahead` under the lock: detect sequential misses, and list the pages
ahead that are not cached. -/
def planReadahead (s : State) (inode index : Nat) : List Nat × State :=
  let ra := (s.readahead[inode]?).getD ⟨index, 0, 4⟩
  if index = ra.lastIndex + 1 then
    if ra.sequentialCount + 1 ≥ 2 then
      let window := min (ra.windowSize * 2) readaheadSize
      let s := { s with readahead :=
        s.readahead.insert inode ⟨ra.lastIndex, ra.sequentialCount + 1, window⟩ }
      ((List.range' (index + 1) window).filter fun i => !s.pages.contains (inode, i), s)
    else
      ([], { s with readahead :=
        s.readahead.insert inode ⟨index, ra.sequentialCount + 1, ra.windowSize⟩ })
  else ([], { s with readahead := s.readahead.insert inode ⟨index, 0, 4⟩ })

theorem updateReadahead_eq (s : State) (inode index : Nat) :
    s.updateReadahead inode index =
      (s.planReadahead inode index).2.fetchPages inode (s.planReadahead inode index).1 := by
  unfold updateReadahead planReadahead
  extract_lets ra window s'
  split_ifs <;> rfl

end State

namespace Thread

/-- The loop test of `read`. -/
def readHead (l : ReadLoop) : Thread :=
  if l.want = 0 then .returned (.bytes (.ok l.out)) else .readFind l

/-- The loop test of the readahead, which goes on with the read. -/
def fetchHead (l : ReadLoop) : List (Nat × Nat) → Thread
  | [] => readHead l
  | (index, seen) :: todo => .fetchLoad index seen todo l

/-- The loop test of `prefetch`. -/
def prefetchHead (l : PrefetchLoop) : Thread :=
  if l.left = 0 then .returned (.count l.loaded) else .prefetchFind l

/-- The loop test of `write`. -/
def writeHead (l : WriteLoop) : Thread :=
  if l.data.length = 0 then .writeNote l else .writeFind l

/-- The loop test of `flush_inode`. -/
def flushHead (path : String) (fileSize : Nat) (toWrite : List Snapshot) (flushed : Nat) :
    List Snapshot → Thread
  | [] => .flushEnd toWrite flushed
  | snap :: rest => .flushWrite path fileSize toWrite flushed snap rest

/-- Run a call on `inode` up to its next point. -/
def next (inode : Nat) (version : Nat → Nat) (s : State) : Thread → Thread × State
  | readStart offset len =>
    let fileSize := s.logicalSize inode
    if offset ≥ fileSize ∨ len = 0 then (.returned (.bytes (.ok [])), s)
    else
      (readHead ⟨[], offset / pageSize, offset % pageSize, min (fileSize - offset) len⟩, s)
  | readFind l =>
    match s.findPage inode l.index with
    | (some data, s) => (readHead (l.take data), s)
    | (none, s) => (.readLoad l (version l.index), s)
  | readLoad l seen =>
    match s.loadFromBacking inode l.index with
    | .error e => (.returned (.bytes (.error e)), s)
    | .ok data => (.readInsert l seen data, s)
  | readInsert l _ data => (.readAhead l data, s.insertPage inode l.index data false)
  | readAhead l data =>
    let (todo, s) := s.planReadahead inode l.index
    (fetchHead (l.take data) (todo.map fun i => (i, version i)), s)
  | fetchLoad index seen todo l =>
    match s.loadFromBacking inode index with
    | .ok data => (.fetchInsert index seen data todo l, s)
    | .error _ => (fetchHead l todo, s)
  | fetchInsert index _ data todo l => (fetchHead l todo, s.insertPage inode index data false)
  | prefetchFind l =>
    match s.findPage inode l.index with
    | (some _, s) => (prefetchHead ⟨l.index + 1, l.left - 1, l.loaded⟩, s)
    | (none, s) => (.prefetchLoad l (version l.index), s)
  | prefetchLoad l seen =>
    match s.loadFromBacking inode l.index with
    | .error _ => (.returned (.count l.loaded), s)
    | .ok data => (.prefetchInsert l seen data, s)
  | prefetchInsert l _ data =>
    (prefetchHead ⟨l.index + 1, l.left - 1, l.loaded + 1⟩, s.insertPage inode l.index data false)
  | writeFind l =>
    match s.findPage inode l.index with
    | (some data, s) => (.writeInsert l (version l.index) data, s)
    | (none, s) => (.writeLoad l (version l.index), s)
  | writeLoad l seen =>
    match s.loadFromBacking inode l.index with
    | .ok data => (.writeInsert l seen data, s)
    | .error _ => (.writeInsert l seen (List.replicate pageSize 0), s)
  | writeInsert l _ page =>
    (writeHead l.advance, s.insertPage inode l.index (overlay page l.skip l.chunk) true)
  | writeNote l => (.returned (.count l.total), s.noteFileSize inode (u64 (l.offset + l.len)))
  | flushStart =>
    match s.inodePaths[inode]? with
    | none => (.returned (.flushed (.error .notFound)), s)
    | some path => (.flushBegin path (s.logicalSize inode), s)
  | flushBegin path fileSize =>
    let (entries, s) := s.beginWriteback inode
    let toWrite := entries.map fun e => ⟨e.1, e.2, version e.1⟩
    (flushHead path fileSize toWrite 0 toWrite, s)
  | flushWrite path fileSize toWrite flushed snap rest =>
    let offset := u64 (snap.index * pageSize)
    if offset ≥ fileSize then (flushHead path fileSize toWrite flushed rest, s)
    else
      match s.vfs.pwriteFile path offset
          (snap.data.take (min (fileSize - offset) snap.data.length)) with
      | (false, vfs) => (.returned (.flushed (.error .ioError)), { s with vfs })
      | (true, vfs) => (flushHead path fileSize toWrite (flushed + 1) rest, { s with vfs })
  | flushEnd toWrite flushed =>
    (.returned (.flushed (.ok flushed)),
      s.endWriteback inode (toWrite.map fun snap => (snap.index, snap.data)))
  | returned result => (.returned result, s)

end Thread

/-- The first point of a call. -/
def Call.start : Call → Thread
  | read offset len => .readStart offset len
  | prefetch offset count =>
    if count = 0 then .returned (.count 0)
    else
      let start := offset / pageSize
      let stop := (min (offset + count) (2 ^ 64 - 1) + pageSize - 1) / pageSize
      Thread.prefetchHead ⟨start, stop - start, 0⟩
  | write offset data =>
    Thread.writeHead ⟨offset, data.length, 0, offset / pageSize, offset % pageSize, data⟩
  | flush => .flushStart

/-- The call as one step. -/
def Call.run (inode : Nat) (s : State) : Call → Outcome × State
  | read offset len => ((s.read inode offset len).1 |> .bytes, (s.read inode offset len).2)
  | prefetch offset count => (.count (s.prefetch inode offset count).1,
      (s.prefetch inode offset count).2)
  | write offset data => (.count (s.write inode offset data).1, (s.write inode offset data).2)
  | flush => (.flushed (s.flushInode inode).1, (s.flushInode inode).2)

/-! ## Uninterrupted calls -/

open Thread

section

variable (inode : Nat) (version : Nat → Nat)

/-- A thread runs for some steps with no other call in between. -/
def Alone (inode : Nat) (version : Nat → Nat) : Thread × State → Thread × State → Prop :=
  Relation.ReflTransGen fun c d => d = c.1.next inode version c.2

variable {inode version} in
theorem alone_next {t : Thread} {s : State} {d : Thread × State}
    (h : Alone inode version (t.next inode version s) d) : Alone inode version (t, s) d :=
  Relation.ReflTransGen.head rfl h

/-- The readahead loop. -/
theorem alone_fetch (l : ReadLoop) (todo : List (Nat × Nat)) (s : State) :
    Alone inode version (fetchHead l todo, s)
      (readHead l, s.fetchPages inode (todo.map (·.1))) := by
  induction todo generalizing s with
  | nil => exact .refl
  | cons entry todo ih =>
    obtain ⟨index, seen⟩ := entry
    refine alone_next ?_
    show Alone inode version (next inode version s (.fetchLoad index seen todo l)) _
    rw [List.map_cons]
    rw [fetchPages]
    simp only [next]
    cases hload : s.loadFromBacking inode index with
    | ok data => exact alone_next (ih _)
    | error e => exact ih _

/-- The bytes of a page before those of the rest of the read loop. -/
def beforeRest (bytes : List UInt8) :
    Except PageCacheError (List UInt8) × State → Except PageCacheError (List UInt8) × State
  | (.error e, s) => (.error e, s)
  | (.ok rest, s) => (.ok (bytes ++ rest), s)

/-- The loop of `read`. -/
theorem alone_readLoop (fuel : Nat) (l : ReadLoop) (s : State) (hfuel : l.want ≤ fuel)
    (hskip : l.skip < pageSize) : Alone inode version (readHead l, s)
      (.returned (.bytes
          ((readLoop fuel s inode l.index l.skip l.want).1.map (l.out ++ ·))),
        (readLoop fuel s inode l.index l.skip l.want).2) := by
  induction fuel generalizing l s with
  | zero =>
    have hwant : l.want = 0 := by omega
    rw [readHead, if_pos hwant]
    simp only [readLoop, Except.map, List.append_nil]
    exact .refl
  | succ fuel ih =>
    by_cases hwant : l.want = 0
    · rw [readHead, if_pos hwant, readLoop, if_pos hwant]
      simp only [Except.map, List.append_nil]
      exact .refl
    · rw [readHead, if_neg hwant, readLoop, if_neg hwant]
      refine alone_next ?_
      -- what the loop does once it has the bytes of the page
      have htake : ∀ (data : List UInt8) (s' : State),
          Alone inode version (readHead (l.take data), s')
            (.returned (.bytes
              ((beforeRest (slice data l.skip (min (pageSize - l.skip) l.want))
                (readLoop fuel s' inode (l.index + 1) 0
                  (l.want - min (pageSize - l.skip) l.want))).1.map (l.out ++ ·))),
              (beforeRest (slice data l.skip (min (pageSize - l.skip) l.want))
                (readLoop fuel s' inode (l.index + 1) 0
                  (l.want - min (pageSize - l.skip) l.want))).2) := by
        intro data s'
        have hrest := ih (l.take data) s' (by simp only [ReadLoop.take]; omega)
          (by simp only [ReadLoop.take]; omega)
        simp only [ReadLoop.take] at hrest ⊢
        cases hloop : readLoop fuel s' inode (l.index + 1) 0
            (l.want - min (pageSize - l.skip) l.want) with
        | mk result s'' =>
          rw [hloop] at hrest
          cases result with
          | error e => exact hrest
          | ok rest =>
            simp only [beforeRest, Except.map, List.append_assoc] at hrest ⊢
            exact hrest
      simp only [readPage, next]
      cases hfind : s.findPage inode l.index with
      | mk found s' =>
        cases found with
        | some data => exact htake data s'
        | none =>
          refine alone_next ?_
          simp only [next]
          cases hload : s'.loadFromBacking inode l.index with
          | error e => exact .refl
          | ok data =>
            refine alone_next (alone_next ?_)
            refine (alone_fetch inode version _ _ _).trans ?_
            rw [List.map_map]
            simp only [comp_def, List.map_id', updateReadahead_eq]
            exact htake data _

/-- The loop of `prefetch`. -/
theorem alone_prefetchLoop (left index loaded : Nat) (s : State) :
    Alone inode version (prefetchHead ⟨index, left, loaded⟩, s)
      (.returned (.count (loaded + (prefetchLoop left s inode index).1)),
        (prefetchLoop left s inode index).2) := by
  induction left generalizing index loaded s with
  | zero => exact .refl
  | succ left ih =>
    refine alone_next ?_
    show Alone inode version
      (next inode version s (.prefetchFind ⟨index, left + 1, loaded⟩)) _
    simp only [prefetchLoop, next]
    cases hfind : s.findPage inode index with
    | mk found s' =>
      cases found with
      | some data => exact ih (index + 1) loaded s'
      | none =>
        refine alone_next ?_
        simp only [next]
        cases hload : s'.loadFromBacking inode index with
        | error e => exact .refl
        | ok data =>
          have hrest := ih (index + 1) (loaded + 1) (s'.insertPage inode index data false)
          rw [Nat.add_assoc, Nat.add_comm 1] at hrest
          exact alone_next hrest

/-- The loop of `write`. -/
theorem alone_writeLoop (fuel : Nat) (l : WriteLoop) (s : State) (hfuel : l.data.length ≤ fuel)
    (hskip : l.skip < pageSize) :
    ∃ l', l'.offset = l.offset ∧ l'.len = l.len ∧
      l'.total = l.total + (writeLoop fuel s inode l.index l.skip l.data).1 ∧
      Alone inode version (writeHead l, s)
        (.writeNote l', (writeLoop fuel s inode l.index l.skip l.data).2) := by
  induction fuel generalizing l s with
  | zero =>
    refine ⟨l, rfl, rfl, rfl, ?_⟩
    rw [writeHead, if_pos (by omega)]
    exact .refl
  | succ fuel ih =>
    by_cases hdone : l.data.length = 0
    · refine ⟨l, rfl, rfl, ?_, ?_⟩
      · rw [writeLoop, if_pos hdone]
        rfl
      · rw [writeHead, if_pos hdone, writeLoop, if_pos hdone]
        exact .refl
    · obtain ⟨l', hoffset, hlen, htotal, hrest⟩ := ih l.advance
        ((s.pageForWrite inode l.index).2.insertPage inode l.index
          (overlay (s.pageForWrite inode l.index).1 l.skip l.chunk) true)
        (by simp only [WriteLoop.advance, List.length_drop]; omega)
        (by simp only [WriteLoop.advance]; omega)
      rw [writeLoop, if_neg hdone]
      refine ⟨l', hoffset, hlen, ?_, ?_⟩
      · rw [htotal]
        simp only [WriteLoop.advance, Nat.add_assoc]
        rfl
      · rw [writeHead, if_neg hdone]
        refine alone_next ?_
        unfold pageForWrite at hrest ⊢
        simp only [next]
        cases hfind : s.findPage inode l.index with
        | mk found s' =>
          rw [hfind] at hrest
          cases found with
          | some data => exact alone_next hrest
          | none =>
            refine alone_next ?_
            simp only [next] at hrest ⊢
            cases hload : s'.loadFromBacking inode l.index with
            | ok data =>
              rw [hload] at hrest
              exact alone_next hrest
            | error e =>
              rw [hload] at hrest
              exact alone_next hrest

/-- The loop of `flush_inode`. -/
theorem alone_flushPages (path : String) (fileSize : Nat) (toWrite : List Snapshot)
    (flushed : Nat) (rest : List Snapshot) (s : State) :
    Alone inode version (flushHead path fileSize toWrite flushed rest, s)
      (match flushPages path fileSize s.vfs
          (rest.map fun snap => (snap.index, snap.data)) with
        | (none, vfs) => (.returned (.flushed (.error .ioError)), { s with vfs })
        | (some n, vfs) => (.flushEnd toWrite (flushed + n), { s with vfs })) := by
  induction rest generalizing flushed s with
  | nil => exact .refl
  | cons snap rest ih =>
    refine alone_next ?_
    show Alone inode version (next inode version s
      (.flushWrite path fileSize toWrite flushed snap rest)) _
    rw [List.map_cons]
    simp only [flushPages, next]
    by_cases hbeyond : u64 (snap.index * pageSize) ≥ fileSize
    · simp only [if_pos hbeyond]
      exact ih flushed s
    · simp only [if_neg hbeyond]
      cases hwrite : s.vfs.pwriteFile path (u64 (snap.index * pageSize)) (snap.data.take
          (min (fileSize - u64 (snap.index * pageSize)) snap.data.length)) with
      | mk ok vfs =>
        cases ok with
        | false => exact .refl
        | true =>
          have hrest := ih (flushed + 1) { s with vfs }
          simp only at hrest ⊢
          cases hflush : flushPages path fileSize vfs
              (rest.map fun snap => (snap.index, snap.data)) with
          | mk n vfs' =>
            rw [hflush] at hrest
            cases n with
            | none => exact hrest
            | some n =>
              simp only at hrest ⊢
              rw [Nat.add_assoc, Nat.add_comm 1] at hrest
              exact hrest

/-- A call that no other call interrupts returns what the function of `State` returns, and leaves
the cache as that function does. -/
theorem call_alone (inode : Nat) (version : Nat → Nat) (s : State) (call : Call) :
    Alone inode version (call.start, s)
      (.returned (call.run inode s).1, (call.run inode s).2) := by
  cases call with
  | read offset len =>
    refine alone_next ?_
    simp only [Call.run, State.read, Call.start, next]
    split_ifs with hnone
    · exact .refl
    · have hloop := alone_readLoop inode version
        (min (s.logicalSize inode - offset) len)
        ⟨[], offset / pageSize, offset % pageSize, min (s.logicalSize inode - offset) len⟩ s
        (Nat.le_refl _) (Nat.mod_lt _ pageSize_pos)
      rw [show (fun rest : List UInt8 => [] ++ rest) = id from rfl, Except.map_id] at hloop
      exact hloop
  | prefetch offset count =>
    simp only [Call.run, Call.start, State.prefetch]
    split_ifs with hzero
    · exact .refl
    · have hloop := alone_prefetchLoop inode version
        ((min (offset + count) (2 ^ 64 - 1) + pageSize - 1) / pageSize - offset / pageSize)
        (offset / pageSize) 0 s
      rw [Nat.zero_add] at hloop
      exact hloop
  | write offset data =>
    obtain ⟨l, hoffset, hlen, htotal, hloop⟩ := alone_writeLoop inode version
      data.length
      ⟨offset, data.length, 0, offset / pageSize, offset % pageSize, data⟩ s (Nat.le_refl _)
      (Nat.mod_lt _ pageSize_pos)
    refine hloop.trans (alone_next ?_)
    simp only [Call.run, write, next]
    rw [hoffset, hlen, htotal, Nat.zero_add]
    exact .refl
  | flush =>
    refine alone_next ?_
    simp only [Call.run, flushInode, Call.start, next]
    cases hpath : s.inodePaths[inode]? with
    | none => exact .refl
    | some path =>
      refine alone_next ?_
      simp only [next]
      refine (alone_flushPages ..).trans ?_
      rw [List.map_map]
      simp only [comp_def, List.map_id']
      cases hflush : flushPages path (s.logicalSize inode) (s.beginWriteback inode).2.vfs
          (s.beginWriteback inode).1 with
      | mk n vfs =>
        cases n with
        | none => exact .refl
        | some n =>
          refine alone_next ?_
          simp only [next, List.map_map, comp_def, List.map_id', Nat.zero_add]
          exact .refl

end

end KnoxOS.PageCache
