import KnoxOS.PageCache.Coherence
import KnoxOS.PageCache.Threads

/-!
# Calls that run at the same time

A `Race` is the cache with the threads of calls on one inode, each between two of its steps, and
with what the file should hold: its initial bytes under all chunks that writes have put into the
cache. `writes_kept` says that no chunk is lost in an interleaving in which every step is `Timely`:
a page is inserted or written back only if no other write has reached it since the thread looked it
up, and nothing past the noted size is evicted or marked clean. The kernel does not see to that:
a read that missed before a write and inserts after it puts the old page over the new one
(`stale_insert_loses_write`).
-/

namespace KnoxOS.PageCache

open Function Lib List State Thread Option
open Std (TreeMap)

namespace State

/-- If the page is dirty, a flush is writing it. -/
def Marked (s : State) (ino index : Nat) : Prop :=
  ∀ page, s.pages[(ino, index)]? = some page → page.dirty = true → page.writeback = true

/-- The backing file holds the bytes of the page. -/
def Stored (s : State) (file : Nat → Nat → UInt8) (ino index : Nat) : Prop :=
  ∀ o < 2 ^ 64, o / pageSize = index → s.backing ino o = file ino o

/-- What other threads may rely on for a page that no write reaches. -/
structure Quiet (s s' : State) (file : Nat → Nat → UInt8) (ino index : Nat) : Prop where
  clean : s.Clean ino index → s'.Clean ino index
  marked : s.Marked ino index → s'.Marked ino index
  stored : s.Marked ino index → ∀ o < 2 ^ 64, o / pageSize = index →
    s.backing ino o = file ino o → s'.backing ino o = file ino o

section

variable {s s' : State} {file : Nat → Nat → UInt8} {pend : Nat → Nat → Prop} {ino index : Nat}
  {snap : Snapshot} {rest : List Snapshot}

/-- A step is quiet for a page if the page is dirty afterwards only if it was before, under the
same mark, and its stored bytes change only to those of the file. -/
theorem Quiet.of_lookup
    (hpage : ∀ page', s'.pages[(ino, index)]? = some page' → page'.dirty = true →
      ∃ page, s.pages[(ino, index)]? = some page ∧ page.dirty = true ∧
        (page.writeback = true → page'.writeback = true))
    (hback : ∀ o, o / pageSize = index →
      s'.backing ino o = s.backing ino o ∨ s'.backing ino o = file ino o) :
    Quiet s s' file ino index where
  clean := by
    intro hclean page' hget
    by_contra hdirty
    obtain ⟨page, hget₀, hdirty₀, -⟩ := hpage page' hget (by simpa using hdirty)
    rw [hclean page hget₀] at hdirty₀
    cases hdirty₀
  marked := by
    intro hmarked page' hget hdirty
    obtain ⟨page, hget₀, hdirty₀, hmark⟩ := hpage page' hget hdirty
    exact hmark (hmarked page hget₀ hdirty₀)
  stored := by
    intro _ o _ hdiv heq
    rcases hback o hdiv with hsame | hnew
    · exact hsame.trans heq
    · exact hnew

theorem Quiet.of_eq (hpages : s'.pages = s.pages) (hvfs : s'.vfs = s.vfs) :
    Quiet s s' file ino index := by
  refine .of_lookup ?_ fun o _ => .inl (by unfold backing; rw [hvfs])
  rw [hpages]
  exact fun page hget hdirty => ⟨page, hget, hdirty, id⟩

theorem Quiet.of_remarked {f : Nat × Nat → CachedPage → CachedPage} (h : Remarked s s' f)
    (hback : ∀ o, s'.backing ino o = s.backing ino o) : Quiet s s' file ino index := by
  refine .of_lookup (fun page' hget hdirty => ?_) fun o _ => .inl (hback o)
  obtain ⟨page, hold, rfl⟩ := h.lookup hget
  exact ⟨page, hold, h.dirty _ page hdirty⟩

/-- An insertion is quiet for every other page, and for the page itself if it is inserted clean. -/
theorem Evicted.quiet_putPage (h : Evicted s s' file) (i : Nat) (data : List UInt8) (dirty : Bool)
    (hother : index = i → dirty = false) :
    Quiet s (s'.putPage ino i data dirty) file ino index := by
  refine .of_lookup ?_ fun o _ => h.stored ino o
  intro page' hget hdirty
  rw [lookup_putPage] at hget
  split at hget
  next hkey =>
    cases hget
    rw [hother (Prod.ext_iff.mp hkey).2.symm] at hdirty
    cases hdirty
  · exact ⟨page', h.sub _ page' hget, hdirty, id⟩

end

end State

/-! ## Races -/

/-- The cache with the threads of calls on one inode. `version` counts the writes that have reached
a page, `file` has the bytes that the files should hold, and `top` is the end of the furthest chunk
written. -/
structure Race where
  state : State
  threads : List Thread
  version : Nat → Nat
  file : Nat → Nat → UInt8
  top : Nat

/-- A new call starts, or a thread takes its next step. -/
inductive RaceOp where
  | call (call : Call)
  | run (thread : Nat)

namespace Race

/-- No call has started. -/
def start (s : State) (file : Nat → Nat → UInt8) : Race := ⟨s, [], fun _ => 0, file, 0⟩

/-- A chunk of a write reaches its page when the page is inserted. -/
def note (ino : Nat) (r : Race) : Thread → Race
  | .writeInsert l _ _ =>
    { r with
      version := Function.update r.version l.index (r.version l.index + 1)
      file := State.overwrite r.file ino (l.index * pageSize + l.skip) l.chunk
      top := max r.top (l.index * pageSize + l.skip + l.chunk.length) }
  | _ => r

/-- The race after a step of the thread `t`, before `t` itself is updated. -/
def after (ino : Nat) (r : Race) (t : Thread) : Race :=
  { r.note ino t with state := (t.next ino r.version r.state).2 }

def step (ino : Nat) (r : Race) : RaceOp → Race
  | .call call => { r with threads := r.threads ++ [call.start] }
  | .run i =>
    match r.threads[i]? with
    | none => r
    | some t =>
      { r.after ino t with threads := r.threads.set i (t.next ino r.version r.state).1 }

/-- No byte is lost: where the backing file does not hold it a cached page is dirty, and every
cached page shows the file. -/
structure Kept (ino : Nat) (r : Race) : Prop where
  held : ∀ o < 2 ^ 64, r.state.backing ino o = r.file ino o ∨
    ∃ page, r.state.pages[(ino, o / pageSize)]? = some page ∧ page.dirty = true
  shown : ∀ (index : Nat) (page : CachedPage), index < 2 ^ 52 →
    r.state.pages[(ino, index)]? = some page →
    ∀ i < pageSize, byteAt page.data i = r.file ino (index * pageSize + i)

/-- An insertion evicts no dirty page with a byte that was written past the noted size. -/
def Spares (ino : Nat) (r : Race) : Prop :=
  ∀ e ∈ r.state.pages.toList, e.2.dirty = true →
    ((State.makeRoom r.state.pages.size r.state).pages[e.1]?).isNone = true → e.1.1 = ino →
      min r.top ((e.1.2 + 1) * pageSize) ≤ r.state.logicalSize ino

/-- A thread is not late: no write has reached the page since the thread looked it up, the bytes
that a flush is to store lie below the size it has read, and it marks no other bytes as stored. A
late write-back does no harm while the page waits for the next flush. -/
def Timely (ino : Nat) (r : Race) : Thread → Prop
  | .readInsert l seen _ => r.version l.index = seen ∧ r.Spares ino
  | .fetchInsert index seen _ _ _ => r.version index = seen ∧ r.Spares ino
  | .prefetchInsert l seen _ => r.version l.index = seen ∧ r.Spares ino
  | .writeInsert l seen _ => r.version l.index = seen ∧ r.Spares ino
  | .flushBegin _ fileSize => ∀ e ∈ (r.state.beginWriteback ino).1,
      min (max (r.state.logicalSize ino) r.top) ((e.1 + 1) * pageSize) ≤ fileSize
  | .flushWrite _ fileSize _ _ snap _ => fileSize ≤ u64 (snap.index * pageSize) ∨
      r.version snap.index = snap.seen ∨ ∃ page ∈ r.state.pages[(ino, snap.index)]?,
        page.dirty = true ∧ page.writeback = false
  | .flushEnd toWrite _ => ∀ snap ∈ toWrite, r.version snap.index = snap.seen ∨
      ∀ page ∈ r.state.pages[(ino, snap.index)]?, page.writeback = false
  | _ => True

/-- Steps of timely threads; writes end below `2 ^ 64`. -/
def Orderly (ino : Nat) (r : Race) : RaceOp → Prop
  | .call (.write offset data) => offset + data.length < 2 ^ 64
  | .call _ => True
  | .run i =>
    match r.threads[i]? with
    | none => True
    | some t => r.Timely ino t

/-! ## What a thread relies on -/

/-- `P` holds unless a write has reached the page since its version was `seen`. -/
def Since (r : Race) (index seen : Nat) (P : Prop) : Prop :=
  seen ≤ r.version index ∧ (r.version index = seen → P)

/-- The bytes pending past the noted size are those below `top`. -/
def pend (ino : Nat) (r : Race) : Nat → Nat → Prop := fun i o => i = ino ∧ o < r.top

end Race

/-- The rest of a write lies in pages that can be written back. -/
def WriteLoop.Bounded (l : WriteLoop) : Prop :=
  l.skip < pageSize ∧
    (l.data.length ≠ 0 → l.index * pageSize + l.skip + l.data.length < 2 ^ 64)

/-- The copy is that of the page, which is marked; what it has past `fileSize` is stored. -/
def Snapshot.Ok (ino : Nat) (r : Race) (fileSize : Nat) (x : Snapshot) : Prop :=
  x.index < 2 ^ 52 ∧ x.data.length = pageSize ∧ r.Since x.index x.seen
    (Shows r.file ino x.index x.data ∧ r.state.Marked ino x.index ∧
      ∀ o < 2 ^ 64, o / pageSize = x.index → fileSize ≤ o → r.state.backing ino o = r.file ino o)

/-- The page of the copy is marked and stored. -/
def Snapshot.Done (ino : Nat) (r : Race) (x : Snapshot) : Prop :=
  r.Since x.index x.seen (r.state.Marked ino x.index ∧ r.state.Stored r.file ino x.index)

/-- What a thread knows at each point, about pages that no write has reached since. -/
def Thread.Ok (ino : Nat) (r : Race) : Thread → Prop
  | .readLoad l seen => r.Since l.index seen (r.state.Clean ino l.index)
  | .readInsert l seen data =>
    r.Since l.index seen (r.state.Clean ino l.index ∧ Shows r.file ino l.index data)
  | .fetchLoad index seen todo _ => ∀ e ∈ (index, seen) :: todo,
      r.Since e.1 e.2 (r.state.Clean ino e.1)
  | .fetchInsert index seen data todo _ =>
    r.Since index seen (r.state.Clean ino index ∧ Shows r.file ino index data) ∧
      ∀ e ∈ todo, r.Since e.1 e.2 (r.state.Clean ino e.1)
  | .prefetchLoad l seen => r.Since l.index seen (r.state.Clean ino l.index)
  | .prefetchInsert l seen data =>
    r.Since l.index seen (r.state.Clean ino l.index ∧ Shows r.file ino l.index data)
  | .writeFind l => l.Bounded ∧ l.data.length ≠ 0
  | .writeLoad l seen =>
    (l.Bounded ∧ l.data.length ≠ 0) ∧ r.Since l.index seen (r.state.Clean ino l.index)
  | .writeInsert l seen page => (l.Bounded ∧ l.data.length ≠ 0) ∧ page.length = pageSize ∧
      r.Since l.index seen (Shows r.file ino l.index page)
  | .flushBegin path fileSize =>
    r.state.vfs.resolve path = some ino ∧ fileSize ≤ r.state.logicalSize ino
  | .flushWrite path fileSize toWrite _ snap rest =>
    (r.state.vfs.resolve path = some ino ∧ fileSize ≤ r.state.logicalSize ino) ∧
      (∀ x ∈ snap :: rest, x.Ok ino r fileSize) ∧
      ∀ x ∈ toWrite, x ∈ snap :: rest ∨ x.Done ino r
  | .flushEnd toWrite _ => ∀ x ∈ toWrite, x.Done ino r
  | _ => True

namespace Race

variable {ino : Nat} {r r' : Race}

/-- What a step of one thread leaves to the others. -/
structure Frame (ino : Nat) (r r' : Race) : Prop where
  older : ∀ index, r.version index ≤ r'.version index
  quiet : ∀ index, r'.version index = r.version index →
    State.Quiet r.state r'.state r.file ino index
  file : ∀ index, r'.version index = r.version index → ∀ o, o / pageSize = index →
    r'.file ino o = r.file ino o
  resolve : r'.state.vfs.resolve = r.state.vfs.resolve
  grows : r.state.logicalSize ino ≤ r'.state.logicalSize ino

variable {index seen fileSize : Nat} {data : List UInt8} {s : State}

/-- What holds unless a page is written again holds across another thread's step. -/
theorem Since.frame {P P' : Prop} (h : r.Since index seen P) (hf : Frame ino r r')
    (himp : r'.version index = r.version index → P → P') : r'.Since index seen P' := by
  have hle := hf.older index
  refine ⟨h.1.trans hle, fun heq => ?_⟩
  have hseen : r.version index = seen := le_antisymm (heq ▸ hle) h.1
  exact himp (heq.trans hseen.symm) (h.2 hseen)

theorem Frame.shows (hf : Frame ino r r') (hsame : r'.version index = r.version index)
    (h : Shows r.file ino index data) : Shows r'.file ino index data := by
  intro hindex i hi
  rw [h hindex i hi, hf.file index hsame _ (div_pageSize hi)]

section

variable (hf : Frame ino r r')
include hf

theorem Frame.clean (h : r.Since index seen (r.state.Clean ino index)) :
    r'.Since index seen (r'.state.Clean ino index) :=
  h.frame hf fun hsame => (hf.quiet index hsame).clean

theorem Frame.loaded
    (h : r.Since index seen (r.state.Clean ino index ∧ Shows r.file ino index data)) :
    r'.Since index seen (r'.state.Clean ino index ∧ Shows r'.file ino index data) :=
  h.frame hf fun hsame hP => ⟨(hf.quiet index hsame).clean hP.1, hf.shows hsame hP.2⟩

/-- A snapshot stays good across another thread's step. -/
theorem Frame.copied {x : Snapshot} (h : x.Ok ino r fileSize) : x.Ok ino r' fileSize := by
  obtain ⟨hindex, hlength, hsince⟩ := h
  refine ⟨hindex, hlength, hsince.frame hf ?_⟩
  rintro hsame ⟨hshows, hmarked, hpast⟩
  have hquiet := hf.quiet x.index hsame
  refine ⟨hf.shows hsame hshows, hquiet.marked hmarked, fun o ho hdiv hle => ?_⟩
  rw [hf.file x.index hsame o hdiv]
  exact hquiet.stored hmarked o ho hdiv (hpast o ho hdiv hle)

theorem Frame.done {x : Snapshot} (h : x.Done ino r) : x.Done ino r' := by
  refine Since.frame h hf ?_
  rintro hsame ⟨hmarked, hstored⟩
  have hquiet := hf.quiet x.index hsame
  refine ⟨hquiet.marked hmarked, fun o ho hdiv => ?_⟩
  rw [hf.file x.index hsame o hdiv]
  exact hquiet.stored hmarked o ho hdiv (hstored o ho hdiv)

end

variable {t : Thread} {l : WriteLoop} {path : String} {toWrite : List Snapshot}

/-- A thread keeps what it knows while another one takes a step. -/
theorem Frame.ok (hf : Frame ino r r') (h : t.Ok ino r) : t.Ok ino r' := by
  have hpath : ∀ {path fileSize}, r.state.vfs.resolve path = some ino ∧
      fileSize ≤ r.state.logicalSize ino → r'.state.vfs.resolve path = some ino ∧
      fileSize ≤ r'.state.logicalSize ino := by
    rintro path fileSize ⟨hresolve, hle⟩
    exact ⟨hf.resolve ▸ hresolve, hle.trans hf.grows⟩
  cases t with
  | readLoad l seen => exact hf.clean h
  | readInsert l seen data => exact hf.loaded h
  | fetchLoad index seen todo l => exact fun e he => hf.clean (h e he)
  | fetchInsert index seen data todo l =>
    exact ⟨hf.loaded h.1, fun e he => hf.clean (h.2 e he)⟩
  | prefetchLoad l seen => exact hf.clean h
  | prefetchInsert l seen data => exact hf.loaded h
  | writeFind l => exact h
  | writeLoad l seen => exact ⟨h.1, hf.clean h.2⟩
  | writeInsert l seen page =>
    exact ⟨h.1, h.2.1, h.2.2.frame hf hf.shows⟩
  | flushBegin path fileSize => exact hpath h
  | flushWrite path fileSize toWrite flushed snap rest =>
    exact ⟨hpath h.1, fun x hx => hf.copied (h.2.1 x hx),
      fun x hx => (h.2.2 x hx).imp_right hf.done⟩
  | flushEnd toWrite flushed => exact fun x hx => hf.done (h x hx)
  | readStart offset len => trivial
  | readFind l => trivial
  | readAhead l data => trivial
  | prefetchFind l => trivial
  | writeNote l => trivial
  | flushStart => trivial
  | returned result => trivial

/-! ## One step -/

/-- What holds of the cache between steps. -/
structure Sound (ino : Nat) (r : Race) : Prop where
  shown : State.Shown r.state r.file (r.pend ino)
  registered : r.state.Registered ino

/-- The cache may step to `s`: it stays sound, and the threads keep what they rely on. -/
abbrev Keeps (ino : Nat) (r : Race) (s : State) : Prop :=
  Sound ino { r with state := s } ∧ Frame ino r { r with state := s }

theorem Frame.refl (ino : Nat) (r : Race) : Frame ino r r where
  older := fun _ => le_rfl
  quiet := fun _ _ => .of_eq rfl rfl
  file := fun _ _ _ _ => rfl
  resolve := rfl
  grows := le_rfl

section

variable (h : r.Sound ino)
include h

theorem Sound.quiet (hshown : Shown s r.file (r.pend ino)) (hsame : SameTables r.state s)
    (hquiet : ∀ index, Quiet r.state s r.file ino index) : Keeps ino r s :=
  ⟨⟨hshown, hsame.registered.mpr h.registered⟩, fun _ => le_rfl, fun index _ => hquiet index,
    fun _ _ _ _ => rfl, hsame.resolve, (h.shown.logicalSize_eq hsame ino).ge⟩

theorem Sound.findPage (index : Nat) : Keeps ino r (r.state.findPage ino index).2 :=
  h.quiet (h.shown.findPage ino index) (sameTables_findPage r.state ino index)
    fun _ => .of_remarked (remarked_findPage r.state ino index) fun _ => by
      unfold backing
      rw [findPage_vfs]

/-- The evictions of an insertion that spares what is pending. -/
theorem Sound.makeRoom (hspares : r.Spares ino) :
    Shown (makeRoom r.state.pages.size r.state) r.file (r.pend ino) ∧
      Evicted r.state (makeRoom r.state.pages.size r.state) r.file := by
  refine h.shown.makeRoom r.state.pages.size ?_
  rintro key page hget hdirty hgone o hdiv ⟨hino, htop⟩
  have hle := hspares (key, page) (mem_toList_iff.mpr hget) hdirty (by rw [hgone]; rfl) hino
  have hlt : o < (key.2 + 1) * pageSize := by
    unfold pageSize at *
    omega
  rw [hino]
  exact lt_of_lt_of_le (lt_min htop hlt) hle

/-- A loaded page that no write has reached may be inserted clean. -/
theorem Sound.insertClean
    (hknows : r.Since index seen (r.state.Clean ino index ∧ Shows r.file ino index data))
    (htime : r.version index = seen ∧ r.Spares ino) :
    Keeps ino r (r.state.insertPage ino index data false) := by
  obtain ⟨hclean, hshows⟩ := hknows.2 htime.1
  obtain ⟨hroom, hevict⟩ := h.makeRoom htime.2
  refine h.quiet ?_ (hevict.same.trans ⟨rfl, rfl, rfl, rfl⟩)
    fun i => hevict.quiet_putPage index data false fun _ => rfl
  refine hroom.putPage (fun _ _ _ => rfl) hshows (by simp) (fun _ _ => id) ?_
  intro o ho hdiv hne
  refine absurd (hroom.backing_eq ho fun page hget => ?_) hne
  rw [hdiv] at hget
  exact hclean page (hevict.sub _ page hget)

/-- A write may insert its page if no other write has reached the page since it was looked up. -/
theorem Sound.insertWrite {page : List UInt8} (hbound : l.Bounded ∧ l.data.length ≠ 0)
    (hlength : page.length = pageSize)
    (hknows : r.Since l.index seen (Shows r.file ino l.index page))
    (htime : r.version l.index = seen ∧ r.Spares ino) :
    Sound ino (r.after ino (.writeInsert l seen page)) ∧
      Frame ino r (r.after ino (.writeInsert l seen page)) := by
  obtain ⟨hroom, hevict⟩ := h.makeRoom htime.2
  have hend := hbound.1.2 hbound.2
  have hskip := hbound.1.1
  have hchunk : l.chunk.length = min (pageSize - l.skip) l.data.length := by
    unfold WriteLoop.chunk
    rw [length_take]
    omega
  have hfits : l.skip + l.chunk.length ≤ pageSize := by omega
  have hindex : l.index < 2 ^ 52 := by
    unfold pageSize at hend
    omega
  have hreg := hevict.same.registered.mpr h.registered
  have hshown : Shown _ _ ((r.after ino (.writeInsert l seen page)).pend ino) :=
    hroom.putChunk hreg hindex hlength hfits (hknows.2 htime.1)
      (fun i o hp => ⟨hp.1, lt_of_lt_of_le hp.2 (le_max_left _ _)⟩)
      fun o _ hlt => ⟨rfl, lt_of_lt_of_le hlt (le_max_right _ _)⟩
  have hother : ∀ index, (r.after ino (.writeInsert l seen page)).version index =
      r.version index → index ≠ l.index := by
    rintro index hsame rfl
    change update r.version l.index _ l.index = _ at hsame
    rw [update_self] at hsame
    omega
  refine ⟨⟨hshown, hreg⟩, ?_, fun index hsame => ?_, fun index hsame o hdiv => ?_,
    hevict.same.resolve, (h.shown.logicalSize_eq hevict.same ino).ge⟩
  · intro index
    show _ ≤ update r.version l.index _ index
    by_cases heq : index = l.index
    · rw [heq, update_self]
      exact Nat.le_succ _
    · rw [update_of_ne heq]
  · exact hevict.quiet_putPage l.index _ true fun heq => absurd heq (hother index hsame)
  · refine overwrite_other hfits fun hc => hother index hsame ?_
    rw [← hdiv]
    exact hc.2

/-- Noting a size settles more of what is pending. -/
theorem Sound.noteFileSize (size : Nat) : Keeps ino r (r.state.noteFileSize ino (u64 size)) := by
  have hsize : u64 size < 2 ^ 64 := Nat.mod_lt _ (by decide)
  refine ⟨⟨h.shown.noteFileSize h.registered hsize fun _ _ hp => .inr hp, h.registered⟩,
    fun _ => le_rfl, fun _ _ => .of_eq rfl rfl, fun _ _ _ _ => rfl, rfl, ?_⟩
  rw [h.shown.logicalSize_noteFileSize h.registered, if_pos rfl]
  exact le_max_left _ _

/-- The pages that a flush copies, with their marks set. -/
theorem Sound.beginWriteback
    (htime : ∀ e ∈ (r.state.beginWriteback ino).1,
      min (max (r.state.logicalSize ino) r.top) ((e.1 + 1) * pageSize) ≤ fileSize) :
    Keeps ino r (r.state.beginWriteback ino).2 ∧ ∀ e ∈ (r.state.beginWriteback ino).1,
        Snapshot.Ok ino { r with state := (r.state.beginWriteback ino).2 } fileSize
          ⟨e.1, e.2, r.version e.1⟩ := by
  have hmarks := remarked_beginWriteback r.state ino
  refine ⟨h.quiet (h.shown.beginWriteback ino) ⟨rfl, rfl, rfl, rfl⟩
    fun _ => .of_remarked hmarks fun _ => rfl, fun e he => ?_⟩
  have hsize := htime e he
  obtain ⟨page, hget, ⟨hdirty, -⟩, hdata⟩ := mem_beginWriteback.mp he
  have hok := h.shown.page _ page hget
  refine ⟨(hok.owned hdirty).2, hdata ▸ hok.length, le_rfl, fun _ => ⟨hdata ▸ hok.bytes, ?_, ?_⟩⟩
  · intro page' hget' hdirty'
    obtain ⟨old, -, rfl⟩ := hmarks.lookup hget'
    rw [if_pos ⟨rfl, (hmarks.dirty _ old hdirty').1⟩]
    rfl
  · intro o ho hdiv hle
    by_contra hne
    obtain ⟨-, -, -, hwhy⟩ := h.shown.backed ino o ho hne
    have hlt : o < max (r.state.logicalSize ino) r.top := by
      rcases hwhy with hlt | ⟨-, hlt⟩
      · exact lt_of_lt_of_le hlt (le_max_left _ _)
      · exact lt_of_lt_of_le hlt (le_max_right _ _)
    have hend : o < (e.1 + 1) * pageSize := by
      change o / pageSize = e.1 at hdiv
      unfold pageSize at *
      omega
    exact absurd (lt_of_lt_of_le (lt_min hlt hend) hsize) (Nat.not_lt.mpr hle)

/-- A copied page is stored. If it is out of date, the page waits for another flush anyway. -/
theorem Sound.flushWrite (hpath : r.state.vfs.resolve path = some ino)
    (hsize : fileSize ≤ r.state.logicalSize ino) (hok : snap.Ok ino r fileSize)
    (hlt : snap.index * pageSize < fileSize)
    (htime : r.version snap.index = snap.seen ∨ ∃ page ∈ r.state.pages[(ino, snap.index)]?,
      page.dirty = true ∧ page.writeback = false) :
    ∃ vfs, r.state.vfs.pwriteFile path (snap.index * pageSize)
        (snap.data.take (min (fileSize - snap.index * pageSize) snap.data.length)) = (true, vfs) ∧
      Keeps ino r { r.state with vfs } ∧
      Snapshot.Done ino { r with state := { r.state with vfs } } snap := by
  obtain ⟨hindex, hlength, hold, hfresh⟩ := hok
  have hlimit := lt_of_le_of_lt hsize (h.shown.logicalSize_lt ino)
  -- the bytes that go out, fresh or not
  obtain ⟨bytes, hbytes⟩ : ∃ bytes : Nat → UInt8,
      ∀ o, bytes o = byteAt snap.data (o - snap.index * pageSize) := ⟨_, fun _ => rfl⟩
  have hdata : ∀ i < pageSize, byteAt snap.data i = bytes (snap.index * pageSize + i) := by
    intro i _
    rw [hbytes, Nat.add_sub_cancel_left]
  obtain ⟨vfs, hwrite, hresolve, hobeys, hback⟩ := pwritePage_spec h.shown.obeys
    hpath hlimit hlt hlength hdata
  have hsame : SameTables r.state { r.state with vfs } := ⟨rfl, rfl, rfl, hresolve⟩
  have hbacking : ∀ i o, { r.state with vfs }.backing i o =
      if i = ino ∧ o / pageSize = snap.index ∧ o < fileSize then bytes o
      else r.state.backing i o := hback
  -- a fresh copy has the bytes of the file
  have hcopy : r.version snap.index = snap.seen → ∀ o, o / pageSize = snap.index →
      bytes o = r.file ino o := by
    intro hseen o hdiv
    have hle : snap.index * pageSize ≤ o ∧ o - snap.index * pageSize < pageSize := by
      unfold pageSize at *
      omega
    rw [hbytes, (hfresh hseen).1 hindex _ hle.2, Nat.add_sub_cancel' hle.1]
  have hshown : Shown { r.state with vfs } r.file (r.pend ino) := by
    refine h.shown.update hsame hobeys h.shown.page fun i o ho hne => ?_
    rw [hbacking] at hne
    split at hne
    next hin =>
      obtain ⟨rfl, hdiv, ho'⟩ := hin
      rcases htime with hseen | ⟨page, hget, hdirty, -⟩
      · exact absurd (hcopy hseen o hdiv) hne
      · refine ⟨page, ?_, hdirty, .inl (lt_of_lt_of_le ho' hsize)⟩
        rw [hdiv]
        exact hget
    · exact h.shown.backed i o ho hne
  have hkeeps := h.quiet hshown hsame fun index => by
    refine ⟨id, id, fun hmarked o ho hdiv heq => ?_⟩
    rw [hbacking]
    split
    next hin =>
      rcases htime with hseen | ⟨page, hget, hdirty, hmark⟩
      · exact hcopy hseen o hin.2.1
      · rw [← hin.2.1, hdiv] at hget
        rw [hmarked page hget hdirty] at hmark
        cases hmark
    · exact heq
  refine ⟨vfs, hwrite, hkeeps, hold, fun hseen => ?_⟩
  obtain ⟨-, hmarked, hpast⟩ := hfresh hseen
  refine ⟨hmarked, fun o ho hdiv => ?_⟩
  rw [hbacking]
  by_cases ho' : o < fileSize
  · rw [if_pos ⟨rfl, hdiv, ho'⟩]
    exact hcopy hseen o hdiv
  · rw [if_neg (fun hc => ho' hc.2.2)]
    exact hpast o ho hdiv (Nat.le_of_not_lt ho')

/-- The end of a flush cleans pages whose bytes are stored. -/
theorem Sound.endWriteback (hdone : ∀ x ∈ toWrite, x.Done ino r)
    (htime : ∀ snap ∈ toWrite, r.version snap.index = snap.seen ∨
      ∀ page ∈ r.state.pages[(ino, snap.index)]?, page.writeback = false) :
    Keeps ino r (r.state.endWriteback ino (toWrite.map fun snap => (snap.index, snap.data))) := by
  refine h.quiet (h.shown.endWriteback ?_) ⟨rfl, rfl, rfl, rfl⟩
    fun _ => .of_remarked (remarked_endWriteback ..) fun _ => rfl
  rintro entry hentry page hget hmark o ho hdiv -
  obtain ⟨x, hx, rfl⟩ := mem_map.mp hentry
  rcases htime x hx with hseen | hunmarked
  · exact ((hdone x hx).2 hseen).2 o ho hdiv
  · rw [hunmarked page hget] at hmark
    cases hmark

end

/-! ## Every step of a thread -/

theorem ok_readHead (l : ReadLoop) : (readHead l).Ok ino r := by
  unfold readHead
  split <;> trivial

theorem ok_fetchHead {l : ReadLoop} {todo : List (Nat × Nat)}
    (h : ∀ e ∈ todo, r.Since e.1 e.2 (r.state.Clean ino e.1)) : (fetchHead l todo).Ok ino r := by
  cases todo with
  | nil => exact ok_readHead l
  | cons e todo => exact h

theorem ok_prefetchHead (l : PrefetchLoop) : (prefetchHead l).Ok ino r := by
  unfold prefetchHead
  split <;> trivial

theorem ok_writeHead (h : l.Bounded) : (writeHead l).Ok ino r := by
  unfold writeHead
  split
  · trivial
  next hmore => exact ⟨h, hmore⟩

/-- The head of the flush loop keeps what the rest of the snapshots needs. -/
theorem ok_flushHead {flushed : Nat}
    (hpath : r.state.vfs.resolve path = some ino ∧ fileSize ≤ r.state.logicalSize ino)
    (hrest : ∀ x ∈ rest, x.Ok ino r fileSize) (hdone : ∀ x ∈ toWrite, x ∈ rest ∨ x.Done ino r) :
    (flushHead path fileSize toWrite flushed rest).Ok ino r := by
  cases rest with
  | nil => exact fun x hx => (hdone x hx).resolve_left (by simp)
  | cons snap rest => exact ⟨hpath, hrest, hdone⟩

theorem bounded_advance (h : l.Bounded) (hmore : l.data.length ≠ 0) : l.advance.Bounded := by
  have hend := h.2 hmore
  have hskip := h.1
  unfold WriteLoop.Bounded WriteLoop.advance
  simp only [length_drop]
  refine ⟨by omega, fun hrest => ?_⟩
  rw [Nat.add_one_mul]
  omega

/-- A thread takes a step: the cache stays sound, the other threads keep what they know, and the
thread knows what it needs at its next point. -/
structure Advances (ino : Nat) (r : Race) (t : Thread) : Prop where
  sound : Sound ino (r.after ino t)
  frame : Frame ino r (r.after ino t)
  ok : (t.next ino r.version r.state).1.Ok ino (r.after ino t)

/-- A step that keeps the cache sound advances its thread. -/
theorem Advances.of_next (t' : Thread) (s : State) (hnote : r.note ino t = r)
    (hnext : t.next ino r.version r.state = (t', s)) (h : Keeps ino r s)
    (hok : t'.Ok ino { r with state := s }) : Advances ino r t := by
  have hafter : r.after ino t = { r with state := s } := by
    unfold after
    rw [hnote, hnext]
  refine ⟨hafter ▸ h.1, hafter ▸ h.2, ?_⟩
  rw [hafter, hnext]
  exact hok

theorem since_miss (h : r.state.pages[(ino, index)]? = none) :
    r.Since index (r.version index) (r.state.Clean ino index) :=
  ⟨le_rfl, fun _ => clean_of_absent h⟩

/-- A lookup finds a page, which stays, or it tells the thread that the page is clean. -/
theorem Sound.findPage_cases (h : r.Sound ino) (index : Nat) :
    (∃ page s, r.state.findPage ino index = (some page.data, s) ∧ Keeps ino r s ∧
      r.state.pages[(ino, index)]? = some page) ∨
    r.state.findPage ino index = (none, r.state) ∧
      r.Since index (r.version index) (r.state.Clean ino index) := by
  have hkeeps := h.findPage index
  unfold State.findPage at hkeeps ⊢
  cases hget : r.state.pages[(ino, index)]? with
  | none => exact .inr ⟨rfl, since_miss hget⟩
  | some page =>
    rw [hget] at hkeeps
    exact .inl ⟨page, _, rfl, hkeeps, rfl⟩

/-- A page that was clean when it was looked up loads as the file has it. -/
theorem Sound.load (h : r.Sound ino) (hknows : r.Since index seen (r.state.Clean ino index)) :
    ∃ data, r.state.loadFromBacking ino index = .ok data ∧ data.length = pageSize ∧
      r.Since index seen (r.state.Clean ino index ∧ Shows r.file ino index data) := by
  obtain ⟨data, hload, hlength, hbytes⟩ := h.shown.loadFromBacking_spec h.registered
  exact ⟨data, hload, hlength, hknows.1,
    fun hseen => ⟨hknows.2 hseen, hbytes (hknows.2 hseen)⟩⟩

/-- The plan of a readahead lists pages that are not cached, and changes its own table only. -/
theorem planReadahead_spec (ino : Nat) (s : State) (index : Nat) :
    (∃ ra, (s.planReadahead ino index).2 = { s with readahead := ra }) ∧
      ∀ i ∈ (s.planReadahead ino index).1, s.pages[(ino, i)]? = none := by
  unfold planReadahead
  extract_lets ra window s'
  split_ifs
  · refine ⟨⟨_, rfl⟩, fun i hi => ?_⟩
    have hcached := (mem_filter.mp hi).2
    rw [Bool.not_eq_true', TreeMap.contains_eq_isSome_getElem?] at hcached
    exact isNone_iff_eq_none.mp (isSome_eq_false_iff.mp hcached)
  · exact ⟨⟨_, rfl⟩, by simp⟩
  · exact ⟨⟨_, rfl⟩, by simp⟩

/-- Writing a snapshot in time advances the flush. -/
theorem Sound.advance_flushWrite (h : r.Sound ino) {flushed : Nat}
    (hok : (Thread.flushWrite path fileSize toWrite flushed snap rest).Ok ino r)
    (htime : r.Timely ino (.flushWrite path fileSize toWrite flushed snap rest)) :
    Advances ino r (.flushWrite path fileSize toWrite flushed snap rest) := by
  obtain ⟨hpath, hcopies, hdone⟩ := hok
  have hsnap := hcopies snap (by simp)
  have hoffset := u64_page hsnap.1
  -- once this copy is stored, the copies that are left are those of `rest`
  have hhead : ∀ r' : Race, Frame ino r r' → snap.Done ino r' → ∀ n,
      (flushHead path fileSize toWrite n rest).Ok ino r' := by
    intro r' hf hstored n
    refine ok_flushHead ⟨hf.resolve ▸ hpath.1, hpath.2.trans hf.grows⟩
      (fun x hx => hf.copied (hcopies x (mem_cons_of_mem _ hx))) fun x hx => ?_
    rcases hdone x hx with hin | hd
    · rcases mem_cons.mp hin with rfl | hin
      · exact .inr hstored
      · exact .inl hin
    · exact .inr (hf.done hd)
  simp only [Timely, hoffset] at htime
  by_cases hbeyond : fileSize ≤ snap.index * pageSize
  · refine .of_next (.flushHead path fileSize toWrite flushed rest) r.state rfl ?_
      ⟨h, .refl ino r⟩ (hhead r (.refl ino r) ?_ flushed)
    · simp only [Thread.next, hoffset, ge_iff_le, if_pos hbeyond]
    · refine ⟨hsnap.2.2.1, fun hseen => ?_⟩
      obtain ⟨-, hmarked, hpast⟩ := hsnap.2.2.2 hseen
      refine ⟨hmarked, fun o ho hdiv => hpast o ho hdiv (hbeyond.trans ?_)⟩
      rw [← hdiv]
      exact Nat.div_mul_le_self o pageSize
  · obtain ⟨vfs, hwrite, hkeeps, hstored⟩ := h.flushWrite hpath.1 hpath.2 hsnap
      (Nat.lt_of_not_le hbeyond) (htime.resolve_left hbeyond)
    refine .of_next (.flushHead path fileSize toWrite (flushed + 1) rest)
      { r.state with vfs } rfl ?_ hkeeps (hhead _ hkeeps.2 hstored _)
    simp only [Thread.next, hoffset, ge_iff_le, if_neg hbeyond, hwrite]

/-- Every timely step of a thread advances the race. -/
theorem Sound.advance (h : r.Sound ino) (hok : t.Ok ino r) (htime : r.Timely ino t) :
    Advances ino r t := by
  have hsame : Keeps ino r r.state := ⟨h, .refl ino r⟩
  cases t with
  | readStart offset len =>
    by_cases hnone : offset ≥ r.state.logicalSize ino ∨ len = 0
    · exact .of_next (.returned (.bytes (.ok []))) r.state rfl
        (by simp only [Thread.next, if_pos hnone]) hsame trivial
    · exact .of_next _ r.state rfl (by simp only [Thread.next, if_neg hnone]; rfl) hsame
        (ok_readHead _)
  | readFind l =>
    rcases h.findPage_cases l.index with ⟨page, s, hfind, hfound, -⟩ | ⟨hfind, hmiss⟩
    · exact .of_next (.readHead (l.take page.data)) s rfl (by simp only [Thread.next, hfind])
        hfound (ok_readHead _)
    · exact .of_next (.readLoad l (r.version l.index)) r.state rfl
        (by simp only [Thread.next, hfind]) hsame hmiss
  | readLoad l seen =>
    obtain ⟨data, hload, -, hknows⟩ := h.load hok
    exact .of_next (.readInsert l seen data) r.state rfl (by simp only [Thread.next, hload])
      hsame hknows
  | readInsert l seen data =>
    exact .of_next (.readAhead l data) _ rfl rfl (h.insertClean hok htime) trivial
  | readAhead l data =>
    obtain ⟨⟨ra, hra⟩, habsent⟩ := planReadahead_spec ino r.state l.index
    have hplan : Keeps ino r (r.state.planReadahead ino l.index).2 := by
      rw [hra]
      have htables : SameTables r.state { r.state with readahead := ra } :=
        ⟨rfl, rfl, rfl, rfl⟩
      exact h.quiet (h.shown.update htables h.shown.obeys h.shown.page h.shown.backed) htables
        fun _ => .of_eq rfl rfl
    refine .of_next (.fetchHead (l.take data) ((r.state.planReadahead ino l.index).1.map
      fun i => (i, r.version i))) (r.state.planReadahead ino l.index).2 rfl rfl hplan
      (ok_fetchHead fun e he => ?_)
    obtain ⟨i, hi, rfl⟩ := mem_map.mp he
    exact hplan.2.clean (since_miss (habsent i hi))
  | fetchLoad index seen todo l =>
    obtain ⟨data, hload, -, hknows⟩ := h.load (hok (index, seen) (by simp))
    exact .of_next (.fetchInsert index seen data todo l) r.state rfl
      (by simp only [Thread.next, hload]) hsame
      ⟨hknows, fun e he => hok e (mem_cons_of_mem _ he)⟩
  | fetchInsert index seen data todo l =>
    have hins := h.insertClean hok.1 htime
    exact .of_next (.fetchHead l todo) _ rfl rfl hins
      (ok_fetchHead fun e he => hins.2.clean (hok.2 e he))
  | prefetchFind l =>
    rcases h.findPage_cases l.index with ⟨page, s, hfind, hfound, -⟩ | ⟨hfind, hmiss⟩
    · exact .of_next (.prefetchHead ⟨l.index + 1, l.left - 1, l.loaded⟩) s rfl
        (by simp only [Thread.next, hfind]) hfound (ok_prefetchHead _)
    · exact .of_next (.prefetchLoad l (r.version l.index)) r.state rfl
        (by simp only [Thread.next, hfind]) hsame hmiss
  | prefetchLoad l seen =>
    obtain ⟨data, hload, -, hknows⟩ := h.load hok
    exact .of_next (.prefetchInsert l seen data) r.state rfl
      (by simp only [Thread.next, hload]) hsame hknows
  | prefetchInsert l seen data =>
    exact .of_next _ _ rfl rfl (h.insertClean hok htime) (ok_prefetchHead _)
  | writeFind l =>
    rcases h.findPage_cases l.index with ⟨page, s, hfind, hfound, hget⟩ | ⟨hfind, hmiss⟩
    · have hpage := h.shown.page _ page hget
      exact .of_next (.writeInsert l (r.version l.index) page.data) s rfl
        (by simp only [Thread.next, hfind]) hfound
        ⟨hok, hpage.length, le_rfl, fun _ => hpage.bytes⟩
    · exact .of_next (.writeLoad l (r.version l.index)) r.state rfl
        (by simp only [Thread.next, hfind]) hsame ⟨hok, hmiss⟩
  | writeLoad l seen =>
    obtain ⟨data, hload, hlength, hknows⟩ := h.load hok.2
    exact .of_next (.writeInsert l seen data) r.state rfl (by simp only [Thread.next, hload])
      hsame ⟨hok.1, hlength, hknows.1, fun hseen => (hknows.2 hseen).2⟩
  | writeInsert l seen page =>
    obtain ⟨hsound, hframe⟩ := h.insertWrite hok.1 hok.2.1 hok.2.2 htime
    exact ⟨hsound, hframe, ok_writeHead (bounded_advance hok.1.1 hok.1.2)⟩
  | writeNote l =>
    exact .of_next (.returned (.count l.total)) _ rfl rfl (h.noteFileSize _) trivial
  | flushStart =>
    obtain ⟨path, hpath⟩ := isSome_iff_exists.mp h.registered
    exact .of_next (.flushBegin path (r.state.logicalSize ino)) r.state rfl
      (by simp only [Thread.next, hpath]) hsame ⟨h.shown.resolved ino path hpath, le_rfl⟩
  | flushBegin path fileSize =>
    obtain ⟨hkeeps, hcopies⟩ := h.beginWriteback htime
    have hall : ∀ x ∈ (r.state.beginWriteback ino).1.map fun e =>
        (⟨e.1, e.2, r.version e.1⟩ : Snapshot), x.Ok ino
          { r with state := (r.state.beginWriteback ino).2 } fileSize := by
      intro x hx
      obtain ⟨e, he, rfl⟩ := mem_map.mp hx
      exact hcopies e he
    exact .of_next _ (r.state.beginWriteback ino).2 rfl rfl hkeeps
      (ok_flushHead ⟨hok.1, hok.2.trans hkeeps.2.grows⟩ hall fun _ hx => .inl hx)
  | flushWrite path fileSize toWrite flushed snap rest => exact h.advance_flushWrite hok htime
  | flushEnd toWrite flushed =>
    exact .of_next (.returned (.flushed (.ok flushed))) _ rfl rfl (h.endWriteback hok htime)
      trivial
  | returned result => exact .of_next (.returned result) r.state rfl rfl hsame trivial

/-! ## Runs -/

/-- What holds between the steps of a race. -/
structure Inv (ino : Nat) (r : Race) : Prop where
  sound : Sound ino r
  threads : ∀ t ∈ r.threads, t.Ok ino r

/-- The invariant says that no write is lost. -/
theorem Inv.kept (h : Inv ino r) : Kept ino r where
  held := by
    intro o ho
    by_cases heq : r.state.backing ino o = r.file ino o
    · exact .inl heq
    · obtain ⟨page, hget, hdirty, -⟩ := h.sound.shown.backed ino o ho heq
      exact .inr ⟨page, hget, hdirty⟩
  shown := fun _ page hindex hget => (h.sound.shown.page _ page hget).bytes hindex

instance (r : Race) : Decidable (r.Spares ino) :=
  inferInstanceAs (Decidable (∀ e ∈ r.state.pages.toList, _ → _ → _ → _ ≤ _))

instance (r : Race) : DecidablePred (r.Timely ino)
  | .readInsert .. | .prefetchInsert .. | .writeInsert .. | .fetchInsert .. =>
    inferInstanceAs (Decidable (_ ∧ r.Spares ino))
  | .flushBegin .. => inferInstanceAs (Decidable (∀ e ∈ (r.state.beginWriteback ino).1, _))
  | .flushWrite _ _ _ _ snap _ => inferInstanceAs
      (Decidable (_ ∨ _ ∨ ∃ page ∈ r.state.pages[(ino, snap.index)]?, _))
  | .flushEnd toWrite _ => inferInstanceAs (Decidable (∀ snap ∈ toWrite, _ ∨
      ∀ page ∈ r.state.pages[(ino, snap.index)]?, page.writeback = false))
  | .readStart .. | .readFind .. | .readLoad .. | .readAhead .. | .fetchLoad .. | .prefetchFind ..
  | .prefetchLoad .. | .writeFind .. | .writeLoad .. | .writeNote .. | .flushStart
  | .returned .. => inferInstanceAs (Decidable True)

instance (r : Race) : DecidablePred (r.Orderly ino)
  | .call (.write offset data) => inferInstanceAs (Decidable (offset + data.length < 2 ^ 64))
  | .call (.read ..) | .call (.prefetch ..) | .call .flush => inferInstanceAs (Decidable True)
  | .run i =>
    match hget : r.threads[i]? with
    | none => .isTrue (by simp only [Orderly, hget])
    | some t => decidable_of_iff (r.Timely ino t) (by simp only [Orderly, hget])

end Race

open Race

end KnoxOS.PageCache
