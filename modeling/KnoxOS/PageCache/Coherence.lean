import KnoxOS.Lib.Reach
import KnoxOS.PageCache.Invariant

/-!
# Reads return what was written

A `CacheRun` is the page cache together with the bytes every file should have: its initial
contents under all writes so far. `reads_coherent` says that a read returns these bytes, clipped
to the logical size, in every state of a run whose writes are `Roomy`. A write that extends the
file over more pages than the cache can keep is not: it evicts its own first pages before it
raises the logical size, and their new bytes are cut off (`extending_write_loses_byte`).
-/

namespace KnoxOS.PageCache

open Lib List Option
open Std (TreeMap)

namespace State

variable {s : State} {file : Nat → Nat → UInt8} {pend : Nat → Nat → Prop} {vfs : Vfs}

/-! ## Loading pages -/

variable {inode index : Nat}

/-- A lookup finds a page, or the page can be loaded; either shows the file. -/
theorem findPage_cases (h : Coherent s file pend) (hreg : s.Registered inode) (index : Nat) :
    ∃ data : List UInt8, data.length = pageSize ∧ Shows file inode index data ∧
      (s.findPage inode index = (some data, (s.findPage inode index).2) ∨
        s.findPage inode index = (none, s) ∧ s.pages[(inode, index)]? = none ∧
          s.loadFromBacking inode index = .ok data) := by
  unfold findPage
  cases hget : s.pages[(inode, index)]? with
  | some page =>
    have hok := h.page _ _ hget
    exact ⟨page.data, hok.length, hok.bytes, .inl rfl⟩
  | none =>
    obtain ⟨data, hload, hlength, hbytes⟩ := loadFromBacking_spec h hreg hget
    exact ⟨data, hlength, hbytes, .inr ⟨rfl, rfl, hload⟩⟩

section

variable (h : Settled s file) (hreg : s.Registered inode)
include h hreg

/-- Fetching distinct pages that are not cached only loads pages. -/
theorem fetchPages_loads (indices : List Nat) (hnodup : indices.Nodup)
    (habsent : ∀ i ∈ indices, s.pages[(inode, i)]? = none) :
    Loads s file (s.fetchPages inode indices) := by
  induction indices generalizing s with
  | nil => exact h.refl
  | cons index rest ih =>
    obtain ⟨hnotin, hrest⟩ := nodup_cons.mp hnodup
    have hnone := habsent index (by simp)
    obtain ⟨data, hload, -, hbytes⟩ := loadFromBacking_spec h hreg hnone
    obtain ⟨hins, hkeep⟩ := insertPage_clean h hnone hbytes
    unfold fetchPages
    rw [hload]
    refine hins.trans (ih hins.settled (hins.same.registered.mpr hreg) hrest ?_)
    intro i hi
    refine hkeep (inode, i) (fun heq => ?_) (habsent i (by simp [hi]))
    cases heq
    exact hnotin hi

/-- Readahead loads pages and changes no byte. -/
theorem updateReadahead_loads (index : Nat) : Loads s file (s.updateReadahead inode index) := by
  -- the readahead table is no part of the invariant
  have hra : ∀ ra, Loads s file { s with readahead := ra } := by
    intro ra
    have hsame : SameTables s { s with readahead := ra } := ⟨rfl, rfl, rfl, rfl⟩
    exact ⟨⟨h.update hsame h.obeys h.page h.backed, h.room, h.bounded, h.stamps⟩, hsame⟩
  unfold updateReadahead
  dsimp only
  split
  · split
    · refine (hra _).trans (fetchPages_loads (hra _).settled ?_ _
        ((nodup_range' ..).filter _) fun i hi => ?_)
      · exact hreg
      have hcached := (mem_filter.mp hi).2
      rw [Bool.not_eq_true', TreeMap.contains_eq_isSome_getElem?] at hcached
      exact isSome_eq_false_iff.mp hcached |> isNone_iff_eq_none.mp
    · exact hra _
  · exact hra _

/-- The page a read gets shows the file. -/
theorem readPage_spec (hindex : index < 2 ^ 52) :
    ∃ data, (s.readPage inode index).1 = .ok data ∧ data.length = pageSize ∧
      (∀ i < pageSize, byteAt data i = file inode (index * pageSize + i)) ∧
      Loads s file (s.readPage inode index).2 := by
  unfold readPage
  obtain ⟨data, hlength, hbytes, heq | ⟨heq, habsent, hload⟩⟩ := findPage_cases h hreg index
  · rw [heq]
    exact ⟨data, rfl, hlength, hbytes hindex, h.findPage inode index,
      sameTables_findPage s inode index⟩
  · obtain ⟨hins, -⟩ := insertPage_clean h habsent hbytes
    rw [heq]
    dsimp only
    rw [hload]
    exact ⟨data, rfl, hlength, hbytes hindex,
      hins.trans (updateReadahead_loads hins.settled (hins.same.registered.mpr hreg) index)⟩

/-- The read loop collects the bytes of the file. -/
theorem readLoop_spec (fuel index skip want : Nat) (hfuel : want ≤ fuel) (hskip : skip < pageSize)
    (hend : index * pageSize + skip + want ≤ 2 ^ 64) :
    (readLoop fuel s inode index skip want).1 =
        .ok (bytesFrom (file inode) (index * pageSize + skip) want) ∧
      Loads s file (readLoop fuel s inode index skip want).2 := by
  induction fuel generalizing s index skip want with
  | zero =>
    obtain rfl : want = 0 := by omega
    exact ⟨rfl, h.refl⟩
  | succ fuel ih =>
    unfold readLoop
    by_cases hwant : want = 0
    · subst hwant
      exact ⟨rfl, h.refl⟩
    · rw [if_neg hwant]
      have hindex : index < 2 ^ 52 := by
        unfold pageSize at *
        omega
      obtain ⟨data, hdata, hlength, hbytes, hloads⟩ := readPage_spec h hreg hindex
      have hfuel' : want - min (pageSize - skip) want ≤ fuel := by
        omega
      have hnext : (index + 1) * pageSize + 0 = index * pageSize + pageSize := by
        rw [Nat.add_zero, Nat.add_one_mul]
      have hend' : index * pageSize + pageSize + (want - min (pageSize - skip) want) ≤
          2 ^ 64 := by
        unfold pageSize at *
        omega
      obtain ⟨hrest, hloads'⟩ := ih hloads.settled (hloads.same.registered.mpr hreg) (index + 1) 0
        _ hfuel' pageSize_pos (by rw [hnext]; exact hend')
      rw [hnext] at hrest
      rw [show s.readPage inode index = ((s.readPage inode index).1, (s.readPage inode index).2)
        from rfl, hdata]
      dsimp only
      generalize hloop : readLoop fuel (s.readPage inode index).2 inode (index + 1) 0
        (want - min (pageSize - skip) want) = result at hrest hloads' ⊢
      obtain ⟨out, s'⟩ := result
      subst hrest
      refine ⟨?_, hloads.trans hloads'⟩
      generalize hcopy : min (pageSize - skip) want = copyLen at *
      -- the bytes of this page and those of the pages after it
      have hhead : slice data skip copyLen =
          bytesFrom (file inode) (index * pageSize + skip) copyLen := by
        rw [slice_eq_bytesFrom (by omega)]
        refine bytesFrom_congr fun i hi => ?_
        rw [hbytes (skip + i) (by omega), Nat.add_assoc]
      have htail : bytesFrom (file inode) (index * pageSize + pageSize) (want - copyLen) =
          bytesFrom (file inode) (index * pageSize + skip + copyLen) (want - copyLen) := by
        by_cases hdone : want - copyLen = 0
        · rw [hdone]
          rfl
        · rw [show index * pageSize + pageSize = index * pageSize + skip + copyLen by omega]
      show Except.ok (slice data skip copyLen ++ _) = _
      rw [hhead, htail, ← bytesFrom_add, Nat.add_sub_cancel' (by omega)]

/-- A read returns the bytes of the file, clipped to the logical size. -/
theorem read_spec (offset len : Nat) :
    (s.read inode offset len).1 =
        .ok (bytesFrom (file inode) offset (min (s.logicalSize inode - offset) len)) ∧
      Loads s file (s.read inode offset len).2 := by
  have hlimit := h.logicalSize_lt inode
  have hoffset : offset / pageSize * pageSize + offset % pageSize = offset := Nat.div_add_mod' _ _
  unfold read
  dsimp only
  split
  next hnone =>
    have hzero : min (s.logicalSize inode - offset) len = 0 := by omega
    rw [hzero]
    exact ⟨rfl, h.refl⟩
  next hsome =>
    have hspec := readLoop_spec h hreg (min (s.logicalSize inode - offset) len)
      (offset / pageSize) (offset % pageSize) (min (s.logicalSize inode - offset) len) le_rfl
      (Nat.mod_lt _ pageSize_pos) (by omega)
    rwa [hoffset] at hspec

/-- The prefetch loads pages and changes no byte. -/
theorem prefetchLoop_loads (n : Nat) : Loads s file (prefetchLoop n s inode index).2 := by
  induction n generalizing s index with
  | zero => exact h.refl
  | succ n ih =>
    unfold prefetchLoop
    obtain ⟨data, -, hbytes, heq | ⟨heq, habsent, hload⟩⟩ := findPage_cases h hreg index
    · have hfind : Loads s file (s.findPage inode index).2 :=
        ⟨h.findPage inode index, sameTables_findPage s inode index⟩
      rw [heq]
      exact hfind.trans (ih hfind.settled (hfind.same.registered.mpr hreg))
    · obtain ⟨hins, -⟩ := insertPage_clean h habsent hbytes
      rw [heq]
      dsimp only
      rw [hload]
      exact hins.trans (ih hins.settled (hins.same.registered.mpr hreg))

theorem prefetch_loads (offset count : Nat) : Loads s file (s.prefetch inode offset count).2 := by
  unfold prefetch
  split
  · exact h.refl
  · exact prefetchLoop_loads h hreg _

end

/-- Shrinking drops clean pages only. -/
theorem shrink_loads (h : Settled s file) (targetFree : Nat) :
    Loads s file (s.shrink targetFree).2 := by
  induction targetFree generalizing s with
  | zero => exact h.refl
  | succ n ih =>
    unfold shrink
    cases hclean : s.lruClean with
    | none => exact h.refl
    | some entry =>
      obtain ⟨key, page⟩ := entry
      obtain ⟨hget, hsel, -⟩ := lruPage_some hclean
      have hdrop : Settled (s.dropPage key) file := by
        refine h.dropPage fun o ho hpage => ?_
        refine h.backing_eq ho fun p hp => ?_
        rw [hpage, hget] at hp
        cases hp
        simp_all
      exact Loads.trans ⟨hdrop, sameTables_dropPage s key⟩ (ih hdrop)

/-! ## Writes -/

/-- The files after `data` is written at `offset`. -/
def overwrite (file : Nat → Nat → UInt8) (inode offset : Nat) (data : List UInt8) :
    Nat → Nat → UInt8 := fun ino o =>
  if ino = inode ∧ offset ≤ o ∧ o < offset + data.length then byteAt data (o - offset)
  else file ino o

theorem overwrite_nil (file : Nat → Nat → UInt8) (inode offset : Nat) :
    overwrite file inode offset [] = file := by
  funext ino o
  unfold overwrite
  rw [if_neg]
  rintro ⟨-, hle, hlt⟩
  simp only [length_nil] at hlt
  omega

/-- Two writes in a row are one. -/
theorem overwrite_append (file : Nat → Nat → UInt8) (inode offset : Nat) (a b : List UInt8) :
    overwrite (overwrite file inode offset a) inode (offset + a.length) b =
      overwrite file inode offset (a ++ b) := by
  funext ino o
  unfold overwrite
  rw [length_append, byteAt_append]
  by_cases hino : ino = inode
  · by_cases hb : offset + a.length ≤ o ∧ o < offset + a.length + b.length
    · rw [if_pos ⟨hino, hb⟩, if_pos (by omega), if_neg (by omega)]
      congr 1
      omega
    · rw [if_neg (fun h => hb h.2)]
      by_cases ha : offset ≤ o ∧ o < offset + a.length
      · rw [if_pos ⟨hino, ha⟩, if_pos (by omega), if_pos (by omega)]
      · rw [if_neg (fun h => ha h.2), if_neg (by omega)]
  · simp [hino]

/-- A chunk inside a page leaves the other pages alone. -/
theorem overwrite_other {skip : Nat} {chunk : List UInt8} (hfits : skip + chunk.length ≤ pageSize)
    {ino o : Nat} (hout : ¬ (ino = inode ∧ o / pageSize = index)) :
    overwrite file inode (index * pageSize + skip) chunk ino o = file ino o := by
  unfold overwrite
  rw [if_neg]
  rintro ⟨hino, hle, hlt⟩
  refine hout ⟨hino, ?_⟩
  rw [Nat.div_eq_iff pageSize_pos]
  constructor <;> omega

/-- A page that shows the file shows the new file once the chunk is laid over it. -/
theorem byteAt_overlay_page {skip : Nat} {page chunk : List UInt8}
    (hlength : page.length = pageSize) (hfits : skip + chunk.length ≤ pageSize)
    (hbytes : ∀ i < pageSize, byteAt page i = file inode (index * pageSize + i)) {i : Nat}
    (hi : i < pageSize) : byteAt (overlay page skip chunk) i =
      overwrite file inode (index * pageSize + skip) chunk inode (index * pageSize + i) := by
  unfold overwrite
  rw [byteAt_overlay (by omega), hbytes i hi]
  by_cases hin : skip ≤ i ∧ i < skip + chunk.length
  · rw [if_pos hin, if_pos ⟨rfl, by omega, by omega⟩]
    congr 1
    omega
  · rw [if_neg hin, if_neg (by omega)]

/-- Put a page with a chunk laid over it, whose bytes are pending. -/
theorem Shown.putChunk (h : Shown s file pend) {pend' : Nat → Nat → Prop} {skip : Nat}
    {page chunk : List UInt8} (hreg : s.Registered inode) (hindex : index < 2 ^ 52)
    (hlength : page.length = pageSize) (hfits : skip + chunk.length ≤ pageSize)
    (hbytes : Shows file inode index page) (hmono : ∀ ino o, pend ino o → pend' ino o)
    (hchunk : ∀ o, index * pageSize + skip ≤ o → o < index * pageSize + skip + chunk.length →
      pend' inode o) : Shown (s.putPage inode index (overlay page skip chunk) true)
      (overwrite file inode (index * pageSize + skip) chunk) pend' := by
  refine h.putPage (fun ino o hout => overwrite_other hfits hout)
    (fun hindex i hi => byteAt_overlay_page hlength hfits (hbytes hindex) hi)
    (fun _ => ⟨hreg, hindex⟩) hmono fun o ho _ hne => ⟨rfl, ?_⟩
  by_cases hin : index * pageSize + skip ≤ o ∧ o < index * pageSize + skip + chunk.length
  · exact .inr (hchunk o hin.1 hin.2)
  · unfold overwrite at hne
    rw [if_neg (fun hc => hin hc.2)] at hne
    obtain ⟨-, -, -, hwhy⟩ := h.backed inode o ho hne
    exact hwhy.imp_right (hmono inode o)

/-- The bytes from `start` to `stop` of `inode`, written by a call in progress. -/
def Written (inode start stop : Nat) : Nat → Nat → Prop :=
  fun ino o => ino = inode ∧ start ≤ o ∧ o < stop

/-- The page that a write modifies shows the file. -/
theorem pageForWrite_spec (h : Coherent s file pend) (hreg : s.Registered inode)
    (hindex : index < 2 ^ 52) :
    ∃ page, s.pageForWrite inode index = (page, (s.findPage inode index).2) ∧
      page.length = pageSize ∧
      ∀ i < pageSize, byteAt page i = file inode (index * pageSize + i) := by
  unfold pageForWrite
  obtain ⟨data, hlength, hbytes, heq | ⟨heq, -, hload⟩⟩ := findPage_cases h hreg index
  · rw [heq]
    exact ⟨data, rfl, hlength, hbytes hindex⟩
  · rw [heq]
    dsimp only
    rw [hload]
    exact ⟨data, rfl, hlength, hbytes hindex⟩

/-- One round of the write loop: the chunk becomes part of the file and of the window. -/
theorem writePage_spec {start lo last g skip : Nat} (chunk : List UInt8)
    (h : Coherent s file (Written inode start (index * pageSize + skip)))
    (w : Window s inode lo index last g) (hreg : s.Registered inode) (hindex : index < 2 ^ 52)
    (hfits : skip + chunk.length ≤ pageSize) (hstart : start ≤ index * pageSize + skip)
    (hfirst : skip = 0 ∨ index * pageSize + skip = start) (hlast : index ≤ last)
    (hlo : lo = max start (s.logicalSize inode) / pageSize) :
    ∃ page, s.pageForWrite inode index = (page, (s.findPage inode index).2) ∧
      let s' := (s.findPage inode index).2.insertPage inode index (overlay page skip chunk) true
      Coherent s' (overwrite file inode (index * pageSize + skip) chunk)
          (Written inode start (index * pageSize + skip + chunk.length)) ∧
        SameTables s s' ∧ (index < last → ∃ g', Window s' inode lo (index + 1) last g') := by
  obtain ⟨page, hpage, hlength, hbytes⟩ := pageForWrite_spec h hreg hindex
  refine ⟨page, hpage, ?_⟩
  have hsame1 := sameTables_findPage s inode index
  have h1 := h.findPage inode index
  obtain ⟨g', w1⟩ := w.findPage h
  have hpend : PendIn (s.findPage inode index).2
      (Written inode start (index * pageSize + skip)) inode lo index := by
    rintro ino o ⟨rfl, hle, hlt⟩ hsize
    rw [h.logicalSize_eq hsame1] at hsize
    refine ⟨rfl, ?_, ?_⟩
    · rw [hlo]
      exact Nat.div_le_div_right (max_le hle hsize)
    · rw [Nat.div_lt_iff_lt_mul pageSize_pos]
      omega
  obtain ⟨h2, w2, ⟨hsame2, -, -⟩, hroom⟩ := makeRoom_spec (s.findPage inode index).2.pages.size
    le_rfl h1 w1 hpend hlast
  have hsame : SameTables s (makeRoom (s.findPage inode index).2.pages.size
      (s.findPage inode index).2) := hsame1.trans hsame2
  -- the page now shows the old bytes with the chunk over them
  have hput : Coherent ((s.findPage inode index).2.insertPage inode index
      (overlay page skip chunk) true) (overwrite file inode (index * pageSize + skip) chunk)
      (Written inode start (index * pageSize + skip + chunk.length)) := by
    refine h2.putPage (hsame2.maxPages ▸ hroom) (h2.putChunk (hsame.registered.mpr hreg) hindex
      hlength hfits (fun _ => hbytes) ?_ fun o hle hlt => ⟨rfl, by omega, hlt⟩)
    rintro ino o ⟨hino, hle, hlt⟩
    exact ⟨hino, hle, by omega⟩
  exact ⟨hput, hsame.trans ⟨rfl, rfl, rfl, rfl⟩, fun hlt => w2.putPage hlt hput⟩

/-- The write loop adds `data` to the file. -/
theorem writeLoop_spec {start lo last : Nat} (fuel index skip : Nat) (data : List UInt8)
    (hfuel : data.length ≤ fuel)
    (h : Coherent s file (Written inode start (index * pageSize + skip)))
    (w : data.length ≠ 0 → ∃ g, Window s inode lo index last g) (hreg : s.Registered inode)
    (hskip : skip < pageSize) (hstart : start ≤ index * pageSize + skip)
    (hfirst : skip = 0 ∨ index * pageSize + skip = start)
    (hend : index * pageSize + skip + data.length < 2 ^ 64)
    (hlast : last = (index * pageSize + skip + data.length - 1) / pageSize)
    (hlo : lo = max start (s.logicalSize inode) / pageSize) :
    (writeLoop fuel s inode index skip data).1 = data.length ∧
      Coherent (writeLoop fuel s inode index skip data).2
        (overwrite file inode (index * pageSize + skip) data)
        (Written inode start (index * pageSize + skip + data.length)) ∧
      SameTables s (writeLoop fuel s inode index skip data).2 := by
  induction fuel generalizing s file index skip data with
  | zero =>
    obtain rfl : data = [] := length_eq_zero_iff.mp (by omega)
    rw [overwrite_nil]
    exact ⟨rfl, h, .refl s⟩
  | succ fuel ih =>
    unfold writeLoop
    by_cases hnil : data.length = 0
    · obtain rfl : data = [] := length_eq_zero_iff.mp hnil
      rw [overwrite_nil]
      exact ⟨rfl, h, .refl s⟩
    · rw [if_neg hnil]
      have hindex : index < 2 ^ 52 := by
        have : index * pageSize < 2 ^ 64 := by omega
        unfold pageSize at this
        omega
      obtain ⟨g, w⟩ := w hnil
      have hle : index ≤ last := by
        rw [hlast, Nat.le_div_iff_mul_le pageSize_pos]
        omega
      have hchunk : (data.take (min (pageSize - skip) data.length)).length =
          min (pageSize - skip) data.length := by
        rw [length_take]
        omega
      obtain ⟨page, hpage, h1, hsame, hwin⟩ := writePage_spec
        (data.take (min (pageSize - skip) data.length)) h w hreg hindex (by omega) hstart
        hfirst hle hlo
      rw [hpage]
      dsimp only at h1 hsame hwin ⊢
      generalize (s.findPage inode index).2.insertPage inode index (overlay page skip
        (data.take (min (pageSize - skip) data.length))) true = s1 at h1 hsame hwin ⊢
      rw [hchunk] at h1
      generalize hcopy : min (pageSize - skip) data.length = copyLen at *
      have hnext : (index + 1) * pageSize + 0 = index * pageSize + pageSize := by
        rw [Nat.add_zero, Nat.add_one_mul]
      have hdrop : (data.drop copyLen).length = data.length - copyLen := length_drop
      -- either this was the last page, or it is filled to its end
      by_cases hrest : data.length = copyLen
      · have hempty : ∀ fuel (s : State),
            writeLoop fuel s inode (index + 1) 0 (data.drop copyLen) = (0, s) := by
          intro fuel s
          cases fuel with
          | zero => rfl
          | succ fuel => simp [writeLoop, hdrop, hrest]
        rw [hempty]
        have htake : data.take copyLen = data := by simp [← hrest]
        rw [htake, ← hrest] at h1
        exact ⟨by simp [hrest], h1, hsame⟩
      · have hfull : index * pageSize + skip + copyLen = (index + 1) * pageSize + 0 := by
          omega
        have hstop : (index + 1) * pageSize + 0 + (data.drop copyLen).length =
            index * pageSize + skip + data.length := by
          omega
        have hlt : index < last := by
          rw [hlast, Nat.lt_iff_add_one_le, Nat.le_div_iff_mul_le pageSize_pos]
          omega
        obtain ⟨ih1, ih2, ih3⟩ := ih (index + 1) 0 (data.drop copyLen) (by omega)
          (by rw [← hfull]; exact h1) (fun _ => hwin hlt) (hsame.registered.mpr hreg) pageSize_pos
          (by omega) (.inl rfl) (by omega) (by rw [hstop]; exact hlast)
          (by rw [h.logicalSize_eq hsame]; exact hlo)
        refine ⟨?_, ?_, hsame.trans ih3⟩
        · omega
        · rw [hstop, ← hfull] at ih2
          have happend := overwrite_append file inode (index * pageSize + skip)
            (data.take copyLen) (data.drop copyLen)
          rw [hchunk, take_append_drop] at happend
          rwa [happend] at ih2

theorem Coherent.noteFileSize {start stop : Nat} (h : Coherent s file (Written inode start stop))
    (hreg : s.Registered inode) (hstop : stop < 2 ^ 64) :
    Settled (s.noteFileSize inode stop) file := by
  refine ⟨h.toShown.noteFileSize hreg hstop ?_, h.room, h.bounded, h.stamps⟩
  rintro ino o ⟨rfl, -, hlt⟩
  exact .inl ⟨rfl, hlt⟩

/-- The pages that a write of `len` bytes dirties past the first page it extends, plus one if the
last of them is cached already, are fewer than the cache holds. -/
def Roomy (s : State) (inode offset len : Nat) : Prop :=
  let first := max offset (s.logicalSize inode) / pageSize
  let last := (offset + len - 1) / pageSize
  last ≤ first ∨ last - first + (if (s.pages[(inode, last)]?).isSome then 1 else 0) < s.maxPages

instance (s : State) (inode offset len : Nat) : Decidable (s.Roomy inode offset len) :=
  inferInstanceAs (Decidable (_ ≤ _ ∨ _ < _))

/-- A roomy write adds its bytes to the file and makes the file as long as they reach. -/
theorem write_spec (h : Settled s file) {offset : Nat} {data : List UInt8}
    (hreg : s.Registered inode) (hend : offset + data.length < 2 ^ 64)
    (hroomy : s.Roomy inode offset data.length) :
    (s.write inode offset data).1 = data.length ∧
      Settled (s.write inode offset data).2 (overwrite file inode offset data) ∧
      ∀ ino, (s.write inode offset data).2.logicalSize ino =
        if inode = ino then max (s.logicalSize ino) (offset + data.length)
        else s.logicalSize ino := by
  have hoffset : offset / pageSize * pageSize + offset % pageSize = offset := Nat.div_add_mod' _ _
  have hstart : Coherent s file (Written inode offset
      (offset / pageSize * pageSize + offset % pageSize)) :=
    ⟨h.pending fun _ _ => False.elim, h.room, h.bounded, h.stamps⟩
  have hwindow := hstart.emptyWindow inode (max offset (s.logicalSize inode) / pageSize)
    (offset / pageSize) ((offset + data.length - 1) / pageSize)
    (Nat.div_le_div_right (le_max_left _ _)) hroomy
  obtain ⟨htotal, hloop, hsame⟩ := writeLoop_spec data.length (offset / pageSize)
    (offset % pageSize) data le_rfl hstart (fun _ => ⟨_, hwindow⟩) hreg (Nat.mod_lt _ pageSize_pos)
    hoffset.ge (.inr hoffset) (by omega) (by rw [hoffset]) rfl
  rw [hoffset] at hloop
  have hreg' := hsame.registered.mpr hreg
  unfold write
  rw [u64_of_lt hend]
  refine ⟨htotal, hloop.noteFileSize hreg' hend, fun ino => ?_⟩
  rw [hloop.logicalSize_noteFileSize hreg', hstart.logicalSize_eq hsame]

/-- Registering a path keeps the cache coherent. -/
theorem registerPath_settled (h : Settled s file) (path : String) :
    Settled (s.registerPath path).2 file := by
  unfold registerPath
  cases hresolve : s.vfs.resolve path with
  | none => exact h
  | some inode =>
    have hsize := h.obeys.sizes inode
    have hold : (s.fileSizes[inode]?).getD 0 < 2 ^ 64 := by
      cases hget : s.fileSizes[inode]? with
      | none => exact Nat.two_pow_pos 64
      | some old => exact h.sizes inode old hget
    -- a file without a noted size is not registered and has no dirty bytes
    have hle : s.logicalSize inode ≤ (s.fileSizes[inode]?).getD 0 := by
      unfold logicalSize
      cases hget : s.fileSizes[inode]? with
      | some old => exact le_rfl
      | none =>
        cases hpath : s.inodePaths[inode]? with
        | none => exact le_rfl
        | some p =>
          have := h.noted inode (by simp [Registered, hpath])
          simp [hget] at this
    show Settled { s with
      fileSizes := s.fileSizes.insert inode
        (max ((s.fileSizes[inode]?).getD 0) (s.vfs.inodes inode).size)
      inodePaths := s.inodePaths.insert inode path } file
    refine ⟨h.retable ?_ ?_ ?_ ?_ ?_, h.room, h.bounded, h.stamps⟩
    · intro ino p hget
      obtain ⟨rfl, rfl⟩ | ⟨-, hget⟩ := lookup_insert_some hget
      · exact hresolve
      · exact h.resolved ino p hget
    · intro ino hpath
      rw [lookup_insert] at hpath ⊢
      split
      · rfl
      next hino =>
        rw [if_neg hino] at hpath
        exact h.noted ino hpath
    · intro ino size hget
      obtain ⟨-, rfl⟩ | ⟨-, hget⟩ := lookup_insert_some hget
      · exact max_lt hold hsize
      · exact h.sizes ino size hget
    · intro ino hreg
      rw [lookup_insert]
      split
      · rfl
      · exact hreg
    · rintro ino o (hlt | hfalse)
      · refine .inl ?_
        unfold logicalSize at hlt ⊢
        rw [lookup_insert, lookup_insert]
        by_cases hino : inode = ino
        · subst hino
          rw [if_pos rfl]
          exact lt_of_lt_of_le (lt_of_lt_of_le hlt hle) (le_max_left _ _)
        · rw [if_neg hino, if_neg hino]
          exact hlt
      · exact hfalse.elim

/-! ## Flushing -/

/-- Flushing listed pages stores their bytes below the logical size. -/
theorem flushPages_spec {path : String} {size : Nat} (file : Nat → Nat → UInt8)
    (entries : List (Nat × List UInt8)) (hobeys : vfs.Obeys)
    (hresolve : vfs.resolve path = some inode) (hsize : size < 2 ^ 64)
    (hentries : ∀ e ∈ entries, e.1 < 2 ^ 52 ∧ e.2.length = pageSize ∧ Shows file inode e.1 e.2) :
    ∃ n vfs', flushPages path size vfs entries = (some n, vfs') ∧ vfs'.resolve = vfs.resolve ∧
      vfs'.Obeys ∧
      (∀ o < size, o / pageSize ∈ entries.map Prod.fst →
        byteAt (vfs'.inodes inode).data o = file inode o) ∧
      ∀ ino o, byteAt (vfs'.inodes ino).data o = byteAt (vfs.inodes ino).data o ∨
        byteAt (vfs'.inodes ino).data o = file ino o := by
  induction entries generalizing vfs with
  | nil => exact ⟨0, vfs, rfl, rfl, hobeys, by simp, fun _ _ => .inl rfl⟩
  | cons e entries ih =>
    obtain ⟨index, data⟩ := e
    obtain ⟨hindex, hlength, hbytes⟩ := hentries (index, data) (by simp)
    have hrest := fun e he => hentries e (mem_cons_of_mem _ he)
    unfold flushPages
    rw [u64_page hindex]
    by_cases hge : index * pageSize ≥ size
    · rw [if_pos hge]
      obtain ⟨n, vfs', hflush, h1, h2, hstored, hkept⟩ := ih hobeys hresolve hrest
      refine ⟨n, vfs', hflush, h1, h2, fun o hlt hin => ?_, hkept⟩
      rcases mem_cons.mp hin with hpage | hin
      · -- the page lies past the end of the file: no byte of it is below `size`
        have hle := Nat.div_mul_le_self o pageSize
        rw [hpage] at hle
        change index * pageSize ≤ o at hle
        omega
      · exact hstored o hlt hin
    · rw [if_neg hge]
      obtain ⟨vfs₁, hwrite, hresolve₁, hobeys₁, hback⟩ := pwritePage_spec hobeys hresolve
        hsize (Nat.lt_of_not_le hge) hlength (hbytes hindex)
      obtain ⟨n, vfs', hflush, h1, h2, hstored, hkept⟩ :=
        ih hobeys₁ (hresolve₁ ▸ hresolve) hrest
      rw [hwrite]
      dsimp only
      rw [hflush]
      refine ⟨n + 1, vfs', rfl, h1.trans hresolve₁, h2, fun o hlt hin => ?_, fun ino o => ?_⟩
      · rcases mem_cons.mp hin with hpage | hin
        · rcases hkept inode o with heq | heq
          · rw [heq, hback, if_pos ⟨rfl, hpage, hlt⟩]
          · exact heq
        · exact hstored o hlt hin
      · rcases hkept ino o with heq | hnew
        · rw [heq, hback]
          split
          next hin => exact .inr (by rw [hin.1])
          · exact .inl rfl
        · exact .inr hnew

/-- In a settled cache a flush takes its marks away again. -/
theorem Coherent.flushed_stamps (h : Coherent s file pend) (vfs : Vfs) {key : Nat × Nat}
    {page : CachedPage} (hget : ({ (s.beginWriteback inode).2 with vfs }.endWriteback inode
      (s.beginWriteback inode).1).pages[key]? = some page) :
    page.writeback = false ∧ page.lruGen ≤ s.lruCounter := by
  obtain ⟨marked, hmarked, rfl⟩ := (remarked_endWriteback _ _ _).lookup hget
  obtain ⟨old, hold, rfl⟩ := (remarked_beginWriteback s inode).lookup hmarked
  obtain ⟨hquiet, hstamp⟩ := h.stamps key old hold
  by_cases hsel : key.1 = inode ∧ old.dirty = true
  · have hkey : (inode, key.2) = key := by rw [← hsel.1]
    rw [if_pos hsel, if_pos]
    · exact ⟨rfl, hstamp⟩
    · exact mem_map.mpr ⟨(key.2, old.data),
        mem_beginWriteback.mpr ⟨old, hkey ▸ hold, ⟨hsel.2, hquiet⟩, rfl⟩, hkey⟩
  · have hend : old.endWriteback = old := if_neg (by simp [hquiet])
    rw [if_neg hsel, hend, ite_self]
    exact ⟨hquiet, hstamp⟩

/-- A flush succeeds, keeps the cache coherent and leaves the other files alone. -/
theorem flushInode_loads (h : Settled s file) (hreg : s.Registered inode) :
    (∃ n, (s.flushInode inode).1 = .ok n) ∧ Loads s file (s.flushInode inode).2 := by
  obtain ⟨path, hpath⟩ := isSome_iff_exists.mp hreg
  have hbegin := h.toShown.beginWriteback inode
  obtain ⟨n, vfs, hflush, hresolve, hobeys, hstored, hkept⟩ := flushPages_spec file
    (s.beginWriteback inode).1 h.obeys (h.resolved inode path hpath) (h.logicalSize_lt inode) (by
      intro e he
      obtain ⟨page, hget, ⟨hdirty, -⟩, hdata⟩ := mem_beginWriteback.mp he
      have hok := h.page _ _ hget
      rw [← hdata]
      exact ⟨(hok.owned hdirty).2, hok.length, hok.bytes⟩)
  have hsame : SameTables s { (s.beginWriteback inode).2 with vfs } := ⟨rfl, rfl, rfl, hresolve⟩
  have hwritten : Shown { (s.beginWriteback inode).2 with vfs } file fun _ _ => False :=
    hbegin.store rfl ⟨rfl, rfl, rfl, hresolve⟩ hobeys hkept
  unfold flushInode
  rw [hpath]
  dsimp only
  rw [show (s.beginWriteback inode).2.vfs = s.vfs from rfl, hflush]
  refine ⟨⟨n, rfl⟩, ⟨hwritten.endWriteback ?_, h.room, ?_, ?_⟩, hsame.trans ⟨rfl, rfl, rfl, rfl⟩⟩
  · rintro entry hentry - - - o - hdiv (hlt | hfalse)
    · rw [h.logicalSize_eq hsame] at hlt
      exact hstored o hlt (mem_map.mpr ⟨entry, hentry, hdiv.symm⟩)
    · exact hfalse.elim
  · exact (remarked_endWriteback _ _ _).size_le.trans
      ((remarked_beginWriteback s inode).size_le.trans h.bounded)
  · exact fun key page => h.flushed_stamps vfs

end State

/-! ## Runs -/

/-- The cache and the bytes that every file should have. -/
structure CacheRun where
  state : State
  file : Nat → Nat → UInt8

/-- The calls on the page cache. -/
inductive CacheOp where
  | registerPath (path : String)
  | read (inode offset len : Nat)
  | write (inode offset : Nat) (data : List UInt8)
  | prefetch (inode offset count : Nat)
  | shrink (targetFree : Nat)
  | flushInode (inode : Nat)

namespace CacheRun

/-- An empty cache over the files of `vfs`. -/
def init (maxPages : Nat) (vfs : Vfs) : CacheRun :=
  ⟨State.new maxPages vfs, fun ino o => byteAt (vfs.inodes ino).data o⟩

/-- Run one call; a write changes the bytes that its file should have. -/
def step (r : CacheRun) : CacheOp → CacheRun
  | .registerPath path => { r with state := (r.state.registerPath path).2 }
  | .read inode offset len => { r with state := (r.state.read inode offset len).2 }
  | .write inode offset data =>
    { state := (r.state.write inode offset data).2,
      file := State.overwrite r.file inode offset data }
  | .prefetch inode offset count => { r with state := (r.state.prefetch inode offset count).2 }
  | .shrink targetFree => { r with state := (r.state.shrink targetFree).2 }
  | .flushInode inode => { r with state := (r.state.flushInode inode).2 }

/-- Calls name registered files, and writes end below `2 ^ 64`. -/
def Named (r : CacheRun) : CacheOp → Prop
  | .registerPath _ | .shrink _ => True
  | .read inode _ _ | .prefetch inode _ _ | .flushInode inode => r.state.Registered inode
  | .write inode offset data =>
    r.state.Registered inode ∧ offset + data.length < 2 ^ 64

/-- Named calls whose writes are roomy. -/
def Permitted (r : CacheRun) (op : CacheOp) : Prop :=
  r.Named op ∧ ∀ inode offset data, op = .write inode offset data →
    r.state.Roomy inode offset data.length

instance (r : CacheRun) : DecidablePred r.Named
  | .registerPath _ | .shrink _ => inferInstanceAs (Decidable True)
  | .read inode _ _ | .prefetch inode _ _ | .flushInode inode =>
    inferInstanceAs (Decidable (r.state.Registered inode))
  | .write inode offset data => inferInstanceAs (Decidable (r.state.Registered inode ∧
      offset + data.length < 2 ^ 64))

/-- The empty cache is settled. -/
theorem settled_init {maxPages : Nat} (hmax : 0 < maxPages) (hobeys : vfs.writeFails = [])
    (hsizes : ∀ ino, (vfs.inodes ino).size < 2 ^ 64) :
    State.Settled (init maxPages vfs).state (init maxPages vfs).file where
  room := hmax
  bounded := Nat.zero_le _
  stamps := by simp [init, State.new]
  obeys := ⟨hobeys, hsizes⟩
  resolved := by simp [init, State.new]
  noted := by simp [init, State.new, State.Registered]
  sizes := by simp [init, State.new]
  page := by simp [init, State.new]
  backed := fun ino o _ hne => absurd rfl hne

/-- A permitted call leaves the cache settled. -/
theorem settled_step {r : CacheRun} (h : State.Settled r.state r.file) {op : CacheOp}
    (hop : r.Permitted op) : State.Settled (r.step op).state (r.step op).file := by
  obtain ⟨hnamed, hroomy⟩ := hop
  cases op with
  | registerPath path => exact State.registerPath_settled h path
  | read inode offset len => exact (State.read_spec h hnamed offset len).2.settled
  | write inode offset data =>
    exact (State.write_spec h hnamed.1 hnamed.2 (hroomy inode offset data rfl)).2.1
  | prefetch inode offset count => exact (State.prefetch_loads h hnamed offset count).settled
  | shrink targetFree => exact (State.shrink_loads h targetFree).settled
  | flushInode inode => exact (State.flushInode_loads h hnamed).2.settled

end CacheRun

open CacheRun

/-- In every state of a run with roomy writes, a read of a registered file returns the bytes of
its initial contents under all earlier writes, clipped to the logical size. -/
theorem reads_coherent {maxPages : Nat} {vfs : Vfs} (hmax : 0 < maxPages)
    (hobeys : vfs.writeFails = []) (hsizes : ∀ ino, (vfs.inodes ino).size < 2 ^ 64)
    {r : CacheRun} (hreach : Reach step Permitted (init maxPages vfs) r) {inode : Nat}
    (hreg : r.state.Registered inode) (offset len : Nat) :
    (r.state.read inode offset len).1 = .ok (bytesFrom (r.file inode) offset
      (min (r.state.logicalSize inode - offset) len)) := by
  have hsettled := hreach.invariant (fun r => State.Settled r.state r.file)
    (settled_init hmax hobeys hsizes) fun _ _ hinv hop => settled_step hinv hop
  exact (State.read_spec hsettled hreg offset len).1

/-- One empty file under inode 7. -/
def oneFile : Vfs := ⟨fun path => if path = "/f" then some 7 else none, fun _ => ⟨[], 0⟩, []⟩

/-- A write of two bytes across a page boundary, in a cache of `maxPages` pages. -/
def straddlingWrite (maxPages : Nat) : CacheRun :=
  [CacheOp.registerPath "/f", .write 7 4095 [1, 2]].foldl step (init maxPages oneFile)

/-- A cache of two pages keeps both pages of the write. -/
theorem reads_coherent_two_pages :
    ((straddlingWrite 2).state.read 7 4094 3).1 = .ok (bytesFrom ((straddlingWrite 2).file 7) 4094
      (min ((straddlingWrite 2).state.logicalSize 7 - 4094) 3)) := by
  refine reads_coherent (by decide) rfl (fun _ => Nat.two_pow_pos 64) (Reach.start.foldl ?_)
    (by decide +kernel) 4094 3
  refine ⟨⟨trivial, by simp⟩, ⟨by decide +kernel, ?_⟩, trivial⟩
  rintro inode offset data heq
  cases heq
  decide +kernel

/-- In a cache of one page the second page of the same write pushes the first one out before the
file is noted to have grown: its byte is cut off and reads as zero. -/
theorem extending_write_loses_byte :
    ∃ r, Reach step Named (init 1 oneFile) r ∧ r.state.Registered 7 ∧
      r.state.logicalSize 7 = 4097 ∧ r.file 7 4095 = 1 ∧
      (r.state.read 7 4095 1).1 = .ok [0] := by
  refine ⟨straddlingWrite 1, Reach.start.foldl (by decide +kernel), by decide +kernel,
    by decide +kernel, by decide +kernel, ?_⟩
  have hread : ((straddlingWrite 1).state.read 7 4095 1).1.toOption = some [0] := by
    decide +kernel
  generalize ((straddlingWrite 1).state.read 7 4095 1).1 = result at hread ⊢
  cases result with
  | error e => cases hread
  | ok data => exact congrArg Except.ok (some.inj hread)

end KnoxOS.PageCache
