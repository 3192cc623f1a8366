import KnoxOS.PageCache.Cache

/-!
# What the cache shows

`Shown s file pend` says that the cache and the backing files together hold the bytes `file`.
Every cached page shows them, and where the backing file differs, a dirty page holds the byte and
write-back will store it: either the byte lies below the logical size, or it is `pend`ing, written
by a call in progress that has not raised the logical size yet. Nothing here depends on the marks
of a flush in progress, so that the lemmas hold between the steps of concurrent calls too.
-/

namespace KnoxOS.PageCache

open Lib List Option Function
open Std (TreeMap)

/-- Writes succeed, and offsets can count the bytes of every file. -/
structure Vfs.Obeys (vfs : Vfs) : Prop where
  writes : vfs.writeFails = []
  sizes : ∀ ino, (vfs.inodes ino).size < 2 ^ 64

/-- The bytes are those of a page of the file. -/
def Shows (file : Nat → Nat → UInt8) (ino index : Nat) (data : List UInt8) : Prop :=
  index < 2 ^ 52 → ∀ i < pageSize, byteAt data i = file ino (index * pageSize + i)

theorem div_pageSize {index i : Nat} (hi : i < pageSize) :
    (index * pageSize + i) / pageSize = index := by
  unfold pageSize at *
  omega

theorem u64_page {index : Nat} (h : index < 2 ^ 52) : u64 (index * pageSize) = index * pageSize :=
  u64_of_lt (by unfold pageSize; omega)

namespace State

/-- A byte of the backing file. -/
def backing (s : State) (ino o : Nat) : UInt8 := byteAt (s.vfs.inodes ino).data o

/-- The inode has a path for backing I/O. -/
def Registered (s : State) (ino : Nat) : Prop := (s.inodePaths[ino]?).isSome = true

instance (s : State) : DecidablePred s.Registered :=
  fun ino => inferInstanceAs (Decidable ((s.inodePaths[ino]?).isSome = true))

/-- A page cached under `key` shows the file; a dirty one can be written back. -/
structure PageShown (s : State) (file : Nat → Nat → UInt8) (key : Nat × Nat) (page : CachedPage) :
    Prop where
  length : page.data.length = pageSize
  owned : page.dirty = true → s.Registered key.1 ∧ key.2 < 2 ^ 52
  bytes : Shows file key.1 key.2 page.data

/-- The cache over its backing files shows the bytes `file`; bytes marked by `pend` may still lie
past the logical size. -/
structure Shown (s : State) (file : Nat → Nat → UInt8) (pend : Nat → Nat → Prop) : Prop where
  obeys : s.vfs.Obeys
  resolved : ∀ (ino : Nat) (path : String),
    s.inodePaths[ino]? = some path → s.vfs.resolve path = some ino
  noted : ∀ ino : Nat, s.Registered ino → (s.fileSizes[ino]?).isSome = true
  sizes : ∀ ino size : Nat, s.fileSizes[ino]? = some size → size < 2 ^ 64
  page : ∀ (key : Nat × Nat) (page : CachedPage), s.pages[key]? = some page →
    s.PageShown file key page
  backed : ∀ ino o : Nat, o < 2 ^ 64 → s.backing ino o ≠ file ino o →
    ∃ page, s.pages[(ino, o / pageSize)]? = some page ∧ page.dirty = true ∧
      (o < s.logicalSize ino ∨ pend ino o)

/-- The tables beside the cached pages are the same. -/
structure SameTables (s s' : State) : Prop where
  maxPages : s'.maxPages = s.maxPages
  fileSizes : s'.fileSizes = s.fileSizes
  inodePaths : s'.inodePaths = s.inodePaths
  resolve : s'.vfs.resolve = s.vfs.resolve

theorem SameTables.refl (s : State) : SameTables s s := ⟨rfl, rfl, rfl, rfl⟩

theorem SameTables.trans {s₁ s₂ s₃ : State} (h₁ : SameTables s₁ s₂) (h₂ : SameTables s₂ s₃) :
    SameTables s₁ s₃ where
  maxPages := h₂.maxPages.trans h₁.maxPages
  fileSizes := h₂.fileSizes.trans h₁.fileSizes
  inodePaths := h₂.inodePaths.trans h₁.inodePaths
  resolve := h₂.resolve.trans h₁.resolve

theorem SameTables.registered {s s' : State} (h : SameTables s s') {ino : Nat} :
    s'.Registered ino ↔ s.Registered ino := by
  unfold Registered
  rw [h.inodePaths]

/-- The pages have new marks: none becomes dirty, and a dirty one keeps the mark of a flush. -/
structure Remarked (s s' : State) (f : Nat × Nat → CachedPage → CachedPage) : Prop where
  pages : ∀ key : Nat × Nat, s'.pages[key]? = (s.pages[key]?).map (f key)
  data : ∀ key page, (f key page).data = page.data
  dirty : ∀ key page, (f key page).dirty = true →
    page.dirty = true ∧ (page.writeback = true → (f key page).writeback = true)

/-- The page is not cached, or clean. -/
def Clean (s : State) (ino index : Nat) : Prop :=
  ∀ page, s.pages[(ino, index)]? = some page → page.dirty = false

section

variable {s s' : State} {file : Nat → Nat → UInt8} {pend : Nat → Nat → Prop}
  {file' : Nat → Nat → UInt8} {p : CachedPage → Bool} {index inode : Nat} {pend' : Nat → Nat → Prop}
  {key : Nat × Nat} {ino : Nat} {data : List UInt8} {page : CachedPage}
  {f : Nat × Nat → CachedPage → CachedPage}

theorem Remarked.lookup (h : Remarked s s' f) (hget : s'.pages[key]? = some page) :
    ∃ old, s.pages[key]? = some old ∧ f key old = page := by
  rw [h.pages] at hget
  exact map_eq_some_iff.mp hget

theorem Remarked.size_le (h : Remarked s s' f) : s'.pages.size ≤ s.pages.size := by
  rw [← TreeMap.length_keys (t := s.pages)]
  refine size_le_length _ fun key page hget => ?_
  obtain ⟨old, hold, -⟩ := h.lookup hget
  rw [TreeMap.mem_keys, ← TreeMap.isSome_getElem?_iff_mem, hold]
  rfl

theorem clean_of_absent (h : s.pages[(ino, index)]? = none) : s.Clean ino index := by
  intro page hget
  rw [h] at hget
  cases hget

section

variable (s : State) (inode index : Nat)

/-- A lookup changes nothing but the stamp of the page it finds. -/
theorem lookup_findPage (key : Nat × Nat) :
    (s.findPage inode index).2.pages[key]? = (s.pages[key]?).map fun page =>
      if (inode, index) = key then { page with lruGen := s.lruCounter + 1 } else page := by
  unfold findPage
  split
  next hnone =>
    split
    next hkey => rw [← hkey, hnone, map_none]
    · rw [Option.map_id']
  next page hget =>
    rw [lookup_insert]
    split
    next hkey => rw [← hkey, hget, map_some]
    · rw [Option.map_id']

/-- Finding a page renews its generation and nothing else. -/
theorem remarked_findPage : Remarked s (s.findPage inode index).2 fun key page =>
    if (inode, index) = key then { page with lruGen := s.lruCounter + 1 } else page where
  pages := lookup_findPage s inode index
  data := by
    intro key page
    split <;> rfl
  dirty := by
    intro key page
    split <;> exact fun hdirty => ⟨hdirty, id⟩

theorem sameTables_findPage : SameTables s (s.findPage inode index).2 := by
  unfold findPage
  split <;> exact ⟨rfl, rfl, rfl, rfl⟩

theorem findPage_vfs : (s.findPage inode index).2.vfs = s.vfs := by
  unfold findPage
  split <;> rfl

theorem lruCounter_le_findPage : s.lruCounter ≤ (s.findPage inode index).2.lruCounter := by
  unfold findPage
  split
  · exact le_rfl
  · exact Nat.le_succ _

end

theorem sameTables_dropPage (s : State) (key : Nat × Nat) : SameTables s (s.dropPage key) :=
  ⟨rfl, rfl, rfl, rfl⟩

theorem lookup_dropPage (s : State) (key k : Nat × Nat) :
    (s.dropPage key).pages[k]? = if key = k then none else s.pages[k]? :=
  lookup_erase s.pages key k

/-- A write to the VFS within the file size limit reaches the backing file. -/
theorem pwriteFile_spec {vfs : Vfs} {path : String} {offset : Nat} (hobeys : vfs.writeFails = [])
    (hresolve : vfs.resolve path = some ino) (hend : offset + data.length < 2 ^ 64) :
    vfs.pwriteFile path offset data = (true, { vfs with
      inodes := update vfs.inodes ino ((vfs.inodes ino).writeRange offset data) }) := by
  unfold Vfs.pwriteFile
  simp only [hobeys, headD_nil, tail_nil, hresolve, if_neg (Nat.not_le.mpr hend)]
  rw [if_neg Bool.false_ne_true]

/-- A written range reads back, around it the file is as it was. -/
theorem byteAt_writeRange (f : File) (offset : Nat) (data : List UInt8) (o : Nat) :
    byteAt (f.writeRange offset data).data o =
      if offset ≤ o ∧ o < offset + data.length then byteAt data (o - offset)
      else byteAt f.data o := by
  unfold File.writeRange
  rw [byteAt_overlay, byteAt_extendTo]
  rw [length_extendTo]
  exact le_max_right _ _

/-- Writing the part of a page below `size` changes these bytes of the file and no others. -/
theorem pwritePage_spec {vfs : Vfs} {path : String} {size : Nat} {bytes : Nat → UInt8}
    (hobeys : vfs.Obeys) (hresolve : vfs.resolve path = some inode) (hsize : size < 2 ^ 64)
    (hlt : index * pageSize < size) (hlength : data.length = pageSize)
    (hbytes : ∀ i < pageSize, byteAt data i = bytes (index * pageSize + i)) :
    ∃ vfs', vfs.pwriteFile path (index * pageSize)
        (data.take (min (size - index * pageSize) data.length)) = (true, vfs') ∧
      vfs'.resolve = vfs.resolve ∧ vfs'.Obeys ∧
      ∀ ino o, byteAt (vfs'.inodes ino).data o =
        if ino = inode ∧ o / pageSize = index ∧ o < size then bytes o
        else byteAt (vfs.inodes ino).data o := by
  have hvalid : (data.take (min (size - index * pageSize) data.length)).length =
      min (size - index * pageSize) pageSize := by
    rw [length_take]
    omega
  refine ⟨_, pwriteFile_spec hobeys.writes hresolve (by omega), rfl, ⟨hobeys.writes, ?_⟩, ?_⟩
  · intro ino
    by_cases hino : ino = inode
    · subst hino
      simp only [update_self, File.writeRange, hvalid]
      have := hobeys.sizes ino
      omega
    · simp only [update_of_ne hino]
      exact hobeys.sizes ino
  · intro ino o
    by_cases hino : ino = inode
    · subst hino
      simp only [update_self, byteAt_writeRange, hvalid, true_and]
      have hpage : o / pageSize = index ↔
          index * pageSize ≤ o ∧ o < index * pageSize + pageSize := by
        have hpos := pageSize_pos
        rw [Nat.div_eq_iff hpos]
        omega
      by_cases hin : o / pageSize = index ∧ o < size
      · have hrange := hpage.mp hin.1
        rw [if_pos (by omega), if_pos hin, byteAt_take, if_pos (by omega), hbytes _ (by omega),
          Nat.add_sub_cancel' hrange.1]
      · rw [if_neg hin, if_neg]
        omega
    · simp only [update_of_ne hino, hino, false_and, if_false]

/-- The page that `lruPage` picks is cached, selected and no younger than the other selected
ones; it picks none only if none is selected. -/
theorem lruPage_some (hpick : s.lruPage p = some (key, page)) :
    s.pages[key]? = some page ∧ p page = true ∧
      ∀ (k : Nat × Nat) (q : CachedPage), s.pages[k]? = some q → p q = true →
        page.lruGen ≤ q.lruGen := by
  have hmem := argmin_mem hpick
  rw [mem_filter, mem_toList_iff] at hmem
  refine ⟨hmem.1, hmem.2, fun k q hget hq => ?_⟩
  exact le_of_mem_argmin (m := (key, page)) (a := (k, q))
    (mem_filter.mpr ⟨mem_toList_iff.mpr hget, hq⟩) hpick

theorem lruPage_none (hpick : s.lruPage p = none) (k : Nat × Nat) (q : CachedPage)
    (hget : s.pages[k]? = some q) : p q = false := by
  unfold lruPage at hpick
  rw [argmin_eq_none, filter_eq_nil_iff] at hpick
  simpa using hpick (k, q) (mem_toList_iff.mpr hget)

/-- A page that is put in replaces the one at its key. -/
theorem lookup_putPage (s : State) (inode index : Nat) (data : List UInt8) (dirty : Bool)
    (key : Nat × Nat) : (s.putPage inode index data dirty).pages[key]? =
      if (inode, index) = key then some ⟨padTo pageSize data, dirty, false, s.lruCounter + 1⟩
      else s.pages[key]? :=
  lookup_insert _ _ _ _

section

variable (h : Shown s file pend)
include h

/-- Registered files have a noted size, so the size reported by the VFS does not matter. -/
theorem Shown.logicalSize_eq (hsame : SameTables s s') (ino : Nat) :
    s'.logicalSize ino = s.logicalSize ino := by
  unfold logicalSize
  rw [hsame.fileSizes, hsame.inodePaths]
  cases hsize : s.fileSizes[ino]? with
  | some size => rfl
  | none =>
    cases hpath : s.inodePaths[ino]? with
    | none => rfl
    | some path =>
      have := h.noted ino (by simp [Registered, hpath])
      simp [hsize] at this

theorem Shown.logicalSize_lt (ino : Nat) : s.logicalSize ino < 2 ^ 64 := by
  unfold logicalSize
  split
  next size hsize => exact h.sizes ino size hsize
  · split
    · decide
    · split
      · decide
      · exact h.obeys.sizes _

/-- New pages and new backing bytes under the same tables. -/
theorem Shown.update (hsame : SameTables s s') (hobeys : s'.vfs.Obeys)
    (hpage : ∀ (key : Nat × Nat) (page : CachedPage), s'.pages[key]? = some page →
      s.PageShown file' key page)
    (hbacked : ∀ ino o : Nat, o < 2 ^ 64 → s'.backing ino o ≠ file' ino o → ∃ page,
      s'.pages[(ino, o / pageSize)]? = some page ∧ page.dirty = true ∧
        (o < s.logicalSize ino ∨ pend' ino o)) :
    Shown s' file' pend' where
  obeys := hobeys
  resolved := by
    rw [hsame.inodePaths, hsame.resolve]
    exact h.resolved
  noted := by
    intro ino hreg
    rw [hsame.fileSizes]
    exact h.noted ino (hsame.registered.mp hreg)
  sizes := by
    rw [hsame.fileSizes]
    exact h.sizes
  page := by
    intro key page hget
    have hok := hpage key page hget
    exact ⟨hok.length,
      fun hdirty => ⟨hsame.registered.mpr (hok.owned hdirty).1, (hok.owned hdirty).2⟩, hok.bytes⟩
  backed := by
    intro ino o ho hne
    rw [h.logicalSize_eq hsame]
    exact hbacked ino o ho hne

theorem Shown.pending (hmono : ∀ ino o, pend ino o → pend' ino o) : Shown s file pend' := by
  refine h.update (.refl s) h.obeys h.page fun ino o ho hne => ?_
  obtain ⟨page, hget, hdirty, hwhy⟩ := h.backed ino o ho hne
  exact ⟨page, hget, hdirty, hwhy.imp_right (hmono ino o)⟩

/-- A step that changes marks and stores bytes of the file, where each page that it cleans is
stored, keeps what is shown. -/
theorem Shown.remark (hmarks : Remarked s s' f) (hsame : SameTables s s') (hobeys : s'.vfs.Obeys)
    (hback : ∀ ino o, s'.backing ino o ≠ file ino o → s.backing ino o ≠ file ino o)
    (hkept : ∀ (ino o : Nat) (page : CachedPage), s.pages[(ino, o / pageSize)]? = some page →
      page.dirty = true → o < 2 ^ 64 → s'.backing ino o ≠ file ino o →
      o < s.logicalSize ino ∨ pend ino o → (f (ino, o / pageSize) page).dirty = true) :
    Shown s' file pend := by
  refine h.update hsame hobeys ?_ ?_
  · intro key page' hget
    obtain ⟨page, hold, rfl⟩ := hmarks.lookup hget
    have hok := h.page key page hold
    have hdata := hmarks.data key page
    exact ⟨hdata ▸ hok.length, fun hdirty => hok.owned (hmarks.dirty key page hdirty).1,
      hdata ▸ hok.bytes⟩
  · intro ino o ho hne
    obtain ⟨page, hget, hdirty, hwhy⟩ := h.backed ino o ho (hback ino o hne)
    refine ⟨f (ino, o / pageSize) page, ?_, hkept ino o page hget hdirty ho hne hwhy, hwhy⟩
    rw [hmarks.pages, hget, map_some]

theorem Shown.backing_eq {o : Nat} (ho : o < 2 ^ 64) (hclean : s.Clean ino (o / pageSize)) :
    s.backing ino o = file ino o := by
  by_contra hne
  obtain ⟨page, hget, hdirty, -⟩ := h.backed ino o ho hne
  rw [hclean page hget] at hdirty
  cases hdirty

/-! ## Looking up a page -/

/-- Finding a page shows the same file. -/
theorem Shown.findPage (inode index : Nat) : Shown (s.findPage inode index).2 file pend := by
  have hvfs := findPage_vfs s inode index
  refine h.remark (remarked_findPage s inode index) (sameTables_findPage s inode index)
    (hvfs ▸ h.obeys) ?_ fun ino o page _ hdirty _ _ _ => ?_
  · unfold backing
    rw [hvfs]
    exact fun _ _ => id
  · split <;> exact hdirty

/-! ## Dropping and writing back a page -/

/-- A page may be dropped once the backing file holds its bytes. -/
theorem Shown.dropPage
    (hstored : ∀ o < 2 ^ 64, o / pageSize = key.2 → s.backing key.1 o = file key.1 o) :
    Shown (s.dropPage key) file pend := by
  refine h.update (sameTables_dropPage s key) h.obeys ?_ ?_
  · intro k page hget
    rw [lookup_dropPage] at hget
    split at hget
    · cases hget
    · exact h.page k page hget
  · intro ino o ho hne
    obtain ⟨page, hget, hdirty, hwhy⟩ := h.backed ino o ho hne
    refine ⟨page, ?_, hdirty, hwhy⟩
    rw [lookup_dropPage, if_neg]
    · exact hget
    · rintro rfl
      exact hne (hstored o ho rfl)

/-- What write-back of a cached page does to the state: the bytes below the logical size reach
the backing file and nothing else changes. -/
theorem Shown.writeBack_spec (hget : s.pages[key]? = some page)
    (hdirty : page.dirty = true) :
    SameTables s (s.writeBack key page) ∧ (s.writeBack key page).pages = s.pages ∧
      (s.writeBack key page).lruCounter = s.lruCounter ∧
      (s.writeBack key page).vfs.Obeys ∧
      ∀ ino o, (s.writeBack key page).backing ino o =
        if ino = key.1 ∧ o / pageSize = key.2 ∧ o < s.logicalSize ino then file ino o
        else s.backing ino o := by
  have hok := h.page key page hget
  obtain ⟨hreg, hindex⟩ := hok.owned hdirty
  obtain ⟨path, hpath⟩ := isSome_iff_exists.mp hreg
  unfold writeBack
  rw [hpath]
  dsimp only
  rw [u64_page hindex]
  by_cases hlt : key.2 * pageSize < s.logicalSize key.1
  · rw [if_pos hlt]
    obtain ⟨vfs, hwrite, hresolve, hobeys, hback⟩ := pwritePage_spec h.obeys
      (h.resolved _ _ hpath) (h.logicalSize_lt key.1) hlt hok.length (hok.bytes hindex)
    rw [hwrite]
    refine ⟨⟨rfl, rfl, rfl, hresolve⟩, rfl, rfl, hobeys, fun ino o => ?_⟩
    unfold backing
    rw [hback]
    by_cases hino : ino = key.1
    · rw [hino]
    · rw [if_neg (fun hc => hino hc.1), if_neg (fun hc => hino hc.1)]
  · rw [if_neg hlt]
    refine ⟨SameTables.refl s, rfl, rfl, h.obeys, fun ino o => ?_⟩
    rw [if_neg]
    rintro ⟨rfl, hpage, hsize⟩
    have := Nat.div_mul_le_self o pageSize
    rw [hpage] at this
    omega

/-- Storing bytes of the file changes nothing that is shown. -/
theorem Shown.store (hpages : s'.pages = s.pages) (hsame : SameTables s s') (hobeys : s'.vfs.Obeys)
    (hback : ∀ ino o, s'.backing ino o = s.backing ino o ∨ s'.backing ino o = file ino o) :
    Shown s' file pend := by
  refine h.update hsame hobeys ?_ fun ino o ho hne => ?_
  · rw [hpages]
    exact h.page
  · rw [hpages]
    exact h.backed ino o ho ((hback ino o).resolve_right hne ▸ hne)

/-- Write-back changes what is stored, not what is shown. -/
theorem Shown.writeBack (hget : s.pages[key]? = some page)
    (hdirty : page.dirty = true) : Shown (s.writeBack key page) file pend := by
  obtain ⟨hsame, hpages, -, hobeys, hback⟩ := h.writeBack_spec hget hdirty
  refine h.store hpages hsame hobeys fun ino o => ?_
  rw [hback]
  split
  · exact .inr rfl
  · exact .inl rfl

/-! ## Putting and loading a page -/

/-- Put a page that shows the bytes of `file'`, where `file'` differs from `file` in that page
only. -/
theorem Shown.putPage {dirty : Bool}
    (hother : ∀ ino o, ¬ (ino = inode ∧ o / pageSize = index) → file' ino o = file ino o)
    (hbytes : Shows file' inode index data)
    (howned : dirty = true → s.Registered inode ∧ index < 2 ^ 52)
    (hmono : ∀ ino o, pend ino o → pend' ino o)
    (hnew : ∀ o < 2 ^ 64, o / pageSize = index → s.backing inode o ≠ file' inode o →
      dirty = true ∧ (o < s.logicalSize inode ∨ pend' inode o)) :
    Shown (s.putPage inode index data dirty) file' pend' := by
  have hsame : SameTables s (s.putPage inode index data dirty) := ⟨rfl, rfl, rfl, rfl⟩
  refine h.update hsame h.obeys ?_ ?_
  · intro key page hget
    rw [lookup_putPage] at hget
    split at hget
    next hkey =>
      subst hkey
      cases hget
      refine ⟨length_padTo _ _, howned, fun hindex i hi => ?_⟩
      rw [byteAt_padTo, if_pos hi]
      exact hbytes hindex i hi
    next hkey =>
      have hok := h.page key page hget
      refine ⟨hok.length, hok.owned, fun hindex i hi => ?_⟩
      rw [hok.bytes hindex i hi, hother]
      rintro ⟨hino, hdiv⟩
      exact hkey (by rw [← hino, ← hdiv, div_pageSize hi])
  · intro ino o ho hne
    rw [lookup_putPage]
    by_cases hin : ino = inode ∧ o / pageSize = index
    · obtain ⟨rfl, hdiv⟩ := hin
      obtain ⟨rfl, hwhy⟩ := hnew o ho hdiv hne
      rw [if_pos (by rw [hdiv])]
      exact ⟨_, rfl, rfl, hwhy⟩
    · rw [hother ino o hin] at hne
      obtain ⟨page, hget, hdirty, hwhy⟩ := h.backed ino o ho hne
      rw [if_neg]
      · exact ⟨page, hget, hdirty, hwhy.imp_right (hmono ino o)⟩
      · intro heq
        cases heq
        exact hin ⟨rfl, rfl⟩

/-- A registered page that is not cached dirty loads as the file has it. -/
theorem Shown.loadFromBacking_spec (hreg : s.Registered inode) :
    ∃ data, s.loadFromBacking inode index = .ok data ∧
      data.length = pageSize ∧ (s.Clean inode index → Shows file inode index data) := by
  obtain ⟨path, hpath⟩ := isSome_iff_exists.mp hreg
  unfold loadFromBacking Vfs.preadFile
  simp only [hpath, h.resolved inode path hpath]
  refine ⟨_, rfl, length_padTo _ _, fun hclean hindex i hi => ?_⟩
  rw [byteAt_padTo, if_pos hi, getD_some, byteAt_slice, if_pos hi, u64_page hindex]
  exact h.backing_eq (by unfold pageSize at *; omega) (by rw [div_pageSize hi]; exact hclean)

/-! ## Sizes and paths -/

/-- Other sizes and paths show the same bytes when no registration is lost and every byte that
awaits write-back stays below the logical size. -/
theorem Shown.retable {sizes : TreeMap Nat Nat} {paths : TreeMap Nat String}
    (hresolved : ∀ (ino : Nat) (path : String), paths[ino]? = some path →
      s.vfs.resolve path = some ino)
    (hnoted : ∀ ino : Nat, (paths[ino]?).isSome = true → (sizes[ino]?).isSome = true)
    (hsizes : ∀ ino size : Nat, sizes[ino]? = some size → size < 2 ^ 64)
    (hreg : ∀ ino : Nat, s.Registered ino → (paths[ino]?).isSome = true)
    (hgrow : ∀ ino o : Nat, o < s.logicalSize ino ∨ pend ino o →
      o < { s with fileSizes := sizes, inodePaths := paths }.logicalSize ino ∨ pend' ino o) :
    Shown { s with fileSizes := sizes, inodePaths := paths } file pend' where
  obeys := h.obeys
  resolved := hresolved
  noted := hnoted
  sizes := hsizes
  page := by
    intro key page hget
    have hok := h.page key page hget
    exact ⟨hok.length, fun hdirty => ⟨hreg _ (hok.owned hdirty).1, (hok.owned hdirty).2⟩,
      hok.bytes⟩
  backed := by
    intro ino o ho hne
    obtain ⟨page, hget, hdirty, hwhy⟩ := h.backed ino o ho hne
    exact ⟨page, hget, hdirty, hgrow ino o hwhy⟩

/-- Noting a size raises the logical size of a file to it. -/
theorem Shown.logicalSize_noteFileSize (hreg : s.Registered inode) (size ino : Nat) :
    (s.noteFileSize inode size).logicalSize ino =
      if inode = ino then max (s.logicalSize ino) size else s.logicalSize ino := by
  unfold State.noteFileSize logicalSize
  rw [lookup_insert]
  by_cases hino : inode = ino
  · subst hino
    obtain ⟨old, hold⟩ := isSome_iff_exists.mp (h.noted inode hreg)
    simp [hold]
  · simp [hino]

/-- Noting a size settles the bytes pending below it. -/
theorem Shown.noteFileSize {size : Nat} (hreg : s.Registered inode) (hsize : size < 2 ^ 64)
    (hpend : ∀ ino o, pend ino o → ino = inode ∧ o < size ∨ pend' ino o) :
    Shown (s.noteFileSize inode size) file pend' := by
  refine h.retable h.resolved ?_ ?_ (fun _ => id) ?_
  · intro ino hpath
    rw [lookup_insert]
    split
    · rfl
    · exact h.noted ino hpath
  · intro ino n hn
    obtain ⟨-, rfl⟩ | ⟨-, hn⟩ := lookup_insert_some hn
    · obtain ⟨old, hold⟩ := isSome_iff_exists.mp (h.noted inode hreg)
      rw [hold]
      exact max_lt (h.sizes inode old hold) hsize
    · exact h.sizes ino n hn
  · intro ino o hwhy
    show o < (s.noteFileSize inode size).logicalSize ino ∨ pend' ino o
    rw [h.logicalSize_noteFileSize hreg]
    rcases hwhy with hlt | hp
    · left
      split
      · exact lt_of_lt_of_le hlt (le_max_left _ _)
      · exact hlt
    · rcases hpend ino o hp with ⟨rfl, hlt⟩ | hp'
      · rw [if_pos rfl]
        exact .inl (lt_of_lt_of_le hlt (le_max_right _ _))
      · exact .inr hp'

end

/-! ## Marks of a flush -/

/-- A flush lists the dirty pages that no other flush has marked. -/
theorem mem_beginWriteback {entry : Nat × List UInt8} :
    entry ∈ (s.beginWriteback inode).1 ↔ ∃ page : CachedPage,
      s.pages[(inode, entry.1)]? = some page ∧ (page.dirty = true ∧ page.writeback = false) ∧
        page.data = entry.2 := by
  unfold beginWriteback
  simp only [List.mem_map, mem_filter, Prod.exists, mem_toList_iff, Bool.and_eq_true,
    decide_eq_true_eq, Bool.not_eq_true']
  constructor
  · rintro ⟨ino, index, page, ⟨hget, ⟨rfl, hdirty⟩, hwb⟩, rfl⟩
    exact ⟨page, hget, ⟨hdirty, hwb⟩, rfl⟩
  · rintro ⟨page, hget, ⟨hdirty, hwb⟩, hdata⟩
    exact ⟨inode, entry.1, page, ⟨hget, ⟨rfl, hdirty⟩, hwb⟩, by rw [hdata]⟩

/-- Pages being flushed are marked, the others stay as they are. -/
theorem remarked_beginWriteback (s : State) (inode : Nat) :
    Remarked s (s.beginWriteback inode).2 fun key page =>
      if key.1 = inode ∧ page.dirty = true then page.startWriteback else page where
  pages := by
    rintro ⟨ino, index⟩
    unfold beginWriteback
    rw [lookup_foldl_modify (f := CachedPage.startWriteback) fun _ => rfl]
    simp only [List.mem_map, mem_filter, Prod.exists, mem_toList_iff, Bool.and_eq_true,
      decide_eq_true_eq, Bool.not_eq_true', Prod.mk.injEq]
    cases hget : s.pages[(ino, index)]? with
    | none => simp
    | some page =>
      obtain ⟨data, dirty, writeback, lruGen⟩ := page
      -- a page that is marked already is listed by the flush that marked it
      cases writeback <;> simp_all [CachedPage.startWriteback, apply_ite some]
  data := by
    intro key page
    split <;> rfl
  dirty := by
    intro key page
    split
    · exact fun hdirty => ⟨hdirty, fun _ => rfl⟩
    · exact fun hdirty => ⟨hdirty, id⟩

theorem Shown.beginWriteback (h : Shown s file pend) (inode : Nat) :
    Shown (s.beginWriteback inode).2 file pend := by
  refine h.remark (remarked_beginWriteback s inode) ⟨rfl, rfl, rfl, rfl⟩ h.obeys (fun _ _ => id)
    fun ino o page _ hdirty _ _ _ => ?_
  split <;> exact hdirty

/-- Pages that were being flushed come out clean. -/
theorem remarked_endWriteback (s : State) (inode : Nat) (written : List (Nat × List UInt8)) :
    Remarked s (s.endWriteback inode written) fun key page =>
      if key ∈ written.map fun entry => (inode, entry.1) then page.endWriteback else page where
  pages := by
    intro key
    unfold State.endWriteback
    rw [lookup_foldl_modify]
    · split
      · rfl
      · rw [Option.map_id']
    · rintro ⟨data, dirty, _ | _, lruGen⟩ <;> rfl
  data := by
    intro key page
    unfold CachedPage.endWriteback
    split_ifs <;> rfl
  dirty := by
    intro key page
    unfold CachedPage.endWriteback
    split_ifs with hin hwb
    · exact fun hdirty => nomatch hdirty
    · exact fun hdirty => ⟨hdirty, id⟩
    · exact fun hdirty => ⟨hdirty, id⟩

/-- The end of a flush cleans pages whose bytes are stored. -/
theorem Shown.endWriteback (h : Shown s file pend) {written : List (Nat × List UInt8)}
    (hstored : ∀ entry ∈ written, ∀ page : CachedPage, s.pages[(inode, entry.1)]? = some page →
      page.writeback = true → ∀ o < 2 ^ 64, o / pageSize = entry.1 →
      o < s.logicalSize inode ∨ pend inode o → s.backing inode o = file inode o) :
    Shown (s.endWriteback inode written) file pend := by
  refine h.remark (remarked_endWriteback s inode written) ⟨rfl, rfl, rfl, rfl⟩ h.obeys
    (fun _ _ => id) fun ino o page hget hdirty ho hne hwhy => ?_
  unfold CachedPage.endWriteback
  split_ifs with hin hwb
  · obtain ⟨entry, hentry, heq⟩ := mem_map.mp hin
    obtain ⟨rfl, hindex⟩ := Prod.ext_iff.mp heq
    exact absurd (hstored entry hentry page (heq ▸ hget) hwb o ho hindex.symm hwhy) hne
  · exact hdirty
  · exact hdirty

/-! ## Evictions -/

/-- What evictions do: they drop pages and store bytes of the file. -/
structure Evicted (s s' : State) (file : Nat → Nat → UInt8) : Prop where
  same : SameTables s s'
  sub : ∀ (k : Nat × Nat) (page : CachedPage), s'.pages[k]? = some page → s.pages[k]? = some page
  stored : ∀ ino o, s'.backing ino o = s.backing ino o ∨ s'.backing ino o = file ino o

theorem Evicted.refl (s : State) (file : Nat → Nat → UInt8) : Evicted s s file :=
  ⟨.refl s, fun _ _ => id, fun _ _ => .inl rfl⟩

/-- Evictions compose. -/
theorem Evicted.trans {s₁ s₂ s₃ : State} (h₁ : Evicted s₁ s₂ file) (h₂ : Evicted s₂ s₃ file) :
    Evicted s₁ s₃ file where
  same := h₁.same.trans h₂.same
  sub := fun k page hget => h₁.sub k page (h₂.sub k page hget)
  stored := by
    intro ino o
    rcases h₂.stored ino o with heq | hnew
    · rw [heq]
      exact h₁.stored ino o
    · exact .inr hnew

theorem absent_of_sub (hsub : ∀ page, s'.pages[key]? = some page → s.pages[key]? = some page)
    (hnone : s.pages[key]? = none) : s'.pages[key]? = none := by
  refine eq_none_iff_forall_ne_some.mpr fun page hget => ?_
  cases hnone.symm.trans (hsub page hget)

theorem writeBack_pages (s : State) (key : Nat × Nat) (page : CachedPage) :
    (s.writeBack key page).pages = s.pages := by
  unfold writeBack
  split
  · rfl
  · dsimp only
    split <;> rfl

/-- An eviction finds no victim, drops a clean page, or writes back and drops the oldest of the
pages, which are dirty. A flush in progress protects the pages it has marked. -/
theorem evictLru_cases (s : State) :
    (s.evictLru = s ∧ ∀ (k : Nat × Nat) (q : CachedPage), s.pages[k]? = some q →
      q.writeback = true) ∨
    ∃ key page, s.pages[key]? = some page ∧
      (page.dirty = false ∧ s.evictLru = s.dropPage key ∨
        page.dirty = true ∧ s.evictLru = (s.writeBack key page).dropPage key ∧
          ∀ (k : Nat × Nat) (q : CachedPage), s.pages[k]? = some q → q.writeback = false →
            page.lruGen ≤ q.lruGen) := by
  unfold evictLru lruClean
  cases hclean : s.lruPage fun page => !page.dirty && !page.writeback with
  | some entry =>
    obtain ⟨key, page⟩ := entry
    obtain ⟨hget, hsel, -⟩ := lruPage_some hclean
    exact .inr ⟨key, page, hget, .inl ⟨by simp_all, rfl⟩⟩
  | none =>
    have hnone := lruPage_none hclean
    cases hdirty : s.lruPage fun page => page.dirty && !page.writeback with
    | some entry =>
      obtain ⟨key, page⟩ := entry
      obtain ⟨hget, hsel, hmin⟩ := lruPage_some hdirty
      refine .inr ⟨key, page, hget, .inr ⟨by simp_all, rfl, fun k q hk hq => hmin k q hk ?_⟩⟩
      have := hnone k q hk
      simp_all
    | none =>
      refine .inl ⟨rfl, fun k q hk => ?_⟩
      have hunclean := hnone k q hk
      have hundirty := lruPage_none hdirty k q hk
      cases hd : q.dirty <;> simp_all

/-- The pages left by an eviction were there before. -/
theorem lookup_evictLru (k : Nat × Nat) (q : CachedPage) (hget : s.evictLru.pages[k]? = some q) :
    s.pages[k]? = some q := by
  rcases evictLru_cases s with ⟨heq, -⟩ | ⟨key, page, -, ⟨-, heq⟩ | ⟨-, heq, -⟩⟩
  · rwa [heq] at hget
  · rw [heq] at hget
    exact (lookup_erase_some hget).2
  · rw [heq] at hget
    exact writeBack_pages s key page ▸ (lookup_erase_some hget).2

/-- Making room adds no page. -/
theorem lookup_makeRoom (fuel : Nat) (k : Nat × Nat) (q : CachedPage)
    (hget : (makeRoom fuel s).pages[k]? = some q) : s.pages[k]? = some q := by
  induction fuel generalizing s with
  | zero => exact hget
  | succ fuel ih =>
    unfold makeRoom at hget
    split at hget
    · exact lookup_evictLru k q (ih hget)
    · exact hget

/-- An eviction keeps what is shown if the dirty page that it drops has no byte pending past the
logical size. -/
theorem Shown.evictLru (h : Shown s file pend)
    (hlost : ∀ (key : Nat × Nat) (page : CachedPage), s.pages[key]? = some page →
      page.dirty = true → s.evictLru.pages[key]? = none →
      ∀ o, o / pageSize = key.2 → pend key.1 o → o < s.logicalSize key.1) :
    Shown s.evictLru file pend ∧ Evicted s s.evictLru file := by
  have hsub : ∀ (k : Nat × Nat) (q : CachedPage), s.evictLru.pages[k]? = some q →
    s.pages[k]? = some q := lookup_evictLru
  rcases evictLru_cases s with ⟨heq, -⟩ | ⟨key, page, hget, ⟨hclean, heq⟩ | ⟨hdirty, heq, -⟩⟩
  · rw [heq]
    exact ⟨h, .refl s file⟩
  · rw [heq] at hsub ⊢
    refine ⟨h.dropPage fun o ho hdiv => h.backing_eq ho fun p hp => ?_, sameTables_dropPage s key,
      hsub, fun _ _ => .inl rfl⟩
    rw [hdiv, hget] at hp
    cases hp
    exact hclean
  · obtain ⟨hsame, -, -, -, hback⟩ := h.writeBack_spec hget hdirty
    have hgone : s.evictLru.pages[key]? = none := by
      rw [heq, lookup_dropPage, if_pos rfl]
    rw [heq] at hsub ⊢
    refine ⟨(h.writeBack hget hdirty).dropPage fun o ho hdiv => ?_,
      hsame.trans (sameTables_dropPage _ key), hsub, fun ino o => ?_⟩
    · rw [hback]
      split
      · rfl
      next hnot =>
        by_contra hne
        obtain ⟨-, -, -, hlt | hp⟩ := h.backed key.1 o ho hne
        · exact hnot ⟨rfl, hdiv, hlt⟩
        · exact hnot ⟨rfl, hdiv, hlost key page hget hdirty hgone o hdiv hp⟩
    · show (s.writeBack key page).backing ino o = _ ∨ (s.writeBack key page).backing ino o = _
      rw [hback]
      split
      · exact .inr rfl
      · exact .inl rfl

/-- Making room shows the same file where the dropped dirty bytes are below its size. -/
theorem Shown.makeRoom (fuel : Nat) (h : Shown s file pend)
    (hlost : ∀ (key : Nat × Nat) (page : CachedPage), s.pages[key]? = some page →
      page.dirty = true → (makeRoom fuel s).pages[key]? = none →
      ∀ o, o / pageSize = key.2 → pend key.1 o → o < s.logicalSize key.1) :
    Shown (makeRoom fuel s) file pend ∧ Evicted s (makeRoom fuel s) file := by
  induction fuel generalizing s with
  | zero => exact ⟨h, .refl s file⟩
  | succ fuel ih =>
    unfold State.makeRoom at hlost ⊢
    by_cases hfull : s.pages.size ≥ s.maxPages
    · rw [if_pos hfull] at hlost ⊢
      obtain ⟨h₁, he₁⟩ := h.evictLru fun key page hget hdirty hgone =>
        hlost key page hget hdirty (absent_of_sub (lookup_makeRoom fuel key) hgone)
      obtain ⟨h₂, he₂⟩ := ih h₁ fun key page hget => by
        rw [h.logicalSize_eq he₁.same]
        exact hlost key page (he₁.sub key page hget)
      exact ⟨h₂, he₁.trans he₂⟩
    · rw [if_neg hfull]
      exact ⟨h, .refl s file⟩

end

end State

end KnoxOS.PageCache
