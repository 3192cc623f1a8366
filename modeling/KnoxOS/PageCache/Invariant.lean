import KnoxOS.PageCache.Shown

/-!
# Coherence of the page cache

`Coherent` adds to `Shown` what holds between calls that run one after the other: the cache is
within its bound, no flush is going on, and no page is stamped ahead of the clock.
`Coherent.putPage` carries this through evictions. It needs a `Window`: the pages with pending
bytes are the most recently used ones and fewer than the cache holds, so that no eviction picks
them.
-/

namespace KnoxOS.PageCache

open Lib
open Std (TreeMap)

namespace State

/-- What the cache shows while no flush is going on, within its bound. -/
structure Coherent (s : State) (file : Nat → Nat → UInt8) (pend : Nat → Nat → Prop) : Prop
    extends Shown s file pend where
  room : 0 < s.maxPages
  bounded : s.pages.size ≤ s.maxPages
  stamps : ∀ (key : Nat × Nat) (page : CachedPage), s.pages[key]? = some page →
    page.writeback = false ∧ page.lruGen ≤ s.lruCounter

section

variable {s s' : State} {file : Nat → Nat → UInt8} {pend : Nat → Nat → Prop} {data : List UInt8}

variable {key : Nat × Nat} {g hi inode last lo : Nat}

section

variable (h : Coherent s file pend)
include h

theorem Coherent.findPage (inode index : Nat) : Coherent (s.findPage inode index).2 file pend := by
  have hmax := (sameTables_findPage s inode index).maxPages
  have hmarks := remarked_findPage s inode index
  refine ⟨h.toShown.findPage inode index, ?_, ?_, fun key page hget => ?_⟩
  · rw [hmax]
    exact h.room
  · rw [hmax]
    exact hmarks.size_le.trans h.bounded
  · obtain ⟨old, hold, rfl⟩ := hmarks.lookup hget
    obtain ⟨hquiet, hstamp⟩ := h.stamps key old hold
    split
    next hkey =>
      rw [← hkey] at hold
      exact ⟨hquiet, by simp [State.findPage, hold]⟩
    · exact ⟨hquiet, hstamp.trans (lruCounter_le_findPage s inode index)⟩

/-- A page may be dropped once the backing file holds its bytes. -/
theorem Coherent.dropPage
    (hstored : ∀ o < 2 ^ 64, o / pageSize = key.2 → s.backing key.1 o = file key.1 o) :
    Coherent (s.dropPage key) file pend := by
  refine ⟨h.toShown.dropPage hstored, h.room, ?_, fun k page hget => ?_⟩
  · show (s.pages.erase key).size ≤ s.maxPages
    have := h.bounded
    rw [TreeMap.size_erase]
    split <;> omega
  · exact h.stamps k page (lookup_erase_some hget).2

/-! ## Eviction -/

/-- Eviction from a cache that is not empty drops one page: a clean one, or the oldest. -/
theorem evictLru_spec (hpos : 0 < s.pages.size) :
    ∃ key page, s.pages[key]? = some page ∧ s.evictLru.pages = s.pages.erase key ∧
      s.evictLru.lruCounter = s.lruCounter ∧ (page.dirty = false ∨
        ∀ (k : Nat × Nat) (q : CachedPage), s.pages[k]? = some q → page.lruGen ≤ q.lruGen) := by
  rcases evictLru_cases s with ⟨-, hmarked⟩ | ⟨key, page, hget, ⟨hclean, heq⟩ | ⟨hdirty, heq, hmin⟩⟩
  · -- there is a page, and no flush has marked it
    obtain ⟨k, q, hget⟩ : ∃ (k : Nat × Nat) (q : CachedPage), s.pages[k]? = some q := by
      by_contra hno
      have hle : s.pages.size ≤ ([] : List (Nat × Nat)).length :=
        size_le_length [] fun k q hget => absurd ⟨k, q, hget⟩ hno
      simp at hle
      omega
    exact absurd ((h.stamps k q hget).1.symm.trans (hmarked k q hget)) Bool.false_ne_true
  · rw [heq]
    exact ⟨key, page, hget, rfl, rfl, .inl hclean⟩
  · obtain ⟨-, hpages, hcounter, -⟩ := h.writeBack_spec hget hdirty
    rw [heq]
    refine ⟨key, page, hget, ?_, hcounter, .inr fun k q hk => hmin k q hk (h.stamps k q hk).1⟩
    show (s.writeBack key page).pages.erase key = _
    rw [hpages]

end

/-- Pages `lo` to `hi - 1` of `inode` are dirty and younger than all others, `last` is the last
page that the call in progress writes, and the cache holds more pages than the call writes from
`lo` on. -/
structure Window (s : State) (inode lo hi last g : Nat) : Prop where
  clock : g ≤ s.lruCounter
  held : ∀ index, lo ≤ index → index < hi → ∃ page, s.pages[(inode, index)]? = some page ∧
    page.dirty = true ∧ g < page.lruGen
  others : ∀ (key : Nat × Nat) (page : CachedPage), s.pages[key]? = some page →
    g < page.lruGen → key.1 = inode ∧ lo ≤ key.2 ∧ key.2 ≤ hi
  fits : last ≤ lo ∨
    last - lo + (if (s.pages[(inode, last)]?).isSome then 1 else 0) < s.maxPages

/-- Before the first of its pages is written the window is empty. -/
theorem Coherent.emptyWindow (h : Coherent s file pend) (inode lo hi last : Nat) (hle : hi ≤ lo)
    (hfits : last ≤ lo ∨
      last - lo + (if (s.pages[(inode, last)]?).isSome then 1 else 0) < s.maxPages) :
    Window s inode lo hi last s.lruCounter where
  clock := le_rfl
  held := by
    intro index hlo hhi
    omega
  others := by
    intro key page hget hyoung
    have := (h.stamps key page hget).2
    omega
  fits := hfits

/-- A page in the window is never the oldest page of a full cache. -/
theorem Window.not_oldest (w : Window s inode lo hi last g) (hhi : hi ≤ last)
    (hfull : s.maxPages ≤ s.pages.size) {page : CachedPage} (hget : s.pages[key]? = some page)
    (hmin : ∀ (k : Nat × Nat) (q : CachedPage), s.pages[k]? = some q → page.lruGen ≤ q.lruGen) :
    ¬ (key.1 = inode ∧ lo ≤ key.2 ∧ key.2 < hi) := by
  rintro ⟨hinode, hlo, hlt⟩
  obtain ⟨held, hheld, -, hyoung⟩ := w.held key.2 hlo hlt
  have hkey : (inode, key.2) = key := by rw [← hinode]
  rw [hkey, hget] at hheld
  cases hheld
  -- then every cached page is young, so all of them belong to the call in progress
  have hall : ∀ (k : Nat × Nat) (q : CachedPage), s.pages[k]? = some q →
      k.1 = inode ∧ lo ≤ k.2 ∧ k.2 ≤ hi :=
    fun k q hk => w.others k q hk (lt_of_lt_of_le hyoung (hmin k q hk))
  have hbound : s.pages.size ≤
      hi - lo + (if (s.pages[(inode, hi)]?).isSome then 1 else 0) := by
    refine le_trans (size_le_length ((List.range' lo (hi - lo +
      (if (s.pages[(inode, hi)]?).isSome then 1 else 0))).map (inode, ·)) ?_) (by simp)
    intro k q hk
    obtain ⟨hk1, hk2, hk3⟩ := hall k q hk
    have hk' : k = (inode, k.2) := by rw [← hk1]
    rw [hk', List.mem_map]
    refine ⟨k.2, List.mem_range'_1.mpr ⟨hk2, ?_⟩, rfl⟩
    rcases Nat.lt_or_eq_of_le hk3 with hlt' | heq
    · omega
    · have hcached : (s.pages[(inode, hi)]?).isSome = true := by
        rw [← heq, ← hk', hk]
        rfl
      rw [if_pos hcached]
      omega
  rcases w.fits with hle | hfits
  · omega
  · rcases Nat.lt_or_eq_of_le hhi with hlt' | rfl
    · split at hbound <;> omega
    · omega

/-- The pages of `s'` are pages of `s`, those of the window among them. -/
theorem Window.shrink (w : Window s inode lo hi last g) (hcounter : s'.lruCounter = s.lruCounter)
    (hmax : s'.maxPages = s.maxPages)
    (hsub : ∀ (k : Nat × Nat) (q : CachedPage), s'.pages[k]? = some q → s.pages[k]? = some q)
    (hkeep : ∀ index, lo ≤ index → index < hi →
      s'.pages[(inode, index)]? = s.pages[(inode, index)]?) :
    Window s' inode lo hi last g where
  clock := hcounter ▸ w.clock
  held := by
    intro index hlo hhi
    rw [hkeep index hlo hhi]
    exact w.held index hlo hhi
  others := fun key page hget => w.others key page (hsub key page hget)
  fits := by
    rw [hmax]
    refine w.fits.imp_right (lt_of_le_of_lt (Nat.add_le_add_left ?_ _))
    cases hlast : s'.pages[(inode, last)]? with
    | none => exact Nat.zero_le _
    | some page =>
      rw [hsub _ page hlast]

/-- Pending bytes past the logical size lie in the window. -/
def PendIn (s : State) (pend : Nat → Nat → Prop) (inode lo hi : Nat) : Prop :=
  ∀ ino o, pend ino o → s.logicalSize ino ≤ o →
    ino = inode ∧ lo ≤ o / pageSize ∧ o / pageSize < hi

/-- Evicting from a full cache keeps it coherent and leaves the window alone. -/
theorem evictLru_coherent (h : Coherent s file pend) (w : Window s inode lo hi last g)
    (hpend : PendIn s pend inode lo hi) (hhi : hi ≤ last) (hfull : s.maxPages ≤ s.pages.size) :
    Coherent s.evictLru file pend ∧ Window s.evictLru inode lo hi last g ∧
      Evicted s s.evictLru file ∧ s.evictLru.pages.size + 1 = s.pages.size := by
  obtain ⟨key, page, hget, hpages, hcounter, hcase⟩ :=
    evictLru_spec h (lt_of_lt_of_le h.room hfull)
  -- whichever page goes, it is not in the window
  have hout : ¬ (key.1 = inode ∧ lo ≤ key.2 ∧ key.2 < hi) := by
    rcases hcase with hclean | hmin
    · rintro ⟨hinode, hlo, hlt⟩
      obtain ⟨held, hheld, hdirty, -⟩ := w.held key.2 hlo hlt
      rw [show (inode, key.2) = key by rw [← hinode], hget] at hheld
      cases hheld
      rw [hclean] at hdirty
      cases hdirty
    · exact w.not_oldest hhi hfull hget hmin
  obtain ⟨hshown, hevict⟩ := h.toShown.evictLru fun k p hk _ hgone o hdiv hp => by
    obtain rfl : key = k := by
      by_contra hne
      rw [hpages, lookup_erase, if_neg hne, hk] at hgone
      cases hgone
    by_contra hsize
    obtain ⟨hinode, hlo, hlt⟩ := hpend key.1 o hp (Nat.le_of_not_lt hsize)
    rw [hdiv] at hlo hlt
    exact hout ⟨hinode, hlo, hlt⟩
  have hsize : s.evictLru.pages.size + 1 = s.pages.size := by
    rw [hpages, TreeMap.size_erase, if_pos (by simp [TreeMap.contains_eq_isSome_getElem?, hget])]
    have := h.room
    omega
  refine ⟨⟨hshown, hevict.same.maxPages ▸ h.room, ?_, fun k p hk => ?_⟩,
    w.shrink hcounter hevict.same.maxPages hevict.sub ?_, hevict, hsize⟩
  · have := h.bounded
    rw [hevict.same.maxPages]
    omega
  · rw [hcounter]
    exact h.stamps k p (hevict.sub k p hk)
  · intro index hlo hlt
    rw [hpages, lookup_erase, if_neg]
    rintro rfl
    exact hout ⟨rfl, hlo, hlt⟩

/-- The eviction loop ends with room for a page. -/
theorem makeRoom_spec (fuel : Nat) (hfuel : s.pages.size ≤ fuel) (h : Coherent s file pend)
    (w : Window s inode lo hi last g) (hpend : PendIn s pend inode lo hi) (hhi : hi ≤ last) :
    Coherent (makeRoom fuel s) file pend ∧ Window (makeRoom fuel s) inode lo hi last g ∧
      Evicted s (makeRoom fuel s) file ∧ (makeRoom fuel s).pages.size < s.maxPages := by
  induction fuel generalizing s with
  | zero =>
    have := h.room
    exact ⟨h, w, .refl s file, show s.pages.size < _ by omega⟩
  | succ fuel ih =>
    unfold makeRoom
    by_cases hfull : s.pages.size ≥ s.maxPages
    · rw [if_pos hfull]
      obtain ⟨h1, w1, he, hsize⟩ := evictLru_coherent h w hpend hhi hfull
      have hpend1 : PendIn s.evictLru pend inode lo hi := by
        intro ino o hp hle
        rw [h.logicalSize_eq he.same] at hle
        exact hpend ino o hp hle
      obtain ⟨h2, w2, he2, hsize2⟩ := ih (by omega) h1 w1 hpend1
      exact ⟨h2, w2, he.trans he2, he.same.maxPages ▸ hsize2⟩
    · rw [if_neg hfull]
      exact ⟨h, w, .refl s file, Nat.lt_of_not_le hfull⟩

/-! ## Inserting a page -/

/-- A page put into a cache with room keeps its bounds and stamps. -/
theorem Coherent.putPage (h : Coherent s file pend) (hroom : s.pages.size < s.maxPages)
    {index : Nat} {dirty : Bool} {file' : Nat → Nat → UInt8} {pend' : Nat → Nat → Prop}
    (hput : Shown (s.putPage inode index data dirty) file' pend') :
    Coherent (s.putPage inode index data dirty) file' pend' := by
  refine ⟨hput, h.room, ?_, fun key page hget => ?_⟩
  · show (s.pages.insert _ _).size ≤ s.maxPages
    rw [TreeMap.size_insert]
    split <;> omega
  · rw [lookup_putPage] at hget
    split at hget
    · cases hget
      exact ⟨rfl, le_rfl⟩
    · obtain ⟨hquiet, hstamp⟩ := h.stamps key page hget
      exact ⟨hquiet, Nat.le_succ_of_le hstamp⟩

theorem Window.fits_putPage (w : Window s inode lo hi last g) (hlast : hi < last)
    (data : List UInt8) : last ≤ lo ∨ last - lo +
      (if ((s.putPage inode hi data true).pages[(inode, last)]?).isSome then 1 else 0) <
        s.maxPages := by
  have hne : ¬ (inode, hi) = (inode, last) := fun heq => hlast.ne (Prod.ext_iff.mp heq).2
  rw [lookup_putPage, if_neg hne]
  exact w.fits

/-- Writing the next page of the call in progress extends the window. -/
theorem Window.putPage (w : Window s inode lo hi last g) (hlast : hi < last)
    (hput : Coherent (s.putPage inode hi data true) file pend) :
    ∃ g', Window (s.putPage inode hi data true) inode lo (hi + 1) last g' := by
  have hfits := w.fits_putPage hlast data
  by_cases hlo : lo ≤ hi
  · have hclock := w.clock
    refine ⟨g, Nat.le_succ_of_le hclock, ?_, ?_, hfits⟩
    · intro index hlo' hlt
      rw [lookup_putPage]
      split
      · exact ⟨_, rfl, rfl, Nat.lt_succ_of_le hclock⟩
      next hne =>
        refine w.held index hlo' (lt_of_le_of_ne (Nat.le_of_lt_succ hlt) ?_)
        intro heq
        exact hne (by rw [heq])
    · intro key page hget hyoung
      rw [lookup_putPage] at hget
      split at hget
      next hkey =>
        subst hkey
        exact ⟨rfl, hlo, Nat.le_succ _⟩
      · obtain ⟨h1, h2, h3⟩ := w.others key page hget hyoung
        exact ⟨h1, h2, Nat.le_succ_of_le h3⟩
  · exact ⟨_, hput.emptyWindow inode lo (hi + 1) last (Nat.lt_of_not_le hlo) hfits⟩

/-- Looking the next page up makes it as young as the window, which it is about to join. -/
theorem Window.findPage (h : Coherent s file pend) (w : Window s inode lo hi last g) :
    ∃ g', Window (s.findPage inode hi).2 inode lo hi last g' := by
  have hmax := (sameTables_findPage s inode hi).maxPages
  have hlookup := lookup_findPage s inode hi
  have hsome : ((s.findPage inode hi).2.pages[(inode, last)]?).isSome =
      (s.pages[(inode, last)]?).isSome := by
    rw [hlookup, Option.isSome_map]
  have hfits := w.fits
  rw [← hsome, ← hmax] at hfits
  by_cases hlo : hi ≤ lo
  · exact ⟨_, (h.findPage inode hi).emptyWindow inode lo hi last hlo hfits⟩
  · refine ⟨g, w.clock.trans (lruCounter_le_findPage s inode hi), ?_, ?_, hfits⟩
    · intro index hlo' hlt
      obtain ⟨page, hget, hheld⟩ := w.held index hlo' hlt
      have hne : ¬ (inode, hi) = (inode, index) := fun heq => hlt.ne' (Prod.ext_iff.mp heq).2
      refine ⟨page, ?_, hheld⟩
      rw [hlookup, hget, Option.map_some, if_neg hne]
    · intro key page hget hyoung
      by_cases hkey : (inode, hi) = key
      · rw [← hkey]
        exact ⟨rfl, Nat.le_of_not_le hlo, le_rfl⟩
      · simp only [hlookup, if_neg hkey, Option.map_id'] at hget
        exact w.others key page hget hyoung

end

/-! ## Clean pages -/

section

variable {s : State} {file : Nat → Nat → UInt8}

/-- Coherence with no call in progress. -/
abbrev Settled (s : State) (file : Nat → Nat → UInt8) : Prop := Coherent s file fun _ _ => False

/-- A registered page that is not cached loads as the file has it. -/
theorem loadFromBacking_spec {pend : Nat → Nat → Prop} (h : Coherent s file pend)
    {inode index : Nat} (hreg : s.Registered inode)
    (habsent : s.pages[(inode, index)]? = none) :
    ∃ data, s.loadFromBacking inode index = .ok data ∧ data.length = pageSize ∧
      Shows file inode index data := by
  obtain ⟨data, hload, hlength, hbytes⟩ := h.toShown.loadFromBacking_spec hreg
  exact ⟨data, hload, hlength, hbytes (clean_of_absent habsent)⟩

/-- What a call that only loads pages keeps: coherence and the tables. -/
structure Loads (s : State) (file : Nat → Nat → UInt8) (s' : State) : Prop where
  settled : Settled s' file
  same : SameTables s s'

theorem Loads.trans {s₁ s₂ s₃ : State} (h₁ : Loads s₁ file s₂) (h₂ : Loads s₂ file s₃) :
    Loads s₁ file s₃ := ⟨h₂.settled, h₁.same.trans h₂.same⟩

theorem Settled.refl (h : Settled s file) : Loads s file s := ⟨h, .refl s⟩

/-- Inserting a loaded page that is not cached keeps the cache coherent; no other page appears. -/
theorem insertPage_clean (h : Settled s file) {inode index : Nat}
    (habsent : s.pages[(inode, index)]? = none)
    (hbytes : Shows file inode index data) :
    Loads s file (s.insertPage inode index data false) ∧
      ∀ k : Nat × Nat, k ≠ (inode, index) → s.pages[k]? = none →
        (s.insertPage inode index data false).pages[k]? = none := by
  -- nothing is pending, so an empty window will do
  have w := h.emptyWindow inode 0 0 0 le_rfl (.inl le_rfl)
  have hpend : PendIn s (fun _ _ => False) inode 0 0 := fun _ _ hp => hp.elim
  obtain ⟨h1, -, ⟨hsame, hsub, -⟩, hroom⟩ := makeRoom_spec s.pages.size le_rfl h w hpend le_rfl
  have habsent1 := absent_of_sub (hsub _) habsent
  refine ⟨⟨?_, hsame.trans ⟨rfl, rfl, rfl, rfl⟩⟩, fun k hne hnone => ?_⟩
  · refine h1.putPage (hsame.maxPages ▸ hroom) (h1.toShown.putPage (fun _ _ _ => rfl) hbytes
      (by simp) (fun _ _ => id) fun o ho hdiv hne => ?_)
    exact absurd (h1.backing_eq ho (by rw [hdiv]; exact clean_of_absent habsent1)) hne
  · show ((makeRoom s.pages.size s).pages.insert _ _)[k]? = none
    rw [lookup_insert, if_neg hne.symm]
    exact absent_of_sub (hsub k) hnone

end

end State

end KnoxOS.PageCache
