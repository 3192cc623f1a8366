import Mathlib.Data.Multiset.UnionInter

/-!
# Address spaces over one pool of frames

An abstract memory manager. Every live space is named by the frame of its top table and maps pages
to frames with an attribute; a frame is free, a table, owned by some space, or none of these. The
steps are the ways in which such a system moves: frames leave the pool as tables or as owned
frames, a page gets a new entry, spaces come and go. `Sound` is the invariant that makes frames
safe to hand out again: nothing that a live space maps or walks is free. `OnePage` says that a
frame has one page number in all spaces, and `Exclusive` that a frame mapped with write access is
mapped by one space only.
-/

namespace KnoxOS.Lib

/-- The spaces of a memory manager and what becomes of its frames. -/
@[ext] structure Mappings (φ π α : Type*) where
  maps : φ → π → Option (φ × α)
  live : Set φ
  free : Set φ
  tables : Set φ
  owned : Multiset φ

namespace Mappings

variable {φ π α : Type*}

/-- The frame of a page. -/
def frame (s : Mappings φ π α) (c : φ) (p : π) : Option φ := (s.maps c p).map Prod.fst

/-- No space maps the frame. -/
def Unmapped (s : Mappings φ π α) (f : φ) : Prop := ∀ c p, s.frame c p ≠ some f

/-- The frame is owned, or some space maps it. -/
def Used (s : Mappings φ π α) (f : φ) : Prop := f ∈ s.owned ∨ ∃ c p, s.frame c p = some f

/-- No other space maps the frame of the page. -/
def Alone (s : Mappings φ π α) (c : φ) (p : π) : Prop :=
  ∀ f d q, s.frame c p = some f → s.frame d q = some f → d = c

/-- The entries that a page of a space may get. `W` are the attributes with write access. A frame is
shared without it, and if `apart` holds a page gets it only where no other space maps its frame. -/
inductive Entry (W : α → Prop) (apart : Prop) (s : Mappings φ π α) (c : φ) (p : π) :
    Option (φ × α) → Prop where
  | kept : Entry W apart s c p (s.maps c p)
  | gone : Entry W apart s c p none
  /-- An owned frame that is mapped nowhere. -/
  | fresh {f : φ} {a : α} (hf : f ∈ s.owned) (hun : s.Unmapped f) :
      Entry W apart s c p (some (f, a))
  /-- The frame of the page with another attribute. -/
  | reflagged {f : φ} {a : α} (hf : s.frame c p = some f) (hok : apart → W a → s.Alone c p) :
      Entry W apart s c p (some (f, a))
  /-- The frame that another space maps at the same page. -/
  | shared {d f : φ} {a b : α} (hd : s.maps d p = some (f, b)) (hb : ¬ W b) (ha : ¬ W a) :
      Entry W apart s c p (some (f, a))

/-- One step of the memory manager. -/
inductive Step (W : α → Prop) (apart : Prop) (s s' : Mappings φ π α) : Prop where
  /-- Free frames become tables, some of them the top tables of new spaces. -/
  | take (T L : Set φ) (htaken : T ⊆ s.free) (hnew : L ⊆ T) (hfree : s'.free = s.free \ T)
      (htables : s'.tables = s.tables ∪ T) (hlive : s'.live = s.live ∪ L)
      (howned : s'.owned = s.owned) (hmaps : s'.maps = s.maps)
  /-- A free frame becomes owned. -/
  | own (f : φ) (hf : f ∈ s.free) (hfree : s'.free = s.free \ {f})
      (howned : s'.owned = f ::ₘ s.owned) (htables : s'.tables = s.tables)
      (hlive : s'.live = s.live) (hmaps : s'.maps = s.maps)
  /-- A page of a live space gets an entry. -/
  | edit (c : φ) (p : π) (hc : c ∈ s.live) (hentry : Entry W apart s c p (s'.maps c p))
      (hothers : ∀ d q, ¬ (d = c ∧ q = p) → s'.maps d q = s.maps d q) (hfree : s'.free = s.free)
      (htables : s'.tables = s.tables) (hlive : s'.live = s.live) (howned : s'.owned = s.owned)
  /-- A space dies: its top table and its frames, mapped by no other space, are free. -/
  | drop (c : φ) (F : Multiset φ) (hc : c ∈ s.live) (howned : s.owned = s'.owned + F)
      (hlive : s'.live = s.live \ {c}) (htables : s'.tables = s.tables \ {c})
      (hfree : ∀ f, f ∈ s'.free ↔ f ∈ s.free ∨ f ∈ F ∨ f = c) (hun : ∀ f ∈ F, s'.Unmapped f)
      (hempty : ∀ p, s'.maps c p = none) (hothers : ∀ d q, d ≠ c → s'.maps d q = s.maps d q)

/-- A sequence of steps. -/
def Steps (W : α → Prop) (apart : Prop) : Mappings φ π α → Mappings φ π α → Prop :=
  Relation.ReflTransGen (Step W apart)

variable {W : α → Prop} {apart : Prop} {s s' : Mappings φ π α}

/-- An invariant of the steps is an invariant of their sequences. -/
theorem Steps.invariant (Inv : Mappings φ π α → Prop) (h : Steps W apart s s') (hinit : Inv s)
    (hstep : ∀ s s', Inv s → Step W apart s s' → Inv s') : Inv s' := by
  induction h with
  | refl => exact hinit
  | tail _ hlast ih => exact hstep _ _ ih hlast

variable {c d : φ} {p q : π} {f : φ} {a : α}

theorem frame_eq_some : s.frame c p = some f ↔ ∃ a, s.maps c p = some (f, a) := by
  rw [frame, Option.map_eq_some_iff]
  exact ⟨fun ⟨x, hx, heq⟩ => ⟨x.2, heq ▸ hx⟩, fun ⟨a, ha⟩ => ⟨(f, a), ha, rfl⟩⟩

theorem frame_congr (h : s'.maps c p = s.maps c p) : s'.frame c p = s.frame c p :=
  congrArg (Option.map Prod.fst) h

/-! ## Soundness -/

/-- Free frames, tables and the frames that spaces own or map are kept apart. -/
structure Sound (s : Mappings φ π α) : Prop where
  maps_live : ∀ c p f, s.frame c p = some f → c ∈ s.live
  used : ∀ f, s.Used f → f ∉ s.free ∧ f ∉ s.tables
  owned_nodup : s.owned.Nodup
  live_tables : ∀ c ∈ s.live, c ∈ s.tables
  free_tables : ∀ f ∈ s.free, f ∉ s.tables

theorem Sound.unmapped_of_free (h : s.Sound) (hf : f ∈ s.free) : s.Unmapped f :=
  fun c p hmap => (h.used f (.inr ⟨c, p, hmap⟩)).1 hf

/-- The frame of a new entry was in use before. -/
theorem Entry.used {y : Option (φ × α)} (h : Entry W apart s c p y) (hf : y.map Prod.fst = some f) :
    s.Used f := by
  cases h with
  | kept => exact .inr ⟨c, p, hf⟩
  | gone => cases hf
  | fresh hmem hun =>
    cases hf
    exact .inl hmem
  | reflagged hframe hok =>
    cases hf
    exact .inr ⟨c, p, hframe⟩
  | shared hd hb ha =>
    cases hf
    exact .inr ⟨_, p, frame_eq_some.mpr ⟨_, hd⟩⟩

/-- Every step keeps the frames apart. -/
theorem Sound.step (h : s.Sound) (hstep : Step W apart s s') : s'.Sound := by
  cases hstep with
  | take T L htaken hnew hfree htables hlive howned hmaps =>
    obtain rfl : s' = { s with live := s.live ∪ L, free := s.free \ T, tables := s.tables ∪ T } :=
      Mappings.ext hmaps hlive hfree htables howned
    refine ⟨fun c p f hf => .inl (h.maps_live c p f hf), fun f hf => ?_, h.owned_nodup,
      fun c hc => hc.imp (h.live_tables c) fun hL => hnew hL, fun f hf hmem => ?_⟩
    · obtain ⟨hnf, hnt⟩ := h.used f hf
      exact ⟨fun hmem => hnf hmem.1, fun hmem => hmem.elim hnt fun hT => hnf (htaken hT)⟩
    · exact hmem.elim (h.free_tables f hf.1) hf.2
  | own f hf hfree howned htables hlive hmaps =>
    obtain rfl : s' = { s with free := s.free \ {f}, owned := f ::ₘ s.owned } :=
      Mappings.ext hmaps hlive hfree htables howned
    refine ⟨h.maps_live, fun g hg => ?_, ?_, h.live_tables, fun g hg => h.free_tables g hg.1⟩
    · by_cases hgf : g = f
      · subst hgf
        exact ⟨fun hmem => hmem.2 rfl, h.free_tables g hf⟩
      · have hold := h.used g (hg.imp_left fun hg => (Multiset.mem_cons.mp hg).resolve_left hgf)
        exact ⟨fun hmem => hold.1 hmem.1, hold.2⟩
    · exact Multiset.nodup_cons.mpr ⟨fun hmem => (h.used f (.inl hmem)).1 hf, h.owned_nodup⟩
  | edit c p hc hentry hothers hfree htables hlive howned =>
    have hmaps : ∀ d q f, s'.frame d q = some f → d ∈ s.live ∧ s.Used f := by
      intro d q f hf
      by_cases hdq : d = c ∧ q = p
      · obtain ⟨rfl, rfl⟩ := hdq
        exact ⟨hc, hentry.used hf⟩
      · rw [frame_congr (hothers d q hdq)] at hf
        exact ⟨h.maps_live d q f hf, .inr ⟨d, q, hf⟩⟩
    refine ⟨fun d q f hf => hlive ▸ (hmaps d q f hf).1, fun f hf => ?_, howned ▸ h.owned_nodup,
      hlive ▸ htables ▸ h.live_tables, hfree ▸ htables ▸ h.free_tables⟩
    rw [hfree, htables]
    rcases hf with hf | ⟨d, q, hf⟩
    · exact h.used f (.inl (howned ▸ hf))
    · exact h.used f (hmaps d q f hf).2
  | drop c F hc howned hlive htables hfree hun hempty hothers =>
    have hnodup := h.owned_nodup
    rw [howned, Multiset.nodup_add] at hnodup
    have hmaps : ∀ d q f, s'.frame d q = some f → d ≠ c ∧ s.frame d q = some f := by
      intro d q f hf
      have hd : d ≠ c := by
        rintro rfl
        rw [frame, hempty] at hf
        cases hf
      exact ⟨hd, frame_congr (hothers d q hd) ▸ hf⟩
    have hF : ∀ f ∈ F, s.Used f := fun f hf => .inl (howned ▸ Multiset.mem_add.mpr (.inr hf))
    refine ⟨fun d q f hf => ?_, fun f hf => ?_, hnodup.1, fun d hd => ?_, fun f hf => ?_⟩
    · obtain ⟨hd, hold⟩ := hmaps d q f hf
      rw [hlive]
      exact ⟨h.maps_live d q f hold, hd⟩
    · -- what is still used is none of the frames of the space
      have hnot : f ∉ F := by
        rcases hf with hf | ⟨d, q, hf⟩
        · exact fun hmem => Multiset.disjoint_left.mp hnodup.2.2 hf hmem
        · exact fun hmem => hun f hmem d q hf
      have hold : s.Used f := hf.imp (fun hf => howned ▸ Multiset.mem_add.mpr (.inl hf))
        fun ⟨d, q, hf⟩ => ⟨d, q, (hmaps d q f hf).2⟩
      obtain ⟨hnf, hnt⟩ := h.used f hold
      rw [hfree, htables]
      refine ⟨?_, fun hmem => hnt hmem.1⟩
      rintro (hmem | hmem | rfl)
      · exact hnf hmem
      · exact hnot hmem
      · exact hnt (h.live_tables f hc)
    · rw [hlive] at hd
      rw [htables]
      exact ⟨h.live_tables d hd.1, hd.2⟩
    · rw [htables]
      rintro ⟨hmem, hne⟩
      rcases (hfree f).mp hf with hf | hf | heq
      · exact h.free_tables f hf hmem
      · exact (h.used f (hF f hf)).2 hmem
      · exact hne heq

theorem Sound.steps (h : s.Sound) (hsteps : Steps W apart s s') : s'.Sound :=
  hsteps.invariant Sound h fun _ _ hs hstep => hs.step hstep

/-! ## What a step does to the maps -/

/-- A step adds nothing to the maps, or gives one page an entry. -/
theorem Step.maps_cases (h : Step W apart s s') :
    (∀ c p x, s'.maps c p = some x → s.maps c p = some x) ∨
      ∃ c p, Entry W apart s c p (s'.maps c p) ∧
        ∀ d q, ¬ (d = c ∧ q = p) → s'.maps d q = s.maps d q := by
  cases h with
  | take T L htaken hnew hfree htables hlive howned hmaps => exact .inl fun c p x hx => hmaps ▸ hx
  | own f hf hfree howned htables hlive hmaps => exact .inl fun c p x hx => hmaps ▸ hx
  | edit c p hc hentry hothers hfree htables hlive howned => exact .inr ⟨c, p, hentry, hothers⟩
  | drop c F hc howned hlive htables hfree hun hempty hothers =>
    refine .inl fun d q x hx => ?_
    have hd : d ≠ c := by
      rintro rfl
      rw [hempty] at hx
      cases hx
    rwa [← hothers d q hd]

/-- Where a page of the new state comes from: some space mapped the frame at the same page, or it is
the only page of a frame mapped nowhere before. -/
theorem Step.origin (h : Step W apart s s') (hf : s'.frame d q = some f) :
    (∃ e, s.frame e q = some f) ∨
      (s.Unmapped f ∧ ∀ e r, s'.frame e r = some f → e = d ∧ r = q) := by
  rcases h.maps_cases with hfewer | ⟨c, p, hentry, hothers⟩
  · obtain ⟨a, ha⟩ := frame_eq_some.mp hf
    exact .inl ⟨d, frame_eq_some.mpr ⟨a, hfewer d q _ ha⟩⟩
  · by_cases hdq : d = c ∧ q = p
    · obtain ⟨rfl, rfl⟩ := hdq
      rw [frame] at hf
      generalize hy : s'.maps d q = y at hentry hf
      cases hentry with
      | kept => exact .inl ⟨d, hf⟩
      | gone => cases hf
      | fresh hmem hun =>
        cases hf
        refine .inr ⟨hun, fun e r her => ?_⟩
        by_contra hne
        exact hun e r (frame_congr (hothers e r hne) ▸ her)
      | reflagged hframe hok =>
        cases hf
        exact .inl ⟨d, hframe⟩
      | shared he hb ha =>
        cases hf
        exact .inl ⟨_, frame_eq_some.mpr ⟨_, he⟩⟩
    · exact .inl ⟨d, frame_congr (hothers d q hdq) ▸ hf⟩

/-! ## One page for each frame -/

/-- A frame is mapped at one page only, by however many spaces. -/
def OnePage (s : Mappings φ π α) : Prop :=
  ∀ c p d q f, s.frame c p = some f → s.frame d q = some f → p = q

/-- No step gives a frame a second page. -/
theorem OnePage.step (h : s.OnePage) (hstep : Step W apart s s') : s'.OnePage := by
  intro c p d q f hc hd
  rcases hstep.origin hc with ⟨e, he⟩ | ⟨-, honly⟩
  · rcases hstep.origin hd with ⟨e', he'⟩ | ⟨hun, -⟩
    · exact h e p e' q f he he'
    · exact absurd he (hun e p)
  · exact (honly d q hd).2.symm

theorem OnePage.steps (h : s.OnePage) (hsteps : Steps W apart s s') : s'.OnePage :=
  hsteps.invariant OnePage h fun _ _ hs hstep => hs.step hstep

/-! ## Exclusive write access -/

/-- A frame is mapped by one space only if that space may write to it. -/
def Exclusive (W : α → Prop) (s : Mappings φ π α) : Prop :=
  ∀ c p d q f a, s.maps c p = some (f, a) → W a → s.frame d q = some f → d = c

/-- Write access stays exclusive. -/
theorem Exclusive.step (h : s.Exclusive W) (hpage : s.OnePage) (hstep : Step W apart s s')
    (hapart : apart) : s'.Exclusive W := by
  intro d q e r f a hd hw he
  rcases hstep.maps_cases with hfewer | ⟨c, p, hentry, hothers⟩
  · obtain ⟨b, hb⟩ := frame_eq_some.mp he
    exact h d q e r f a (hfewer d q _ hd) hw (frame_eq_some.mpr ⟨b, hfewer e r _ hb⟩)
  · have hold : ∀ {e r}, ¬ (e = c ∧ r = p) → s'.frame e r = s.frame e r :=
      fun hne => frame_congr (hothers _ _ hne)
    by_cases hdc : d = c ∧ q = p
    · -- the page with write access is the new one
      obtain ⟨rfl, rfl⟩ := hdc
      by_cases hec : e = d ∧ r = q
      · exact hec.1
      rw [hold hec] at he
      rw [hd] at hentry
      generalize hy : some (f, a) = y at hentry
      cases hentry with
      | kept => exact h d q e r f a hy.symm hw he
      | gone => cases hy
      | fresh hmem hun =>
        cases hy
        exact absurd he (hun e r)
      | reflagged hframe hok =>
        cases hy
        exact hok hapart hw f e r hframe he
      | shared hother hb ha =>
        cases hy
        exact absurd hw ha
    · rw [hothers d q hdc] at hd
      by_cases hec : e = c ∧ r = p
      · -- the frame was mapped with write access before
        obtain ⟨rfl, rfl⟩ := hec
        have hd' := frame_eq_some.mpr ⟨a, hd⟩
        rw [frame] at he
        generalize hy : s'.maps e r = y at hentry he
        cases hentry with
        | kept => exact h d q e r f a hd hw he
        | gone => cases he
        | fresh hmem hun =>
          cases he
          exact absurd hd' (hun d q)
        | reflagged hframe hok =>
          cases he
          exact h d q e r _ a hd hw hframe
        | @shared e' _ _ b hother hb ha =>
          cases he
          -- the page it is shared with would be the page with write access, which it is not
          have hother' := frame_eq_some.mpr ⟨b, hother⟩
          obtain rfl := h d q e' r _ a hd hw hother'
          obtain rfl := hpage e' q e' r _ hd' hother'
          rw [hother] at hd
          cases hd
          exact absurd hw hb
      · exact h d q e r f a hd hw (hold hec ▸ he)

end Mappings

end KnoxOS.Lib
