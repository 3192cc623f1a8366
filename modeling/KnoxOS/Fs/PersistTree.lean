import KnoxOS.Fs.PersistLog
import KnoxOS.Lib.Ledger
import KnoxOS.Vfs.Namespace

/-!
# What restoring does to the tree

`place` is the effect of one restored entry on the tree of paths, and `restoreEntry_tree` says that
`restore_all` has this effect as long as the entry fits: no file stands where it needs a directory,
and no directory where it puts a file. Entries that do not conflict with each other fit in any order
(`Restorable.fitsAll`). A log whose entries fit is restored as it says (`FitsAll.restore`), and the
last entry of a path decides (`FitsAll.shows_last`).
-/

namespace KnoxOS.Fs.Persist

open Lib Vfs List Tree Option

variable {v : VirtualFS} {t : Tree} {e e' : Entry} {log : List Entry} {ms : List Str} {path : Str}
  {node : Vfs.FileType × List UInt8}

/-! ## The directory of a path -/

/-- What is before the last slash is the parent. -/
theorem beforeLastSlash_slash {part : Str} (h : '/' ∉ part) (current : Str) :
    beforeLastSlash (current ++ '/' :: part) = current := by
  have hdrop : (part.reverse ++ '/' :: current.reverse).dropWhile (· ≠ '/') =
      '/' :: current.reverse := by
    rw [dropWhile_append_of_pos]
    · exact dropWhile_cons_of_neg (by decide)
    · intro c hc
      have hne : c ≠ '/' := fun heq => h (heq ▸ mem_reverse.mp hc)
      simpa using hne
  unfold beforeLastSlash
  rw [reverse_append, reverse_cons, append_assoc, singleton_append, hdrop]
  simp

/-- A path has a last slash or none. -/
theorem slash_cases (path : Str) :
    '/' ∉ path ∨ ∃ current part, path = current ++ '/' :: part ∧ '/' ∉ part := by
  induction path with
  | nil => exact .inl not_mem_nil
  | cons c path ih =>
    rcases ih with hno | ⟨current, part, rfl, hpart⟩
    · by_cases hc : c = '/'
      · exact .inr ⟨[], path, by rw [hc]; rfl, hno⟩
      · refine .inl fun hmem => ?_
        rcases mem_cons.mp hmem with heq | hmem
        · exact hc heq.symm
        · exact hno hmem
    · exact .inr ⟨c :: current, part, rfl, hpart⟩

/-- What is before the last slash is the directory that `write_file` uses. -/
theorem components_beforeLastSlash (h : lastPart (splitPath path) ≠ []) :
    components (beforeLastSlash path) = components (parentPath (splitPath path)) := by
  rcases slash_cases path with hno | ⟨current, part, rfl, hpart⟩
  · have hdrop : path.reverse.dropWhile (· ≠ '/') = [] := by
      rw [← append_nil path.reverse, dropWhile_append_of_pos]
      · rfl
      · intro c hc
        have hne : c ≠ '/' := fun heq => hno (heq ▸ mem_reverse.mp hc)
        simpa using hne
    rw [VirtualFS.splitPath_eq_singleton hno]
    unfold beforeLastSlash
    rw [hdrop]
    show components [] = components ['/']
    decide
  · have hne : part ≠ [] := by
      rintro rfl
      exact h (VirtualFS.lastPart_slash hpart current)
    rw [beforeLastSlash_slash hpart, VirtualFS.components_parent_slash ⟨hne, hpart⟩]

/-! ## Sizes -/

theorem length_splitOn_le (c : Char) (path : Str) : (path.splitOn c).length ≤ path.length + 1 := by
  induction path with
  | nil => simp
  | cons x path ih =>
    rw [splitOn_cons_eq_if_modifyHead]
    split_ifs with hx
    · rw [length_cons, length_cons]
      omega
    · rw [length_modifyHead, length_cons]
      omega

theorem length_le_asBytes (path : Str) : path.length ≤ (asBytes path).length := by
  induction path with
  | nil => exact Nat.zero_le _
  | cons c path ih =>
    have hpos : 0 < (String.utf8EncodeChar c).length := by
      rw [String.length_utf8EncodeChar]
      exact Char.utf8Size_pos c
    show path.length + 1 ≤ (String.utf8EncodeChar c ++ asBytes path).length
    rw [length_append]
    omega

/-- The path of an entry has few enough parts to be walked. -/
theorem Entry.Sized.length_splitPath (h : e.Sized) : (splitPath e.path).length ≤ 2 ^ 30 := by
  have hsplit := length_splitOn_le '/' (e.path.dropWhile (· = '/'))
  have hdrop := (dropWhile_suffix (l := e.path) (· = '/')).length_le
  have hbytes := length_le_asBytes e.path
  have hpath := h.path
  show ((e.path.dropWhile (· = '/')).splitOn '/').length ≤ _
  omega

theorem length_components_le (path : Str) : (components path).length ≤ (splitPath path).length := by
  rw [components_eq_filter]
  exact length_filter_le _ _

/-! ## One entry -/

namespace Entry

/-- The path of an entry, by its parts. -/
def names (e : Entry) : List Str := components e.path

/-- The entry is one of a directory. -/
def IsDir (e : Entry) : Prop := e.fileType = 1

instance decidableIsDir (e : Entry) : Decidable e.IsDir :=
  inferInstanceAs (Decidable (e.fileType = 1))

/-- The entry needs a directory there. -/
def DirOf (e : Entry) (ms : List Str) : Prop := ms <+: e.names ∧ (e.IsDir ∨ ms ≠ e.names)

instance decidableDirOf (e : Entry) (ms : List Str) : Decidable (e.DirOf ms) :=
  inferInstanceAs (Decidable (ms <+: e.names ∧ (e.IsDir ∨ ms ≠ e.names)))

end Entry

/-- The tree with the entry in it. -/
def place (t : Tree) (e : Entry) : Tree := fun ms =>
  if e.DirOf ms then if t ms = none then some (.directory, []) else t ms
  else if ms = e.names then some (((t ms).map Prod.fst).getD .regular, e.data)
  else t ms

/-- The entry can be put into the tree: where it needs directories, nothing else stands, where it
puts a file, nothing but a file, and the path of a file does not end in a slash. -/
structure Fits (t : Tree) (e : Entry) : Prop where
  dirs : ∀ ms ∈ e.names.inits, ∀ node ∈ t ms, e.DirOf ms → node.1 = .directory
  file : ∀ node ∈ t e.names, ¬ e.IsDir → node.1 = .regular ∨ node.1 = .charDevice
  ending : ¬ e.IsDir → lastPart (splitPath e.path) ≠ []

theorem names_eq (h : lastPart (splitPath e.path) ≠ []) :
    e.names = components (parentPath (splitPath e.path)) ++ [lastPart (splitPath e.path)] :=
  components_of_lastPart_ne h

/-- The directories of a file are those of its parent. -/
theorem dirOf_file_iff (hfile : ¬ e.IsDir) (h : lastPart (splitPath e.path) ≠ []) :
    e.DirOf ms ↔ ms <+: components (parentPath (splitPath e.path)) := by
  unfold Entry.DirOf
  rw [names_eq h, prefix_concat_iff]
  constructor
  · rintro ⟨hpre, hne⟩
    have hne := hne.resolve_left hfile
    exact hpre.resolve_left hne
  · intro hpre
    refine ⟨.inr hpre, .inr ?_⟩
    rintro rfl
    have hlen := hpre.length_le
    rw [length_append, length_singleton] at hlen
    omega

theorem Fits.dirsTo_file (h : Fits t e) (hfile : ¬ e.IsDir) :
    t.DirsTo (components (parentPath (splitPath e.path))) := by
  intro ms node hms hnode
  have hdir := (dirOf_file_iff hfile (h.ending hfile)).mpr hms
  exact h.dirs ms ((mem_inits _ _).mpr hdir.1) node hnode hdir

theorem Fits.dirsTo_dir (h : Fits t e) (hdir : e.IsDir) : t.DirsTo e.names := by
  intro ms node hms hnode
  exact h.dirs ms ((mem_inits _ _).mpr hms) node hnode ⟨hms, .inl hdir⟩

theorem place_dir (hdir : e.IsDir) : place t e = t.makeDirs e.names := by
  funext ms
  unfold place makeDirs Entry.DirOf
  by_cases hms : ms <+: e.names
  · simp [hms, hdir]
  · have hne : ms ≠ e.names := by
      rintro rfl
      exact hms prefix_rfl
    simp [hms, hne]

/-- Replaying a file makes the directories on the way and writes it. -/
theorem place_file (hfile : ¬ e.IsDir) (h : lastPart (splitPath e.path) ≠ []) :
    place t e = (t.makeDirs (components (parentPath (splitPath e.path)))).write e.names e.data := by
  funext ms
  unfold place write
  rw [Function.update_apply]
  by_cases hms : e.DirOf ms
  · have hne : ms ≠ e.names := hms.2.resolve_left hfile
    rw [if_pos hms, if_neg hne]
    unfold makeDirs
    have hpre := (dirOf_file_iff hfile h).mp hms
    by_cases hnone : t ms = none
    · rw [if_pos hnone, if_pos ⟨hpre, hnone⟩]
    · rw [if_neg hnone, if_neg fun hand => hnone hand.2]
  · have hoff : ¬ ms <+: components (parentPath (splitPath e.path)) := fun hpre =>
      hms ((dirOf_file_iff hfile h).mpr hpre)
    split_ifs with heq
    · subst heq
      rw [makeDirs_off_path hoff]
    · rw [makeDirs_off_path hoff]

/-- Restoring an entry that fits has the effect of `place`. -/
theorem restoreEntry_tree (h : v.Plain) (hfits : Fits v.tree e) (hsized : e.Sized)
    (hroom : v.nextIno + 2 ^ 31 < 2 ^ 64) :
    (restoreEntry v e).Plain ∧ (restoreEntry v e).nextIno ≤ v.nextIno + 2 ^ 31 ∧
      (restoreEntry v e).tree = place v.tree e := by
  have hsplit := hsized.length_splitPath
  have hcomps := length_components_le e.path
  unfold restoreEntry
  by_cases hdir : e.fileType = 1
  · rw [if_pos hdir, place_dir hdir]
    obtain ⟨hplain, hnext, htree⟩ := h.ensureDirectory (hfits.dirsTo_dir hdir) (by omega)
    exact ⟨hplain, by omega, htree⟩
  · have hlast := hfits.ending hdir
    have hdirs := hfits.dirsTo_file hdir
    have hparent := components_beforeLastSlash hlast
    have hlen : (components (parentPath (splitPath e.path))).length ≤ 2 ^ 30 := by
      have heq := congrArg length (names_eq hlast)
      rw [length_append] at heq
      have hle : e.names.length ≤ (splitPath e.path).length := hcomps
      omega
    rw [if_neg hdir, place_file hdir hlast]
    dsimp only
    -- the directory of the file
    have hmade : ∃ v₁, (if beforeLastSlash e.path ≠ [] then
          v.ensureDirectory (beforeLastSlash e.path) else v) = v₁ ∧ v₁.Plain ∧
        v₁.nextIno ≤ v.nextIno + 2 ^ 30 ∧
        v₁.tree = v.tree.makeDirs (components (parentPath (splitPath e.path))) := by
      refine ⟨_, rfl, ?_⟩
      by_cases hnil : beforeLastSlash e.path = []
      · rw [if_neg (not_not.mpr hnil)]
        rw [hnil] at hparent
        refine ⟨h, Nat.le_add_right _ _, ?_⟩
        rw [← hparent]
        exact (h.wf.closed_tree.makeDirs_eq h.wf.tree_root.ne_none).symm
      · rw [if_pos hnil]
        rw [← hparent] at hdirs hlen ⊢
        obtain ⟨hplain, hnext, htree⟩ := h.ensureDirectory hdirs (by omega)
        exact ⟨hplain, by omega, htree⟩
    obtain ⟨v₁, hv₁, hplain₁, hnext₁, htree₁⟩ := hmade
    rw [hv₁]
    have hdirs₁ : v₁.tree.DirsTo (components (parentPath (splitPath e.path))) :=
      htree₁ ▸ hdirs.makeDirs _
    obtain ⟨v₂, hwrite, hplain₂, hnext₂, htree₂⟩ := hplain₁.writeFile hlast hdirs₁ e.data (by omega)
    rw [hwrite]
    have htree₂' : v₂.tree = (v.tree.makeDirs (components (parentPath (splitPath e.path)))).write
        e.names e.data := by
      rw [htree₂, htree₁, makeDirs_makeDirs prefix_rfl]
      rfl
    have hnext : v₂.nextIno ≤ v.nextIno + 2 ^ 31 := by omega
    -- and its permissions, which the tree does not show
    cases hresolve : v₂.resolvePath e.path with
    | none => exact ⟨hplain₂, hnext, htree₂'⟩
    | some ino =>
      rw [hplain₂.wf.resolvePath] at hresolve
      obtain ⟨i, hi⟩ := hplain₂.wf.node_of_find hresolve
      obtain ⟨hplain₃, htree₃⟩ := hplain₂.modifyInode
        (f := fun i => { i with permissions := e.permissions.toNat })
        (fun _ => ⟨rfl, rfl, rfl, rfl⟩) hresolve hi
      refine ⟨hplain₃, hnext, ?_⟩
      rw [htree₃, ← htree₂', ← VirtualFS.tree_of_find hresolve hi, Function.update_eq_self]

/-! ## Logs -/

/-- The one entry puts a file where the other needs a directory. -/
def Conflict (e e' : Entry) : Prop := ¬ e.IsDir ∧ e'.DirOf e.names

instance decidableConflict (e e' : Entry) : Decidable (Conflict e e') :=
  inferInstanceAs (Decidable (¬ e.IsDir ∧ e'.DirOf e.names))

/-- The entries have room for each other. -/
def Compatible (e e' : Entry) : Prop := ¬ Conflict e e' ∧ ¬ Conflict e' e

instance decidableCompatible (e e' : Entry) : Decidable (Compatible e e') :=
  inferInstanceAs (Decidable (¬ Conflict e e' ∧ ¬ Conflict e' e))

theorem Compatible.symm (h : Compatible e e') : Compatible e' e := ⟨h.2, h.1⟩

/-- Where a node of the tree comes from. -/
theorem place_eq_some (h : place t e ms = some node) :
    t ms = some node ∨ e.DirOf ms ∧ node = (.directory, []) ∨
      ¬ e.IsDir ∧ e.names = ms ∧ node.2 = e.data ∧
        (node.1 = .regular ∨ ∃ old, t ms = some old ∧ old.1 = node.1) := by
  unfold place at h
  split_ifs at h with hdir hnone hms
  · exact .inr (.inl ⟨hdir, (some.inj h).symm⟩)
  · exact .inl h
  · have hfile : ¬ e.IsDir := fun hd => hdir ⟨hms ▸ prefix_rfl, .inl hd⟩
    obtain rfl := some.inj h
    refine .inr (.inr ⟨hfile, hms.symm, rfl, ?_⟩)
    cases hold : t ms with
    | none => exact .inl rfl
    | some old => exact .inr ⟨old, rfl, rfl⟩
  · exact .inl h

/-- The kind of a node after a log is placed. -/
theorem foldl_place_kind (h : log.foldl place t ms = some node) :
    (∃ old, t ms = some old ∧ old.1 = node.1) ∨
      node.1 = .directory ∧ (∃ e ∈ log, e.DirOf ms) ∨
      node.1 = .regular ∧ ∃ e ∈ log, ¬ e.IsDir ∧ e.names = ms := by
  induction log generalizing t with
  | nil => exact .inl ⟨node, h, rfl⟩
  | cons e log ih =>
    rcases ih h with ⟨old, hold, hkind⟩ | ⟨hkind, e', he', hdir⟩ | ⟨hkind, e', he', hfile⟩
    · rcases place_eq_some hold with hold | ⟨hdir, rfl⟩ |
        ⟨hfile, hms, -, hreg | ⟨old', hold', heq⟩⟩
      · exact .inl ⟨old, hold, hkind⟩
      · exact .inr (.inl ⟨hkind.symm, e, mem_cons_self, hdir⟩)
      · exact .inr (.inr ⟨hkind.symm.trans hreg, e, mem_cons_self, hfile, hms⟩)
      · exact .inl ⟨old', hold', heq.trans hkind⟩
    · exact .inr (.inl ⟨hkind, e', mem_cons_of_mem _ he', hdir⟩)
    · exact .inr (.inr ⟨hkind, e', mem_cons_of_mem _ he', hfile⟩)

/-- An entry that fits still fits behind entries that it does not conflict with. -/
theorem Fits.foldl (h : Fits t e) (hcompat : ∀ e' ∈ log, Compatible e' e) :
    Fits (log.foldl place t) e where
  dirs := by
    intro ms hms node hnode hdir
    rcases foldl_place_kind hnode with ⟨old, hold, hkind⟩ | ⟨hkind, -⟩ | ⟨-, e', he', hfile, rfl⟩
    · exact hkind.symm.trans (h.dirs ms hms old hold hdir)
    · exact hkind
    · exact absurd ⟨hfile, hdir⟩ (hcompat e' he').1
  file := by
    intro node hnode hfile
    rcases foldl_place_kind hnode with ⟨old, hold, hkind⟩ | ⟨-, e', he', hdir⟩ | ⟨hkind, -⟩
    · rw [← hkind]
      exact h.file old hold hfile
    · exact absurd ⟨hfile, hdir⟩ (hcompat e' he').2
    · exact .inl hkind
  ending := h.ending

/-- The entries can be put into the tree one after the other. -/
def FitsAll (t : Tree) : List Entry → Prop
  | [] => True
  | e :: log => Fits t e ∧ FitsAll (place t e) log

/-- A log fits when its start does and the last entry fits behind it. -/
theorem fitsAll_concat : FitsAll t (log ++ [e]) ↔ FitsAll t log ∧ Fits (log.foldl place t) e := by
  induction log generalizing t with
  | nil => exact ⟨fun h => ⟨trivial, h.1⟩, fun h => ⟨h.2, trivial⟩⟩
  | cons x log ih =>
    show Fits t x ∧ FitsAll (place t x) (log ++ [e]) ↔ _
    rw [ih, ← and_assoc]
    rfl

/-- Restoring a log has the effect of placing its entries. -/
theorem FitsAll.restore (h : v.Plain) (hlog : FitsAll v.tree log) (hsized : ∀ e ∈ log, e.Sized)
    (hroom : v.nextIno + 2 ^ 31 * log.length < 2 ^ 64) :
    (log.foldl restoreEntry v).Plain ∧
      (log.foldl restoreEntry v).nextIno ≤ v.nextIno + 2 ^ 31 * log.length ∧
      (log.foldl restoreEntry v).tree = log.foldl place v.tree := by
  induction log using reverseRecOn with
  | nil => exact ⟨h, by simp, rfl⟩
  | append_singleton log e ih =>
    obtain ⟨hinit, hfits⟩ := fitsAll_concat.mp hlog
    have hlen : 2 ^ 31 * (log ++ [e]).length = 2 ^ 31 * log.length + 2 ^ 31 := by
      rw [length_append]
      exact Nat.mul_succ _ _
    rw [hlen, ← Nat.add_assoc] at hroom ⊢
    obtain ⟨hplain, hnext, htree⟩ := ih hinit
      (fun e he => hsized e (mem_append_left _ he))
      (Nat.lt_of_le_of_lt (Nat.le_add_right _ _) hroom)
    rw [← htree] at hfits
    obtain ⟨hplain', hnext', htree'⟩ := restoreEntry_tree hplain hfits
      (hsized e (mem_append_right _ mem_cons_self))
      (Nat.lt_of_le_of_lt (Nat.add_le_add_right hnext _) hroom)
    rw [foldl_append, foldl_append]
    refine ⟨hplain', Nat.le_trans hnext' (Nat.add_le_add_right hnext _), ?_⟩
    show (restoreEntry (log.foldl restoreEntry v) e).tree = _
    rw [htree', htree]
    rfl

/-- The entries fit into the tree, and have room for each other. -/
structure Restorable (t : Tree) (log : List Entry) : Prop where
  fits : ∀ e ∈ log, Fits t e
  compatible : ∀ e ∈ log, ∀ e' ∈ log, Compatible e e'

/-- Such entries can be put into the tree in any order. -/
theorem Restorable.fitsAll (h : Restorable t log) : FitsAll t log := by
  induction log using reverseRecOn with
  | nil => trivial
  | append_singleton log e ih =>
    have hmem : e ∈ log ++ [e] := mem_append_right _ mem_cons_self
    refine fitsAll_concat.mpr ⟨ih ⟨fun e he => h.fits e (mem_append_left _ he),
      fun e he e' he' => h.compatible e (mem_append_left _ he) e'
        (mem_append_left _ he')⟩, ?_⟩
    exact (h.fits e hmem).foldl fun e' he' => h.compatible e' (mem_append_left _ he') e hmem

/-- What stands under the path of an entry once it is restored. -/
def Shows (t : Tree) (e : Entry) : Prop :=
  if e.IsDir then t.DirAt e.names else t.readAt e.names = some e.data

theorem Shows.ne_none (h : Shows t e) : t e.names ≠ none := by
  unfold Shows at h
  split_ifs at h with hdir
  · exact h.ne_none
  · intro hnone
    unfold readAt at h
    rw [hnone] at h
    cases h

/-- An entry that fits shows after its replay. -/
theorem Fits.shows (h : Fits t e) : Shows (place t e) e := by
  unfold Shows
  split_ifs with hdir
  · rw [place_dir hdir]
    exact makeDirs_self (h.dirsTo_dir hdir) prefix_rfl
  · have hnot : ¬ e.DirOf e.names := fun hd => (hd.2.resolve_left hdir) rfl
    unfold readAt place
    rw [if_neg hnot, if_pos rfl]
    refine if_pos ?_
    cases hold : t e.names with
    | none => exact .inl rfl
    | some old => exact h.file old hold hdir

theorem place_other (hms : e.names ≠ ms) (hne : t ms ≠ none) : place t e ms = t ms := by
  unfold place
  rw [if_neg hne, if_neg hms.symm, ite_self]

/-- The last entry of a path decides what stands there. -/
theorem FitsAll.shows_last (h : FitsAll t log)
    (hlast : lastWith Entry.names log ms = some e) :
    e.names = ms ∧ e ∈ log ∧ Shows (log.foldl place t) e := by
  induction log using reverseRecOn with
  | nil => cases hlast
  | append_singleton log x ih =>
    rw [lastWith_concat] at hlast
    rw [foldl_append]
    split_ifs at hlast with hx
    · obtain rfl := some.inj hlast
      exact ⟨hx, mem_append_right _ mem_cons_self, (fitsAll_concat.mp h).2.shows⟩
    · obtain ⟨rfl, hmem, hshows⟩ := ih (fitsAll_concat.mp h).1 hlast
      refine ⟨rfl, mem_append_left _ hmem, ?_⟩
      have hsame : place (log.foldl place t) x e.names = log.foldl place t e.names :=
        place_other hx hshows.ne_none
      unfold Shows DirAt readAt at hshows ⊢
      rw [foldl_cons, foldl_nil, hsame]
      exact hshows

/-- Contents come from the tree or from an entry of the path. -/
theorem readAt_foldl_place {c : List UInt8} (h : (log.foldl place t).readAt ms = some c) :
    t.readAt ms = some c ∨ ∃ e ∈ log, ¬ e.IsDir ∧ e.names = ms ∧ e.data = c := by
  induction log generalizing t with
  | nil => exact .inl h
  | cons e log ih =>
    rcases ih h with hplace | ⟨e', he', hrest⟩
    · unfold readAt at hplace
      cases hnode : place t e ms with
      | none =>
        rw [hnode] at hplace
        cases hplace
      | some node =>
        rw [hnode] at hplace
        rcases place_eq_some hnode with hold | ⟨-, rfl⟩ | ⟨hfile, hms, hdata, -⟩
        · refine .inl ?_
          unfold readAt
          rw [hold]
          exact hplace
        · simp at hplace
        · dsimp only at hplace
          split_ifs at hplace
          exact .inr ⟨e, mem_cons_self, hfile, hms,
            hdata.symm.trans (some.inj hplace)⟩
    · exact .inr ⟨e', mem_cons_of_mem _ he', hrest⟩

/-! ## The tree at boot -/

theorem plain_new : VirtualFS.new.Plain where
  wf := VirtualFS.wf_new
  noAlias k := by
    exact Std.TreeMap.getElem?_emptyc

/-- There are inode numbers enough for as many entries as the header can count. -/
theorem room_new (h : log.length < 2 ^ 32) :
    VirtualFS.new.nextIno + 2 ^ 31 * log.length < 2 ^ 64 := by
  have hle : 2 ^ 31 * log.length ≤ 2 ^ 31 * (2 ^ 32 - 1) :=
    Nat.mul_le_mul_left _ (Nat.le_sub_one_of_lt h)
  have hmax : VirtualFS.new.nextIno + 2 ^ 31 * (2 ^ 32 - 1) < 2 ^ 64 := by decide +kernel
  exact Nat.lt_of_le_of_lt (Nat.add_le_add_left hle _) hmax

end KnoxOS.Fs.Persist
