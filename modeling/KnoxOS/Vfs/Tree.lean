import KnoxOS.Vfs.Calls

/-!
# File systems as trees of paths

A file system without hard links is a function from paths to nodes, `VirtualFS.tree`, and the
calls that make directories and write files are updates of this function: `Plain.makeDirs`,
`Plain.ensureDirectory` and `Plain.writeFile`. None of them needs the inodes any more.
-/

namespace KnoxOS.Vfs

open Function Lib List Option

namespace VirtualFS

/-- The loop of `ensure_directory`; `current` is the path so far. -/
def ensureParts (v : VirtualFS) (current : Str) : List Str → VirtualFS
  | [] => v
  | part :: parts =>
    let current := current ++ '/' :: part
    let v :=
      if (v.resolvePath current).isNone then
        match v.mkdir current 0o755 with
        | .ok (_, v') => v'
        | .error _ => v
      else v
    v.ensureParts current parts

def ensureDirectory (v : VirtualFS) (path : Str) : VirtualFS :=
  v.ensureParts [] ((splitPath path).filter (· ≠ []))

end VirtualFS

/-! ## Trees -/

/-- What stands under each path: the kind of the inode and its contents. -/
abbrev Tree := List Str → Option (FileType × List UInt8)

namespace Tree

/-- Make the directories of a path that are not there. -/
def makeDirs (t : Tree) (ns : List Str) : Tree := fun ms =>
  if ms <+: ns ∧ t ms = none then some (.directory, []) else t ms

/-- Put contents under a path; a new file is a regular one. -/
def write (t : Tree) (ns : List Str) (data : List UInt8) : Tree :=
  Function.update t ns (some (((t ns).map Prod.fst).getD .regular, data))

/-- Whatever stands on the way is a directory. -/
def DirsTo (t : Tree) (ns : List Str) : Prop :=
  ∀ ms node, ms <+: ns → t ms = some node → node.1 = .directory

/-- What stands under a path stands in a directory. -/
def Closed (t : Tree) : Prop :=
  ∀ ns n, t (ns ++ [n]) ≠ none → ∃ data, t ns = some (.directory, data)

/-- The contents that `read_file` returns. -/
def readAt (t : Tree) (ns : List Str) : Option (List UInt8) :=
  match t ns with
  | none => none
  | some (kind, data) => if kind = .regular ∨ kind = .charDevice then some data else none

/-- A directory stands there. -/
def DirAt (t : Tree) (ns : List Str) : Prop := ∃ data, t ns = some (.directory, data)

variable {t : Tree} {ns ms : List Str} {n : Str} {data : List UInt8} {i : Inode} {part : Str}
  {parts : List Str}

theorem DirAt.ne_none (h : t.DirAt ns) : t ns ≠ none := by
  obtain ⟨data, hdata⟩ := h
  rw [hdata]
  exact some_ne_none _

/-- Where a path is, every path on the way is. -/
theorem Closed.before (h : t.Closed) (hpre : ms <+: ns) (hns : t ns ≠ none) : t ms ≠ none := by
  obtain ⟨rest, rfl⟩ := hpre
  induction rest using reverseRecOn with
  | nil => rwa [append_nil] at hns
  | append_singleton rest n ih =>
    rw [← append_assoc] at hns
    exact ih (DirAt.ne_none (h _ _ hns))

theorem Closed.dirAt_before (h : t.Closed) (hpre : ms <+: ns) (hne : ms ≠ ns) (hns : t ns ≠ none) :
    t.DirAt ms := by
  obtain ⟨rest, rfl⟩ := hpre
  cases rest with
  | nil => exact absurd (append_nil ms).symm hne
  | cons n rest => exact h ms n (h.before ⟨rest, by simp⟩ hns)

theorem Closed.makeDirs_eq (h : t.Closed) (hns : t ns ≠ none) : t.makeDirs ns = t := by
  funext ms
  unfold makeDirs
  rw [if_neg]
  rintro ⟨hpre, hnone⟩
  exact h.before hpre hns hnone

theorem makeDirs_makeDirs (hpre : ms <+: ns) : (t.makeDirs ms).makeDirs ns = t.makeDirs ns := by
  funext ks
  unfold makeDirs
  by_cases hnone : t ks = none
  · by_cases hms : ks <+: ms
    · simp [hnone, hms, hms.trans hpre]
    · simp [hnone, hms]
  · simp [hnone]

/-- The last directory of a path is made in its parent. -/
theorem Closed.makeDirs_concat (h : t.Closed) (hns : t ns ≠ none) (hnone : t (ns ++ [n]) = none) :
    t.makeDirs (ns ++ [n]) = update t (ns ++ [n]) (some (.directory, [])) := by
  funext ms
  rw [update_apply]
  unfold makeDirs
  by_cases heq : ms = ns ++ [n]
  · subst heq
    simp [hnone]
  · rw [if_neg heq, if_neg]
    rintro ⟨hpre, hms⟩
    rcases prefix_concat_iff.mp hpre with hpre | hpre
    · exact heq hpre
    · exact h.before hpre hns hms

theorem DirsTo.before (hdirs : t.DirsTo ns) (hpre : ms <+: ns) : t.DirsTo ms :=
  fun ks node hks => hdirs ks node (hks.trans hpre)

theorem DirsTo.makeDirs (hdirs : t.DirsTo ns) (ms : List Str) : (t.makeDirs ms).DirsTo ns := by
  intro ks node hks hnode
  unfold Tree.makeDirs at hnode
  split_ifs at hnode
  · rw [← some.inj hnode]
  · exact hdirs ks node hks hnode

/-- Every path on the way is a directory afterwards. -/
theorem makeDirs_self (hdirs : t.DirsTo ns) (hpre : ms <+: ns) : (t.makeDirs ns).DirAt ms := by
  unfold DirAt makeDirs
  cases hms : t ms with
  | none => exact ⟨[], if_pos ⟨hpre, rfl⟩⟩
  | some node =>
    obtain ⟨kind, data⟩ := node
    obtain rfl : kind = .directory := hdirs ms _ hpre hms
    exact ⟨data, if_neg (by simp)⟩

theorem makeDirs_off_path (hms : ¬ ms <+: ns) : t.makeDirs ns ms = t ms :=
  if_neg fun h => hms h.1

end Tree

/-! ## The tree of a file system -/

namespace VirtualFS

/-- The tree that the paths of a file system show. -/
def tree (v : VirtualFS) : Tree := fun ns => (v.shape.find ns).bind v.contents

/-- A well-formed file system without hard links. -/
structure Plain (v : VirtualFS) : Prop where
  wf : v.WF
  noAlias : ∀ k, v.shape.aliasAt k = none

variable {v : VirtualFS} {a b p x : Nat} {n : Str} {ns ms : List Str} {path : Str}

theorem contents_of_getInode (h : v.getInode a = some i) :
    v.contents a = some (i.fileType, i.data) := by
  unfold contents
  rw [h]
  rfl

theorem WF.tree_eq_none_iff (h : v.WF) : v.tree ns = none ↔ v.shape.find ns = none := by
  unfold tree
  cases hfind : v.shape.find ns with
  | none => simp
  | some a =>
    obtain ⟨i, hi⟩ := h.node_of_find hfind
    simp [contents_of_getInode hi]

theorem tree_of_find (hfind : v.shape.find ns = some a) (hget : v.getInode a = some i) :
    v.tree ns = some (i.fileType, i.data) := by
  unfold tree
  rw [hfind]
  exact contents_of_getInode hget

/-- What the tree has at a path is the inode found there. -/
theorem WF.exists_of_tree (h : v.WF) {node : FileType × List UInt8} (hns : v.tree ns = some node) :
    ∃ a i, v.shape.find ns = some a ∧ v.getInode a = some i ∧ node = (i.fileType, i.data) := by
  cases hfind : v.shape.find ns with
  | none =>
    rw [h.tree_eq_none_iff.mpr hfind] at hns
    cases hns
  | some a =>
    obtain ⟨i, hi⟩ := h.node_of_find hfind
    rw [tree_of_find hfind hi] at hns
    exact ⟨a, i, rfl, hi, (some.inj hns).symm⟩

/-- A directory of the tree is one of the shape. -/
theorem WF.dir_of_tree (h : v.WF) {data : List UInt8} (hns : v.tree ns = some (.directory, data)) :
    ∃ a, v.shape.find ns = some a ∧ v.shape.Dir a := by
  obtain ⟨a, i, hfind, hget, hnode⟩ := h.exists_of_tree hns
  exact ⟨a, hfind, dir_iff_exists.mpr ⟨i, hget, (congrArg Prod.fst hnode).symm⟩⟩

theorem tree_of_dir (hfind : v.shape.find ns = some a) (hdir : v.shape.Dir a) :
    v.tree.DirAt ns := by
  obtain ⟨i, hget, hkind⟩ := dir_iff_exists.mp hdir
  exact ⟨i.data, by rw [tree_of_find hfind hget, hkind]⟩

/-- The tree is closed: what has a path has a parent. -/
theorem WF.closed_tree (h : v.WF) : v.tree.Closed := by
  intro ns n hne
  cases hfind : v.shape.find (ns ++ [n]) with
  | none => exact absurd (h.tree_eq_none_iff.mpr hfind) hne
  | some b =>
    obtain ⟨a, ha, hentry⟩ := h.shape.find_concat.mp hfind
    exact tree_of_dir ha (h.shape.tree.entry_dir hentry)

theorem WF.tree_root (h : v.WF) : v.tree.DirAt [] := tree_of_dir rfl h.shape.tree.root_dir

/-- Reading a file is reading the tree at its components. -/
theorem WF.readFile_eq (h : v.WF) (path : Str) :
    v.readFile path = v.tree.readAt (components path) := by
  unfold readFile Tree.readAt
  rw [h.resolvePath]
  cases hfind : v.shape.find (components path) with
  | none => rw [h.tree_eq_none_iff.mpr hfind]; rfl
  | some a =>
    obtain ⟨i, hi⟩ := h.node_of_find hfind
    rw [tree_of_find hfind hi]
    simp only [bind_some, hi]

/-- Creating a node adds one path. -/
theorem find_create {s : Shape} (h : s.WF) (hp : s.find ns = some p) (hdir : s.Dir p)
    (hn : IsPart n) (hfree : ∀ b, ¬ s.Entry p n b) (t : FileType) (ms : List Str) :
    (s.create p n t).find ms = if ms = ns ++ [n] then some s.next else s.find ms := by
  have hwf := h.create hdir hn hfree t
  have hentry := h.entry_create (p := p) (n := n) t
  have hnew : (s.create p n t).find (ns ++ [n]) = some s.next := by
    refine hwf.find_iff.mpr (Walk.concat_iff.mpr ⟨p, ?_, (hentry _ _ _).mpr (.inr ⟨rfl, rfl, rfl⟩)⟩)
    exact (h.find_iff.mp hp).mono fun _ _ _ hold => (hentry _ _ _).mpr (.inl hold)
  split_ifs with hms
  · rw [hms, hnew]
  · -- a walk over the new entry ends there, as the new inode has no entries
    have hwalk : ∀ ks b, Walk (s.create p n t).Entry s.root ks b →
        Walk s.Entry s.root ks b ∨ ks = ns ++ [n] := by
      intro ks
      induction ks using reverseRecOn with
      | nil => exact fun b hb => .inl (Walk.nil_iff.mpr (Walk.nil_iff.mp hb))
      | append_singleton ks k ih =>
        intro b hb
        obtain ⟨c, hc, hedge⟩ := Walk.concat_iff.mp hb
        rcases ih c hc with hold | rfl
        · rcases (hentry c k b).mp hedge with hedge | ⟨rfl, rfl, -⟩
          · exact .inl (Walk.concat_iff.mpr ⟨c, hold, hedge⟩)
          · rw [h.find_unique hdir (h.find_iff.mpr hold) hp]
            exact .inr rfl
        · -- the new inode is nobody's parent
          obtain rfl : c = s.next := hc.unique hwf.tree.functional (hwf.find_iff.mp hnew)
          rcases (hentry _ k b).mp hedge with hedge | ⟨rfl, -, -⟩
          · exact absurd (h.tree.dir_node (h.tree.entry_dir hedge)) h.not_node_next
          · exact absurd (h.tree.dir_node hdir) h.not_node_next
    refine ext fun b => ?_
    rw [hwf.find_iff, h.find_iff]
    constructor
    · intro hb
      exact (hwalk ms b hb).resolve_right hms
    · exact fun hb => hb.mono fun _ _ _ hold => (hentry _ _ _).mpr (.inl hold)

theorem components_part (h : IsPart part) : components part = [part] := by
  unfold components
  rw [splitOn_eq_singleton h.2]
  simp [h.1]

/-- A path without slashes is its only part. -/
theorem splitPath_eq_singleton (h : '/' ∉ part) : splitPath part = [part] := by
  have hdrop : part.dropWhile (· = '/') = part := by
    cases part with
    | nil => rfl
    | cons c part =>
      refine dropWhile_cons_of_neg ?_
      have hc : c ≠ '/' := fun hc => h (by rw [hc]; exact mem_cons_self)
      simpa using hc
  unfold splitPath
  rw [hdrop, splitOn_eq_singleton h]

/-- The last part behind a slash. -/
theorem lastPart_slash (h : '/' ∉ part) (current : Str) :
    lastPart (splitPath (current ++ '/' :: part)) = part := by
  have hsplit := splitPath_eq_singleton h
  induction current with
  | nil =>
    unfold splitPath at hsplit ⊢
    rw [nil_append, dropWhile_cons_of_pos (by decide), hsplit]
    rfl
  | cons c current ih =>
    unfold splitPath at ih ⊢
    by_cases hc : c = '/'
    · rw [cons_append, dropWhile_cons_of_pos (by simpa using hc)]
      exact ih
    · rw [cons_append, dropWhile_cons_of_neg (by simpa using hc), ← cons_append,
        splitOn_append_cons_self, splitOn_eq_singleton h]
      simp [lastPart]

theorem components_parent_slash (h : IsPart part) (current : Str) :
    components (parentPath (splitPath (current ++ '/' :: part))) = components current := by
  have hlast := lastPart_slash h.2 current
  have hne : lastPart (splitPath (current ++ '/' :: part)) ≠ [] := by
    rw [hlast]
    exact h.1
  have hpath := components_of_lastPart_ne hne
  rw [hlast, components_append_slash, components_part h] at hpath
  exact (append_cancel_right hpath).symm

/-- The tree after a change of the inode under one path. -/
theorem tree_eq_update {v' : VirtualFS} {node : FileType × List UInt8}
    (hfind : ∀ ms, v'.shape.find ms = if ms = ns then some a else v.shape.find ms)
    (hcontents : ∀ b, v'.contents b = if b = a then some node else v.contents b)
    (hone : ∀ ms, v.shape.find ms = some a → ms = ns) : v'.tree = update v.tree ns (some node) := by
  funext ms
  rw [update_apply]
  unfold tree
  rw [hfind]
  split_ifs with hms
  · exact (hcontents a).trans (if_pos rfl)
  · cases hb : v.shape.find ms with
    | none => rfl
    | some b =>
      have hne : b ≠ a := fun heq => hms (hone ms (heq ▸ hb))
      rw [bind_some, bind_some, hcontents, if_neg hne]

section

variable (h : v.WF)
include h

/-- A new inode is one more node of the tree. -/
theorem WF.createFileUnder_tree (hp : v.shape.find ns = some p) (hdir : v.shape.Dir p)
    (hn : IsPart n) (hnone : v.tree (ns ++ [n]) = none) (t : FileType) (data : List UInt8)
    (permissions : Nat) (hroom : v.nextIno + 1 < 2 ^ 64) :
    (v.createFileUnder p n t data permissions).2.WF ∧
      (v.createFileUnder p n t data permissions).2.shape.find (ns ++ [n]) = some v.nextIno ∧
      (v.createFileUnder p n t data permissions).2.tree =
        update v.tree (ns ++ [n]) (some (t, data)) := by
  have hnode := h.shape.tree.dir_node hdir
  have hshape := h.shape_createFileUnder hnode n t data permissions hroom
  have hfree : v.shape.lookup p n = none := by
    rw [← Shape.find_concat_eq hp, h.tree_eq_none_iff.mp hnone]
  have hfind := find_create h.shape hp hdir hn (h.shape.lookup_eq_none_iff.mp hfree) t
  refine ⟨h.createFileUnder hdir hn hfree t data permissions hroom, ?_, ?_⟩
  · rw [hshape, hfind, if_pos rfl]
    rfl
  · refine tree_eq_update (a := v.nextIno) (fun ms => ?_) (fun b => ?_) fun ms hms => ?_
    · rw [hshape]
      exact hfind ms
    · have hsame := contents_modifyInode (v := v.pushInode t n data permissions)
        (f := fun p => { p with children := p.children ++ [v.nextIno] }) (fun _ => rfl)
        (fun _ => ⟨rfl, rfl⟩) p b
      refine hsame.trans ?_
      unfold contents
      rw [getInode_pushInode h.shape.not_node_next]
      split_ifs <;> rfl
    · obtain ⟨i, hi⟩ := h.node_of_find hms
      exact absurd (node_of_getInode hi) h.shape.not_node_next

/-- Where a name leads to no file, the search among children is the lookup. -/
theorem WF.findChild_eq_lookup (hn : n ≠ [])
    (hdirs : ∀ c, v.shape.lookup a n = some c → v.shape.Dir c) :
    ((v.getInode a).bind fun current => v.findChild current.children n) = v.shape.lookup a n := by
  have hnone : v.shape.aliasAt (a, n) = none := by
    cases halias : v.shape.aliasAt (a, n) with
    | none => rfl
    | some x =>
      have hdir := hdirs x ((h.shape.lookup_iff a n x).mpr (.inr halias))
      exact absurd hdir (h.shape.alias_file halias)
  rw [Shape.lookup_eq_or, hnone]
  cases hget : v.getInode a with
  | none =>
    rw [if_pos (kind_eq_none_iff.mpr hget)]
    rfl
  | some i =>
    rw [if_neg (node_of_getInode hget), kids_of_getInode hget, or_none]
    exact findChild_eq i.children hn

/-- The loop of `create_file_at_path` makes the directories that are missing. -/
theorem WF.makeDirs (hparts : ∀ part ∈ parts, IsPart part) (ha : v.shape.find ns = some a)
    (hdir : v.shape.Dir a) (hdirs : v.tree.DirsTo (ns ++ parts))
    (hroom : v.nextIno + parts.length < 2 ^ 64) : ∃ b v', v.makeDirs a parts = (b, v') ∧ v'.WF ∧
      v'.aliases = v.aliases ∧ v'.nextIno ≤ v.nextIno + parts.length ∧
      v'.shape.find (ns ++ parts) = some b ∧ v'.shape.Dir b ∧
      v'.tree = v.tree.makeDirs (ns ++ parts) := by
  induction parts generalizing v a ns with
  | nil =>
    refine ⟨a, v, rfl, h, rfl, Nat.le_refl _, ?_, hdir, ?_⟩
    · rw [append_nil]
      exact ha
    · rw [append_nil]
      exact (h.closed_tree.makeDirs_eq (tree_of_dir ha hdir).ne_none).symm
  | cons part parts ih =>
    have hname : IsPart part := hparts part mem_cons_self
    rw [length_cons] at hroom ⊢
    rw [append_cons] at hdirs ⊢
    have hpre : ns ++ [part] <+: (ns ++ [part]) ++ parts := prefix_append _ _
    -- one round, whether the directory is there or not
    have hround : ∃ (c : Nat) (v₁ : VirtualFS), v.makeDirs a (part :: parts) =
        v₁.makeDirs c parts ∧ v₁.WF ∧ v₁.aliases = v.aliases ∧ v₁.nextIno ≤ v.nextIno + 1 ∧
        v₁.shape.find (ns ++ [part]) = some c ∧ v₁.tree = v.tree.makeDirs (ns ++ [part]) := by
      have hfound : ∀ c, v.shape.lookup a part = some c → v.shape.Dir c := by
        intro c hc
        rw [← Shape.find_concat_eq ha] at hc
        obtain ⟨i, hi⟩ := h.node_of_find hc
        exact dir_iff_exists.mpr ⟨i, hi, hdirs _ _ hpre (tree_of_find hc hi)⟩
      rw [VirtualFS.makeDirs, if_neg hname.1, h.findChild_eq_lookup hname.1 hfound,
        ← Shape.find_concat_eq ha]
      cases hfind : v.shape.find (ns ++ [part]) with
      | some c =>
        have hthere : v.tree (ns ++ [part]) ≠ none := by
          rw [Ne, h.tree_eq_none_iff, hfind]
          exact some_ne_none c
        exact ⟨c, v, rfl, h, rfl, Nat.le_succ _, hfind, (h.closed_tree.makeDirs_eq hthere).symm⟩
      | none =>
        have hnone := h.tree_eq_none_iff.mpr hfind
        have hroom' : v.nextIno + 1 < 2 ^ 64 := by omega
        obtain ⟨hwf, hnew, htree⟩ := h.createFileUnder_tree ha hdir hname hnone .directory [] 0o755
          hroom'
        refine ⟨_, _, rfl, hwf, rfl, (nextIno_createFileUnder hroom' ..).le, hnew, htree.trans ?_⟩
        rw [h.closed_tree.makeDirs_concat (tree_of_dir ha hdir).ne_none hnone]
    obtain ⟨c, v₁, heq, hwf₁, haliases₁, hnext₁, hc, htree₁⟩ := hround
    obtain ⟨data, hmade⟩ := Tree.makeDirs_self (hdirs.before hpre) prefix_rfl
    rw [← htree₁] at hmade
    obtain ⟨c', hc', hcdir⟩ := hwf₁.dir_of_tree hmade
    obtain rfl := some.inj (hc.symm.trans hc')
    obtain ⟨b, v', heq', hwf, haliases, hnext, hb, hbdir, htree⟩ := ih hwf₁
      (fun part hpart => hparts part (mem_cons_of_mem _ hpart)) hc hcdir
      (htree₁ ▸ hdirs.makeDirs _) (by omega)
    refine ⟨b, v', heq.trans heq', hwf, haliases.trans haliases₁, by omega, hb, hbdir, ?_⟩
    rw [htree, htree₁, Tree.makeDirs_makeDirs hpre]

omit h in
theorem not_prefix_parent (hlast : lastPart (splitPath path) ≠ []) :
    ¬ components path <+: components (parentPath (splitPath path)) := by
  intro hpre
  have hle := hpre.length_le
  rw [components_of_lastPart_ne hlast, length_append, length_singleton] at hle
  omega

/-- `create_file_at_path` makes the directories that are missing and the file in them. -/
theorem WF.createFileAtPath (hlast : lastPart (splitPath path) ≠ [])
    (hdirs : v.tree.DirsTo (components (parentPath (splitPath path))))
    (hnone : v.tree (components path) = none) (t : FileType) (data : List UInt8)
    (permissions : Nat) (hroom : v.nextIno + (splitPath path).length < 2 ^ 64) :
    ∃ v', v.createFileAtPath path t data permissions = (true, v') ∧ v'.WF ∧
      v'.aliases = v.aliases ∧ v'.nextIno ≤ v.nextIno + (splitPath path).length ∧
      v'.tree = update (v.tree.makeDirs (components (parentPath (splitPath path))))
        (components path) (some (t, data)) := by
  have hpath := components_of_lastPart_ne hlast
  have hlen := length_components_parent path
  have hroot : v.shape.find [] = some v.shape.root := rfl
  obtain ⟨b, v₁, heq, hwf₁, haliases, hnext₁, hb, hbdir, htree₁⟩ := h.makeDirs
    (fun part => isPart_of_mem_components) hroot h.shape.tree.root_dir hdirs (by omega)
  rw [nil_append] at hb htree₁
  rw [← Tree.makeDirs_off_path (t := v.tree) (not_prefix_parent hlast), ← htree₁] at hnone
  rw [hpath] at hnone ⊢
  obtain ⟨hwf, -, htree⟩ := hwf₁.createFileUnder_tree hb hbdir (isPart_lastPart hlast) hnone t data
    permissions (by omega)
  refine ⟨_, h.createFileAtPath_eq heq t data permissions, hwf, haliases, ?_, htree₁ ▸ htree⟩
  rw [nextIno_createFileUnder (by omega)]
  omega

/-- A file can be made where the condition of the calls holds. -/
theorem WF.create_of_creatable (hok : v.Creatable path) (t : FileType) (data : List UInt8)
    (permissions : Nat) : (v.createFileAtPath path t data permissions).2.WF := by
  obtain ⟨hnone, hlast, hdirs, hroom⟩ := hok
  have hdirs' : v.tree.DirsTo (components (parentPath (splitPath path))) := by
    intro pre node hpre hnode
    have hparts : ∀ part ∈ pre, IsPart part := fun part hpart =>
      isPart_of_mem_components (hpre.subset hpart)
    obtain ⟨b, i, hb, hi, rfl⟩ := h.exists_of_tree hnode
    have hdir := hdirs pre ((mem_inits _ _).mpr hpre) b
      (by rw [h.resolvePath, components_absolute hparts]; exact hb)
    obtain ⟨i', hi', hkind⟩ := dir_iff_exists.mp (dir_iff.mpr hdir)
    rw [hi] at hi'
    cases hi'
    exact hkind
  rw [h.resolvePath, ← h.tree_eq_none_iff] at hnone
  obtain ⟨v', heq, hwf, -⟩ := h.createFileAtPath hlast hdirs' hnone t data permissions hroom
  rw [heq]
  exact hwf

end

variable (h : v.Plain)
include h

/-- Without hard links an inode has one path. -/
theorem Plain.path_unique (hns : v.shape.find ns = some a) (hms : v.shape.find ms = some a) :
    ns = ms := by
  have hwf := h.wf.shape
  cases ns using reverseRecOn with
  | nil =>
    obtain rfl := some.inj hns
    exact hwf.find_unique hwf.tree.root_dir hns hms
  | append_singleton ns n =>
    obtain ⟨p, hp, hentry⟩ := hwf.find_concat.mp hns
    cases ms using reverseRecOn with
    | nil =>
      obtain rfl := some.inj hms
      exact absurd hentry hwf.tree.root_top
    | append_singleton ms m =>
      obtain ⟨q, hq, hentry'⟩ := hwf.find_concat.mp hms
      -- both entries are children, as there are no aliases
      obtain ⟨hkid₁, rfl⟩ := hentry.kid (h.noAlias _)
      obtain ⟨hkid₂, rfl⟩ := hentry'.kid (h.noAlias _)
      obtain rfl := hwf.one_parent hkid₁ hkid₂
      rw [hwf.find_unique (hwf.tree.entry_dir hentry) hp hq]

/-- A change of one inode that keeps its place in the tree. -/
theorem Plain.modifyInode {f : Inode → Inode}
    (hf : ∀ i, (f i).ino = i.ino ∧ (f i).fileType = i.fileType ∧ (f i).name = i.name ∧
      (f i).children = i.children)
    (hfind : v.shape.find ns = some a) (hget : v.getInode a = some i) : (v.modifyInode a f).Plain ∧
      (v.modifyInode a f).tree = update v.tree ns (some ((f i).fileType, (f i).data)) := by
  have hshape := shape_modify_data (fun i => (hf i).1) (fun i => (hf i).2) hget
  refine ⟨⟨⟨hshape ▸ h.wf.shape, inos_modifyInode (fun i => (hf i).1) a h.wf.inos⟩, ?_⟩, ?_⟩
  · exact h.noAlias
  · refine tree_eq_update (fun ms => ?_) (fun b => ?_) fun ms hms => h.path_unique hms hfind
    · rw [hshape]
      split_ifs with hms
      · rw [hms, hfind]
      · rfl
    · unfold contents
      rw [getInode_modifyInode (fun i => (hf i).1), hget]
      split_ifs <;> rfl

/-! ## Directories -/

/-- `mkdir` under a path that ends in a name. -/
theorem Plain.mkdir (hlast : lastPart (splitPath path) ≠ [])
    (hparent : v.tree.DirAt (components (parentPath (splitPath path))))
    (hnone : v.tree (components path) = none) (permissions : Nat) (hroom : v.nextIno + 1 < 2 ^ 64) :
    ∃ ino v', v.mkdir path permissions = .ok (ino, v') ∧ v'.Plain ∧
      v'.nextIno = v.nextIno + 1 ∧
      v'.tree = update v.tree (components path) (some (.directory, [])) := by
  obtain ⟨data, hdata⟩ := hparent
  obtain ⟨p, hp, hdir⟩ := h.wf.dir_of_tree hdata
  have hpath := components_of_lastPart_ne hlast
  rw [hpath] at hnone ⊢
  obtain ⟨hwf, -, htree⟩ := h.wf.createFileUnder_tree hp hdir (isPart_lastPart hlast) hnone
    .directory [] permissions hroom
  have hfree : (v.resolvePath path).isSome = false := by
    rw [h.wf.resolvePath, hpath, h.wf.tree_eq_none_iff.mp hnone]
    rfl
  have hmkdir : v.mkdir path permissions =
      .ok (v.createFileUnder p (lastPart (splitPath path)) .directory [] permissions) := by
    unfold VirtualFS.mkdir
    rw [hfree]
    dsimp only
    rw [h.wf.resolvePath, hp]
    rfl
  exact ⟨_, _, hmkdir, ⟨hwf, h.noAlias⟩, nextIno_createFileUnder hroom _ _ _ _ _, htree⟩

/-- The loop of `ensure_directory` makes the directories that are missing. -/
theorem Plain.ensureParts {current : Str} (hparts : ∀ part ∈ parts, IsPart part)
    (hcurrent : v.tree.DirAt (components current))
    (hdirs : v.tree.DirsTo (components current ++ parts))
    (hroom : v.nextIno + parts.length < 2 ^ 64) : (v.ensureParts current parts).Plain ∧
      (v.ensureParts current parts).nextIno ≤ v.nextIno + parts.length ∧
      (v.ensureParts current parts).tree = v.tree.makeDirs (components current ++ parts) := by
  induction parts generalizing v current with
  | nil =>
    refine ⟨h, Nat.le_refl _, ?_⟩
    rw [append_nil]
    exact (h.wf.closed_tree.makeDirs_eq hcurrent.ne_none).symm
  | cons part parts ih =>
    have hpart : IsPart part := hparts part mem_cons_self
    have hcomps : components (current ++ '/' :: part) = components current ++ [part] := by
      rw [components_append_slash, components_part hpart]
    rw [length_cons] at hroom ⊢
    rw [append_cons, ← hcomps] at hdirs ⊢
    have hpre : components (current ++ '/' :: part) <+:
        components (current ++ '/' :: part) ++ parts := prefix_append _ _
    -- one round, whether the directory is there or not
    have hround : ∃ v₁ : VirtualFS, v.ensureParts current (part :: parts) =
        v₁.ensureParts (current ++ '/' :: part) parts ∧ v₁.Plain ∧ v₁.nextIno ≤ v.nextIno + 1 ∧
        v₁.tree = v.tree.makeDirs (components (current ++ '/' :: part)) := by
      rw [VirtualFS.ensureParts]
      simp only [h.wf.resolvePath, isNone_iff_eq_none, ← h.wf.tree_eq_none_iff]
      by_cases hnone : v.tree (components (current ++ '/' :: part)) = none
      · have hparent : v.tree.DirAt
            (components (parentPath (splitPath (current ++ '/' :: part)))) := by
          rw [components_parent_slash hpart]
          exact hcurrent
        obtain ⟨ino, v', hmkdir, hplain', hnext', htree'⟩ := h.mkdir
          (by rw [lastPart_slash hpart.2]; exact hpart.1) hparent hnone 0o755 (by omega)
        refine ⟨v', by simp only [hnone, if_true, hmkdir], hplain', hnext'.le, ?_⟩
        rw [hcomps] at hnone htree' ⊢
        rw [htree', h.wf.closed_tree.makeDirs_concat hcurrent.ne_none hnone]
      · exact ⟨v, by rw [if_neg hnone], h, Nat.le_succ _,
          (h.wf.closed_tree.makeDirs_eq hnone).symm⟩
    obtain ⟨v₁, heq, hplain₁, hnext₁, htree₁⟩ := hround
    obtain ⟨hplain, hnext, htree⟩ := ih hplain₁
      (fun part hmem => hparts part (mem_cons_of_mem _ hmem))
      (htree₁ ▸ Tree.makeDirs_self (hdirs.before hpre) prefix_rfl) (htree₁ ▸ hdirs.makeDirs _)
      (by omega)
    rw [heq]
    refine ⟨hplain, by omega, ?_⟩
    rw [htree, htree₁, Tree.makeDirs_makeDirs hpre]

/-- `ensure_directory` makes the directories of a path that are missing. -/
theorem Plain.ensureDirectory (hdirs : v.tree.DirsTo (components path))
    (hroom : v.nextIno + (components path).length < 2 ^ 64) :
    (v.ensureDirectory path).Plain ∧
      (v.ensureDirectory path).nextIno ≤ v.nextIno + (components path).length ∧
      (v.ensureDirectory path).tree = v.tree.makeDirs (components path) := by
  unfold VirtualFS.ensureDirectory
  rw [← components_eq_filter]
  exact h.ensureParts (fun part hpart => isPart_of_mem_components hpart) h.wf.tree_root hdirs hroom

/-! ## Files -/

/-- `write_file` under a path that ends in a name: its directories are made, and the contents put
under it. -/
theorem Plain.writeFile (hlast : lastPart (splitPath path) ≠ [])
    (hdirs : v.tree.DirsTo (components (parentPath (splitPath path)))) (data : List UInt8)
    (hroom : v.nextIno + (splitPath path).length < 2 ^ 64) :
    ∃ v', v.writeFile path data = (true, v') ∧ v'.Plain ∧
      v'.nextIno ≤ v.nextIno + (splitPath path).length ∧
      v'.tree = (v.tree.makeDirs (components (parentPath (splitPath path)))).write
        (components path) data := by
  have hpath := components_of_lastPart_ne hlast
  unfold VirtualFS.writeFile
  rw [h.wf.resolvePath]
  cases hfind : v.shape.find (components path) with
  | some a =>
    obtain ⟨i, hi⟩ := h.wf.node_of_find hfind
    obtain ⟨hplain, htree⟩ := h.modifyInode
      (f := fun i => { i with data := data, size := data.length })
      (fun _ => ⟨rfl, rfl, rfl, rfl⟩) hfind hi
    have hino := ino_of_getInode hi
    have hthere := tree_of_find hfind hi
    refine ⟨v.modifyInode a fun i => { i with data := data, size := data.length }, ?_, hplain,
      Nat.le_add_right _ _, ?_⟩
    · rw [bind_some, hi, ← hino]
    · have hparent : v.tree (components (parentPath (splitPath path))) ≠ none := by
        refine h.wf.closed_tree.before ⟨_, hpath.symm⟩ ?_
        rw [hthere]
        exact some_ne_none _
      rw [htree, h.wf.closed_tree.makeDirs_eq hparent]
      unfold Tree.write
      rw [hthere]
      rfl
  | none =>
    have hnone := h.wf.tree_eq_none_iff.mpr hfind
    have hoff := not_prefix_parent hlast
    obtain ⟨v', heq, hwf, haliases, hnext, htree⟩ :=
      h.wf.createFileAtPath hlast hdirs hnone .regular data 0o644 hroom
    refine ⟨v', heq, ⟨hwf, fun k => ?_⟩, hnext, htree.trans ?_⟩
    · exact (congrArg (·[k]?) haliases).trans (h.noAlias k)
    · unfold Tree.write
      rw [Tree.makeDirs_off_path hoff, hnone]
      rfl

end VirtualFS

end KnoxOS.Vfs
