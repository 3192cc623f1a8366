import KnoxOS.Vfs.Names

/-!
# The calls on the name space

What each call of the virtual file system does to a well-formed one: `WF.unlink_spec`,
`WF.link_spec`, `WF.rmdir_spec` and the equations of `rename` say what a call that succeeds
changes, and the theorems `WF.unlink`, `WF.link`, `WF.mkdir`, `WF.rmdir` and
`WF.rename` that the result is well formed, where that takes a condition under this condition.
-/

namespace KnoxOS.Vfs

open Lib List VirtualFS Option

namespace VirtualFS

variable {v v' v₁ : VirtualFS} {a b p q x : Nat} {n m path newPath oldPath : Str} {ns ms : List Str}
  {parts : List Str}

/-! ## Making files -/

theorem nextIno_createFileUnder (hroom : v.nextIno + 1 < 2 ^ 64) (p : Nat) (n : Str) (t : FileType)
    (data : List UInt8) (permissions : Nat) :
    (v.createFileUnder p n t data permissions).2.nextIno = v.nextIno + 1 := Nat.mod_eq_of_lt hroom

/-- The empty parts of a path do not matter. -/
theorem makeDirs_filter (a : Nat) (parts : List Str) :
    v.makeDirs a (parts.filter (· ≠ [])) = v.makeDirs a parts := by
  induction parts generalizing v a with
  | nil => rfl
  | cons part parts ih =>
    by_cases hpart : part = []
    · rw [filter_cons_of_neg (by simpa using hpart), ih]
      simp only [makeDirs, if_pos hpart]
    · rw [filter_cons_of_pos (by simpa using hpart)]
      simp only [makeDirs, if_neg hpart, ih]

/-- What `create_file_at_path` does once the directories are there. -/
theorem WF.createFileAtPath_eq {v₁ : VirtualFS} (h : v.WF)
    (heq : v.makeDirs v.shape.root (components (parentPath (splitPath path))) = (a, v₁))
    (t : FileType) (data : List UInt8) (permissions : Nat) :
    v.createFileAtPath path t data permissions =
      (true, (v₁.createFileUnder a (lastPart (splitPath path)) t data permissions).2) := by
  obtain ⟨root, hhead, hino⟩ := h.exists_head
  rw [components_parent, makeDirs_filter, hino] at heq
  unfold createFileAtPath
  simp only [hhead, heq]

/-- A file can be made at the path: nothing is there, the path does not end in a slash, whatever
of its directories is there is a directory, and there are inode numbers left. -/
def Creatable (v : VirtualFS) (path : Str) : Prop :=
  v.resolvePath path = none ∧ lastPart (splitPath path) ≠ [] ∧
    (∀ pre ∈ (components (parentPath (splitPath path))).inits,
      ∀ ino ∈ v.resolvePath (absolute pre), v.isDirectory ino) ∧
    v.nextIno + (splitPath path).length < 2 ^ 64

/-! ## Names of files -/

theorem mem_kids_iff : x ∈ v.shape.kids a ↔ ∃ i, v.getInode a = some i ∧ x ∈ i.children := by
  show x ∈ (v.getInode a).elim [] (·.children) ↔ _
  cases v.getInode a with
  | none => simp
  | some i => simp

/-- The name count is zero when no entry is left. -/
theorem nameCount_eq_zero_iff (hinos : (v.inodes.map (·.ino)).Nodup) :
    v.nameCount x = 0 ↔ ∀ b k, ¬ v.shape.Entry b k x := by
  unfold nameCount
  rw [Nat.add_eq_zero_iff, countP_eq_zero, countP_eq_zero]
  constructor
  · rintro ⟨hkids, haliases⟩ b k (⟨hkid, -⟩ | halias)
    · obtain ⟨i, hi, hmem⟩ := mem_kids_iff.mp hkid
      exact hkids i (mem_of_getInode hi) (by simpa using hmem)
    · exact haliases _ (mem_toList_iff.mpr halias) (by simp)
  · intro hno
    refine ⟨fun i hi hmem => ?_, ?_⟩
    · have hget : v.getInode i.ino = some i := find?_ino_of_mem hinos hi
      exact hno i.ino _ (Shape.WF.entry_of_kid (mem_kids_iff.mpr ⟨i, hget, by simpa using hmem⟩))
    · rintro ⟨⟨b, k⟩, y⟩ hmem hy
      have hlook := mem_toList_iff.mp hmem
      rw [show y = x by simpa using hy] at hlook
      exact hno b k (.inr hlook)

/-- The kind and the contents of an inode. -/
def contents (v : VirtualFS) (a : Nat) : Option (FileType × List UInt8) :=
  (v.getInode a).map fun i => (i.fileType, i.data)

theorem contents_modifyInode {f : Inode → Inode} (hino : ∀ i, (f i).ino = i.ino)
    (hdata : ∀ i, (f i).fileType = i.fileType ∧ (f i).data = i.data) (a b : Nat) :
    (v.modifyInode a f).contents b = v.contents b := by
  unfold contents
  rw [getInode_modifyInode hino]
  split_ifs with hb
  · rw [hb]
    cases v.getInode a with
    | none => rfl
    | some i => simp [hdata]
  · rfl

variable (h : v.WF)
include h

theorem WF.ne_root (hx : v.shape.Entry p n x) : x ≠ v.shape.root := by
  rintro rfl
  exact h.shape.tree.root_top hx

theorem WF.entry_of_find (hx : v.shape.find (ns ++ [n]) = some x) :
    ∃ p, v.shape.find ns = some p ∧ v.shape.Entry p n x := h.shape.find_concat.mp hx

/-- Nothing is below the path of a file. -/
theorem WF.eq_of_below_file (hx : v.shape.find ns = some x) (hfile : ¬ v.shape.Dir x)
    {ms : List Str} (hpre : ns <+: ms) (hms : v.shape.find ms = some a) : ms = ns := by
  obtain ⟨rest, rfl⟩ := hpre
  obtain ⟨b, hb, hrest⟩ := Walk.append_iff.mp (h.shape.find_iff.mp hms)
  obtain rfl := hb.unique h.shape.tree.functional (h.shape.find_iff.mp hx)
  cases hrest with
  | nil => rw [append_nil]
  | cons hentry _ => exact absurd (h.shape.tree.entry_dir hentry) hfile

/-- What a successful `unlink` does: the name goes, and the inode with its last name. -/
theorem WF.unlink_spec (hok : v.unlink path = .ok v') :
    ∃ ns n p x v₁, components path = ns ++ [n] ∧ v.shape.find ns = some p ∧
      v.shape.Entry p n x ∧ ¬ v.shape.Dir x ∧ Shape.WF.Cut v.shape (v₁ : VirtualFS).shape p n ∧
      (v₁.inodes.map (·.ino)).Nodup ∧ (∀ a, v₁.contents a = v.contents a) ∧
      ((∃ b k, v₁.shape.Entry b k x) ∧ v' = v₁ ∨
        (∀ b k, ¬ v₁.shape.Entry b k x) ∧ v' = v₁.dropInode x) := by
  simp only [unlink] at hok
  rw [h.resolvePath] at hok
  rcases components_cases path with hnil | ⟨ns, n, hpath⟩
  · -- the root is a directory
    have hroot : v.isDirectory v.shape.root := dir_iff.mp h.shape.tree.root_dir
    rw [hnil] at hok
    simp [Shape.find, follow_nil, hroot] at hok
  · obtain ⟨parent, hsplit, hparent⟩ := splitParentName_concat hpath
    rw [hpath, hsplit] at hok
    cases hx : v.shape.find (ns ++ [n]) with
    | none =>
      rw [hx] at hok
      cases hok
    | some x =>
      obtain ⟨p, hp, hentry⟩ := h.entry_of_find hx
      simp only [hx] at hok
      split_ifs at hok with hdir
      simp only [h.resolvePath, hparent, hp] at hok
      have hfile : ¬ v.shape.Dir x := fun hd => hdir (dir_iff.mp hd)
      -- the name is an alias, or the inode is a child of the directory
      have hcut : ∃ v₁ : VirtualFS, Shape.WF.Cut v.shape v₁.shape p n ∧
          (v₁.inodes.map (·.ino)).Nodup ∧ (∀ a, v₁.contents a = v.contents a) ∧
          .ok v' = (.ok (if v₁.nameCount x = 0 then v₁.dropInode x else v₁) :
            Except Int VirtualFS) := by
        cases halias : v.aliases[(p, n)]? with
        | some y =>
          refine ⟨{ v with aliases := v.aliases.erase (p, n) }, ?_, h.inos, fun _ => rfl, ?_⟩
          · rw [shape_eraseAlias]
            exact h.shape.cut_unalias halias
          · rw [← hok, halias]
            rfl
        | none =>
          obtain ⟨hkid, hname⟩ := hentry.kid halias
          have hsame : ({ v with aliases := v.aliases.erase (p, n) } : VirtualFS).shape =
              v.shape := by
            rw [shape_eraseAlias]
            refine Shape.ext rfl rfl rfl rfl ?_ rfl
            show Function.update v.shape.aliasAt (p, n) none = v.shape.aliasAt
            rw [← show v.shape.aliasAt (p, n) = none from halias, Function.update_eq_self]
          refine ⟨({ v with aliases := v.aliases.erase (p, n) } : VirtualFS).removeChild p x,
            ?_, ?_, ?_, ?_⟩
          · have hdir := h.shape.tree.entry_dir hentry
            have hnode :
                ({ v with aliases := v.aliases.erase (p, n) } : VirtualFS).shape.Node p :=
              hsame ▸ h.shape.tree.dir_node hdir
            rw [shape_removeChild hnode, hsame, ← hname]
            exact h.shape.cut_detach hkid
          · exact inos_modifyInode
              (f := fun p => { p with children := p.children.filter (· ≠ x) })
              (fun _ => rfl) p h.inos
          · exact contents_modifyInode
              (f := fun p => { p with children := p.children.filter (· ≠ x) })
              (fun _ => rfl) (fun _ => ⟨rfl, rfl⟩) p
          · rw [← hok, halias]
            rfl
      obtain ⟨v₁, hcut, hinos, hcontents, heq⟩ := hcut
      refine ⟨ns, n, p, x, v₁, hpath, hp, hentry, hfile, hcut, hinos, hcontents, ?_⟩
      have hcount := nameCount_eq_zero_iff (x := x) hinos
      injection heq with heq
      by_cases hzero : v₁.nameCount x = 0
      · rw [if_pos hzero] at heq
        exact .inr ⟨hcount.mp hzero, heq⟩
      · rw [if_neg hzero] at heq
        refine .inl ⟨?_, heq⟩
        by_contra hno
        push Not at hno
        exact hzero (hcount.mpr hno)

/-- A leaf whose last name is gone leaves. -/
theorem WF.drop (hentry : v.shape.Entry p n x) (hleaf : ∀ k b, ¬ v.shape.Entry x k b)
    (hcut : Shape.WF.Cut v.shape v₁.shape p n) (hinos : (v₁.inodes.map (·.ino)).Nodup)
    (hno : ∀ b k, ¬ v₁.shape.Entry b k x) : (v₁.dropInode x).WF := by
  have hnode : v₁.shape.Node x := by
    unfold Shape.Node
    rw [hcut.kind]
    exact h.shape.tree.entry_node hentry
  obtain ⟨i, hi⟩ := node_iff.mp hnode
  refine ⟨?_, inos_dropInode x hinos⟩
  rw [shape_dropInode (hcut.root ▸ h.ne_root hentry) (ne_nil_of_mem (mem_of_getInode hi))]
  exact h.shape.cut_drop hentry hleaf hcut hno

theorem WF.unlink (hok : v.unlink path = .ok v') : v'.WF := by
  obtain ⟨ns, n, p, x, v₁, -, -, hentry, hfile, hcut, hinos, -, hnamed | hlast⟩ := h.unlink_spec hok
  · obtain ⟨hnamed, rfl⟩ := hnamed
    exact ⟨h.shape.cut hentry (h.shape.file_leaf hfile) hcut hnamed, hinos⟩
  · obtain ⟨hno, rfl⟩ := hlast
    exact h.drop hentry (h.shape.file_leaf hfile) hcut hinos hno

/-- What a successful `link` does. -/
theorem WF.link_spec (hok : v.link oldPath newPath = .ok v') :
    ∃ ns n p x, v.shape.find (components oldPath) = some x ∧ ¬ v.shape.Dir x ∧
      components newPath = ns ++ [n] ∧ v.shape.find ns = some p ∧ v.shape.Dir p ∧
      v.shape.find (ns ++ [n]) = none ∧ v' = { v with aliases := v.aliases.insert (p, n) x } := by
  simp only [link, h.resolvePath] at hok
  cases hx : v.shape.find (components oldPath) with
  | none =>
    rw [hx] at hok
    cases hok
  | some x =>
    simp only [hx] at hok
    split_ifs at hok with hdir hsome
    rcases components_cases newPath with hnil | ⟨ns, n, hpath⟩
    · rw [splitParentName_nil hnil] at hok
      cases hok
    · obtain ⟨parent, hsplit, hparent⟩ := splitParentName_concat hpath
      simp only [hsplit, hparent] at hok
      cases hp : v.shape.find ns with
      | none =>
        rw [hp] at hok
        cases hok
      | some p =>
        simp only [hp] at hok
        obtain ⟨i, hi⟩ := h.node_of_find hp
        simp only [hi] at hok
        split_ifs at hok with hkind
        refine ⟨ns, n, p, x, rfl, fun hd => hdir (dir_iff.mp hd), hpath, hp, ?_, ?_, ?_⟩
        · exact dir_iff_exists.mpr ⟨i, hi, by simpa using hkind⟩
        · rw [← hpath]
          simpa using hsome
        · injection hok with hok
          exact hok.symm

/-- `link` keeps the tree well-formed. -/
theorem WF.link (hok : v.link oldPath newPath = .ok v') : v'.WF := by
  obtain ⟨ns, n, p, x, hx, hfile, hpath, hp, hdir, hnone, rfl⟩ := h.link_spec hok
  have hn : IsPart n := isPart_of_concat hpath
  refine ⟨?_, h.inos⟩
  rw [shape_insertAlias]
  refine h.shape.link hdir (node_iff.mpr (h.node_of_find hx)) hfile hn fun b hb => ?_
  rw [h.shape.find_concat.mpr ⟨p, hp, hb⟩] at hnone
  cases hnone

/-! ## Directories -/

/-- `mkdir` below a directory keeps the tree well-formed. -/
theorem WF.mkdir {permissions ino : Nat}
    (hdir : ∀ parent ∈ v.resolvePath (parentPath (splitPath path)), v.isDirectory parent)
    (hroom : v.nextIno + 1 < 2 ^ 64) (hok : v.mkdir path permissions = .ok (ino, v')) : v'.WF := by
  simp only [VirtualFS.mkdir] at hok
  split_ifs at hok with hsome
  cases hp : v.resolvePath (parentPath (splitPath path)) with
  | none =>
    rw [hp] at hok
    cases hok
  | some p =>
    simp only [hp] at hok
    have hpdir : v.shape.Dir p := dir_iff.mpr (hdir p hp)
    rw [h.resolvePath] at hp
    have hnone : v.shape.find (components path) = none := by
      rw [← h.resolvePath]
      simpa using hsome
    -- a path that ends in a slash is its own parent, which is there
    have hlast : lastPart (splitPath path) ≠ [] := by
      intro hlast
      rw [components_of_lastPart_eq hlast, hp] at hnone
      cases hnone
    have hfree : v.shape.lookup p (lastPart (splitPath path)) = none := by
      rw [← Shape.find_concat_eq hp, ← components_of_lastPart_ne hlast, hnone]
    have hwf := h.createFileUnder hpdir (isPart_lastPart hlast) hfree .directory [] permissions
      hroom
    injection hok with hok
    have hv' : v' = (v.createDirUnder p (lastPart (splitPath path)) permissions).2 := by rw [hok]
    rw [hv']
    exact hwf

/-- What a successful `rmdir` does. -/
theorem WF.rmdir_spec (hok : v.rmdir path = .ok v') :
    ∃ x, v.shape.find (components path) = some x ∧ v.shape.Dir x ∧ v.shape.kids x = [] ∧
      ∃ p, v.resolvePath (parentPath (splitPath path)) = some p ∧
        v' = (v.removeChild p x).dropInode x := by
  simp only [rmdir] at hok
  rw [h.resolvePath path] at hok
  cases hx : v.shape.find (components path) with
  | none =>
    rw [hx] at hok
    cases hok
  | some x =>
    simp only [hx] at hok
    obtain ⟨i, hi⟩ := h.node_of_find hx
    simp only [hi] at hok
    split_ifs at hok with hkind hkids
    -- the parent of a path that leads somewhere leads somewhere
    have hparent : ∃ p, v.resolvePath (parentPath (splitPath path)) = some p := by
      rw [h.resolvePath]
      by_cases hlast : lastPart (splitPath path) = []
      · exact ⟨x, by rw [← components_of_lastPart_eq hlast, hx]⟩
      · rw [components_of_lastPart_ne hlast] at hx
        obtain ⟨p, hp, -⟩ := h.entry_of_find hx
        exact ⟨p, hp⟩
    obtain ⟨p, hp⟩ := hparent
    simp only [hp] at hok
    refine ⟨x, rfl, ?_, ?_, p, hp, ?_⟩
    · exact dir_iff_exists.mpr ⟨i, hi, by simpa using hkind⟩
    · rw [kids_of_getInode hi]
      simpa using hkids
    · injection hok with hok
      exact hok.symm

/-- `rmdir` of a directory that holds no alias keeps the tree well-formed. -/
theorem WF.rmdir (hempty : ∀ ino ∈ v.resolvePath path,
      (v.getInode ino).any (fun i => i.fileType = .directory ∧ i.children = []) →
        lastPart (splitPath path) ≠ [] ∧ ∀ e ∈ v.aliases.toList, e.1.1 ≠ ino)
    (hok : v.rmdir path = .ok v') : v'.WF := by
  obtain ⟨x, hx, hdir, hkids, p, hp, rfl⟩ := h.rmdir_spec hok
  rw [h.resolvePath] at hp
  obtain ⟨i, hi, hkind⟩ := dir_iff_exists.mp hdir
  obtain ⟨hlast, halias⟩ := hempty x (by rw [mem_def, h.resolvePath, hx]) (by
    rw [kids_of_getInode hi] at hkids
    simp [hi, hkind, hkids])
  have hnoalias : ∀ k b, v.shape.aliasAt (x, k) ≠ some b := by
    intro k b hb
    exact halias _ (mem_toList_iff.mpr hb) rfl
  rw [components_of_lastPart_ne hlast] at hx
  obtain ⟨p', hp', hentry⟩ := h.entry_of_find hx
  obtain rfl : p' = p := some.inj (hp'.symm.trans hp)
  -- a directory has no alias
  obtain ⟨hkid, hname⟩ := hentry.resolve_right fun hsome => h.shape.alias_file hsome hdir
  have hleaf : ∀ k b, ¬ v.shape.Entry x k b := by
    rintro k b (⟨hb, -⟩ | hb)
    · rw [hkids] at hb
      cases hb
    · exact hnoalias k b hb
  have hnode := h.shape.tree.dir_node (h.shape.tree.entry_dir hentry)
  have hcut := h.shape.cut_detach hkid
  rw [← shape_removeChild hnode] at hcut
  have hno : ∀ b k, ¬ (v.removeChild p' x).shape.Entry b k x := by
    intro b k hb
    obtain ⟨hold, hne⟩ := (hcut.entry b k x).mp hb
    obtain ⟨rfl, rfl⟩ := h.shape.tree.one_entry hdir hold hentry
    exact hne ⟨rfl, hname.symm⟩
  have hinos : ((v.removeChild p' x).inodes.map (·.ino)).Nodup :=
    inos_modifyInode (f := fun p => { p with children := p.children.filter (· ≠ x) })
      (fun _ => rfl) p' h.inos
  exact h.drop (hname ▸ hentry) hleaf hcut hinos hno

/-! ## Renaming -/

/-- The file system between the two halves of `rename`: the child has left its directory and has
its new name. -/
def untie (v : VirtualFS) (p x : Nat) (m : Str) : VirtualFS :=
  (v.removeChild p x).modifyInode x fun i => { i with name := m }

/-- Untying an inode unties it in the shape. -/
theorem WF.shape_untie (hx : x ∈ v.shape.kids p) (m : Str) :
    (v.untie p x m).shape = v.shape.untie p x m := by
  have hentry := Shape.WF.entry_of_kid hx
  have hremove := shape_removeChild (h.shape.tree.dir_node (h.shape.tree.entry_dir hentry)) x
  have hnode : (v.removeChild p x).shape.Node x := by
    rw [hremove]
    exact h.shape.tree.entry_node hentry
  unfold untie
  rw [shape_setName hnode, hremove]
  rfl

omit h in
theorem inos_untie (v : VirtualFS) (p x : Nat) (m : Str) :
    (v.untie p x m).inodes.map (·.ino) = v.inodes.map (·.ino) := by
  refine (map_ino_modifyFirst (f := fun i => { i with name := m }) (fun _ => rfl) x _).trans ?_
  exact map_ino_modifyFirst (f := fun p => { p with children := p.children.filter (· ≠ x) })
    (fun _ => rfl) p v.inodes

theorem WF.resolvePath_untie (hx : x ∈ v.shape.kids p) (m path : Str) :
    (v.untie p x m).resolvePath path = (v.shape.untie p x m).find (components path) := by
  rw [← h.shape_untie hx]
  refine resolvePath_eq ?_ path
  intro hnil
  have hmap := inos_untie v p x m
  rw [hnil] at hmap
  exact h.inodes_ne_nil (map_eq_nil_iff.mp hmap.symm)

section

variable (hold : components oldPath = ns ++ [n]) (hp : v.shape.find ns = some p)
include hold hp

/-- Renaming a child. -/
theorem WF.rename_kid (hx : x ∈ v.shape.kids p) (hn : v.shape.name x = n) (newPath : Str) :
    v.rename oldPath newPath =
      match (v.untie p x (lastPart (splitPath newPath))).resolvePath
        (parentPath (splitPath newPath)) with
      | none => (.error (-2), v.untie p x (lastPart (splitPath newPath)))
      | some q => (.ok (), (v.untie p x (lastPart (splitPath newPath))).addChild q x) := by
  obtain ⟨parent, hsplit, hparent⟩ := splitParentName_concat hold
  have hentry : v.shape.Entry p n x := .inl ⟨hx, hn⟩
  have halias : v.aliases[(p, n)]? = none := by
    cases halias : v.aliases[(p, n)]? with
    | none => rfl
    | some y => exact absurd hn (h.shape.alias_free halias hx)
  unfold rename
  simp only [h.resolvePath, hold, h.shape.find_concat.mpr ⟨p, hp, hentry⟩, hsplit, hparent, hp,
    halias]
  rfl

/-- Renaming an alias to a path that leads somewhere. -/
theorem WF.rename_alias_exists (hx : v.shape.aliasAt (p, n) = some x)
    (hnew : v.shape.find (components newPath) ≠ none) :
    v.rename oldPath newPath = (.error (-17), v) := by
  obtain ⟨parent, hsplit, hparent⟩ := splitParentName_concat hold
  have halias : v.aliases[(p, n)]? = some x := hx
  unfold rename
  simp only [h.resolvePath, hold, h.shape.find_concat.mpr ⟨p, hp, .inr hx⟩, hsplit, hparent, hp,
    halias, isSome_some, if_true]
  rw [if_pos (isSome_iff_ne_none.mpr hnew)]

/-- Renaming an alias to a path that leads nowhere. -/
theorem WF.rename_alias_free (hx : v.shape.aliasAt (p, n) = some x)
    (hnew : v.shape.find (components newPath) = none) (hpath : components newPath = ms ++ [m]) :
    v.rename oldPath newPath =
      match v.shape.find ms with
      | none => (.error (-2), v)
      | some q =>
        (.ok (), { v with aliases := (v.aliases.erase (p, n)).insert (q, m) x }) := by
  obtain ⟨parent, hsplit, hparent⟩ := splitParentName_concat hold
  obtain ⟨parent', hsplit', hparent'⟩ := splitParentName_concat hpath
  have halias : v.aliases[(p, n)]? = some x := hx
  unfold rename
  simp only [h.resolvePath, hold, h.shape.find_concat.mpr ⟨p, hp, .inr hx⟩, hsplit, hparent, hp,
    halias, isSome_some, if_true, hnew, isSome_none, hsplit', hparent']
  rfl

end

/-- The directory and the name of the last component of a path. -/
def entryKey (v : VirtualFS) (path : Str) : Option (Nat × Str) :=
  match splitParentName path with
  | .error _ => none
  | .ok (parent, name) => (v.resolvePath parent).map fun p => (p, name)

/-- The path ends in an alias. -/
def isAlias (v : VirtualFS) (path : Str) : Bool :=
  (v.entryKey path).any fun key => v.aliases[key]?.isSome

omit h in
theorem entryKey_eq (hne : v.inodes ≠ []) (hpath : components path = ns ++ [n]) :
    v.entryKey path = (v.shape.find ns).map fun p => (p, n) := by
  obtain ⟨parent, hsplit, hparent⟩ := splitParentName_concat hpath
  unfold entryKey
  rw [hsplit]
  show (v.resolvePath parent).map _ = _
  rw [resolvePath_eq hne, hparent]

/-- The calls of `rename` that keep the name space: an alias goes into a directory; a child goes
under a proper name into a directory that is there and not below it, and nothing is there under
that name but possibly the child itself. -/
def RenameOk (v : VirtualFS) (oldPath newPath : Str) : Prop :=
  v.resolvePath oldPath = none ∨ components oldPath = [] ∨
    if v.isAlias oldPath then
      v.resolvePath newPath = none → ∀ key ∈ v.entryKey newPath, v.isDirectory key.1
    else
      lastPart (splitPath newPath) ≠ [] ∧
      (∃ parent ∈ v.resolvePath (parentPath (splitPath newPath)), v.isDirectory parent) ∧
      ¬ components oldPath <+: components (parentPath (splitPath newPath)) ∧
      (v.resolvePath newPath = none ∨ components newPath = components oldPath)

omit h in
theorem rename_nothing (hold : v.resolvePath oldPath = none ∨ components oldPath = [])
    (newPath : Str) : ∃ e, v.rename oldPath newPath = (.error e, v) := by
  unfold rename
  cases hx : v.resolvePath oldPath with
  | none => exact ⟨-2, rfl⟩
  | some x =>
    refine ⟨-22, ?_⟩
    simp only [splitParentName_nil (hold.resolve_left (by rw [hx]; simp))]

/-- What a path that leads somewhere below the root names. -/
theorem WF.entry_of_path (hsome : v.resolvePath oldPath ≠ none) (hne : components oldPath ≠ []) :
    ∃ ns n p x, components oldPath = ns ++ [n] ∧ v.shape.find (ns ++ [n]) = some x ∧
      v.shape.find ns = some p ∧ v.shape.Entry p n x ∧
      v.isAlias oldPath = (v.shape.aliasAt (p, n)).isSome := by
  obtain ⟨ns, n, hold⟩ := (components_cases oldPath).resolve_left hne
  obtain ⟨x, hx⟩ := ne_none_iff_exists'.mp hsome
  rw [h.resolvePath, hold] at hx
  obtain ⟨p, hp, hentry⟩ := h.entry_of_find hx
  refine ⟨ns, n, p, x, hold, hx, hp, hentry, ?_⟩
  unfold isAlias
  rw [entryKey_eq h.inodes_ne_nil hold, hp]
  rfl

/-- `rename` keeps the tree well-formed. -/
theorem WF.rename (hok : v.RenameOk oldPath newPath) : (v.rename oldPath newPath).2.WF := by
  by_cases hnothing : v.resolvePath oldPath = none ∨ components oldPath = []
  · obtain ⟨e, heq⟩ := rename_nothing hnothing newPath
    rw [heq]
    exact h
  have hok' := (hok.resolve_left fun hnone => hnothing (.inl hnone)).resolve_left
    fun hnil => hnothing (.inr hnil)
  push Not at hnothing
  obtain ⟨ns, n, p, x, hold, hx, hp, hentry, hisAlias⟩ := h.entry_of_path hnothing.1 hnothing.2
  rw [hisAlias] at hok'
  cases halias : v.shape.aliasAt (p, n) with
  | some y =>
    rw [halias, h.resolvePath] at hok'
    cases hnew : v.shape.find (components newPath) with
    | some z =>
      rw [h.rename_alias_exists hold hp halias (by rw [hnew]; simp)]
      exact h
    | none =>
      rcases components_cases newPath with hnil | ⟨ms, m, hpath⟩
      · rw [hnil] at hnew
        cases hnew
      rw [h.rename_alias_free hold hp halias hnew hpath]
      cases hq : v.shape.find ms with
      | none => exact h
      | some q =>
        have hdir : v.shape.Dir q := by
          refine dir_iff.mpr (hok' hnew (q, m) ?_)
          rw [entryKey_eq h.inodes_ne_nil hpath, hq]
          rfl
        have hm : IsPart m := isPart_of_concat hpath
        refine ⟨?_, h.inos⟩
        rw [shape_insertAlias (v := { v with aliases := v.aliases.erase (p, n) }), shape_eraseAlias]
        refine h.shape.moveAlias halias hdir hm fun i hi => ?_
        rw [hpath, h.shape.find_concat.mpr ⟨q, hq, hi⟩] at hnew
        cases hnew
  | none =>
    obtain ⟨hkid, hname⟩ := hentry.kid halias
    rw [halias] at hok'
    obtain ⟨hlast, ⟨q, hq, hqdir⟩, hnot, hfree⟩ := hok'
    rw [h.resolvePath] at hq
    rw [h.resolvePath] at hfree
    -- the new parent is still found once the old name is gone
    have hq' : (v.untie p x (lastPart (splitPath newPath))).resolvePath
        (parentPath (splitPath newPath)) = some q := by
      rw [h.resolvePath_untie hkid]
      refine (h.shape.find_untie hkid hp).mpr ⟨hq, ?_⟩
      rw [hname, ← hold]
      exact hnot
    rw [h.rename_kid hold hp hkid hname, hq']
    have hdir : v.shape.Dir q := dir_iff.mpr hqdir
    have hnode : (v.untie p x (lastPart (splitPath newPath))).shape.Node q := by
      rw [h.shape_untie hkid]
      exact h.shape.tree.dir_node hdir
    constructor
    · rw [shape_addChild hnode, h.shape_untie hkid]
      refine h.shape.moveKid hkid hdir (isPart_lastPart hlast) ?_ ?_
      · intro rest hwalk
        have hpath : Walk v.shape.Entry v.shape.root (ns ++ [n] ++ rest) q :=
          Walk.append_iff.mpr ⟨x, h.shape.find_iff.mp hx, hwalk⟩
        have heq := h.shape.tree.path_unique hdir hpath (h.shape.find_iff.mp hq)
        exact hnot ⟨rest, by rw [hold, heq]⟩
      · intro i hi
        have hnew := h.shape.find_concat.mpr ⟨q, hq, hi⟩
        rw [← components_of_lastPart_ne hlast] at hnew
        have heq : components newPath = components oldPath :=
          hfree.resolve_left (by rw [hnew]; simp)
        rw [components_of_lastPart_ne hlast, hold] at heq
        obtain ⟨hparents, hlasts⟩ := append_inj' heq rfl
        rw [hparents, hp] at hq
        exact ⟨(some.inj hq).symm, by rw [hname]; exact singleton_inj.mp hlasts⟩
    · refine inos_modifyInode (f := fun p => { p with children := p.children ++ [x] })
        (fun _ => rfl) q ?_
      rw [inos_untie v]
      exact h.inos

end VirtualFS

end KnoxOS.Vfs
