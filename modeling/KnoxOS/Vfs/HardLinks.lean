import KnoxOS.Vfs.Namespace

/-!
# Hard links

The names of a file over runs of the virtual file system. The main theorem, `hard_links_hold`,
says that in every run of calls that meet `Ok` the link count of a file is the number of paths
that resolve to it, that a write through one of them is read through all, that `unlink` leaves
the other names and their contents alone, and that a file goes with its last name. A rename of
one name of a file over another one breaks the count (`rename_over_own_link_counts_two`).
-/

namespace KnoxOS.Vfs

open Lib List

namespace VirtualFS

variable {v v' : VirtualFS} {a b p x ino : Nat} {n path : Str} {ns : List Str} {other : Str}

/-! ## Counting names -/

/-- The directories and names under which an inode is recorded. -/
def namesOf (v : VirtualFS) (ino : Nat) : List (Nat × Str) :=
  ((v.inodes.filter fun p => p.children.contains ino).map fun p => (p.ino, v.shape.name ino)) ++
    (v.aliases.toList.filter fun e => e.2 = ino).map Prod.fst

theorem length_namesOf (v : VirtualFS) (ino : Nat) : (v.namesOf ino).length = v.nameCount ino := by
  unfold namesOf nameCount
  rw [length_append, length_map, length_map, countP_eq_length_filter, countP_eq_length_filter]

/-- `read_file` reads the contents of what the path resolves to. -/
theorem readFile_eq_bind (v : VirtualFS) (path : Str) :
    v.readFile path = (v.resolvePath path).bind fun a => (v.contents a).bind fun c =>
      if c.1 = .regular ∨ c.1 = .charDevice then some c.2 else none := by
  unfold readFile contents
  cases v.resolvePath path with
  | none => rfl
  | some a =>
    cases hget : v.getInode a with
    | none => simp [hget]
    | some i => simp [hget]

variable (h : v.WF)
include h

/-- The names of an inode are its entries. -/
theorem WF.mem_namesOf : (a, n) ∈ v.namesOf ino ↔ v.shape.Entry a n ino := by
  unfold namesOf
  rw [mem_append, mem_map, mem_map]
  refine or_congr ?_ ?_
  · constructor
    · rintro ⟨p, hp, heq⟩
      obtain ⟨hmem, hcontains⟩ := mem_filter.mp hp
      cases heq
      exact ⟨mem_kids_iff.mpr ⟨p, h.getInode_of_mem hmem, by simpa using hcontains⟩, rfl⟩
    · rintro ⟨hkid, rfl⟩
      obtain ⟨p, hp, hmem⟩ := mem_kids_iff.mp hkid
      refine ⟨p, mem_filter.mpr ⟨mem_of_getInode hp, by simpa using hmem⟩, ?_⟩
      rw [ino_of_getInode hp]
  · constructor
    · rintro ⟨⟨k, b⟩, he, rfl⟩
      obtain ⟨hmem, hb⟩ := mem_filter.mp he
      rw [← show b = ino by simpa using hb]
      exact mem_toList_iff.mp hmem
    · intro halias
      exact ⟨((a, n), ino), mem_filter.mpr ⟨mem_toList_iff.mpr halias, by simp⟩, rfl⟩

/-- The names of an inode are distinct. -/
theorem WF.nodup_namesOf (ino : Nat) : (v.namesOf ino).Nodup := by
  unfold namesOf
  rw [nodup_append]
  refine ⟨?_, ?_, ?_⟩
  · -- the directories are distinct
    have hnodup : ((v.inodes.filter fun p => p.children.contains ino).map (·.ino)).Nodup :=
      h.inos.sublist (Sublist.map _ filter_sublist)
    have hpairs := hnodup.map (f := fun a => (a, v.shape.name ino))
      fun a b heq => congrArg Prod.fst heq
    rw [map_map] at hpairs
    exact hpairs
  · have hkeys : (v.aliases.toList.map Prod.fst).Nodup := by
      refine pairwise_map.mpr (Std.TreeMap.distinct_keys_toList.imp fun hne heq => hne ?_)
      rw [heq]
      exact Std.ReflOrd.compare_self
    exact hkeys.sublist (Sublist.map _ filter_sublist)
  · -- no alias has the name of a child
    rintro ⟨a, n⟩ hkid ⟨a', n'⟩ halias heq
    cases heq
    obtain ⟨p, hp, hpair⟩ := mem_map.mp hkid
    obtain ⟨⟨k, b⟩, he, hk⟩ := mem_map.mp halias
    cases hpair
    cases hk
    obtain ⟨hmem, hcontains⟩ := mem_filter.mp hp
    have hlook := mem_toList_iff.mp (mem_filter.mp he).1
    have hchild : ino ∈ v.shape.kids p.ino :=
      mem_kids_iff.mpr ⟨p, h.getInode_of_mem hmem, by simpa using hcontains⟩
    exact h.shape.alias_free hlook hchild rfl

/-- The paths to an inode other than the root, one for each of its names. -/
theorem WF.paths_of_names (hroot : ino ≠ v.shape.root) :
    ∃ paths : List (List Str), paths.Nodup ∧ paths.length = v.nameCount ino ∧
      ∀ ns, ns ∈ paths ↔ v.shape.find ns = some ino := by
  -- every directory has a path
  have hdir : ∀ a, ∃ ns, v.shape.Dir a → v.shape.find ns = some a := by
    intro a
    by_cases ha : v.shape.Dir a
    · obtain ⟨ns, hns⟩ := h.shape.tree.reachable (h.shape.tree.dir_node ha)
      exact ⟨ns, fun _ => h.shape.find_iff.mpr hns⟩
    · exact ⟨[], fun hd => absurd hd ha⟩
  choose pathTo hpathTo using hdir
  have hentry : ∀ {a n}, (a, n) ∈ v.namesOf ino → v.shape.find (pathTo a) = some a :=
    fun hmem => hpathTo _ (h.shape.tree.entry_dir (h.mem_namesOf.mp hmem))
  refine ⟨(v.namesOf ino).map fun e => pathTo e.1 ++ [e.2], ?_, ?_, ?_⟩
  · refine Nodup.map_on ?_ (h.nodup_namesOf ino)
    rintro ⟨a, n⟩ ha ⟨b, m⟩ hb heq
    obtain ⟨hpaths, hnames⟩ := append_inj' heq rfl
    have hab : some a = some b := by
      rw [← hentry ha, ← hentry hb]
      exact congrArg v.shape.find hpaths
    cases hab
    have hnm : n = m := singleton_inj.mp hnames
    rw [hnm]
  · rw [length_map, length_namesOf]
  · intro ns
    rw [mem_map]
    constructor
    · rintro ⟨⟨a, n⟩, hmem, rfl⟩
      exact h.shape.find_concat.mpr ⟨a, hentry hmem, h.mem_namesOf.mp hmem⟩
    · intro hfind
      cases ns using reverseRecOn with
      | nil => exact absurd (Option.some.inj hfind).symm hroot
      | append_singleton ns n =>
        obtain ⟨a, ha, hn⟩ := h.shape.find_concat.mp hfind
        have hmem := h.mem_namesOf.mpr hn
        refine ⟨(a, n), hmem, ?_⟩
        rw [h.shape.find_unique (h.shape.tree.entry_dir hn) (hentry hmem) ha]

/-! ## Removing a name -/

/-- The paths after a name of a file is removed. -/
theorem WF.find_unlink (hok : v.unlink path = .ok v') :
    ∃ x, v.shape.find (components path) = some x ∧ ¬ v.shape.Dir x ∧
      (∀ ns c, v'.shape.find ns = some c ↔
        v.shape.find ns = some c ∧ ¬ components path <+: ns) ∧
      (∀ a, v'.contents a = v.contents a ∨ a = x ∧ v'.getInode x = none ∧
        ∀ ns, v'.shape.find ns ≠ some x) ∧
      (v'.getInode x = none ↔ ∀ ns, v'.shape.find ns ≠ some x) := by
  have hwf := h.unlink hok
  obtain ⟨ns, n, p, x, v₁, hpath, hp, hentry, hfile, hcut, hinos, hcontents, hlast⟩ :=
    h.unlink_spec hok
  -- in both cases exactly one entry goes
  have hentries : (∀ a k b, v'.shape.Entry a k b ↔ v.shape.Entry a k b ∧ ¬ (a = p ∧ k = n)) ∧
      v'.shape.root = v.shape.root := by
    rcases hlast with ⟨-, rfl⟩ | ⟨hno, rfl⟩
    · exact ⟨hcut.entry, hcut.root⟩
    · have hne : v₁.inodes ≠ [] := by
        intro hnil
        refine hwf.inodes_ne_nil ?_
        show v₁.inodes.filter _ = []
        rw [hnil]
        rfl
      have hshape := shape_dropInode (hcut.root ▸ h.ne_root hentry : x ≠ v₁.shape.root) hne
      have hleaf : v₁.shape.kids x = [] := by
        refine eq_nil_iff_forall_not_mem.mpr fun b hb => ?_
        exact h.shape.file_leaf hfile _ b
          (Shape.WF.entry_of_kid ((hcut.kids x).subset hb))
      rw [hshape]
      exact ⟨fun a k b => (Shape.WF.entry_drop hno hleaf a k b).trans (hcut.entry a k b),
        hcut.root⟩
  have hfind : ∀ ms c, v'.shape.find ms = some c ↔
      v.shape.find ms = some c ∧ ¬ components path <+: ms := by
    intro ms c
    rw [hpath, h.shape.find_iff, hwf.shape.find_iff, hentries.2,
      ← h.shape.tree.walk_cut_iff (h.shape.find_iff.mp hp) hentry]
    constructor
    · exact fun hwalk => hwalk.mono fun a k b hb => (hentries.1 a k b).mp hb
    · exact fun hwalk => hwalk.mono fun a k b hb => (hentries.1 a k b).mpr hb
  have hgone : v'.getInode x = none ↔ ∀ ns, v'.shape.find ns ≠ some x := by
    rw [Option.eq_none_iff_forall_ne_some, ← not_exists, ← not_exists, hwf.exists_find_iff]
  refine ⟨x, ?_, hfile, hfind, ?_, hgone⟩
  · rw [hpath]
    exact h.shape.find_concat.mpr ⟨p, hp, hentry⟩
  · intro a
    rcases hlast with ⟨-, rfl⟩ | ⟨hno, rfl⟩
    · exact .inl (hcontents a)
    · by_cases ha : a = x
      · have hnone : (v₁.dropInode x).getInode x = none := by rw [getInode_dropInode, if_pos rfl]
        exact .inr ⟨ha, hnone, hgone.mp hnone⟩
      · refine .inl ?_
        rw [← hcontents a]
        unfold contents
        rw [getInode_dropInode, if_neg ha]

/-- Other paths keep their file and its contents. -/
theorem WF.unlink_other (hok : v.unlink path = .ok v') (hne : components other ≠ components path) :
    v'.resolvePath other = v.resolvePath other ∧ v'.readFile other = v.readFile other := by
  have hwf := h.unlink hok
  obtain ⟨x, hx, hfile, hfind, hcontents, -⟩ := h.find_unlink hok
  have hsame : v'.resolvePath other = v.resolvePath other := by
    rw [h.resolvePath, hwf.resolvePath]
    refine Option.ext fun c => ?_
    rw [hfind]
    refine ⟨fun hc => hc.1, fun hc => ⟨hc, fun hpre => hne ?_⟩⟩
    exact h.eq_of_below_file hx hfile hpre hc
  refine ⟨hsame, ?_⟩
  rw [readFile_eq_bind, readFile_eq_bind, hsame]
  cases hc : v.resolvePath other with
  | none => rfl
  | some c =>
    rcases hcontents c with heq | ⟨rfl, -, hno⟩
    · simp only [Option.bind_some, heq]
    · rw [← hsame, hwf.resolvePath] at hc
      exact absurd hc (hno _)

/-- The file is gone exactly when no other path resolved to it. -/
theorem WF.unlink_drops (hok : v.unlink path = .ok v') (hx : v.resolvePath path = some x) :
    v'.getInode x = none ↔
      ∀ other, components other ≠ components path → v.resolvePath other ≠ some x := by
  obtain ⟨y, hy, hfile, hfind, -, hgone⟩ := h.find_unlink hok
  rw [h.resolvePath, hy] at hx
  obtain rfl := Option.some.inj hx
  rw [hgone]
  constructor
  · intro hno other hne hother
    rw [h.resolvePath] at hother
    refine hno (components other) ((hfind _ _).mpr ⟨hother, fun hpre => hne ?_⟩)
    exact h.eq_of_below_file hy hfile hpre hother
  · intro hno ms hms
    obtain ⟨hold, hpre⟩ := (hfind ms y).mp hms
    have hparts := h.parts_of_walk (h.shape.find_iff.mp hold)
    refine hno (absolute ms) ?_ (h.resolvePath_absolute hold)
    rw [components_absolute hparts]
    rintro rfl
    exact hpre (prefix_refl _)

/-! ## Writing through a name -/

/-- The contents after those of one inode are replaced, through every path. -/
theorem WF.readFile_modify {f : Inode → Inode} (hino : ∀ i, (f i).ino = i.ino)
    (hshape : ∀ i, (f i).fileType = i.fileType ∧ (f i).name = i.name ∧ (f i).children = i.children)
    {i : Inode} (hget : v.getInode x = some i) (hkind : i.fileType = .regular)
    (hother : v.resolvePath other = some x) :
    (v.modifyInode x f).readFile other = some (f i).data := by
  have hwf := h.modify_data hino hshape hget
  have hafter : (v.modifyInode x f).getInode x = some (f i) := by
    rw [getInode_modifyInode hino, if_pos rfl, hget]
    rfl
  have hresolve : (v.modifyInode x f).resolvePath other = some x := by
    rw [hwf.resolvePath, shape_modify_data hino hshape hget, ← h.resolvePath, hother]
  unfold readFile
  rw [hresolve]
  simp only [Option.bind_some, hafter]
  rw [if_pos (.inl (by rw [(hshape i).1, hkind]))]

/-- The path names a regular file. -/
def IsFile (v : VirtualFS) (path : Str) (ino : Nat) : Prop :=
  v.resolvePath path = some ino ∧ ∃ i, v.getInode ino = some i ∧ i.fileType = .regular

/-- What is written through one name is read through every other. -/
theorem WF.write_read (hfile : v.IsFile path ino) (hother : v.resolvePath other = some ino)
    (data : List UInt8) :
    (v.writeFile path data).1 = true ∧ (v.writeFile path data).2.readFile other = some data := by
  obtain ⟨hpath, i, hget, hkind⟩ := hfile
  have hino := ino_of_getInode hget
  unfold VirtualFS.writeFile
  simp only [hpath, Option.bind_some, hget]
  rw [hino]
  exact ⟨trivial, h.readFile_modify (f := fun i => { i with data := data, size := data.length })
    (fun _ => rfl) (fun _ => ⟨rfl, rfl, rfl⟩) hget hkind hother⟩

/-- What is written to a range through one name is read through every other. -/
theorem WF.write_range_read (hfile : v.IsFile path ino) (hother : v.resolvePath other = some ino)
    {offset : Nat} {data old : List UInt8} (hend : offset + data.length < 2 ^ 64)
    (hold : v.readFile path = some old) :
    (v.writeFileRange path offset data).1 = true ∧
      (v.writeFileRange path offset data).2.readFile other =
        some (overlay (extendTo (offset + data.length) old) offset data) := by
  obtain ⟨hpath, i, hget, hkind⟩ := hfile
  have hdata : i.data = old := by
    unfold readFile at hold
    simp only [hpath, Option.bind_some, hget, hkind, true_or, if_true] at hold
    exact Option.some.inj hold
  have hread := h.readFile_modify
    (f := fun i => { i with
      data := overlay (extendTo (offset + data.length) i.data) offset data
      size := max i.size (offset + data.length) })
    (fun _ => rfl) (fun _ => ⟨rfl, rfl, rfl⟩) hget hkind hother
  unfold VirtualFS.writeFileRange openForRange
  simp only [hpath, hget]
  rw [if_neg (fun hne => hne.1 hkind), if_neg (Nat.not_le.mpr hend)]
  rw [hdata] at hread
  exact ⟨rfl, hread⟩

/-! ## Runs -/

/-- Hard links work: the link count of a file is the number of paths to it, what is written
through one of them is read through all, `unlink` leaves the others alone and takes the file with
the last one, and a file is there as long as a path leads to it. -/
structure HardLinks (v : VirtualFS) : Prop where
  nlink : ∀ path ino, v.IsFile path ino → ∃ paths : List (List Str), paths.Nodup ∧
    (∀ ns, ns ∈ paths ↔ (∀ part ∈ ns, IsPart part) ∧ v.resolvePath (absolute ns) = some ino) ∧
    v.statNlink path = .ok paths.length
  write : ∀ path other ino data, v.IsFile path ino → v.resolvePath other = some ino →
    (v.writeFile path data).1 = true ∧ (v.writeFile path data).2.readFile other = some data
  write_range : ∀ path other ino offset data old, v.IsFile path ino →
    v.resolvePath other = some ino → offset + data.length < 2 ^ 64 →
    v.readFile path = some old → (v.writeFileRange path offset data).1 = true ∧
      (v.writeFileRange path offset data).2.readFile other =
        some (overlay (extendTo (offset + data.length) old) offset data)
  unlink : ∀ path v', v.unlink path = .ok v' → ∀ other, components other ≠ components path →
    v'.resolvePath other = v.resolvePath other ∧ v'.readFile other = v.readFile other
  unlink_drops : ∀ path v' ino, v.unlink path = .ok v' → v.resolvePath path = some ino →
    (v'.getInode ino = none ↔
      ∀ other, components other ≠ components path → v.resolvePath other ≠ some ino)
  named : ∀ ino, (∃ i, v.getInode ino = some i) ↔ ∃ path, v.resolvePath path = some ino

/-- The link count is the number of paths. -/
theorem WF.nlink (hfile : v.IsFile path ino) : ∃ paths : List (List Str), paths.Nodup ∧
    (∀ ns, ns ∈ paths ↔ (∀ part ∈ ns, IsPart part) ∧ v.resolvePath (absolute ns) = some ino) ∧
    v.statNlink path = .ok paths.length := by
  obtain ⟨hpath, i, hget, hkind⟩ := hfile
  have hroot : ino ≠ v.shape.root := by
    rintro rfl
    have hdir : v.shape.kind v.shape.root = some .directory := h.shape.tree.root_dir
    rw [kind_of_getInode hget, hkind] at hdir
    cases hdir
  obtain ⟨paths, hnodup, hlength, hmem⟩ := h.paths_of_names hroot
  refine ⟨paths, hnodup, fun ns => ?_, ?_⟩
  · rw [hmem]
    constructor
    · intro hns
      exact ⟨h.parts_of_walk (h.shape.find_iff.mp hns), h.resolvePath_absolute hns⟩
    · rintro ⟨hparts, hns⟩
      rw [h.resolvePath, components_absolute hparts] at hns
      exact hns
  · unfold statNlink
    simp only [hpath, hget, hkind]
    rw [hlength]
    rfl

theorem WF.hardLinks : v.HardLinks where
  nlink _ _ hfile := h.nlink hfile
  write _ _ _ data hfile hother := h.write_read hfile hother data
  write_range _ _ _ _ _ _ hfile hother hend hold := h.write_range_read hfile hother hend hold
  unlink _ _ hok _ hne := h.unlink_other hok hne
  unlink_drops _ _ _ hok hx := h.unlink_drops hok hx
  named _ := h.exists_path_iff.symm

end VirtualFS

open VirtualFS

/-- In every run of calls that meet `Ok`, hard links work in every state reached. -/
theorem hard_links_hold {v : VirtualFS} (hrun : Reach step Ok new v) : v.HardLinks :=
  (hrun.invariant WF wf_new fun _ op h hok => h.step op hok).hardLinks

/-- A file gets a second name, is written through it, and then loses one name and changes the
other. -/
def fiveCalls : List Op :=
  [.writeFile "/tmp/a".toList [1], .link "/tmp/a".toList "/tmp/b".toList,
    .writeFileRange "/tmp/b".toList 1 [2], .rename "/tmp/a".toList "/tmp/c".toList,
    .unlink "/tmp/b".toList]

theorem hard_links_hold_five_calls :
    (fiveCalls.foldl step new).HardLinks ∧
      (fiveCalls.foldl step new).readFile "/tmp/c".toList = some [1, 2] := by
  have hadmitted : Admitted step Ok new fiveCalls := by decide +kernel
  exact ⟨hard_links_hold (Reach.start.foldl hadmitted), by decide +kernel⟩

/-! ## A name over another one -/

namespace VirtualFS

variable {v : VirtualFS} {a b root x : Nat} {n m path : Str}

/-- What the lookup finds is named there. -/
theorem named_of_lookupChild (h : v.lookupChild a n = some b) : v.Named a n b := by
  unfold lookupChild at h
  cases hget : v.getInode a with
  | none =>
    rw [hget] at h
    cases h
  | some p =>
    simp only [hget] at h
    cases hfind : v.findChild p.children n with
    | none =>
      rw [hfind] at h
      exact .inr h
    | some c =>
      rw [hfind] at h
      obtain rfl := Option.some.inj h
      have hany := find?_some hfind
      cases hc : v.getInode c with
      | none =>
        rw [hc] at hany
        cases hany
      | some i =>
        rw [hc] at hany
        exact .inl ⟨p, i, hget, mem_of_find?_eq_some hfind, hc, by simpa using hany⟩

/-- The path to an inode that is recorded under one name in the root only. -/
theorem components_of_only_name (hroot : v.inodes.head?.map (·.ino) = some root) (hne : x ≠ root)
    (htop : ∀ a n, ¬ v.Named a n root) (honly : ∀ a n, v.Named a n x → a = root ∧ n = m)
    (hpath : v.resolvePath path = some x) : components path = [m] := by
  have hinodes : v.inodes ≠ [] := by
    intro hnil
    rw [hnil] at hroot
    cases hroot
  have hshape : v.shape.root = root := by
    show (v.inodes.head?.map (·.ino)).getD 0 = root
    rw [hroot]
    rfl
  rw [resolvePath_eq hinodes] at hpath
  unfold Shape.find at hpath
  rw [← follow_lookupChild (fun part hpart => (isPart_of_mem_components hpart).1), hshape] at hpath
  rcases components_cases path with hnil | ⟨ns, n, hcomponents⟩
  · rw [hnil] at hpath
    exact absurd (Option.some.inj hpath).symm hne
  · rw [hcomponents, follow_append] at hpath
    obtain ⟨c, hc, hlast⟩ := Option.bind_eq_some_iff.mp hpath
    obtain ⟨d, hd, heq⟩ := Option.bind_eq_some_iff.mp hlast
    obtain rfl := Option.some.inj heq
    obtain ⟨rfl, rfl⟩ := honly c n (named_of_lookupChild hd)
    -- nothing leads back to the root
    cases ns using reverseRecOn with
    | nil => exact hcomponents
    | append_singleton ns k =>
      rw [follow_append] at hc
      obtain ⟨e, -, hk⟩ := Option.bind_eq_some_iff.mp hc
      obtain ⟨f, hf, heq⟩ := Option.bind_eq_some_iff.mp hk
      obtain rfl := Option.some.inj heq
      exact absurd (named_of_lookupChild hf) (htop e k)

theorem named_cases (h : v.Named a n x) :
    (∃ p ∈ v.inodes, p.ino = a ∧ x ∈ p.children ∧ v.shape.name x = n) ∨
      ∃ e ∈ v.aliases.toList, e = ((a, n), x) := by
  rcases h with ⟨p, i, hp, hmem, hi, hname⟩ | halias
  · exact .inl ⟨p, mem_of_getInode hp, ino_of_getInode hp, hmem, by rw [name_of_getInode hi, hname]⟩
  · exact .inr ⟨_, mem_toList_iff.mpr halias, rfl⟩

end VirtualFS

/-- A file with two names, one of which is renamed to the other. -/
def overOwnLink : VirtualFS :=
  [Op.writeFile "/a".toList [1], .link "/a".toList "/b".toList,
    .rename "/a".toList "/b".toList].foldl step new

/-- After a rename of one name of a file over its other name, the link count is two and one path
is left. -/
theorem rename_over_own_link_counts_two : ¬ overOwnLink.HardLinks := by
  intro h
  have hfile : overOwnLink.IsFile "/b".toList 39 := by
    refine ⟨by decide +kernel, ?_⟩
    have hkind : (overOwnLink.getInode 39).map (·.fileType) = some .regular := by decide +kernel
    obtain ⟨i, hi, heq⟩ := Option.map_eq_some_iff.mp hkind
    exact ⟨i, hi, heq⟩
  obtain ⟨paths, hnodup, hmem, hcount⟩ := h.nlink _ _ hfile
  have htwo : (overOwnLink.statNlink "/b".toList).toOption = some 2 := by decide +kernel
  rw [hcount] at htwo
  have hlength : paths.length = 2 := Option.some.inj htwo
  have hkids : ∀ p ∈ overOwnLink.inodes, 1 ∉ p.children ∧ (39 ∈ p.children → p.ino = 1) := by
    decide +kernel
  have haliases : ∀ e ∈ overOwnLink.aliases.toList, e.2 ≠ 1 ∧ (e.2 = 39 → e.1 = (1, ['b'])) := by
    decide +kernel
  have hname : overOwnLink.shape.name 39 = ['b'] := by decide +kernel
  have hroot : overOwnLink.inodes.head?.map (·.ino) = some 1 := by decide +kernel
  have honly : ∀ ns ∈ paths, ns = [['b']] := by
    intro ns hns
    obtain ⟨hparts, hresolve⟩ := (hmem ns).mp hns
    rw [← components_absolute hparts]
    refine components_of_only_name hroot (by decide) ?_ ?_ hresolve
    · intro a n hnamed
      rcases named_cases hnamed with ⟨p, hp, -, hchild, -⟩ | ⟨e, he, rfl⟩
      · exact (hkids p hp).1 hchild
      · exact (haliases _ he).1 rfl
    · intro a n hnamed
      rcases named_cases hnamed with ⟨p, hp, rfl, hchild, rfl⟩ | ⟨e, he, rfl⟩
      · exact ⟨(hkids p hp).2 hchild, hname⟩
      · have hkey := (haliases _ he).2 rfl
        exact ⟨congrArg Prod.fst hkey, congrArg Prod.snd hkey⟩
  have hle : paths.length ≤ 1 := by
    rw [← countP_true]
    exact countP_le_one hnodup fun a ha b hb _ _ => by rw [honly a ha, honly b hb]
  omega

end KnoxOS.Vfs
