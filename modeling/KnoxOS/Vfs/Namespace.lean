import KnoxOS.Lib.Reach
import KnoxOS.Lib.Vec
import KnoxOS.Vfs.Tree

/-!
# The name space over runs

Runs of the calls of the virtual file system from the fresh one. A call that meets `Ok` keeps the
file system well formed (`WF.step`). The main theorem, `namespace_stays_tree`, draws from that
what every run keeps: references name inodes that are there, a name occurs once in a directory,
only directories have entries, every inode is reached by exactly the names recorded for it, and a
directory has one parent and is not below itself. A call outside `Ok` breaks it
(`rename_doubles_name`).
-/

namespace KnoxOS.Vfs

open Lib Option List

/-- The calls. -/
inductive Op where
  | writeFile (path : Str) (data : List UInt8)
  | writeFileRange (path : Str) (offset : Nat) (data : List UInt8)
  | createFileAtPath (path : Str) (fileType : FileType) (data : List UInt8) (permissions : Nat)
  | mkdir (path : Str) (permissions : Nat)
  | link (oldPath newPath : Str)
  | unlink (path : Str)
  | rmdir (path : Str)
  | rename (oldPath newPath : Str)
  | createSymlink (target : List UInt8) (linkPath : Str)

namespace VirtualFS

variable {v v' : VirtualFS} {a p : Nat} {n path : Str}

/-- The file system after a call. -/
def step (v : VirtualFS) : Op → VirtualFS
  | .writeFile path data => (v.writeFile path data).2
  | .writeFileRange path offset data => (v.writeFileRange path offset data).2
  | .createFileAtPath path fileType data permissions =>
    (v.createFileAtPath path fileType data permissions).2
  | .mkdir path permissions => ((v.mkdir path permissions).toOption.map Prod.snd).getD v
  | .link oldPath newPath => (v.link oldPath newPath).toOption.getD v
  | .unlink path => (v.unlink path).toOption.getD v
  | .rmdir path => (v.rmdir path).toOption.getD v
  | .rename oldPath newPath => (v.rename oldPath newPath).2
  | .createSymlink target linkPath => v.createSymlink target linkPath

/-- The calls that keep the name space. A file is written where one is or can be made, and made
where none is; a directory is made in a directory and removed by a path without a final slash when
no alias is in it; a rename meets `RenameOk`. -/
def Ok (v : VirtualFS) : Op → Prop
  | .writeFile path _ => v.resolvePath path ≠ none ∨ v.Creatable path
  | .writeFileRange path _ _ => v.resolvePath path ≠ none ∨ v.Creatable path
  | .createFileAtPath path _ _ _ => v.Creatable path
  | .createSymlink _ linkPath => v.Creatable linkPath
  | .mkdir path _ =>
    v.resolvePath path = none → v.nextIno + 1 < 2 ^ 64 ∧
      ∀ parent ∈ v.resolvePath (parentPath (splitPath path)), v.isDirectory parent
  | .link _ _ => True
  | .unlink _ => True
  | .rmdir path =>
    ∀ ino ∈ v.resolvePath path,
      (v.getInode ino).any (fun i => i.fileType = .directory ∧ i.children = []) →
        lastPart (splitPath path) ≠ [] ∧ ∀ e ∈ v.aliases.toList, e.1.1 ≠ ino
  | .rename oldPath newPath => v.RenameOk oldPath newPath

instance decidableCreatable (v : VirtualFS) (path : Str) : Decidable (v.Creatable path) :=
  inferInstanceAs (Decidable (_ ∧ _ ∧ (∀ pre ∈ _, ∀ ino ∈ v.resolvePath (absolute pre), _) ∧ _))

instance decidableRenameOk (v : VirtualFS) (oldPath newPath : Str) :
    Decidable (v.RenameOk oldPath newPath) :=
  inferInstanceAs (Decidable (_ ∨ _ ∨ if v.isAlias oldPath then _ else _))

instance decidableOk (v : VirtualFS) : ∀ op, Decidable (v.Ok op)
  | .writeFile .. | .writeFileRange .. => inferInstanceAs (Decidable (_ ∨ _))
  | .createFileAtPath path _ _ _ => inferInstanceAs (Decidable (v.Creatable path))
  | .createSymlink _ linkPath => inferInstanceAs (Decidable (v.Creatable linkPath))
  | .mkdir path _ =>
    inferInstanceAs (Decidable (_ → _ ∧ ∀ p ∈ v.resolvePath (parentPath (splitPath path)), _))
  | .link _ _ => inferInstanceAs (Decidable True)
  | .unlink _ => inferInstanceAs (Decidable True)
  | .rmdir path =>
    inferInstanceAs (Decidable (∀ ino ∈ v.resolvePath path, _ → _ ∧ ∀ e ∈ v.aliases.toList, _))
  | .rename oldPath newPath => inferInstanceAs (Decidable (v.RenameOk oldPath newPath))

/-! ## Steps -/

theorem WF.modify_data {f : Inode → Inode} (h : v.WF) (hino : ∀ i, (f i).ino = i.ino)
    (hshape : ∀ i, (f i).fileType = i.fileType ∧ (f i).name = i.name ∧
      (f i).children = i.children) {i : Inode} (hget : v.getInode a = some i) :
    (v.modifyInode a f).WF := by
  refine ⟨?_, inos_modifyInode hino a h.inos⟩
  rw [shape_modify_data hino hshape hget]
  exact h.shape

/-- `write_file` keeps the tree well-formed. -/
theorem WF.writeFile (h : v.WF) (hok : v.resolvePath path ≠ none ∨ v.Creatable path)
    (data : List UInt8) : (v.writeFile path data).2.WF := by
  unfold VirtualFS.writeFile
  cases hget : (v.resolvePath path).bind v.getInode with
  | some i =>
    obtain ⟨a, -, hi⟩ := bind_eq_some_iff.mp hget
    rw [← ino_of_getInode hi] at hi
    exact h.modify_data (f := fun i => { i with data := data, size := data.length })
      (fun _ => rfl) (fun _ => ⟨rfl, rfl, rfl⟩) hi
  | none =>
    -- what a path resolves to is there
    have hnone : v.resolvePath path = none := by
      cases hx : v.resolvePath path with
      | none => rfl
      | some x =>
        rw [hx, bind_some] at hget
        rw [h.resolvePath] at hx
        obtain ⟨i, hi⟩ := h.node_of_find hx
        rw [hi] at hget
        cases hget
    exact h.create_of_creatable (hok.resolve_left fun hne => hne hnone) .regular data 0o644

/-- `write_file_range` keeps the tree well-formed. -/
theorem WF.writeFileRange (h : v.WF) (hok : v.resolvePath path ≠ none ∨ v.Creatable path)
    (offset : Nat) (data : List UInt8) : (v.writeFileRange path offset data).2.WF := by
  have hopen : (v.openForRange path).2.WF := by
    unfold openForRange
    cases hx : v.resolvePath path with
    | some x => exact h
    | none =>
      have hwf := h.writeFile hok []
      cases hwrite : v.writeFile path [] with
      | mk written v' =>
        rw [hwrite] at hwf
        cases written with
        | false => exact hwf
        | true => exact hwf
  unfold VirtualFS.writeFileRange
  cases hfound : v.openForRange path with
  | mk found v' =>
    rw [hfound] at hopen
    cases found with
    | none => exact hopen
    | some x =>
      cases hget : v'.getInode x with
      | none =>
        simp only [hget]
        exact hopen
      | some i =>
        simp only [hget]
        split_ifs with hkind hend
        · exact hopen
        · exact hopen
        · exact WF.modify_data hopen
            (f := fun i => { i with
              data := overlay (extendTo (offset + data.length) i.data) offset data
              size := max i.size (offset + data.length) })
            (fun _ => rfl) (fun _ => ⟨rfl, rfl, rfl⟩) hget

/-- A call that meets the condition keeps the file system well formed. -/
theorem WF.step (h : v.WF) (op : Op) (hok : v.Ok op) : (v.step op).WF := by
  cases op with
  | writeFile path data => exact h.writeFile hok data
  | writeFileRange path offset data => exact h.writeFileRange hok offset data
  | createFileAtPath path fileType data permissions =>
    exact h.create_of_creatable hok fileType data permissions
  | createSymlink target linkPath => exact h.create_of_creatable hok .symLink target 0o777
  | mkdir path permissions =>
    simp only [VirtualFS.step]
    cases hcall : v.mkdir path permissions with
    | error e => exact h
    | ok result =>
      have hnone : v.resolvePath path = none := by
        by_contra hsome
        unfold VirtualFS.mkdir at hcall
        rw [if_pos (isSome_iff_ne_none.mpr hsome)] at hcall
        cases hcall
      obtain ⟨hroom, hdir⟩ := hok hnone
      exact h.mkdir hdir hroom hcall
  | link oldPath newPath =>
    simp only [VirtualFS.step]
    cases hcall : v.link oldPath newPath with
    | error e => exact h
    | ok v' => exact h.link hcall
  | unlink path =>
    simp only [VirtualFS.step]
    cases hcall : v.unlink path with
    | error e => exact h
    | ok v' => exact h.unlink hcall
  | rmdir path =>
    simp only [VirtualFS.step]
    cases hcall : v.rmdir path with
    | error e => exact h
    | ok v' => exact h.rmdir hok hcall
  | rename oldPath newPath => exact h.rename hok

/-! ## The fresh file system -/

/-- The calls of `VirtualFS::new` go into directories, under free names. -/
def MakeOk (v : VirtualFS) : Make → Prop
  | .dir parentIno name _ => v.isDirectory parentIno ∧ v.lookupChild parentIno name.toList = none ∧
      name.toList ≠ [] ∧ '/' ∉ name.toList ∧ v.nextIno + 1 < 2 ^ 64
  | .file parentIno name _ _ _ => v.isDirectory parentIno ∧
      v.lookupChild parentIno name.toList = none ∧ name.toList ≠ [] ∧ '/' ∉ name.toList ∧
      v.nextIno + 1 < 2 ^ 64

instance decidableMakeOk (v : VirtualFS) : ∀ call, Decidable (v.MakeOk call)
  | .dir .. | .file .. => inferInstanceAs (Decidable (_ ∧ _ ∧ _ ∧ _ ∧ _))

/-- The calls that set up the first tree keep it well-formed. -/
theorem WF.make (h : v.WF) (call : Make) (hok : v.MakeOk call) : (v.make call).WF := by
  cases call with
  | dir parentIno name permissions =>
    obtain ⟨hdir, hfree, hne, hslash, hroom⟩ := hok
    rw [lookupChild_eq parentIno hne] at hfree
    exact h.createFileUnder (dir_iff.mpr hdir) ⟨hne, hslash⟩ hfree .directory [] permissions hroom
  | file parentIno name fileType data permissions =>
    obtain ⟨hdir, hfree, hne, hslash, hroom⟩ := hok
    rw [lookupChild_eq parentIno hne] at hfree
    exact h.createFileUnder (dir_iff.mpr hdir) ⟨hne, hslash⟩ hfree fileType (ascii data)
      permissions hroom

/-- A file system with its root alone is well formed. -/
theorem wf_bare : WF bare := by
  have hnode : ∀ {a}, bare.shape.Node a → a = 1 := by
    intro a ha
    obtain ⟨i, hi⟩ := node_iff.mp ha
    have hmem := mem_singleton.mp (mem_of_getInode hi)
    rw [← ino_of_getInode hi, hmem]
  have hkids : ∀ a, bare.shape.kids a = [] := by
    intro a
    refine eq_nil_iff_forall_not_mem.mpr fun b hb => ?_
    obtain ⟨i, hi, hmem⟩ := mem_kids_iff.mp hb
    rw [mem_singleton.mp (mem_of_getInode hi)] at hmem
    cases hmem
  have halias : ∀ k, bare.shape.aliasAt k = none := fun k => Std.TreeMap.getElem?_emptyc
  have hentry : ∀ {a n b}, ¬ bare.shape.Entry a n b := by
    rintro a n b (⟨hkid, -⟩ | hsome)
    · rw [hkids] at hkid
      cases hkid
    · rw [halias] at hsome
      cases hsome
  refine ⟨?_, by decide⟩
  exact {
    tree := {
      root_dir := rfl
      dir_node := by
        intro a ha
        unfold Shape.Node
        rw [show bare.shape.kind a = some .directory from ha]
        exact some_ne_none _
      entry_dir := fun hb => absurd hb hentry
      entry_node := fun hb => absurd hb hentry
      functional := fun _ _ _ _ hb => absurd hb hentry
      root_top := hentry
      one_entry := fun _ hb => absurd hb hentry
      reachable := fun ha => ⟨[], hnode ha ▸ .nil _⟩ }
    kids_nodup := fun a => by rw [hkids]; exact nodup_nil
    one_parent := fun hb => absurd (Shape.WF.entry_of_kid hb) hentry
    alias_free := fun hb => absurd (Shape.WF.entry_of_alias hb) hentry
    alias_file := fun {k} {b} hb => by
      cases hb
    parts := fun hb => absurd hb hentry
    fresh := fun ha => by
      rw [hnode ha]
      decide }

theorem wf_new : WF new := by
  have hadmitted : Admitted make MakeOk bare standardTree := by decide +kernel
  exact (Reach.start.foldl hadmitted).invariant WF wf_bare fun v call h hok => h.make call hok

/-! ## Integrity -/

/-- The directory records this name for the inode. -/
def Named (v : VirtualFS) (dir : Nat) (name : Str) (ino : Nat) : Prop :=
  (∃ d i, v.getInode dir = some d ∧ ino ∈ d.children ∧ v.getInode ino = some i ∧ i.name = name) ∨
    v.aliases[(dir, name)]? = some ino

/-- The number of times a directory has a name, among its children and its aliases. -/
def nameUses (v : VirtualFS) (dir : Inode) (name : Str) : Nat :=
  (dir.children.countP fun c => (v.getInode c).any fun i => i.name = name) +
    if v.aliases[(dir.ino, name)]?.isSome then 1 else 0

/-- The integrity of the name space. -/
structure Integrity (v : VirtualFS) : Prop where
  child_exists : ∀ dir ∈ v.inodes, ∀ ino ∈ dir.children, ∃ i, v.getInode ino = some i
  alias_exists : ∀ (dir : Nat) (name : Str) (ino : Nat), v.aliases[(dir, name)]? = some ino →
    (∃ d, v.getInode dir = some d) ∧ ∃ i, v.getInode ino = some i
  name_once : ∀ dir ∈ v.inodes, ∀ name, v.nameUses dir name ≤ 1
  only_directories : ∀ dir ∈ v.inodes,
    (dir.children ≠ [] ∨ ∃ (name : Str) (ino : Nat), v.aliases[(dir.ino, name)]? = some ino) →
    dir.fileType = .directory
  reachable : ∀ i ∈ v.inodes, ∃ path, v.resolvePath path = some i.ino
  by_names : ∀ i ∈ v.inodes, v.inodes.head? ≠ some i → ∀ path,
    v.resolvePath path = some i.ino ↔ ∃ dirPath dir name, v.resolvePath dirPath = some dir ∧
      v.Named dir name i.ino ∧ components path = components dirPath ++ [name]
  one_entry : ∀ ino, v.isDirectory ino → ∀ dir name dir' name', v.Named dir name ino →
    v.Named dir' name' ino → dir = dir' ∧ name = name'
  acyclic : ∀ dir, ¬ Relation.TransGen
    (fun a b => v.isDirectory b ∧ ∃ name, v.Named a name b) dir dir

section

variable (h : v.WF)
include h

/-- A name in a directory is an entry of the shape. -/
theorem WF.named_iff {a : Nat} {n : Str} {b : Nat} : v.Named a n b ↔ v.shape.Entry a n b := by
  constructor
  · rintro (⟨d, i, hd, hmem, hi, hname⟩ | halias)
    · exact .inl ⟨mem_kids_iff.mpr ⟨d, hd, hmem⟩, by rw [name_of_getInode hi, hname]⟩
    · exact .inr halias
  · rintro (⟨hkid, hname⟩ | halias)
    · obtain ⟨d, hd, hmem⟩ := mem_kids_iff.mp hkid
      obtain ⟨i, hi⟩ := node_iff.mp (h.shape.node_of_kid hkid)
      exact .inl ⟨d, i, hd, hmem, hi, by rw [← name_of_getInode hi, hname]⟩
    · exact .inr halias

theorem WF.parts_of_walk {ns : List Str} {a b : Nat} (hwalk : Walk v.shape.Entry a ns b) :
    ∀ n ∈ ns, IsPart n := by
  induction hwalk with
  | nil a => exact nofun
  | cons hentry _ ih =>
    intro n hn
    rcases mem_cons.mp hn with rfl | hn
    · exact h.shape.parts hentry
    · exact ih n hn

theorem WF.resolvePath_absolute {ns : List Str} {b : Nat} (hb : v.shape.find ns = some b) :
    v.resolvePath (absolute ns) = some b := by
  rw [h.resolvePath, components_absolute (h.parts_of_walk (h.shape.find_iff.mp hb)), hb]

theorem WF.exists_find_iff : (∃ ns, v.shape.find ns = some a) ↔ ∃ i, v.getInode a = some i := by
  refine ⟨fun ⟨_, hns⟩ => h.node_of_find hns, fun hi => ?_⟩
  obtain ⟨ns, hns⟩ := h.shape.tree.reachable (node_iff.mpr hi)
  exact ⟨ns, h.shape.find_iff.mpr hns⟩

theorem WF.exists_path_iff :
    (∃ path, v.resolvePath path = some a) ↔ ∃ i, v.getInode a = some i := by
  rw [← h.exists_find_iff]
  constructor
  · rintro ⟨path, hpath⟩
    exact ⟨components path, h.resolvePath path ▸ hpath⟩
  · exact fun ⟨ns, hns⟩ => ⟨absolute ns, h.resolvePath_absolute hns⟩

/-- A directory has a name once. -/
theorem WF.name_once {dir : Inode} (hdir : dir ∈ v.inodes) (name : Str) :
    v.nameUses dir name ≤ 1 := by
  have hkids := kids_of_getInode (h.getInode_of_mem hdir)
  -- a child counted has the name in the shape
  have hname : ∀ c, ((v.getInode c).any fun i => i.name = name) → v.shape.name c = name := by
    intro c hc
    cases hi : v.getInode c with
    | none =>
      rw [hi] at hc
      cases hc
    | some i =>
      rw [hi] at hc
      rw [name_of_getInode hi]
      simpa using hc
  unfold nameUses
  split_ifs with halias
  · obtain ⟨b, hb⟩ := isSome_iff_exists.mp halias
    have hnone : (dir.children.countP fun c => (v.getInode c).any fun i => i.name = name) = 0 := by
      refine countP_eq_zero.mpr fun c hc hcount => ?_
      rw [← hkids] at hc
      exact h.shape.alias_free hb hc (hname c hcount)
    rw [hnone]
  · refine countP_le_one (hkids ▸ h.shape.kids_nodup dir.ino) fun b hb c hc hpb hpc => ?_
    rw [← hkids] at hb hc
    exact h.shape.tree.functional dir.ino name b c (.inl ⟨hb, hname b hpb⟩)
      (.inl ⟨hc, hname c hpc⟩)

/-- A path leads to an inode through a name that it has. -/
theorem WF.by_names {i : Inode} (hi : i ∈ v.inodes) (hroot : v.inodes.head? ≠ some i) (path : Str) :
    v.resolvePath path = some i.ino ↔ ∃ dirPath dir name, v.resolvePath dirPath = some dir ∧
      v.Named dir name i.ino ∧ components path = components dirPath ++ [name] := by
  constructor
  · intro hpath
    rw [h.resolvePath] at hpath
    rcases components_cases path with hnil | ⟨ns, n, hcomponents⟩
    · -- the empty path leads to the first inode
      refine absurd ?_ hroot
      rw [hnil] at hpath
      have hino : v.shape.root = i.ino := some.inj hpath
      obtain ⟨root, hhead, heq⟩ := h.exists_head
      have hget := h.getInode_of_mem (mem_of_mem_head? hhead)
      rw [← heq, hino, h.getInode_of_mem hi] at hget
      rw [hhead]
      exact hget.symm
    · rw [hcomponents] at hpath
      obtain ⟨p, hp, hentry⟩ := h.entry_of_find hpath
      refine ⟨absolute ns, p, n, h.resolvePath_absolute hp, h.named_iff.mpr hentry, ?_⟩
      rw [hcomponents, components_absolute (h.parts_of_walk (h.shape.find_iff.mp hp))]
  · rintro ⟨dirPath, p, n, hp, hnamed, hcomponents⟩
    rw [h.resolvePath] at hp ⊢
    rw [hcomponents]
    exact h.shape.find_concat.mpr ⟨p, hp, h.named_iff.mp hnamed⟩

/-- A well-formed file system has a sound name space. -/
theorem WF.integrity : v.Integrity where
  child_exists dir hdir ino hino := by
    refine node_iff.mp (h.shape.node_of_kid (a := dir.ino) ?_)
    exact mem_kids_iff.mpr ⟨dir, h.getInode_of_mem hdir, hino⟩
  alias_exists dir name ino halias := by
    have hentry : v.shape.Entry dir name ino := .inr halias
    exact ⟨node_iff.mp (h.shape.tree.dir_node (h.shape.tree.entry_dir hentry)),
      node_iff.mp (h.shape.tree.entry_node hentry)⟩
  name_once _ hdir name := h.name_once hdir name
  only_directories dir hdir hnonempty := by
    have hget := h.getInode_of_mem hdir
    have hisDir : v.shape.Dir dir.ino := by
      rcases hnonempty with hchildren | ⟨name, ino, halias⟩
      · obtain ⟨c, hc⟩ := exists_mem_of_ne_nil _ hchildren
        rw [← kids_of_getInode hget] at hc
        exact h.shape.tree.entry_dir (Shape.WF.entry_of_kid hc)
      · exact h.shape.tree.entry_dir (n := name) (b := ino) (.inr halias)
    have hkind := kind_of_getInode hget
    rw [hisDir] at hkind
    exact (some.inj hkind).symm
  reachable i hi := h.exists_path_iff.mpr ⟨i, h.getInode_of_mem hi⟩
  by_names _ hi hroot path := h.by_names hi hroot path
  one_entry _ hino _ _ _ _ hnamed hnamed' := h.shape.tree.one_entry (dir_iff.mpr hino)
    (h.named_iff.mp hnamed) (h.named_iff.mp hnamed')
  acyclic dir hcycle := by
    have hedge : ∀ a b, v.isDirectory b ∧ (∃ name, v.Named a name b) →
        v.shape.Dir b ∧ ∃ name, v.shape.Entry a name b := by
      rintro a b ⟨hb, name, hnamed⟩
      exact ⟨dir_iff.mpr hb, name, h.named_iff.mp hnamed⟩
    have hcycle' := Relation.TransGen.mono hedge dir dir hcycle
    obtain ⟨b, -, hdir, -⟩ := Relation.TransGen.tail'_iff.mp hcycle'
    exact h.shape.tree.isTree.not_descendant_self hdir hcycle'

end

end VirtualFS

open VirtualFS

/-- In every run of calls that meet `Ok`, the name space of every state reached is sound. -/
theorem namespace_stays_tree {v : VirtualFS} (hrun : Reach step Ok new v) : v.Integrity :=
  (hrun.invariant WF wf_new fun _ op h hok => h.step op hok).integrity

/-- A directory with a file that gets a second name, is moved and loses the second name again. -/
def sixCalls : List Op :=
  [.mkdir "/data".toList 0o755, .writeFile "/data/a".toList [1, 2],
    .link "/data/a".toList "/tmp/b".toList, .rename "/data/a".toList "/tmp/c".toList,
    .unlink "/tmp/b".toList, .rmdir "/data".toList]

theorem namespace_stays_tree_six_calls :
    (sixCalls.foldl step new).Integrity ∧
      (sixCalls.foldl step new).readFile "/tmp/c".toList = some [1, 2] := by
  have hadmitted : Admitted step Ok new sixCalls := by decide +kernel
  exact ⟨namespace_stays_tree (Reach.start.foldl hadmitted), by decide +kernel⟩

/-- A rename to a name that exists leaves the directory with the name twice. -/
theorem rename_doubles_name :
    ¬ ([.writeFile "/a".toList [1], .writeFile "/b".toList [2],
      .rename "/a".toList "/b".toList].foldl step new).Integrity := by
  intro h
  have htwice : ∃ dir ∈ ([Op.writeFile "/a".toList [1], .writeFile "/b".toList [2],
      .rename "/a".toList "/b".toList].foldl step new).inodes,
      ¬ ([Op.writeFile "/a".toList [1], .writeFile "/b".toList [2],
        .rename "/a".toList "/b".toList].foldl step new).nameUses dir "b".toList ≤ 1 := by
    decide +kernel
  obtain ⟨dir, hdir, htwice⟩ := htwice
  exact htwice (h.name_once dir hdir _)

end KnoxOS.Vfs
