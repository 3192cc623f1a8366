import KnoxOS.Vfs.Shape

/-!
# Paths and shapes

How the functions of the file system act on its shape. `resolvePath_eq` says that a path string
resolves to what its components lead to in the shape, and the lemmas after it what each change
of the inode table or of the alias map is on shapes.
-/

namespace KnoxOS.Vfs

open Function Lib List Option

/-! ## Parts of a path -/

theorem components_eq_filter (path : Str) : components path = (splitPath path).filter (· ≠ []) := by
  rw [← components_dropWhile path]
  rfl

theorem splitPath_ne_nil (path : Str) : splitPath path ≠ [] := splitOn_ne_nil _ _

variable {path : Str} {parts : List Str} {ns : List Str}

theorem noSlash_of_mem_splitPath {part : Str} (h : part ∈ splitPath path) : '/' ∉ part :=
  not_mem_of_mem_splitOn h

/-- The parts of a path are those of its parent and the last one. -/
theorem splitPath_eq (path : Str) :
    splitPath path = (splitPath path).dropLast ++ [lastPart (splitPath path)] := by
  have hne := splitPath_ne_nil path
  unfold lastPart
  rw [getLastD_eq_getLast?, getLast?_eq_getLast_of_ne_nil hne]
  exact (dropLast_append_getLast hne).symm

/-- The path of the parent has the components but the last part. -/
theorem components_parentPath (h : ∀ part ∈ parts, '/' ∉ part) :
    components (parentPath parts) = parts.dropLast.filter (· ≠ []) := by
  unfold parentPath
  split_ifs with hlen
  · exact components_absolute_filter fun part hpart => h part (dropLast_subset parts hpart)
  · have hnil : parts.dropLast = [] := by
      refine eq_nil_of_length_eq_zero ?_
      rw [length_dropLast]
      omega
    rw [hnil]
    decide

theorem components_parent (path : Str) :
    components (parentPath (splitPath path)) = (splitPath path).dropLast.filter (· ≠ []) :=
  components_parentPath fun _ hpart => noSlash_of_mem_splitPath hpart

/-- The parent of a path has fewer components than the path has parts. -/
theorem length_components_parent (path : Str) :
    (components (parentPath (splitPath path))).length < (splitPath path).length := by
  have hle := length_filter_le (· ≠ []) (splitPath path).dropLast
  rw [components_parent]
  conv_rhs => rw [splitPath_eq path, length_append]
  exact Nat.lt_succ_of_le hle

/-- A last part that is not empty can be looked up as a name. -/
theorem isPart_lastPart (h : lastPart (splitPath path) ≠ []) :
    IsPart (lastPart (splitPath path)) := by
  have hmem : lastPart (splitPath path) ∈
      (splitPath path).dropLast ++ [lastPart (splitPath path)] :=
    mem_append_right _ mem_cons_self
  rw [← splitPath_eq path] at hmem
  exact ⟨h, noSlash_of_mem_splitPath hmem⟩

/-- A path that does not end in a slash. -/
theorem components_of_lastPart_ne (h : lastPart (splitPath path) ≠ []) :
    components path = components (parentPath (splitPath path)) ++ [lastPart (splitPath path)] := by
  rw [components_parent, components_eq_filter]
  conv_lhs => rw [splitPath_eq path, filter_append]
  simp [h]

/-- A path that ends in a slash is its own parent. -/
theorem components_of_lastPart_eq (h : lastPart (splitPath path) = []) :
    components path = components (parentPath (splitPath path)) := by
  rw [components_parent, components_eq_filter]
  conv_lhs => rw [splitPath_eq path, filter_append]
  simp [h]

theorem splitParentName_nil (h : components path = []) : splitParentName path = .error (-22) := by
  unfold splitParentName
  rw [← components_eq_filter, if_pos h]

/-- `split_parent_name` cuts off the last component. -/
theorem splitParentName_concat {n : Str} (h : components path = ns ++ [n]) :
    ∃ parent, splitParentName path = .ok (parent, n) ∧ components parent = ns := by
  have hparts : ∀ part ∈ ns ++ [n], IsPart part := fun part hpart =>
    isPart_of_mem_components (h ▸ hpart)
  refine ⟨parentPath (ns ++ [n]), ?_, ?_⟩
  · unfold splitParentName
    rw [← components_eq_filter, h]
    simp [lastPart]
  · rw [components_parentPath fun part hpart => (hparts part hpart).2, dropLast_concat]
    exact filter_ne_nil_eq_self fun part hpart => hparts part (mem_append_left _ hpart)

/-- A component of a path is a name. -/
theorem isPart_of_concat {n : Str} (h : components path = ns ++ [n]) : IsPart n := by
  have hmem : n ∈ components path := by
    rw [h]
    exact mem_append_right _ mem_cons_self
  exact isPart_of_mem_components hmem

/-- A path names the root or an entry of some directory. -/
theorem components_cases (path : Str) :
    components path = [] ∨ ∃ ns n, components path = ns ++ [n] := by
  cases h : components path using reverseRecOn with
  | nil => exact .inl rfl
  | append_singleton ns n => exact .inr ⟨ns, n, rfl⟩

/-! ## Shapes of file systems -/

namespace VirtualFS

/-- The shape of a file system. -/
def shape (v : VirtualFS) : Shape where
  root := (v.inodes.head?.map (·.ino)).getD 0
  kind a := (v.getInode a).map (·.fileType)
  name a := (v.getInode a).elim [] (·.name)
  kids a := (v.getInode a).elim [] (·.children)
  aliasAt k := v.aliases[k]?
  next := v.nextIno

/-- A well-formed file system. -/
structure WF (v : VirtualFS) : Prop where
  shape : v.shape.WF
  inos : (v.inodes.map (·.ino)).Nodup

variable {v : VirtualFS} {a b p x : Nat} {n : Str}

theorem node_iff : v.shape.Node a ↔ ∃ i, v.getInode a = some i := by
  unfold Shape.Node shape
  rw [← isSome_iff_ne_none, isSome_map, isSome_iff_exists]

theorem dir_iff_exists : v.shape.Dir a ↔ ∃ i, v.getInode a = some i ∧ i.fileType = .directory :=
  map_eq_some_iff

theorem dir_iff : v.shape.Dir a ↔ v.isDirectory a := by
  rw [dir_iff_exists]
  unfold isDirectory
  cases hget : v.getInode a with
  | none => simp
  | some i => simp

theorem kind_eq_none_iff : v.shape.kind a = none ↔ v.getInode a = none := map_eq_none_iff

variable {i : Inode} {f : Inode → Inode}

section

variable (h : v.getInode a = some i)
include h

theorem node_of_getInode : v.shape.Node a :=
  node_iff.mpr ⟨i, h⟩

theorem kids_of_getInode : v.shape.kids a = i.children := by
  show (v.getInode a).elim [] (·.children) = _
  rw [h]
  rfl

theorem name_of_getInode : v.shape.name a = i.name := by
  show (v.getInode a).elim [] (·.name) = _
  rw [h]
  rfl

theorem ino_of_getInode : i.ino = a := by
  simpa using find?_some h

theorem mem_of_getInode : i ∈ v.inodes :=
  mem_of_find?_eq_some h

end

/-- Where the numbers differ, the search by number finds each inode. -/
theorem find?_ino_of_mem {inodes : List Inode} (hnodup : (inodes.map (·.ino)).Nodup)
    (hi : i ∈ inodes) : inodes.find? (fun j => j.ino = i.ino) = some i := by
  induction inodes with
  | nil => cases hi
  | cons j inodes ih =>
    obtain ⟨hj, hrest⟩ := nodup_cons.mp hnodup
    by_cases heq : j.ino = i.ino
    · rw [find?_cons_of_pos (by simpa using heq)]
      rcases mem_cons.mp hi with rfl | hi
      · rfl
      · exact absurd (mem_map.mpr ⟨i, hi, heq.symm⟩) hj
    · rw [find?_cons_of_neg (by simpa using heq)]
      rcases mem_cons.mp hi with rfl | hi
      · exact absurd rfl heq
      · exact ih hrest hi

theorem WF.getInode_of_mem (h : v.WF) (hi : i ∈ v.inodes) :
    v.getInode i.ino = some i := find?_ino_of_mem h.inos hi

/-! ## Lookups -/

/-- Looking through children by inode is looking through them by name. -/
theorem findChild_eq (children : List Nat) (hn : n ≠ []) :
    v.findChild children n = children.find? fun c => v.shape.name c = n := by
  unfold findChild
  congr 1
  funext c
  show _ = decide ((v.getInode c).elim [] (·.name) = n)
  cases v.getInode c with
  | none => simp [hn.symm]
  | some i => exact decide_eq_decide.mpr Iff.rfl

/-- One step of the lookup is one step in the shape. -/
theorem lookupChild_eq (a : Nat) (hn : n ≠ []) : v.lookupChild a n = v.shape.lookup a n := by
  unfold lookupChild Shape.lookup
  cases hget : v.getInode a with
  | none => rw [if_pos (kind_eq_none_iff.mpr hget)]
  | some parent =>
    rw [if_neg (node_of_getInode hget), kids_of_getInode hget]
    simp only [findChild_eq parent.children hn]
    rfl

/-- A walk that skips empty parts is the walk over the others. -/
theorem foldlM_skip {α : Type} (f : α → Str → Option α) (parts : List Str) (a : α) :
    parts.foldlM (fun current part => if part = [] then some current else f current part) a =
      (parts.filter (· ≠ [])).foldlM f a := by
  induction parts generalizing a with
  | nil => rfl
  | cons part parts ih =>
    by_cases hpart : part = []
    · rw [foldlM_cons, if_pos hpart, filter_cons_of_neg (by simpa using hpart)]
      exact ih a
    · rw [foldlM_cons, if_neg hpart, filter_cons_of_pos (by simpa using hpart),
        foldlM_cons]
      exact congrArg _ (funext fun b => ih b)

/-- Following components in the table and in the shape is the same. -/
theorem follow_lookupChild (h : ∀ part ∈ parts, part ≠ []) (a : Nat) :
    follow v.lookupChild a parts = follow v.shape.lookup a parts := by
  induction parts generalizing a with
  | nil => rfl
  | cons part parts ih =>
    rw [follow_cons, lookupChild_eq a (h part mem_cons_self)]
    congr 1
    funext b
    exact ih (fun part hpart => h part (mem_cons_of_mem _ hpart)) b

/-- The root is the first inode. -/
theorem exists_head (hne : v.inodes ≠ []) :
    ∃ root, v.inodes.head? = some root ∧ v.shape.root = root.ino := by
  cases hhead : v.inodes.head? with
  | none => exact absurd (head?_eq_none_iff.mp hhead) hne
  | some root =>
    refine ⟨root, rfl, ?_⟩
    show (v.inodes.head?.map _).getD 0 = _
    rw [hhead]
    rfl

/-- A path string resolves to what its components lead to. -/
theorem resolvePath_eq (hne : v.inodes ≠ []) (path : Str) :
    v.resolvePath path = v.shape.find (components path) := by
  obtain ⟨root, hhead, hshape⟩ := exists_head hne
  unfold resolvePath Shape.find
  rw [hhead, hshape]
  show (if path = ['/'] then _ else _) = _
  by_cases hslash : path = ['/']
  · rw [hslash]
    rfl
  · rw [if_neg hslash, foldlM_skip, ← components_eq_filter]
    exact follow_lookupChild (fun part hpart => (isPart_of_mem_components hpart).1) _

theorem WF.inodes_ne_nil (h : v.WF) : v.inodes ≠ [] := by
  intro hnil
  obtain ⟨i, hi⟩ := node_iff.mp (h.shape.tree.dir_node h.shape.tree.root_dir)
  exact ne_nil_of_mem (mem_of_getInode hi) hnil

theorem WF.exists_head (h : v.WF) : ∃ root, v.inodes.head? = some root ∧ v.shape.root = root.ino :=
  VirtualFS.exists_head h.inodes_ne_nil

theorem WF.resolvePath (h : v.WF) (path : Str) :
    v.resolvePath path = v.shape.find (components path) := resolvePath_eq h.inodes_ne_nil path

/-- What a path resolves to is there. -/
theorem WF.node_of_find (h : v.WF) (ha : v.shape.find ns = some a) :
    ∃ i, v.getInode a = some i := by
  refine node_iff.mp ?_
  cases ns using reverseRecOn with
  | nil =>
    obtain rfl := some.inj ha
    exact h.shape.tree.dir_node h.shape.tree.root_dir
  | append_singleton ns n =>
    obtain ⟨b, -, hentry⟩ := h.shape.find_concat.mp ha
    exact h.shape.tree.entry_node hentry

/-! ## Changes of the tables -/

section

variable (hf : ∀ i, (f i).ino = i.ino) (a : Nat)
include hf

/-- Changing an inode keeps the numbers and their order. -/
theorem map_ino_modifyFirst (inodes : List Inode) :
    (modifyFirst a f inodes).map (·.ino) = inodes.map (·.ino) := by
  induction inodes with
  | nil => rfl
  | cons i inodes ih =>
    unfold modifyFirst
    split_ifs with hi
    · rw [map_cons, map_cons, hf]
    · rw [map_cons, map_cons, ih]

/-- Changing an inode shows at its number only. -/
theorem getInode_modifyInode (b : Nat) :
    (v.modifyInode a f).getInode b = if b = a then (v.getInode a).map f else v.getInode b := by
  show (modifyFirst a f v.inodes).find? _ = if b = a then (v.inodes.find? _).map f else _
  unfold getInode
  induction v.inodes with
  | nil => split_ifs <;> rfl
  | cons i inodes ih =>
    unfold modifyFirst
    by_cases hi : i.ino = a
    · rw [if_pos hi]
      by_cases hb : b = a
      · rw [if_pos hb, find?_cons_of_pos (by simp [hf, hi, hb]),
          find?_cons_of_pos (by simp [hi])]
        rfl
      · have hib : i.ino ≠ b := fun heq => hb (by rw [← heq, hi])
        rw [if_neg hb, find?_cons_of_neg (by simp [hf, hib]), find?_cons_of_neg (by simp [hib])]
    · rw [if_neg hi]
      by_cases hb : i.ino = b
      · have hba : b ≠ a := by
          rw [← hb]
          exact hi
        rw [if_neg hba, find?_cons_of_pos (by simp [hb]), find?_cons_of_pos (by simp [hb])]
      · rw [find?_cons_of_neg (by simp [hb]), ih, find?_cons_of_neg (by simp [hi]),
          find?_cons_of_neg (by simp [hb])]

theorem root_modifyInode : (v.modifyInode a f).shape.root = v.shape.root := by
  show ((modifyFirst a f v.inodes).head?.map (·.ino)).getD 0 = _
  rw [← head?_map, map_ino_modifyFirst hf, head?_map]
  rfl

end

/-- What is read of the inodes after one of them changes. -/
theorem comp_eq_update {β γ κ : Type} [DecidableEq κ] {get get' : κ → γ} {a : κ} {o : γ}
    (h : ∀ b, get' b = if b = a then o else get b) (g : γ → β) :
    (fun b => g (get' b)) = update (fun b => g (get b)) a (g o) := by
  funext b
  rw [h, update_apply, apply_ite g]

/-- The shape after a change of one inode. -/
theorem shape_modifyInode (hf : ∀ i, (f i).ino = i.ino) (hget : v.getInode a = some i) :
    (v.modifyInode a f).shape =
      { v.shape with
        kind := update v.shape.kind a (some (f i).fileType)
        name := update v.shape.name a (f i).name
        kids := update v.shape.kids a (f i).children } := by
  have hafter : ∀ b, (v.modifyInode a f).getInode b =
      if b = a then some (f i) else v.getInode b := by
    intro b
    rw [getInode_modifyInode hf, hget]
    rfl
  refine Shape.ext (root_modifyInode hf a) ?_ ?_ ?_ rfl rfl
  · exact comp_eq_update hafter (Option.map (·.fileType))
  · exact comp_eq_update hafter fun o => o.elim [] (·.name)
  · exact comp_eq_update hafter fun o => o.elim [] (·.children)

theorem kind_of_getInode (h : v.getInode a = some i) : v.shape.kind a = some i.fileType := by
  show (v.getInode a).map (·.fileType) = _
  rw [h]
  rfl

/-- A change of the contents keeps the shape. -/
theorem shape_modify_data (hf : ∀ i, (f i).ino = i.ino)
    (hshape : ∀ i, (f i).fileType = i.fileType ∧ (f i).name = i.name ∧
      (f i).children = i.children) (hget : v.getInode a = some i) :
    (v.modifyInode a f).shape = v.shape := by
  obtain ⟨hkind, hname, hkids⟩ := hshape i
  rw [shape_modifyInode hf hget, hkind, hname, hkids, ← kind_of_getInode hget,
    ← name_of_getInode hget, ← kids_of_getInode hget, update_eq_self,
    update_eq_self, update_eq_self]

/-- Changing the children of an inode updates its kids in the shape. -/
theorem shape_modify_children (hp : v.shape.Node p) (g : List Nat → List Nat) :
    (v.modifyInode p fun i => { i with children := g i.children }).shape =
      { v.shape with kids := update v.shape.kids p (g (v.shape.kids p)) } := by
  obtain ⟨i, hget⟩ := node_iff.mp hp
  have hshape := shape_modifyInode (f := fun i => { i with children := g i.children })
    (fun _ => rfl) hget
  rw [← kind_of_getInode hget, ← name_of_getInode hget, ← kids_of_getInode hget,
    update_eq_self, update_eq_self] at hshape
  exact hshape

theorem shape_addChild (hp : v.shape.Node p) (x : Nat) :
    (v.addChild p x).shape = v.shape.attach p x :=
  shape_modify_children hp (· ++ [x])

theorem shape_removeChild (hp : v.shape.Node p) (x : Nat) :
    (v.removeChild p x).shape = v.shape.detach p x :=
  shape_modify_children hp (List.filter (· ≠ x))

/-- Renaming an inode renames its node. -/
theorem shape_setName (hx : v.shape.Node x) (n : Str) :
    (v.modifyInode x fun i => { i with name := n }).shape = v.shape.setName x n := by
  obtain ⟨i, hget⟩ := node_iff.mp hx
  have hshape := shape_modifyInode (f := fun i => { i with name := n }) (fun _ => rfl) hget
  rw [← kind_of_getInode hget, ← kids_of_getInode hget, update_eq_self, update_eq_self] at hshape
  exact hshape

/-- Inserting an alias links its target. -/
theorem shape_insertAlias (p : Nat) (n : Str) (x : Nat) :
    ({ v with aliases := v.aliases.insert (p, n) x } : VirtualFS).shape = v.shape.link p n x := by
  refine Shape.ext rfl rfl rfl rfl ?_ rfl
  refine comp_eq_update (a := (p, n)) (fun k => ?_) id
  show (v.aliases.insert (p, n) x)[k]? = if k = (p, n) then some x else v.aliases[k]?
  rw [lookup_insert]
  exact if_congr eq_comm rfl rfl

/-- Erasing an alias takes that link away. -/
theorem shape_eraseAlias (p : Nat) (n : Str) :
    ({ v with aliases := v.aliases.erase (p, n) } : VirtualFS).shape = v.shape.unalias p n := by
  refine Shape.ext rfl rfl rfl rfl ?_ rfl
  refine comp_eq_update (a := (p, n)) (fun k => ?_) id
  show (v.aliases.erase (p, n))[k]? = if k = (p, n) then none else v.aliases[k]?
  rw [lookup_erase]
  exact if_congr eq_comm rfl rfl

/-- Dropping an inode leaves the others. -/
theorem getInode_dropInode (x b : Nat) :
    (v.dropInode x).getInode b = if b = x then none else v.getInode b := by
  show (v.inodes.filter fun i => i.ino ≠ x).find? (fun i => i.ino = b) = _
  rw [find?_filter]
  split_ifs with hb
  · refine find?_eq_none.mpr fun i _ => ?_
    rw [hb]
    simp
  · congr 1
    funext i
    by_cases hi : i.ino = b
    · simp [hi, hb]
    · simp [hi]

/-- Dropping an inode other than the root drops its node. -/
theorem shape_dropInode (hx : x ≠ v.shape.root) (hne : v.inodes ≠ []) :
    (v.dropInode x).shape = v.shape.drop x := by
  have hget := getInode_dropInode (v := v) x
  refine Shape.ext ?_ ?_ ?_ ?_ rfl rfl
  · -- the first inode stays
    cases hinodes : v.inodes with
    | nil => exact absurd hinodes hne
    | cons root inodes =>
      have hroot : v.shape.root = root.ino := by
        show (v.inodes.head?.map _).getD 0 = _
        rw [hinodes]
        rfl
      show ((v.inodes.filter fun i => i.ino ≠ x).head?.map (·.ino)).getD 0 = v.shape.root
      rw [hinodes, filter_cons_of_pos (by simpa [← hroot] using hx.symm), hroot]
      rfl
  · exact comp_eq_update hget (Option.map (·.fileType))
  · exact comp_eq_update hget fun o => o.elim [] (·.name)
  · exact comp_eq_update hget fun o => o.elim [] (·.children)

/-- The new inode is found behind the old ones. -/
theorem getInode_pushInode (hfresh : ¬ v.shape.Node v.nextIno) (t : FileType) (n : Str)
    (data : List UInt8) (permissions b : Nat) :
    (v.pushInode t n data permissions).getInode b =
      if b = v.nextIno then some ⟨v.nextIno, t, n, data.length, permissions, [], data⟩
      else v.getInode b := by
  have hnone : v.getInode v.nextIno = none := by
    by_contra hsome
    exact hfresh (node_iff.mpr (ne_none_iff_exists'.mp hsome))
  show (v.inodes ++ [_]).find? (fun i : Inode => i.ino = b) = _
  rw [find?_append]
  show (v.getInode b).or _ = _
  split_ifs with hb
  · subst hb
    rw [hnone]
    simp
  · rw [find?_cons_of_neg (by simpa using Ne.symm hb)]
    simp

/-- The shape after an inode is made. -/
theorem WF.shape_createFileUnder (h : v.WF) (hp : v.shape.Node p) (n : Str) (t : FileType)
    (data : List UInt8) (permissions : Nat) (hroom : v.nextIno + 1 < 2 ^ 64) :
    (v.createFileUnder p n t data permissions).2.shape = v.shape.create p n t := by
  have hfresh : ¬ v.shape.Node v.nextIno := h.shape.not_node_next
  have hget := getInode_pushInode hfresh t n data permissions
  have hkids : v.shape.kids v.nextIno = [] := by
    refine eq_nil_iff_forall_not_mem.mpr fun b hb => hfresh ?_
    exact h.shape.tree.dir_node (h.shape.tree.entry_dir (Shape.WF.entry_of_kid hb))
  have hpush : (v.pushInode t n data permissions).shape =
      { v.shape with
        kind := update v.shape.kind v.nextIno (some t)
        name := update v.shape.name v.nextIno n
        next := v.nextIno + 1 } := by
    refine Shape.ext ?_ ?_ ?_ ?_ rfl ?_
    · show ((v.inodes ++ [_]).head?.map Inode.ino).getD 0 = (v.inodes.head?.map (·.ino)).getD 0
      rw [head?_append_of_ne_nil _ h.inodes_ne_nil]
    · exact comp_eq_update hget (Option.map (·.fileType))
    · exact comp_eq_update hget fun o => o.elim [] (·.name)
    · funext b
      show ((v.pushInode t n data permissions).getInode b).elim [] (·.children) = v.shape.kids b
      rw [hget]
      split_ifs with hb
      · rw [hb, hkids]
        rfl
      · rfl
    · exact Nat.mod_eq_of_lt hroom
  have hnode : (v.pushInode t n data permissions).shape.Node p := by
    rw [hpush]
    exact (Shape.WF.node_create (s := v.shape) (p := p) (n := n) t p).mpr (.inl hp)
  show ((v.pushInode t n data permissions).addChild p v.nextIno).shape = _
  rw [shape_addChild hnode, hpush]
  rfl

/-! ## Distinct numbers -/

/-- Changing an inode keeps the numbers distinct. -/
theorem inos_modifyInode (hf : ∀ i, (f i).ino = i.ino) (a : Nat)
    (h : (v.inodes.map (·.ino)).Nodup) : ((v.modifyInode a f).inodes.map (·.ino)).Nodup := by
  show ((modifyFirst a f v.inodes).map (·.ino)).Nodup
  rw [map_ino_modifyFirst hf]
  exact h

theorem inos_dropInode (x : Nat) (h : (v.inodes.map (·.ino)).Nodup) :
    ((v.dropInode x).inodes.map (·.ino)).Nodup :=
  h.sublist (Sublist.map _ filter_sublist)

/-- A new inode has a number that no other has. -/
theorem WF.inos_createFileUnder (h : v.WF) (p : Nat) (n : Str) (t : FileType) (data : List UInt8)
    (permissions : Nat) :
    ((v.createFileUnder p n t data permissions).2.inodes.map (·.ino)).Nodup := by
  refine inos_modifyInode (f := fun p => { p with children := p.children ++ [v.nextIno] })
    (fun _ => rfl) p ?_
  show ((v.inodes ++ [_]).map Inode.ino).Nodup
  rw [map_append, nodup_append]
  refine ⟨h.inos, nodup_singleton _, ?_⟩
  intro a ha b hb
  obtain ⟨i, hi, rfl⟩ := mem_map.mp ha
  have hnode : v.shape.Node i.ino := node_of_getInode (h.getInode_of_mem hi)
  rw [mem_singleton.mp hb]
  exact Nat.ne_of_lt (h.shape.fresh hnode)

/-- Making an inode under a free name of a directory. -/
theorem WF.createFileUnder (h : v.WF) (hp : v.shape.Dir p) (hn : IsPart n)
    (hfree : v.shape.lookup p n = none) (t : FileType) (data : List UInt8) (permissions : Nat)
    (hroom : v.nextIno + 1 < 2 ^ 64) :
    (v.createFileUnder p n t data permissions).2.WF where
  shape := by
    rw [h.shape_createFileUnder (h.shape.tree.dir_node hp) n t data permissions hroom]
    exact h.shape.create hp hn (h.shape.lookup_eq_none_iff.mp hfree) t
  inos := h.inos_createFileUnder p n t data permissions

end VirtualFS

end KnoxOS.Vfs
