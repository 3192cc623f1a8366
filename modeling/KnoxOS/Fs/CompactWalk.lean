import KnoxOS.Fs.PersistTree

/-!
# What compaction collects

`collect_persistable_paths` on a file system without hard links: every file that it lists is a
regular file with contents under its path (`collect_sound`), and no path is listed twice
(`nodup_collect`). Directories and empty files are not listed.
-/

namespace KnoxOS.Fs.Persist

open Lib Vfs List

variable {v : VirtualFS} {ino : Nat} {ns ms : List Str} {path : Str} {data : List UInt8}
  {permissions : UInt16} {fuel : Nat}

/-- The path of a child. -/
theorem absolute_child (hparts : ∀ part ∈ ns, IsPart part) (n : Str) :
    (if absolute ns = ['/'] then '/' :: n else absolute ns ++ '/' :: n) = absolute (ns ++ [n]) := by
  have hone : absolute [n] = '/' :: n := by
    unfold absolute
    rw [intercalate_singleton]
  by_cases hns : ns = []
  · subst hns
    rw [if_pos (by decide), nil_append, hone]
  · rw [if_neg, absolute_append hns (cons_ne_nil n []), hone]
    intro hroot
    refine hns ?_
    rw [← components_absolute hparts, hroot]
    decide

/-- The part of the walk below one child. -/
def walkChild (v : VirtualFS) (fuel : Nat) (currentPath : Str) (c : Nat) :
    List (Str × List UInt8 × UInt16) :=
  match v.getInode c with
  | none => []
  | some child =>
    walk v fuel c
      (if currentPath = ['/'] then '/' :: child.name else currentPath ++ '/' :: child.name)

section

variable (h : v.Plain) (hfind : v.shape.find ns = some ino) (hparts : ∀ part ∈ ns, IsPart part)
include h hfind hparts

/-- A child of a directory is walked under the path that leads to it. -/
theorem walkChild_eq {inode : Inode} {c : Nat} (hget : v.getInode ino = some inode)
    (hc : c ∈ inode.children) (fuel : Nat) :
    ∃ n, v.shape.find (ns ++ [n]) = some c ∧ (∀ part ∈ ns ++ [n], IsPart part) ∧
      walkChild v fuel (absolute ns) c = walk v fuel c (absolute (ns ++ [n])) := by
  rw [← VirtualFS.kids_of_getInode hget] at hc
  obtain ⟨child, hchild⟩ := VirtualFS.node_iff.mp (h.wf.shape.node_of_kid hc)
  have hentry : v.shape.Entry ino child.name c := .inl ⟨hc, VirtualFS.name_of_getInode hchild⟩
  refine ⟨child.name, h.wf.shape.find_concat.mpr ⟨ino, hfind, hentry⟩, ?_, ?_⟩
  · intro part hpart
    rcases mem_append.mp hpart with hpart | hpart
    · exact hparts part hpart
    · rw [mem_singleton.mp hpart]
      exact h.wf.shape.parts hentry
  · unfold walkChild
    rw [hchild]
    dsimp only
    rw [absolute_child hparts]

/-- What the walk lists are regular files with contents below its start. -/
theorem mem_walk (hmem : (path, data, permissions) ∈ walk v fuel ino (absolute ns)) :
    ∃ ms, ns <+: ms ∧ (∀ part ∈ ms, IsPart part) ∧ path = absolute ms ∧
      v.tree ms = some (.regular, data) ∧ data ≠ [] := by
  induction fuel generalizing ino ns with
  | zero => cases hmem
  | succ fuel ih =>
    obtain ⟨inode, hget⟩ := h.wf.node_of_find hfind
    unfold walk at hmem
    rw [hget] at hmem
    dsimp only at hmem
    cases htype : inode.fileType with
    | directory =>
      rw [htype] at hmem
      obtain ⟨c, hc, hmem⟩ := mem_flatMap.mp hmem
      obtain ⟨n, hfind', hparts', heq⟩ := walkChild_eq h hfind hparts hget hc fuel
      obtain ⟨ms, hpre, hrest⟩ := ih hfind' hparts' (heq ▸ hmem)
      exact ⟨ms, (prefix_append ns [n]).trans hpre, hrest⟩
    | regular =>
      rw [htype] at hmem
      dsimp only at hmem
      split_ifs at hmem with hcond
      · obtain ⟨rfl, hrest⟩ := Prod.mk.inj (mem_singleton.mp hmem)
        obtain ⟨rfl, -⟩ := Prod.mk.inj hrest
        have htree := VirtualFS.tree_of_find hfind hget
        rw [htype] at htree
        exact ⟨ns, prefix_rfl, hparts, rfl, htree, hcond.2⟩
      · cases hmem
    | symLink | charDevice | blockDevice | pipe | socket =>
      rw [htype] at hmem
      cases hmem

/-- The walk lists no path twice. -/
theorem nodup_walk : ((walk v fuel ino (absolute ns)).map Prod.fst).Nodup := by
  induction fuel generalizing ino ns with
  | zero => exact nodup_nil
  | succ fuel ih =>
    obtain ⟨inode, hget⟩ := h.wf.node_of_find hfind
    have hchild := fun c (hc : c ∈ inode.children) => walkChild_eq h hfind hparts hget hc fuel
    unfold walk
    rw [hget]
    dsimp only
    cases htype : inode.fileType with
    | directory =>
      show ((inode.children.flatMap (walkChild v fuel (absolute ns))).map Prod.fst).Nodup
      rw [map_flatMap, nodup_flatMap]
      constructor
      · intro c hc
        obtain ⟨n, hfind', hparts', heq⟩ := hchild c hc
        rw [heq]
        exact ih hfind' hparts'
      · have hkids : inode.children.Nodup := by
          rw [← VirtualFS.kids_of_getInode hget]
          exact h.wf.shape.kids_nodup ino
        refine hkids.pairwise_of_forall_ne fun c hc c' hc' hne => ?_
        -- a path below both children would go through both names
        intro path hpath hpath'
        obtain ⟨⟨path, data, permissions⟩, hmem, rfl⟩ := mem_map.mp hpath
        obtain ⟨⟨path', data', permissions'⟩, hmem', heq'⟩ := mem_map.mp hpath'
        obtain rfl : path' = path := heq'
        obtain ⟨n, hfind₁, hparts₁, heq₁⟩ := hchild c hc
        obtain ⟨n', hfind₂, hparts₂, heq₂⟩ := hchild c' hc'
        rw [heq₁] at hmem
        rw [heq₂] at hmem'
        obtain ⟨ms, hpre, hms, rfl, -⟩ := mem_walk h hfind₁ hparts₁ hmem
        obtain ⟨ms', hpre', hms', habs, -⟩ := mem_walk h hfind₂ hparts₂ hmem'
        obtain rfl := absolute_injective hms hms' habs
        have hlen : (ns ++ [n]).length = (ns ++ [n']).length := by
          simp
        have hsame := IsPrefix.eq_of_length
          (prefix_of_prefix_length_le hpre hpre' (Nat.le_of_eq hlen)) hlen
        rw [hsame, hfind₂] at hfind₁
        exact hne (Option.some.inj hfind₁).symm
    | regular =>
      dsimp only
      split_ifs
      · exact nodup_singleton _
      · exact nodup_nil
    | symLink | charDevice | blockDevice | pipe | socket => exact nodup_nil

end

theorem collect_eq (h : v.Plain) :
    collectPersistablePaths v = walk v v.inodes.length v.shape.root (absolute []) := by
  obtain ⟨root, hhead, hroot⟩ := h.wf.exists_head
  unfold collectPersistablePaths
  rw [hhead, hroot]
  rfl

theorem collect_sound (h : v.Plain) (hmem : (path, data, permissions) ∈ collectPersistablePaths v) :
    ∃ ms, (∀ part ∈ ms, IsPart part) ∧ path = absolute ms ∧ v.tree ms = some (.regular, data) ∧
      data ≠ [] := by
  rw [collect_eq h] at hmem
  obtain ⟨ms, -, hrest⟩ := mem_walk h rfl (fun _ hpart => absurd hpart not_mem_nil) hmem
  exact ⟨ms, hrest⟩

/-- Empty files are not collected. -/
theorem not_collected (h : v.Plain) (hread : v.readFile path = some []) :
    path ∉ (collectPersistablePaths v).map Prod.fst := by
  intro hpath
  obtain ⟨⟨path, data, permissions⟩, hmem, rfl⟩ := mem_map.mp hpath
  obtain ⟨ms, hparts, rfl, htree, hdata⟩ := collect_sound h hmem
  rw [h.wf.readFile_eq, components_absolute hparts, Tree.readAt, htree] at hread
  exact hdata (Option.some.inj hread)

theorem nodup_collect (h : v.Plain) : ((collectPersistablePaths v).map Prod.fst).Nodup := by
  rw [collect_eq h]
  exact nodup_walk h rfl fun _ hpart => absurd hpart not_mem_nil

end KnoxOS.Fs.Persist
