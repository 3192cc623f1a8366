import KnoxOS.Vfs.Namespace

/-!
# Renaming

Whether `rename` is atomic and exact. The main theorem, `rename_exact_iff`, gives the calls on a
well-formed file system for which it is: those that change nothing, and those that move a name to
a free name of a parent that is not lost with the old name and is reached by no other path. On
other calls it fails; `failed_rename_loses_file` has one that returns an error and has removed the
file's name.
-/

namespace KnoxOS.Vfs

open Function Lib List

namespace Shape

variable {s : Shape} {a b p q x : Nat} {n m : Str} {ns ms ks : List Str}
  {next : Nat → Str → Option Nat}

/-! ## Moving a name, as a change of the lookups -/

/-- The lookups once the name `n` in `p` is gone and the name `m` in `q` stands for `x`. -/
def Moved (s : Shape) (next : Nat → Str → Option Nat) (p : Nat) (n : Str) (q : Nat) (m : Str)
    (x : Nat) : Prop :=
  ∀ a k, next a k = if a = q ∧ k = m then some x
    else if a = p ∧ k = n then none else s.lookup a k

theorem Moved.elsewhere (h : s.Moved next p n q m x) (a : Nat) (k : Str) (hne : ¬ (a = q ∧ k = m)) :
    next a k = if a = p ∧ k = n then none else s.lookup a k := by
  rw [h, if_neg hne]

theorem find_start (hpre : ms <+: ns) (h : s.find ns = some a) : ∃ b, s.find ms = some b := by
  obtain ⟨rest, rfl⟩ := hpre
  unfold find at h ⊢
  rw [follow_append] at h
  obtain ⟨b, hb, -⟩ := Option.bind_eq_some_iff.mp h
  exact ⟨b, hb⟩

namespace WF

/-- A path comes to a node once. -/
theorem not_again (h : s.WF) {pre post : List Str} (hq : s.find (pre ++ m :: post) = some q)
    (hpre : s.find pre = some q) : False := by
  obtain ⟨b, hb, hwalk⟩ := Walk.append_iff.mp (h.find_iff.mp hq)
  obtain rfl := hb.unique h.tree.functional (h.find_iff.mp hpre)
  have hnode : s.Node b := by
    obtain ⟨c, hedge, -⟩ := Walk.cons_iff.mp hwalk
    exact h.tree.dir_node (h.tree.entry_dir hedge)
  have hnil := h.tree.walk_self hwalk hnode
  cases hnil

section

variable (h : s.WF) (hsame : ∀ a k, ¬ (a = q ∧ k = m) →
  next a k = if a = p ∧ k = n then none else s.lookup a k)
  (hp : s.find ns = some p) (hx : s.Entry p n x)
include h hsame hp hx

/-- A path that meets the moved name is a path to its directory before. -/
theorem follow_moved
    (havoid : ∀ pre post, ks = pre ++ m :: post → s.find pre = some q → ns ++ [n] <+: pre) :
    follow next s.root ks = some b ↔ s.find ks = some b ∧ ¬ ns ++ [n] <+: ks := by
  rw [← h.follow_cut (fun _ _ => rfl) hp hx, follow_rebind hsame]
  intro pre post heq hpre
  obtain ⟨hfind, hnot⟩ := (h.follow_cut (fun _ _ => rfl) hp hx).mp hpre
  exact hnot (havoid pre post heq hfind)

theorem moved_parent (hq : s.find ms = some q) (hnot : ¬ ns ++ [n] <+: ms) :
    follow next s.root ms = some q := by
  refine (h.follow_moved hsame hp hx fun pre post heq hpre => ?_).mpr ⟨hq, hnot⟩
  rw [heq] at hq
  exact (h.not_again hq hpre).elim

end

variable (h : s.WF) (hmoved : s.Moved next p n q m x) (hp : s.find ns = some p) (hx : s.Entry p n x)
include h hmoved hp hx

theorem moved_new (hq : s.find ms = some q) (hnot : ¬ ns ++ [n] <+: ms) :
    follow next s.root (ms ++ [m]) = some x := by
  rw [follow_append, h.moved_parent hmoved.elsewhere hp hx hq hnot, Option.bind_some, follow_cons,
    hmoved, if_pos ⟨rfl, rfl⟩]
  rfl

/-- Where the new name was free, the old path leads nowhere. -/
theorem moved_old (hfree : s.lookup q m = none) : follow next s.root (ns ++ [n]) = none := by
  have hold := h.find_concat.mpr ⟨p, hp, hx⟩
  refine Option.eq_none_iff_forall_ne_some.mpr fun b hb => ?_
  refine ((h.follow_moved hmoved.elsewhere hp hx fun pre post heq hpre => ?_).mp hb).2 prefix_rfl
  -- the old path would lead on from the new directory
  rw [heq] at hold
  obtain ⟨c, hc, hwalk⟩ := Walk.append_iff.mp (h.find_iff.mp hold)
  obtain rfl := hc.unique h.tree.functional (h.find_iff.mp hpre)
  obtain ⟨d, hedge, -⟩ := Walk.cons_iff.mp hwalk
  rw [(h.lookup_iff c m d).mpr hedge] at hfree
  cases hfree

/-- With no other path to the new directory, the other paths lead where they did. -/
theorem moved_other (honly : ∀ ks, s.find ks = some q → ns ++ [n] <+: ks ∨ ks = ms)
    (hold : ¬ ns ++ [n] <+: ks) (hnew : ¬ ms ++ [m] <+: ks) :
    follow next s.root ks = s.find ks := by
  refine Option.ext fun b => ?_
  rw [h.follow_moved hmoved.elsewhere hp hx fun pre post heq hpre => ?_]
  · exact and_iff_left hold
  · rcases honly pre hpre with hbelow | rfl
    · exact hbelow
    · exact absurd ⟨post, by rw [heq, append_assoc]; rfl⟩ hnew

/-- With another path to the new directory, a path appears that is below neither name. -/
theorem moved_shared (hq : s.find ms = some q) (hfree : s.lookup q m = none)
    (hks : s.find ks = some q) (hnot : ¬ ns ++ [n] <+: ks) (hne : ks ≠ ms) :
    ¬ ns ++ [n] <+: ks ++ [m] ∧ ¬ ms ++ [m] <+: ks ++ [m] ∧
      follow next s.root (ks ++ [m]) ≠ s.find (ks ++ [m]) := by
  have hnone : ∀ {ks}, s.find ks = some q → s.find (ks ++ [m]) = none := fun hks =>
    (find_concat_eq hks).trans hfree
  refine ⟨fun hpre => ?_, fun hpre => ?_, ?_⟩
  · rcases prefix_concat_iff.mp hpre with heq | hpre
    · have hold := h.find_concat.mpr ⟨p, hp, hx⟩
      rw [heq, hnone hks] at hold
      cases hold
    · exact hnot hpre
  · rcases prefix_concat_iff.mp hpre with heq | hpre
    · exact hne (append_cancel_right heq).symm
    · obtain ⟨b, hb⟩ := find_start hpre hks
      rw [hnone hq] at hb
      cases hb
  · rw [h.moved_new hmoved hp hx hks hnot, hnone hks]
    exact Option.some_ne_none x

end WF

/-- A child more in a directory: it is found under its name where no other child has it. -/
theorem lookup_attach (hq : s.Node q) (a : Nat) (k : Str) :
    (s.attach q x).lookup a k =
      if a = q ∧ k = s.name x ∧ ((s.kids q).find? fun c => s.name c = k) = none then some x
      else s.lookup a k := by
  rw [lookup_eq_or, lookup_eq_or]
  show (if s.kind a = none then none else
    ((update s.kids q (s.kids q ++ [x]) a).find? fun c => s.name c = k).or
      (s.aliasAt (a, k))) = _
  by_cases ha : a = q
  · subst ha
    rw [if_neg hq, if_neg hq, update_self, find?_append]
    cases hfind : (s.kids a).find? fun c => s.name c = k with
    | some c => simp
    | none =>
      by_cases hk : k = s.name x
      · simp [hk]
      · simp [hk, Ne.symm hk]
  · rw [update_of_ne ha]
    exact (if_neg fun hand => ha hand.1).symm

/-- The lookups after an alias moves to a free name. -/
theorem WF.moved_moveAlias (h : s.WF) (hx : s.aliasAt (p, n) = some x) (hq : s.Node q)
    (hfree : s.lookup q m = none) : s.Moved (s.moveAlias p n q m x).lookup p n q m x := by
  intro a k
  have halias : (s.moveAlias p n q m x).aliasAt (a, k) =
      if (a, k) = (q, m) then some x else if (a, k) = (p, n) then none else s.aliasAt (a, k) := by
    show update (update s.aliasAt (p, n) none) (q, m) (some x) (a, k) = _
    rw [update_apply, update_apply]
  rw [lookup_eq_or, lookup_eq_or, halias]
  show (if s.kind a = none then none else ((s.kids a).find? fun c => s.name c = k).or _) = _
  simp only [Prod.mk.injEq]
  split_ifs with hnone hnew hold hnew' hold'
  · exact absurd (hnew.1 ▸ hnone) hq
  · rfl
  · rfl
  · -- no child has the new name
    obtain ⟨rfl, rfl⟩ := hnew'
    rw [lookup_eq_or, if_neg hq] at hfree
    cases hfind : (s.kids a).find? fun c => s.name c = k with
    | none => rfl
    | some c =>
      rw [hfind] at hfree
      cases hfree
  · -- no child has the name of an alias
    obtain ⟨rfl, rfl⟩ := hold'
    have hfind : ((s.kids a).find? fun c => s.name c = k) = none := by
      refine find?_eq_none.mpr fun c hc hname => ?_
      exact h.alias_free hx hc (by simpa using hname)
    rw [hfind]
    rfl
  · rfl

end Shape

namespace VirtualFS

variable {v v' : VirtualFS} {p q x : Nat} {n m : Str} {ns ms : List Str}
  {oldPath newPath : Str}

/-! ## Exact renames -/

/-- `v'` is `v` with the entry at the old path moved to the new path: the new path leads to it, the
old one leads nowhere unless both led to it before, the new name occurs once in its directory,
and the paths at or below neither lead where they did. -/
structure Replaced (v v' : VirtualFS) (oldPath newPath : Str) : Prop where
  moved : v'.resolvePath newPath = v.resolvePath oldPath
  gone : v'.resolvePath oldPath = none ∨ v.resolvePath newPath = v.resolvePath oldPath
  once : ∀ dir name i, v'.entryKey newPath = some (dir, name) → v'.getInode dir = some i →
    v'.nameUses i name ≤ 1
  others : ∀ path, ¬ components oldPath <+: components path →
    ¬ components newPath <+: components path → v'.resolvePath path = v.resolvePath path

/-- `rename` is atomic and exact on these paths: an error changes nothing, and a success moves the
entry. -/
def RenameExact (v : VirtualFS) (oldPath newPath : Str) : Prop :=
  match v.rename oldPath newPath with
  | (.error _, v') => v' = v
  | (.ok _, v') => v.Replaced v' oldPath newPath

/-- Every path to the inode starts with the old path or has these components. -/
def OnlyPath (v : VirtualFS) (oldPath : Str) (ino : Nat) (ns : List Str) : Prop :=
  ∀ path, v.resolvePath path = some ino →
    components oldPath <+: components path ∨ components path = ns

/-- The calls on which `rename` is atomic and exact. Nothing is at the old path, or the root; or
the old path is an alias, and the new path is taken, has no parent, or has one that is not at the
old path and is reached by no other path; or the old path is a child, the new parent is there and
not at or below the old path, and either the new path ends in a slash and is another name of the
file, or it is free or the old path itself, and its parent is reached by no other path. -/
def RenameSafe (v : VirtualFS) (oldPath newPath : Str) : Prop :=
  v.resolvePath oldPath = none ∨ components oldPath = [] ∨
    if v.isAlias oldPath then
      v.resolvePath newPath ≠ none ∨ ∀ parent name, v.entryKey newPath = some (parent, name) →
        ¬ components oldPath <+: (components newPath).dropLast ∧
          v.OnlyPath oldPath parent (components newPath).dropLast
    else
      ∃ parent, v.resolvePath (parentPath (splitPath newPath)) = some parent ∧
        ¬ components oldPath <+: components (parentPath (splitPath newPath)) ∧
        (lastPart (splitPath newPath) = [] ∧ v.resolvePath oldPath = some parent ∨
          lastPart (splitPath newPath) ≠ [] ∧
          (v.resolvePath newPath = none ∨ components newPath = components oldPath) ∧
          v.OnlyPath oldPath parent (components (parentPath (splitPath newPath))))

/-- The condition on the parent, on paths as lists of names. -/
theorem WF.onlyPath_iff (h : v.WF) :
    v.OnlyPath oldPath q ms ↔
      ∀ ks, v.shape.find ks = some q → components oldPath <+: ks ∨ ks = ms := by
  constructor
  · intro honly ks hks
    have hresolve := honly (absolute ks) (h.resolvePath_absolute hks)
    rw [components_absolute (h.parts_of_walk (h.shape.find_iff.mp hks))] at hresolve
    exact hresolve
  · intro honly path hpath
    rw [h.resolvePath] at hpath
    exact honly _ hpath

/-- The uses of a name, on the shape. -/
theorem nameUses_eq {dir : Inode} (hdir : v.getInode q = some dir) (hm : m ≠ []) :
    v.nameUses dir m = ((v.shape.kids q).countP fun c => v.shape.name c = m) +
      if (v.shape.aliasAt (q, m)).isSome then 1 else 0 := by
  unfold nameUses
  rw [kids_of_getInode hdir, ino_of_getInode hdir]
  congr 1
  refine countP_congr fun c _ => ?_
  rw [decide_eq_true_iff]
  show _ ↔ (v.getInode c).elim [] (·.name) = m
  cases v.getInode c with
  | none => simp [hm.symm]
  | some i => simp

/-- A move to a free name is exact where no other path leads to the new parent. -/
theorem WF.replaced_iff (h : v.WF) (hne : v'.inodes ≠ []) (hroot : v'.shape.root = v.shape.root)
    (hmoved : v.shape.Moved v'.shape.lookup p n q m x) (hold : components oldPath = ns ++ [n])
    (hp : v.shape.find ns = some p) (hx : v.shape.Entry p n x)
    (hnew : components newPath = ms ++ [m]) (hq : v.shape.find ms = some q)
    (hnot : ¬ components oldPath <+: ms) (hfree : v.shape.lookup q m = none)
    (honce : ∀ i, v'.getInode q = some i → v'.nameUses i m ≤ 1) :
    v.Replaced v' oldPath newPath ↔ v.OnlyPath oldPath q ms := by
  have hresolve : ∀ path, v'.resolvePath path =
      follow v'.shape.lookup v.shape.root (components path) := by
    intro path
    rw [resolvePath_eq hne, ← hroot]
    rfl
  have hpart : ∀ {ks}, v.shape.find ks = some q →
      components (absolute (ks ++ [m])) = ks ++ [m] := by
    intro ks hks
    refine components_absolute fun part hpart => ?_
    rcases mem_append.mp hpart with hpart | hpart
    · exact h.parts_of_walk (h.shape.find_iff.mp hks) part hpart
    · rw [mem_singleton.mp hpart]
      exact isPart_of_concat hnew
  rw [h.onlyPath_iff]
  rw [hold] at hnot ⊢
  constructor
  · intro hreplaced ks hks
    by_contra hno
    push Not at hno
    obtain ⟨hbelow, hbelow', hdiff⟩ := h.shape.moved_shared hmoved hp hx hq hfree hks hno.1 hno.2
    have hsame := hreplaced.others (absolute (ks ++ [m]))
    rw [hold, hnew, hresolve, h.resolvePath, hpart hks] at hsame
    exact hdiff (hsame hbelow hbelow')
  · intro honly
    have hnew' := h.shape.moved_new hmoved hp hx hq hnot
    refine ⟨?_, .inl ?_, ?_, ?_⟩
    · rw [hresolve, h.resolvePath, hnew, hnew', hold]
      exact (h.shape.find_concat.mpr ⟨p, hp, hx⟩).symm
    · rw [hresolve, hold]
      exact h.shape.moved_old hmoved hp hx hfree
    · intro dir name i hkey hi
      have hparent : v'.shape.find ms = some q := by
        unfold Shape.find
        rw [hroot]
        exact h.shape.moved_parent hmoved.elsewhere hp hx hq hnot
      rw [entryKey_eq hne hnew, hparent] at hkey
      cases hkey
      exact honce i hi
    · intro path hbelow hbelow'
      rw [hold] at hbelow
      rw [hnew] at hbelow'
      rw [hresolve, h.resolvePath]
      exact h.shape.moved_other hmoved hp hx honly hbelow hbelow'

/-! ## Aliases -/

/-- When renaming an alias is exact. -/
theorem WF.rename_alias_exact_iff (h : v.WF) (hold : components oldPath = ns ++ [n])
    (hp : v.shape.find ns = some p) (hx : v.shape.aliasAt (p, n) = some x) :
    v.RenameExact oldPath newPath ↔
      v.resolvePath newPath ≠ none ∨ ∀ parent name, v.entryKey newPath = some (parent, name) →
        ¬ components oldPath <+: (components newPath).dropLast ∧
          v.OnlyPath oldPath parent (components newPath).dropLast := by
  unfold RenameExact
  rw [h.resolvePath newPath]
  cases hnew : v.shape.find (components newPath) with
  | some z =>
    have hne : v.shape.find (components newPath) ≠ none := by
      rw [hnew]
      exact Option.some_ne_none z
    rw [h.rename_alias_exists hold hp hx hne]
    exact ⟨fun _ => .inl (Option.some_ne_none z), fun _ => rfl⟩
  | none =>
    rcases components_cases newPath with hnil | ⟨ms, m, hpath⟩
    · rw [hnil] at hnew
      cases hnew
    rw [h.rename_alias_free hold hp hx hnew hpath, entryKey_eq h.inodes_ne_nil hpath, hpath,
      dropLast_concat]
    rw [hpath] at hnew
    cases hq : v.shape.find ms with
    | none => exact ⟨fun _ => .inr nofun, fun _ => rfl⟩
    | some q =>
      have hfree : v.shape.lookup q m = none := (Shape.find_concat_eq hq).symm.trans hnew
      have hm : m ≠ [] := (isPart_of_concat hpath).1
      have hnode := node_iff.mpr (h.node_of_find hq)
      obtain ⟨v', hv', hshape, hne⟩ : ∃ v' : VirtualFS,
          { v with aliases := (v.aliases.erase (p, n)).insert (q, m) x } = v' ∧
          v'.shape = v.shape.moveAlias p n q m x ∧ v'.inodes ≠ [] := by
        refine ⟨_, rfl, ?_, h.inodes_ne_nil⟩
        rw [shape_insertAlias (v := { v with aliases := v.aliases.erase (p, n) }), shape_eraseAlias]
        rfl
      have hmoved := h.shape.moved_moveAlias hx hnode hfree
      have hroot : v'.shape.root = v.shape.root := by
        rw [hshape]
        rfl
      rw [← hshape] at hmoved
      have hfile := h.shape.alias_file hx
      simp only [hv']
      have hright : (none ≠ (none : Option Nat) ∨ ∀ parent name,
          (some q).map (fun p => (p, m)) = some (parent, name) →
          ¬ components oldPath <+: ms ∧ v.OnlyPath oldPath parent ms) ↔
          ¬ components oldPath <+: ms ∧ v.OnlyPath oldPath q ms := by
        constructor
        · rintro (hne | hall)
          · exact absurd rfl hne
          · exact hall q m rfl
        · intro hall
          refine .inr fun parent name hkey => ?_
          cases hkey
          exact hall
      rw [hright]
      by_cases hbelow : components oldPath <+: ms
      · -- the new parent goes with the old name
        refine ⟨fun hreplaced => ?_, fun hall => absurd hbelow hall.1⟩
        have hfound := h.shape.find_concat.mpr ⟨p, hp, .inr hx⟩
        rw [hold] at hbelow
        obtain rfl := h.eq_of_below_file hfound hfile hbelow hq
        have hgone := h.shape.moved_old hmoved hp (.inr hx) hfree
        have hnewPath := hreplaced.moved
        rw [resolvePath_eq hne, hpath, h.resolvePath, hold, hfound] at hnewPath
        unfold Shape.find at hnewPath
        rw [hroot, follow_append, hgone] at hnewPath
        cases hnewPath
      · rw [h.replaced_iff hne hroot hmoved hold hp (.inr hx) hpath hq hbelow hfree
          ?_]
        · exact ⟨fun honly => ⟨hbelow, honly⟩, fun hall => hall.2⟩
        · intro i hi
          have hnone : (v.shape.kids q).countP (fun c => v.shape.name c = m) = 0 := by
            refine countP_eq_zero.mpr fun c hc hname => ?_
            exact h.shape.lookup_eq_none_iff.mp hfree c (.inl ⟨hc, by simpa using hname⟩)
          rw [nameUses_eq hi hm, hshape]
          show (v.shape.kids q).countP (fun c => v.shape.name c = m) + _ ≤ 1
          split_ifs <;> omega

/-! ## Children -/

theorem WF.untie_ne (h : v.WF) (hx : x ∈ v.shape.kids p) (m : Str) : v.untie p x m ≠ v := by
  intro heq
  have hkids : x ∈ (v.untie p x m).shape.kids p := by
    rw [heq]
    exact hx
  rw [h.shape_untie hx] at hkids
  exact (Shape.mem_update_filter.mp hkids).2 ⟨rfl, rfl⟩

theorem WF.inodes_tied (h : v.WF) (p q x : Nat) (m : Str) :
    ((v.untie p x m).addChild q x).inodes ≠ [] := by
  intro hnil
  have hmap := map_ino_modifyFirst (f := fun p => { p with children := p.children ++ [x] })
    (fun _ => rfl) q (v.untie p x m).inodes
  rw [show modifyFirst q _ (v.untie p x m).inodes = [] from hnil, inos_untie v] at hmap
  exact h.inodes_ne_nil (map_eq_nil_iff.mp hmap.symm)

section Tied

variable (h : v.WF) (hx : x ∈ v.shape.kids p) (hn : v.shape.name x = n) (hq : v.shape.Node q)
include h hx hq

theorem shape_tied (m : Str) : ((v.untie p x m).addChild q x).shape = v.shape.moveKid p x q m := by
  have hnode : (v.untie p x m).shape.Node q := by
    rw [h.shape_untie hx]
    exact hq
  rw [shape_addChild hnode, h.shape_untie hx]
  rfl

theorem resolvePath_tied (m path : Str) :
    ((v.untie p x m).addChild q x).resolvePath path =
      follow (v.shape.moveKid p x q m).lookup v.shape.root (components path) := by
  rw [resolvePath_eq (h.inodes_tied p q x m), shape_tied h hx hq]
  rfl

include hn in
/-- The lookups after a child has moved. -/
theorem lookup_tied (m : Str) (a : Nat) (k : Str) :
    (v.shape.moveKid p x q m).lookup a k =
      if a = q ∧ k = m ∧
        (((v.shape.untie p x m).kids q).find? fun c => (v.shape.untie p x m).name c = k) = none
      then some x else if a = p ∧ k = n then none else v.shape.lookup a k := by
  have hname : (v.shape.untie p x m).name x = m := update_self _ _ _
  have hnode : (v.shape.untie p x m).Node q := hq
  unfold Shape.moveKid
  rw [Shape.lookup_attach hnode, h.shape.lookup_untie hx, hname, hn]

/-- After a child has moved, its new name is there once where no other entry has it. -/
theorem nameUses_tied_le_iff (hm : m ≠ []) {i : Inode}
    (hi : ((v.untie p x m).addChild q x).getInode q = some i) :
    ((v.untie p x m).addChild q x).nameUses i m ≤ 1 ↔ ∀ c, ¬ (v.shape.untie p x m).Entry q m c := by
  have huses : ((v.untie p x m).addChild q x).nameUses i m =
      ((v.shape.untie p x m).kids q).countP (fun c => (v.shape.untie p x m).name c = m) + 1 +
        if (v.shape.aliasAt (q, m)).isSome then 1 else 0 := by
    have hname : (v.shape.untie p x m).name x = m := update_self _ _ _
    rw [nameUses_eq hi hm, shape_tied h hx hq]
    show (update (v.shape.untie p x m).kids q ((v.shape.untie p x m).kids q ++ [x]) q).countP
      (fun c => (v.shape.untie p x m).name c = m) + _ = _
    rw [update_self, countP_append, countP_singleton, hname, if_pos (decide_eq_true rfl)]
    rfl
  have hzero : ((v.shape.untie p x m).kids q).countP
      (fun c => (v.shape.untie p x m).name c = m) = 0 ∧ v.shape.aliasAt (q, m) = none ↔
      ∀ c, ¬ (v.shape.untie p x m).Entry q m c := by
    rw [countP_eq_zero, Option.eq_none_iff_forall_ne_some]
    constructor
    · rintro ⟨hkids, halias⟩ c (⟨hc, hname⟩ | hc)
      · exact hkids c hc (decide_eq_true hname)
      · exact halias c hc
    · intro hno
      exact ⟨fun c hc hname => hno c (.inl ⟨hc, of_decide_eq_true hname⟩),
        fun c hc => hno c (.inr hc)⟩
  rw [huses, ← hzero, ← Option.not_isSome_iff_eq_none]
  split_ifs <;> simp_all

include hn in
/-- The lookups after a child has moved to a name that is free without it. -/
theorem moved_tied (hfree : ∀ c, ¬ (v.shape.untie p x m).Entry q m c) :
    v.shape.Moved (v.shape.moveKid p x q m).lookup p n q m x := by
  intro a k
  rw [lookup_tied h hx hn hq]
  by_cases hhere : a = q ∧ k = m
  · obtain ⟨rfl, rfl⟩ := hhere
    have hfind : (((v.shape.untie p x k).kids a).find? fun c =>
        (v.shape.untie p x k).name c = k) = none :=
      find?_eq_none.mpr fun c hc hname => hfree c (.inl ⟨hc, by simpa using hname⟩)
    rw [if_pos ⟨rfl, rfl, hfind⟩, if_pos ⟨rfl, rfl⟩]
  · rw [if_neg fun hand => hhere ⟨hand.1, hand.2.1⟩, if_neg hhere]

end Tied

/-- A child that moves to its own name is found as before. -/
theorem WF.resolvePath_retied (h : v.WF) (hx : x ∈ v.shape.kids p) (hn : v.shape.name x = n)
    (path : Str) : ((v.untie p x n).addChild p x).resolvePath path = v.resolvePath path := by
  have hentry : v.shape.Entry p n x := .inl ⟨hx, hn⟩
  have hnode := h.shape.tree.dir_node (h.shape.tree.entry_dir hentry)
  have hmoved := moved_tied h hx hn hnode (m := n) fun c hc =>
    ((h.shape.entry_untie hx p n c).mp hc).2 ⟨rfl, hn.symm⟩
  have hsame : (v.shape.moveKid p x p n).lookup = v.shape.lookup := by
    funext a k
    rw [hmoved]
    split_ifs with hhere
    · rw [hhere.1, hhere.2]
      exact ((h.shape.lookup_iff p n x).mpr hentry).symm
    · rfl
  rw [resolvePath_tied h hx hnode, hsame, h.resolvePath]
  rfl

section Kid

variable (h : v.WF) (hold : components oldPath = ns ++ [n]) (hp : v.shape.find ns = some p)
  (hx : x ∈ v.shape.kids p) (hn : v.shape.name x = n)
include h hold hp hx hn

theorem WF.find_parent (m path : Str) (q : Nat) :
    (v.untie p x m).resolvePath path = some q ↔
      v.resolvePath path = some q ∧ ¬ components oldPath <+: components path := by
  rw [h.resolvePath_untie hx, h.shape.find_untie hx hp, h.resolvePath, hold, hn]

/-- Renaming a child to a path that ends in a slash leaves it under the empty name, which no path
finds: it is exact when the path is another name of the file. -/
theorem WF.replaced_slash_iff (hq : v.shape.find (components newPath) = some q)
    (hnot : ¬ components oldPath <+: components newPath) :
    v.Replaced ((v.untie p x []).addChild q x) oldPath newPath ↔
      v.resolvePath oldPath = some q := by
  have hnode := node_iff.mpr (h.node_of_find hq)
  -- the empty name is in no path
  have hresolve : ∀ path, ((v.untie p x []).addChild q x).resolvePath path =
      (v.untie p x []).resolvePath path := by
    intro path
    rw [resolvePath_tied h hx hnode, h.resolvePath_untie hx]
    refine follow_rebind (q := q) (m := []) ?_ ?_
    · intro a k hne
      rw [lookup_tied h hx hn hnode, if_neg fun hand => hne ⟨hand.1, hand.2.1⟩,
        h.shape.lookup_untie hx, hn]
    · intro pre post heq
      have hpart : [] ∈ components path := by
        rw [heq]
        exact mem_append_right _ mem_cons_self
      exact absurd rfl (isPart_of_mem_components hpart).1
  have hparent := h.find_parent hold hp hx hn []
  have hnew : (v.untie p x []).resolvePath newPath = some q :=
    (hparent newPath q).mpr ⟨by rw [h.resolvePath, hq], hnot⟩
  have hfound : v.resolvePath oldPath = some x := by
    rw [h.resolvePath, hold]
    exact h.shape.find_concat.mpr ⟨p, hp, .inl ⟨hx, hn⟩⟩
  constructor
  · intro hreplaced
    rw [← hreplaced.moved, hresolve, hnew]
  · intro hsame
    obtain rfl : x = q := Option.some.inj (hfound.symm.trans hsame)
    refine ⟨?_, .inl ?_, ?_, ?_⟩
    · rw [hresolve, hnew, hsame]
    · rw [hresolve]
      refine Option.eq_none_iff_forall_ne_some.mpr fun b hb => ?_
      exact ((hparent oldPath b).mp hb).2 (prefix_refl _)
    · intro r k i hkey hi
      -- the new path is an alias of the file
      rcases components_cases newPath with hnil | ⟨ks, k', hks⟩
      · rw [hnil] at hq
        exact absurd (Option.some.inj hq).symm (h.ne_root (.inl ⟨hx, hn⟩))
      rw [hks] at hq hnot
      obtain ⟨r', hr', hentry⟩ := h.entry_of_find hq
      have hrk : r' = r ∧ k' = k := by
        have hparts : components (absolute ks) = ks :=
          components_absolute (h.parts_of_walk (h.shape.find_iff.mp hr'))
        have hr : ((v.untie p x []).addChild x x).shape.find ks = some r' := by
          have hpath := hresolve (absolute ks)
          rw [resolvePath_eq (h.inodes_tied p x x []), hparts] at hpath
          rw [hpath]
          refine (hparent (absolute ks) r').mpr ⟨h.resolvePath_absolute hr', ?_⟩
          rw [hparts]
          exact fun hpre => hnot (hpre.trans (prefix_append _ _))
        rw [entryKey_eq (h.inodes_tied p x x []) hks, hr] at hkey
        cases hkey
        exact ⟨rfl, rfl⟩
      obtain ⟨rfl, rfl⟩ := hrk
      have halias : v.shape.aliasAt (r', k') = some x := by
        rcases hentry with ⟨hkid, hname⟩ | halias
        · -- the file is a child under its old name only
          obtain rfl := h.shape.one_parent hkid hx
          have heq := h.shape.find_unique (h.shape.tree.entry_dir (.inl ⟨hx, hn⟩)) hr' hp
          exact absurd (by rw [hold, heq, ← hname, hn]) hnot
        · exact halias
      have hk : k' ≠ [] := (h.shape.parts (.inr halias)).1
      have hrx : r' ≠ x := by
        rintro rfl
        exact h.shape.alias_file halias (h.shape.tree.entry_dir hentry)
      rw [nameUses_eq hi hk, shape_tied h hx hnode]
      have hnone : ((v.shape.moveKid p x x []).kids r').countP
          (fun c => (v.shape.moveKid p x x []).name c = k') = 0 := by
        refine countP_eq_zero.mpr fun c hc hname => ?_
        have hmoved := h.shape.attached_moveKid (q := x) (m := []) hx
        rcases hmoved.mem_kids.mp hc with hkid | ⟨heq, -⟩
        · have hsame : _ = v.shape.name c := hmoved.name_kid hkid
          exact h.shape.alias_free halias (Shape.mem_update_filter.mp hkid).1
            (by rw [← hsame]; simpa using hname)
        · exact hrx heq
      split_ifs <;> omega
    · intro path hbelow _
      rw [hresolve]
      refine Option.ext fun b => ?_
      rw [hparent]
      exact and_iff_left hbelow

/-- Renaming a child to a proper name is exact when the name is free or the old one, and no other
path leads to the new parent. -/
theorem WF.replaced_kid_iff (hnew : components newPath = ms ++ [m]) (hm : m ≠ [])
    (hq : v.shape.find ms = some q) (hnot : ¬ components oldPath <+: ms) :
    v.Replaced ((v.untie p x m).addChild q x) oldPath newPath ↔
      (v.resolvePath newPath = none ∨ components newPath = components oldPath) ∧
        v.OnlyPath oldPath q ms := by
  have hnode := node_iff.mpr (h.node_of_find hq)
  have hentry : v.shape.Entry p n x := .inl ⟨hx, hn⟩
  have hne := h.inodes_tied p q x m
  have hshape := shape_tied h hx hnode m
  have huntie := h.shape.entry_untie hx (m := m) q m
  rw [hn] at huntie
  have hkey : ((v.untie p x m).addChild q x).entryKey newPath = some (q, m) := by
    have hparent : (v.shape.moveKid p x q m).find ms = some q :=
      h.shape.moved_parent (fun a k hdiff => by
        rw [lookup_tied h hx hn hnode, if_neg fun hand => hdiff ⟨hand.1, hand.2.1⟩])
        hp hentry hq (hold ▸ hnot)
    rw [entryKey_eq hne hnew, hshape, hparent]
    rfl
  by_cases htaken : ∃ c, (v.shape.untie p x m).Entry q m c
  · -- the name is there twice
    obtain ⟨c, hc⟩ := htaken
    obtain ⟨hthere, hdiff⟩ := (huntie c).mp hc
    constructor
    · intro hreplaced
      obtain ⟨i, hi⟩ := node_iff.mp
        (show ((v.untie p x m).addChild q x).shape.Node q from hshape ▸ hnode)
      have honce := hreplaced.once q m i hkey hi
      exact absurd hc ((nameUses_tied_le_iff h hx hnode hm hi).mp honce c)
    · rintro ⟨hnone | hsame, -⟩
      · rw [h.resolvePath, hnew, h.shape.find_concat.mpr ⟨q, hq, hthere⟩] at hnone
        cases hnone
      · rw [hnew, hold] at hsame
        obtain ⟨rfl, hlast⟩ := append_inj' hsame rfl
        exact absurd ⟨Option.some.inj (hq.symm.trans hp), singleton_inj.mp hlast⟩ hdiff
  · push Not at htaken
    have honce : ∀ i, ((v.untie p x m).addChild q x).getInode q = some i →
        ((v.untie p x m).addChild q x).nameUses i m ≤ 1 := fun i hi =>
      (nameUses_tied_le_iff h hx hnode hm hi).mpr htaken
    by_cases hself : q = p ∧ m = n
    · obtain ⟨rfl, rfl⟩ := hself
      have hdir := h.shape.tree.entry_dir hentry
      have hpaths : components newPath = components oldPath := by
        rw [hnew, hold, h.shape.find_unique hdir hq hp]
      have honly : v.OnlyPath oldPath q ms := h.onlyPath_iff.mpr fun ks hks =>
        .inr (h.shape.find_unique hdir hks hq)
      have hall := h.resolvePath_retied hx hn
      have hboth : v.resolvePath newPath = v.resolvePath oldPath := by
        rw [h.resolvePath, h.resolvePath, hpaths]
      refine ⟨fun _ => ⟨.inr hpaths, honly⟩, fun _ => ⟨by rw [hall, hboth], .inr hboth, ?_,
        fun path _ _ => hall path⟩⟩
      intro dir name i hkey' hi
      rw [hkey] at hkey'
      cases hkey'
      exact honce i hi
    · -- the name was free before
      have hfree : v.shape.lookup q m = none := h.shape.lookup_eq_none_iff.mpr fun c hc =>
        htaken c ((huntie c).mpr ⟨hc, hself⟩)
      have hmoved := moved_tied h hx hn hnode htaken
      rw [← hshape] at hmoved
      rw [h.replaced_iff hne (by rw [hshape]; rfl) hmoved hold hp hentry hnew hq hnot hfree honce]
      have hnone : v.resolvePath newPath = none := by
        rw [h.resolvePath, hnew, Shape.find_concat_eq hq, hfree]
      exact ⟨fun honly => ⟨.inl hnone, honly⟩, fun hall => hall.2⟩

/-- When renaming a child is exact. -/
theorem WF.rename_kid_exact_iff :
    v.RenameExact oldPath newPath ↔
      ∃ parent, v.resolvePath (parentPath (splitPath newPath)) = some parent ∧
        ¬ components oldPath <+: components (parentPath (splitPath newPath)) ∧
        (lastPart (splitPath newPath) = [] ∧ v.resolvePath oldPath = some parent ∨
          lastPart (splitPath newPath) ≠ [] ∧
          (v.resolvePath newPath = none ∨ components newPath = components oldPath) ∧
          v.OnlyPath oldPath parent (components (parentPath (splitPath newPath)))) := by
  have hparent := h.find_parent hold hp hx hn (lastPart (splitPath newPath))
    (parentPath (splitPath newPath))
  unfold RenameExact
  rw [h.rename_kid hold hp hx hn]
  cases hq : (v.untie p x (lastPart (splitPath newPath))).resolvePath
      (parentPath (splitPath newPath)) with
  | none =>
    refine ⟨fun hsame => absurd hsame (h.untie_ne hx _), ?_⟩
    rintro ⟨parent, hfound, hnot, -⟩
    rw [(hparent parent).mpr ⟨hfound, hnot⟩] at hq
    cases hq
  | some q =>
    obtain ⟨hfound, hnot⟩ := (hparent q).mp hq
    have hright : ∀ P : Nat → Prop,
        (∃ parent, v.resolvePath (parentPath (splitPath newPath)) = some parent ∧
          ¬ components oldPath <+: components (parentPath (splitPath newPath)) ∧ P parent) ↔
        P q := by
      intro P
      rw [hfound]
      constructor
      · rintro ⟨parent, heq, -, hP⟩
        rw [Option.some.inj heq]
        exact hP
      · exact fun hP => ⟨q, rfl, hnot, hP⟩
    rw [hright]
    rw [h.resolvePath] at hfound
    by_cases hlast : lastPart (splitPath newPath) = []
    · rw [hlast]
      rw [← components_of_lastPart_eq hlast] at hfound hnot
      refine (h.replaced_slash_iff hold hp hx hn hfound hnot).trans ?_
      simp
    · refine (h.replaced_kid_iff hold hp hx hn (components_of_lastPart_ne hlast) hlast hfound
        hnot).trans ?_
      simp [hlast]

end Kid

end VirtualFS

open VirtualFS

/-- On a well-formed file system, `rename` is atomic and exact for exactly the calls that are
safe. -/
theorem rename_exact_iff {v : VirtualFS} (h : v.WF) (oldPath newPath : Str) :
    v.RenameExact oldPath newPath ↔ v.RenameSafe oldPath newPath := by
  by_cases hnothing : v.resolvePath oldPath = none ∨ components oldPath = []
  · obtain ⟨e, heq⟩ := rename_nothing hnothing newPath
    have hexact : v.RenameExact oldPath newPath := by
      unfold RenameExact
      rw [heq]
    have hsafe : v.RenameSafe oldPath newPath := hnothing.elim .inl fun hnil => .inr (.inl hnil)
    exact ⟨fun _ => hsafe, fun _ => hexact⟩
  · unfold RenameSafe
    rw [← or_assoc, or_iff_right hnothing]
    push Not at hnothing
    obtain ⟨ns, n, p, x, hold, -, hp, hentry, hisAlias⟩ := h.entry_of_path hnothing.1 hnothing.2
    rw [hisAlias]
    rcases hentry with ⟨hkid, hname⟩ | halias
    · have hnone : v.shape.aliasAt (p, n) = none := by
        cases halias : v.shape.aliasAt (p, n) with
        | none => rfl
        | some y => exact absurd hname (h.shape.alias_free halias hkid)
      rw [hnone]
      exact h.rename_kid_exact_iff hold hp hkid hname
    · rw [halias]
      exact h.rename_alias_exact_iff hold hp halias

/-- Moving a file between directories of the fresh file system. -/
theorem rename_exact_iff_hosts :
    new.RenameExact "/etc/hosts".toList "/tmp/hosts".toList := by
  refine (rename_exact_iff wf_new _ _).mpr (.inr (.inr ?_))
  have halias : new.isAlias "/etc/hosts".toList = false := by decide +kernel
  rw [halias, if_neg Bool.false_ne_true]
  refine ⟨13, by decide +kernel, by decide +kernel, .inr ⟨by decide +kernel,
    .inl (by decide +kernel), wf_new.onlyPath_iff.mpr fun ks hks => .inr ?_⟩⟩
  -- a directory has one path
  have hdir : new.shape.Dir 13 := dir_iff.mpr (by decide +kernel)
  have htmp : new.shape.find (components (parentPath (splitPath "/tmp/hosts".toList))) =
      some 13 := by
    rw [← wf_new.resolvePath]
    decide +kernel
  exact wf_new.shape.find_unique hdir hks htmp

/-- A rename into a directory that is not there returns an error, and the file has lost its
name. -/
theorem failed_rename_loses_file :
    new.WF ∧ ¬ new.RenameExact "/etc/hosts".toList "/none/hosts".toList := by
  refine ⟨wf_new, fun hexact => ?_⟩
  have herror : (new.rename "/etc/hosts".toList "/none/hosts".toList).1.toOption = none := by
    decide +kernel
  have hlost : (new.rename "/etc/hosts".toList "/none/hosts".toList).2.resolvePath
      "/etc/hosts".toList = none := by
    decide +kernel
  have hthere : new.resolvePath "/etc/hosts".toList ≠ none := by decide +kernel
  unfold RenameExact at hexact
  cases hcall : new.rename "/etc/hosts".toList "/none/hosts".toList with
  | mk result v' =>
    rw [hcall] at hexact herror hlost
    cases result with
    | ok => cases herror
    | error e =>
      rw [show v' = new from hexact] at hlost
      exact hthere hlost

end KnoxOS.Vfs
