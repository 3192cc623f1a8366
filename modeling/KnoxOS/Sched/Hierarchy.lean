import KnoxOS.Sched.Cgroup2

/-!
# Consistency of the cgroup v2 hierarchy

Path map, id map, child lists, parent ids and `pids.current` are views of one hierarchy that
separate statements edit. `cgroups_consistent` says that they agree in every state of a run that
attaches only unattached processes and keeps the root; `attached_twice_miscounts` is the run that
moves a process between two groups.
-/

namespace KnoxOS.Sched

open Lib Cgroup2Table List Option
open Std (TreeMap)

/-! ## The hierarchy -/

namespace Cgroup2Table

variable {t t' : Cgroup2Table} {cg' : Cgroup2}

/-- The group `child` names `id` as its parent. -/
def ParentOf (t : Cgroup2Table) (id child : Nat) : Prop :=
  ∃ cg, t.cgroups[child]? = some cg ∧ cg.parentId = some id

/-- Paths and ids are inverse to each other, child lists repeat the parent ids, and these make a
tree below group 0. -/
structure Hierarchy (t : Cgroup2Table) : Prop where
  id_eq : ∀ (id : Nat) (cg : Cgroup2), t.cgroups[id]? = some cg → cg.id = id
  path_iff : ∀ (path : String) (id : Nat), t.pathToId[path]? = some id ↔
    ∃ cg, t.cgroups[id]? = some cg ∧ cg.path = path
  child_iff : ∀ (id : Nat) (cg : Cgroup2), t.cgroups[id]? = some cg →
    ∀ child, child ∈ cg.children ↔ t.ParentOf id child
  children_nodup : ∀ (id : Nat) (cg : Cgroup2), t.cgroups[id]? = some cg → cg.children.Nodup
  tree : IsTree (· ∈ t.cgroups) t.ParentOf 0
  root_path : t.pathToId["/"]? = some 0
  parent_path : ∀ (id : Nat) (cg : Cgroup2) (parent : Nat), t.cgroups[id]? = some cg →
    cg.parentId = some parent → t.pathToId[parentOf cg.path]? = some parent
  fresh : ∀ id ∈ t.cgroups, id < t.nextId

variable {id : Nat} {cg : Cgroup2}

/-- A group is in the table when looking it up gives one. -/
theorem mem_cgroups_iff : id ∈ t.cgroups ↔ ∃ cg, t.cgroups[id]? = some cg := by
  rw [TreeMap.mem_iff_isSome_getElem?, isSome_iff_exists]

/-- What the hierarchy reads of a group. -/
def shape (cg : Cgroup2) : Nat × String × Option Nat × List Nat :=
  (cg.id, cg.path, cg.parentId, cg.children)

/-- The processes of a group and their count. -/
def members (cg : Cgroup2) : List Nat × Nat := (cg.processes, cg.pids.current)

/-! ### Rewriting groups -/

/-- The groups of `t'` are those of `t`, each of them rewritten. -/
structure Rewritten (t t' : Cgroup2Table) (f : Nat → Cgroup2 → Cgroup2) : Prop where
  pathToId : t'.pathToId = t.pathToId
  nextId : t'.nextId = t.nextId
  cgroups : ∀ id : Nat, t'.cgroups[id]? = t.cgroups[id]?.map (f id)

/-- A group after the change is an old one, rewritten. -/
theorem Rewritten.lookup {f : Nat → Cgroup2 → Cgroup2} (h : Rewritten t t' f)
    (hid : t'.cgroups[id]? = some cg') : ∃ cg, t.cgroups[id]? = some cg ∧ f id cg = cg' := by
  rwa [h.cgroups, map_eq_some_iff] at hid

/-- The hierarchy rests on the shapes of the groups alone. -/
theorem Hierarchy.rewritten {f : Nat → Cgroup2 → Cgroup2} (h : Hierarchy t)
    (hr : Rewritten t t' f) (hf : ∀ id cg, shape (f id cg) = shape cg) : Hierarchy t' := by
  simp only [shape, Prod.mk.injEq] at hf
  have hmem : (· ∈ t'.cgroups) = (· ∈ t.cgroups) := by
    funext id
    simp only [mem_cgroups_iff, hr.cgroups, map_eq_some_iff]
    simp
  have hparent : t'.ParentOf = t.ParentOf := by
    funext id child
    simp only [ParentOf, hr.cgroups, map_eq_some_iff]
    simp [hf]
  refine ⟨fun id cg' hid => ?_, fun path id => ?_, fun id cg' hid => ?_, fun id cg' hid => ?_, ?_,
    ?_, fun id cg' parent hid hp => ?_, fun id hid => ?_⟩
  · obtain ⟨cg, hcg, rfl⟩ := hr.lookup hid
    exact (hf id cg).1.trans (h.id_eq id cg hcg)
  · rw [hr.pathToId, h.path_iff]
    simp only [hr.cgroups, map_eq_some_iff]
    simp [hf]
  · obtain ⟨cg, hcg, rfl⟩ := hr.lookup hid
    rw [hparent, (hf id cg).2.2.2]
    exact h.child_iff id cg hcg
  · obtain ⟨cg, hcg, rfl⟩ := hr.lookup hid
    rw [(hf id cg).2.2.2]
    exact h.children_nodup id cg hcg
  · rw [hmem, hparent]
    exact h.tree
  · rw [hr.pathToId]
    exact h.root_path
  · obtain ⟨cg, hcg, rfl⟩ := hr.lookup hid
    rw [(hf id cg).2.2.1] at hp
    rw [hr.pathToId, (hf id cg).2.1]
    exact h.parent_path id cg parent hcg hp
  · rw [hr.nextId]
    exact h.fresh id (congrFun hmem id ▸ hid)

/-- Storing a group that was found, rewritten. -/
theorem rewritten_setGroup (hcg : t.cgroups[id]? = some cg) (g : Cgroup2 → Cgroup2) :
    Rewritten t (t.setGroup id (g cg)) fun a old => if a = id then g old else old where
  pathToId := rfl
  nextId := rfl
  cgroups a := by
    show (t.cgroups.insert id (g cg))[a]? = _
    rw [lookup_insert]
    by_cases ha : id = a
    · subst ha
      simp [hcg]
    · simp [ha, Ne.symm ha]

/-- A change of groups that keeps their shapes, their processes and the counts of these. -/
def Retuned (t t' : Cgroup2Table) : Prop :=
  ∃ f, Rewritten t t' f ∧ ∀ id cg, shape (f id cg) = shape cg ∧ members (f id cg) = members cg

/-- A table is retuned by no change. -/
theorem Retuned.refl (t : Cgroup2Table) : Retuned t t :=
  ⟨fun _ cg => cg, ⟨rfl, rfl, fun id => by simp⟩, fun _ _ => ⟨rfl, rfl⟩⟩

/-- Replacing a group by one of its shape, processes and count retunes the table. -/
theorem retuned_setGroup (hcg : t.cgroups[id]? = some cg) (g : Cgroup2 → Cgroup2)
    (hg : ∀ cg, shape (g cg) = shape cg ∧ members (g cg) = members cg) :
    Retuned t (t.setGroup id (g cg)) := by
  refine ⟨_, rewritten_setGroup hcg g, fun a old => ?_⟩
  split_ifs
  · exact hg old
  · exact ⟨rfl, rfl⟩

/-- Setting a limit retunes the table. -/
theorem retuned_setPidsMax (t : Cgroup2Table) (path : String) (max : Int) :
    Retuned t (t.setPidsMax path max).2 := by
  unfold setPidsMax
  split
  · exact .refl t
  · split
    · exact .refl t
    · next cg hcg =>
        exact retuned_setGroup hcg (fun cg => { cg with pids := { cg.pids with max := max } })
          fun _ => ⟨rfl, rfl⟩

/-- Enabling and disabling controllers retunes the table. -/
theorem retuned_setSubtreeControl (t : Cgroup2Table) (path : String)
    (enable disable : List Cgroup2Controller) :
    Retuned t (t.setSubtreeControl path enable disable).2 := by
  unfold setSubtreeControl
  split
  · exact .refl t
  · split
    · exact .refl t
    · next hcg =>
        split
        · exact retuned_setGroup hcg (fun cg => { cg with subtreeControl := _ })
            fun _ => ⟨rfl, rfl⟩
        · exact retuned_setGroup hcg (fun cg => { cg with subtreeControl := _ })
            fun _ => ⟨rfl, rfl⟩

/-- A group that a process joins. -/
def attach (pid : Nat) (cg : Cgroup2) : Cgroup2 :=
  { cg with
    processes := cg.processes ++ [pid]
    pids := { cg.pids with current := u64 (cg.pids.current + 1) } }

/-- A process in no group is refused at the limit, or joins the group. -/
theorem attachProcess_cases {path : String} {pid : Nat} (hpath : t.pathToId[path]? = some id)
    (hcg : t.cgroups[id]? = some cg) (hnot : ∀ e ∈ t.cgroups.toList, pid ∉ e.2.processes) :
    (∃ t', t.attachProcess path pid = (.error .limitExceeded, t') ∧ Retuned t t') ∨
      ∃ t', t.attachProcess path pid = (.ok (), t') ∧
        (0 ≤ cg.pids.max → (cg.pids.current : Int) < cg.pids.max) ∧
        Rewritten t t' fun a old => if a = id then attach pid old else old := by
  -- dropping the process from the groups changes none of them
  have hdrop : ∀ a : Nat, (t.dropProcess pid).cgroups[a]? = t.cgroups[a]? := by
    intro a
    show (t.cgroups.map _)[a]? = _
    rw [TreeMap.getElem?_map]
    cases ha : t.cgroups[a]? with
    | none => rfl
    | some old =>
      have hne : ∀ p ∈ old.processes, p ≠ pid := fun p hp heq =>
        hnot (a, old) (mem_toList_iff.mpr ha) (heq ▸ hp)
      rw [map_some, filter_eq_self.mpr (by simpa using hne)]
  have hcg' : (t.dropProcess pid).cgroups[id]? = some cg := (hdrop id).trans hcg
  have hset : ∀ g : Cgroup2 → Cgroup2, Rewritten t ((t.dropProcess pid).setGroup id (g cg))
      fun a old => if a = id then g old else old := by
    intro g
    have hr := rewritten_setGroup hcg' g
    exact ⟨hr.pathToId, hr.nextId, fun a => by rw [hr.cgroups, hdrop]⟩
  unfold attachProcess
  simp only [hpath, hcg']
  split_ifs with hfull
  · refine .inl ⟨_, rfl, _, hset fun cg =>
      { cg with pids := { cg.pids with eventsMax := u64 (cg.pids.eventsMax + 1) } }, ?_⟩
    intro a old
    split_ifs <;> exact ⟨rfl, rfl⟩
  · exact .inr ⟨_, rfl, by omega, hset (attach pid)⟩

/-- The root is the only group at boot. -/
theorem lookup_new_table : new.cgroups[id]? = some cg ↔
    id = 0 ∧ cg = { id := 0, path := "/", parentId := none } := by
  simp only [new, lookup_insert, TreeMap.getElem?_emptyc]
  split_ifs with h
  · simp [← h, eq_comm]
  · simp [Ne.symm h]

/-- The table at boot is a hierarchy with one group. -/
theorem hierarchy_new : Hierarchy new where
  id_eq id cg hcg := by
    obtain ⟨rfl, rfl⟩ := lookup_new_table.mp hcg
    rfl
  path_iff path id := by
    simp only [lookup_new_table]
    simp only [new, lookup_insert, TreeMap.getElem?_emptyc]
    split_ifs with h
    · simp [← h, eq_comm]
    · simp [h]
  child_iff id cg hcg child := by
    obtain ⟨rfl, rfl⟩ := lookup_new_table.mp hcg
    constructor
    · intro hmem
      cases hmem
    · intro ⟨cg', hcg', hparent⟩
      obtain ⟨-, rfl⟩ := lookup_new_table.mp hcg'
      cases hparent
  children_nodup id cg hcg := by
    obtain ⟨-, rfl⟩ := lookup_new_table.mp hcg
    exact nodup_nil
  tree := by
    have hnode : (· ∈ new.cgroups) = (· = 0) := by
      funext id
      simp [mem_cgroups_iff, lookup_new_table]
    have hedge : new.ParentOf = fun _ _ => False := by
      funext id child
      refine propext ⟨fun ⟨cg, hcg, hparent⟩ => ?_, False.elim⟩
      obtain ⟨-, rfl⟩ := lookup_new_table.mp hcg
      cases hparent
    rw [hnode, hedge]
    exact .single 0
  root_path := by simp [new]
  parent_path id cg parent hcg hparent := by
    obtain ⟨-, rfl⟩ := lookup_new_table.mp hcg
    cases hparent
  fresh id hid := by
    obtain ⟨cg, hcg⟩ := mem_cgroups_iff.mp hid
    obtain ⟨rfl, -⟩ := lookup_new_table.mp hcg
    exact Nat.one_pos

/-! ### Making and removing a group -/

/-- `t'` is `t` with the group `cg` below its parent, which has no children and no processes. -/
structure Leaf (t t' : Cgroup2Table) (id : Nat) (cg : Cgroup2) : Prop where
  present : t'.cgroups[id]? = some cg
  no_children : cg.children = []
  no_processes : cg.processes = []
  cgroups : ∀ a : Nat, t.cgroups[a]? = if a = id then none else t'.cgroups[a]?.map fun old =>
    { old with children := old.children.filter (· ≠ id) }
  children : ∀ (a : Nat) (old : Cgroup2), t'.cgroups[a]? = some old →
    old.children.Nodup ∧ (id ∈ old.children ↔ cg.parentId = some a)
  path_self : t'.pathToId[cg.path]? = some id
  pathToId : ∀ path : String,
    t.pathToId[path]? = if path = cg.path then none else t'.pathToId[path]?

section

variable (h : Hierarchy t)
include h

/-- No group has the next number yet. -/
theorem lookup_nextId : t.cgroups[t.nextId]? = none :=
  TreeMap.getElem?_eq_none fun hmem => Nat.lt_irrefl _ (h.fresh _ hmem)

/-- The next number is no child. -/
theorem nextId_notMem {old : Cgroup2} (hid : t.cgroups[id]? = some old) :
    t.nextId ∉ old.children := by
  intro hmem
  obtain ⟨cg, hcg, -⟩ := (h.child_iff id old hid _).mp hmem
  cases (lookup_nextId h).symm.trans hcg

/-- A new group with the next number is a leaf. -/
theorem leaf_insert {parentId : Nat} (hpath : cg.path ∉ t.pathToId)
    (hparent : cg.parentId = some parentId) (hne : parentId ≠ t.nextId)
    (hchildren : cg.children = []) (hprocesses : cg.processes = []) :
    Leaf t
      { nextId := u64 (t.nextId + 1)
        cgroups := (t.cgroups.insert t.nextId cg).modify parentId fun parent =>
          { parent with children := parent.children ++ [t.nextId] }
        pathToId := t.pathToId.insert cg.path t.nextId } t.nextId cg := by
  have hnew : ∀ (a : Nat), ((t.cgroups.insert t.nextId cg).modify parentId fun parent =>
      { parent with children := parent.children ++ [t.nextId] })[a]? =
        if a = t.nextId then some cg else t.cgroups[a]?.map fun old => { old with
          children := old.children ++ if parentId = a then [t.nextId] else [] } := by
    intro a
    rw [lookup_modify, lookup_insert, lookup_insert, if_neg hne.symm]
    by_cases hp : parentId = a
    · subst hp
      simp [hne]
    · simp [hp, eq_comm]
  refine ⟨?_, hchildren, hprocesses, fun a => ?_, fun a old hold => ?_, ?_, fun path => ?_⟩
  · rw [hnew, if_pos rfl]
  · rw [hnew]
    by_cases ha : a = t.nextId
    · rw [if_pos ha, ha, lookup_nextId h]
    · rw [if_neg ha, if_neg ha]
      cases hcg : t.cgroups[a]? with
      | none => rfl
      | some old =>
        have hnot : ∀ c ∈ old.children, c ≠ t.nextId := fun c hc heq =>
          nextId_notMem h hcg (heq ▸ hc)
        have hsame : (old.children ++ if parentId = a then [t.nextId] else []).filter
            (· ≠ t.nextId) = old.children := by
          split_ifs <;> simpa using hnot
        rw [map_some, map_some, hsame]
  · rw [hnew] at hold
    by_cases ha : a = t.nextId
    · rw [if_pos ha] at hold
      cases hold
      simp [hchildren, ha, hparent, hne]
    · rw [if_neg ha, map_eq_some_iff] at hold
      obtain ⟨old, hcg, rfl⟩ := hold
      have hnot := nextId_notMem h hcg
      have hnodup := h.children_nodup a old hcg
      rw [hparent]
      split_ifs with hp
      · refine ⟨nodup_append.mpr ⟨hnodup, by simp, ?_⟩, by simp [hp]⟩
        intro c hc d hd heq
        exact hnot (mem_singleton.mp hd ▸ heq ▸ hc)
      · simp [hnodup, hnot, hp]
  · rw [lookup_insert, if_pos rfl]
  · rw [lookup_insert]
    by_cases hp : path = cg.path
    · rw [if_pos hp, hp, TreeMap.getElem?_eq_none hpath]
    · rw [if_neg hp, if_neg (Ne.symm hp)]

/-- `mkdir` fails and changes nothing, or adds a leaf with the next number. -/
theorem mkdir_cases (path : String) :
    (t.mkdir path).2 = t ∨ ∃ cg parentId, Leaf t (t.mkdir path).2 t.nextId cg ∧
      cg.id = t.nextId ∧ cg.pids.current = 0 ∧ (t.mkdir path).2.nextId = u64 (t.nextId + 1) ∧
      cg.parentId = some parentId ∧ t.pathToId[Sched.parentOf cg.path]? = some parentId := by
  unfold mkdir
  split_ifs with hold
  · exact .inl rfl
  cases hpath : t.pathToId[Sched.parentOf path]? with
  | none => exact .inl rfl
  | some parentId =>
    obtain ⟨parent, hparent, -⟩ := (h.path_iff _ _).mp hpath
    have hne : parentId ≠ t.nextId := by
      rintro rfl
      cases (lookup_nextId h).symm.trans hparent
    exact .inr ⟨_, parentId, leaf_insert h hold rfl hne rfl rfl, rfl, rfl, rfl, rfl, hpath⟩

/-- `rmdir` fails and changes nothing, or removes the leaf at the path. -/
theorem rmdir_cases (path : String) :
    (t.rmdir path).2 = t ∨ ∃ id cg, t.pathToId[path]? = some id ∧
      Leaf (t.rmdir path).2 t id cg ∧ (t.rmdir path).2.nextId = t.nextId := by
  unfold rmdir
  cases hpath : t.pathToId[path]? with
  | none => exact .inl rfl
  | some id =>
    obtain ⟨cg, hcg, rfl⟩ := (h.path_iff path id).mp hpath
    simp only [hcg, any_some, bind_some]
    split_ifs with hempty
    · exact .inl rfl
    · simp only [Bool.or_eq_true, Bool.not_eq_true', not_or, Bool.not_eq_false,
        List.isEmpty_iff] at hempty
      have hchild : ∀ (a : Nat) (old : Cgroup2), t.cgroups[a]? = some old →
          (id ∈ old.children ↔ cg.parentId = some a) := by
        intro a old hold
        rw [h.child_iff a old hold, ParentOf, hcg]
        simp
      refine .inr ⟨id, cg, rfl, ⟨hcg, hempty.2, hempty.1, fun a => ?_, fun a old hold =>
        ⟨h.children_nodup a old hold, hchild a old hold⟩, hpath, fun path => ?_⟩, rfl⟩
      · rw [lookup_erase]
        by_cases ha : a = id
        · rw [if_pos ha, if_pos ha.symm]
        · rw [if_neg ha, if_neg (Ne.symm ha)]
          have hsame : cg.parentId ≠ some a → t.cgroups[a]? = t.cgroups[a]?.map fun old =>
              { old with children := old.children.filter (· ≠ id) } := by
            intro hp
            cases hold : t.cgroups[a]? with
            | none => rfl
            | some old =>
              have hnot : ∀ c ∈ old.children, c ≠ id := fun c hc heq =>
                hp ((hchild a old hold).mp (heq ▸ hc))
              rw [map_some, filter_eq_self.mpr (by simpa using hnot)]
          cases hparent : cg.parentId with
          | none => exact hsame (by rw [hparent]; nofun)
          | some parentId =>
            dsimp only
            rw [lookup_modify]
            split_ifs with hp
            · rw [hp]
            · exact hsame fun heq => hp (some.inj (hparent.symm.trans heq))
      · rw [lookup_erase]
        simp only [eq_comm]

end

namespace Leaf

variable {a child : Nat} {path : String} (hl : Leaf t t' id cg)
include hl

/-- A group with the leaf is the leaf, or was there with at most one child less. -/
theorem lookup (ha : t'.cgroups[a]? = some cg') : a = id ∧ cg' = cg ∨ a ≠ id ∧
    t.cgroups[a]? = some { cg' with children := cg'.children.filter (· ≠ id) } := by
  rw [hl.cgroups]
  by_cases hid : a = id
  · subst hid
    exact .inl ⟨rfl, some.inj (ha.symm.trans hl.present)⟩
  · rw [if_neg hid, ha]
    exact .inr ⟨hid, rfl⟩

/-- A group without the leaf is there with it. -/
theorem lookup_old {old : Cgroup2} (ha : t.cgroups[a]? = some old) : a ≠ id ∧
    ∃ cg', t'.cgroups[a]? = some cg' ∧
      { cg' with children := cg'.children.filter (· ≠ id) } = old := by
  rw [hl.cgroups] at ha
  split_ifs at ha with hid
  exact ⟨hid, map_eq_some_iff.mp ha⟩

/-- The groups are those there were and the leaf. -/
theorem mem_iff : a ∈ t.cgroups ↔ a ∈ t'.cgroups ∧ a ≠ id := by
  rw [mem_cgroups_iff, mem_cgroups_iff, hl.cgroups]
  split_ifs with hid
  · simp [hid]
  · simp [hid, map_eq_some_iff]

/-- Only the edge to the leaf is new. -/
theorem parentOf_iff : t.ParentOf a child ↔ t'.ParentOf a child ∧ child ≠ id := by
  rw [ParentOf, ParentOf, hl.cgroups]
  split_ifs with hid
  · simp [hid]
  · simp [hid, map_eq_some_iff]

/-- The parent of the leaf. -/
theorem parentOf_self : t'.ParentOf a id ↔ cg.parentId = some a := by
  simp [ParentOf, hl.present]

/-- At another path than that of the leaf the same group is found. -/
theorem path_iff (hpath : path ≠ cg.path) :
    (∃ old, t.cgroups[a]? = some old ∧ old.path = path) ↔
      ∃ cg', t'.cgroups[a]? = some cg' ∧ cg'.path = path := by
  constructor
  · rintro ⟨old, hold, rfl⟩
    obtain ⟨-, cg', hcg', rfl⟩ := hl.lookup_old hold
    exact ⟨cg', hcg', rfl⟩
  · rintro ⟨cg', hcg', rfl⟩
    rcases hl.lookup hcg' with ⟨-, rfl⟩ | ⟨-, hold⟩
    · exact absurd rfl hpath
    · exact ⟨_, hold, rfl⟩

/-- A path without the leaf is a path with it. -/
theorem path_kept (hpath : t.pathToId[path]? = some a) : t'.pathToId[path]? = some a := by
  rw [hl.pathToId] at hpath
  split_ifs at hpath
  exact hpath

/-- A path to another group stays when the leaf goes. -/
theorem path_other (hpath : t'.pathToId[path]? = some a) (ha : a ≠ id) :
    t.pathToId[path]? = some a := by
  rw [hl.pathToId, if_neg, hpath]
  rintro rfl
  exact ha (some.inj (hpath.symm.trans hl.path_self))

end Leaf

/-- A new group extends the tree by a leaf. -/
theorem Hierarchy.added {parentId : Nat} (h : Hierarchy t) (hl : Leaf t t' t.nextId cg)
    (hid : cg.id = t.nextId) (hparent : cg.parentId = some parentId)
    (hpath : t.pathToId[Sched.parentOf cg.path]? = some parentId)
    (hnext : t'.nextId = t.nextId + 1) : Hierarchy t' where
  id_eq a cg' ha := by
    rcases hl.lookup ha with ⟨rfl, rfl⟩ | ⟨-, hold⟩
    · exact hid
    · have hsame := h.id_eq a _ hold
      exact hsame
  path_iff path a := by
    by_cases hp : path = cg.path
    · rw [hp, hl.path_self]
      constructor
      · rintro ⟨⟩
        exact ⟨cg, hl.present, rfl⟩
      · rintro ⟨cg', hcg', hpath'⟩
        rcases hl.lookup hcg' with ⟨rfl, -⟩ | ⟨-, hold⟩
        · rfl
        · -- an old group is not at the new path
          have hknown := (h.path_iff cg.path a).mpr ⟨_, hold, hpath'⟩
          rw [hl.pathToId, if_pos rfl] at hknown
          cases hknown
    · rw [← hl.path_iff hp, ← h.path_iff, hl.pathToId, if_neg hp]
  child_iff a cg' ha child := by
    by_cases hc : child = t.nextId
    · rw [hc, (hl.children a cg' ha).2, hl.parentOf_self]
    · rw [← and_iff_left (a := t'.ParentOf a child) hc, ← hl.parentOf_iff]
      rcases hl.lookup ha with ⟨rfl, rfl⟩ | ⟨-, hold⟩
      · rw [hl.no_children]
        refine iff_of_false not_mem_nil fun hedge => ?_
        exact Nat.lt_irrefl _ (h.fresh _ (h.tree.edge_mem hedge).1)
      · rw [← h.child_iff a _ hold, mem_filter]
        simp [hc]
  children_nodup a cg' ha := (hl.children a cg' ha).1
  tree := by
    obtain ⟨parent, hlook, -⟩ := (h.path_iff _ _).mp hpath
    refine h.tree.insert (mem_cgroups_iff.mpr ⟨parent, hlook⟩)
      (fun hmem => Nat.lt_irrefl _ (h.fresh _ hmem)) (fun a => ?_) fun a child => ?_
    · rw [hl.mem_iff]
      by_cases ha : a = t.nextId
      · simp [ha, mem_cgroups_iff, hl.present]
      · simp [ha]
    · rw [hl.parentOf_iff]
      by_cases hc : child = t.nextId
      · simp [hc, hl.parentOf_self, hparent, eq_comm]
      · simp [hc]
  root_path := hl.path_kept h.root_path
  parent_path a cg' parent ha hp := by
    rcases hl.lookup ha with ⟨-, rfl⟩ | ⟨-, hold⟩
    · rw [hparent] at hp
      cases hp
      exact hl.path_kept hpath
    · have hsame := h.parent_path a _ parent hold
      exact hl.path_kept (hsame hp)
  fresh a ha := by
    rw [hnext]
    by_cases hnew : a = t.nextId
    · omega
    · exact Nat.lt_succ_of_lt (h.fresh a (hl.mem_iff.mpr ⟨ha, hnew⟩))

/-- Removing an empty group other than the root takes a leaf from the tree. -/
theorem Hierarchy.removed (h : Hierarchy t') (hl : Leaf t t' id cg) (hroot : id ≠ 0)
    (hnext : t.nextId = t'.nextId) : Hierarchy t := by
  have hleaf : ∀ child, ¬ t'.ParentOf id child := by
    intro child hchild
    have hmem := (h.child_iff id cg hl.present child).mpr hchild
    rw [hl.no_children] at hmem
    cases hmem
  refine ⟨fun a old ha => ?_, fun path a => ?_, fun a old ha child => ?_, fun a old ha => ?_,
    h.tree.erase hroot hleaf (fun _ => hl.mem_iff) fun _ _ => hl.parentOf_iff,
    hl.path_other h.root_path hroot.symm, fun a old parent ha hp => ?_, fun a ha => ?_⟩
  · obtain ⟨-, cg', hcg', rfl⟩ := hl.lookup_old ha
    exact h.id_eq a cg' hcg'
  · by_cases hp : path = cg.path
    · rw [hl.pathToId, if_pos hp]
      refine iff_of_false nofun ?_
      rintro ⟨old, hold, rfl⟩
      obtain ⟨hne, cg', hcg', rfl⟩ := hl.lookup_old hold
      have hknown := (h.path_iff _ a).mpr ⟨cg', hcg', hp⟩
      exact hne (some.inj (hknown.symm.trans hl.path_self))
    · rw [hl.path_iff hp, ← h.path_iff, hl.pathToId, if_neg hp]
  · obtain ⟨-, cg', hcg', rfl⟩ := hl.lookup_old ha
    rw [hl.parentOf_iff, ← h.child_iff a cg' hcg', mem_filter, decide_eq_true_eq]
  · obtain ⟨-, cg', hcg', rfl⟩ := hl.lookup_old ha
    exact (h.children_nodup a cg' hcg').filter _
  · obtain ⟨-, cg', hcg', rfl⟩ := hl.lookup_old ha
    refine hl.path_other (h.parent_path a cg' parent hcg' hp) fun heq => ?_
    exact hleaf a ⟨cg', hcg', heq ▸ hp⟩
  · rw [hnext]
    exact h.fresh a (hl.mem_iff.mp ha).1

end Cgroup2Table

/-! ## Consistency -/

namespace CgroupRun

variable {s : CgroupRun} {t' : Cgroup2Table}

/-- All views of the hierarchy agree: the tree is sound, a process is in at most one group,
`pids.current` is the number of processes and respects the limit of the last attachment. -/
structure Consistent (s : CgroupRun) : Prop where
  hierarchy : s.table.Hierarchy
  one_group : ∀ (id id' : Nat) (cg cg' : Cgroup2) (pid : Nat), s.table.cgroups[id]? = some cg →
    s.table.cgroups[id']? = some cg' → pid ∈ cg.processes → pid ∈ cg'.processes → id = id'
  processes_nodup : ∀ (id : Nat) (cg : Cgroup2), s.table.cgroups[id]? = some cg →
    cg.processes.Nodup
  current_eq : ∀ (id : Nat) (cg : Cgroup2), s.table.cgroups[id]? = some cg →
    cg.pids.current = cg.processes.length
  within_max : ∀ (id : Nat) (cg : Cgroup2) (max : Int), s.table.cgroups[id]? = some cg →
    s.maxAtAttach id = some max → 0 ≤ max → (cg.pids.current : Int) ≤ max

/-- The state at boot is consistent. -/
theorem consistent_init : Consistent init where
  hierarchy := hierarchy_new
  one_group id id' cg cg' pid hcg hcg' hpid _ := by
    obtain ⟨-, rfl⟩ := lookup_new_table.mp hcg
    cases hpid
  processes_nodup id cg hcg := by
    obtain ⟨-, rfl⟩ := lookup_new_table.mp hcg
    exact nodup_nil
  current_eq id cg hcg := by
    obtain ⟨-, rfl⟩ := lookup_new_table.mp hcg
    rfl
  within_max id cg max _ hmax := by cases hmax

section

variable (h : Consistent s)
include h

/-- A table whose groups keep their processes or are empty stays consistent. -/
theorem Consistent.of_members (hierarchy : t'.Hierarchy)
    (hmembers : ∀ (id : Nat) (cg' : Cgroup2), t'.cgroups[id]? = some cg' →
      members cg' = ([], 0) ∨ ∃ cg, s.table.cgroups[id]? = some cg ∧ members cg' = members cg) :
    Consistent { s with table := t' } := by
  simp only [members, Prod.mk.injEq] at hmembers
  refine ⟨hierarchy, fun id id' cg cg' pid hcg hcg' hpid hpid' => ?_, fun id cg hcg => ?_,
    fun id cg hcg => ?_, fun id cg max hcg hmax hnonneg => ?_⟩
  · rcases hmembers id cg hcg with ⟨hnil, -⟩ | ⟨old, hold, heq, -⟩
    · rw [hnil] at hpid
      cases hpid
    · rcases hmembers id' cg' hcg' with ⟨hnil, -⟩ | ⟨old', hold', heq', -⟩
      · rw [hnil] at hpid'
        cases hpid'
      · exact h.one_group id id' old old' pid hold hold' (heq ▸ hpid) (heq' ▸ hpid')
  · rcases hmembers id cg hcg with ⟨hnil, -⟩ | ⟨old, hold, heq, -⟩
    · exact hnil ▸ nodup_nil
    · exact heq ▸ h.processes_nodup id old hold
  · rcases hmembers id cg hcg with ⟨hnil, hzero⟩ | ⟨old, hold, heq, hcur⟩
    · rw [hnil, hzero]
      rfl
    · rw [heq, hcur]
      exact h.current_eq id old hold
  · rcases hmembers id cg hcg with ⟨-, hzero⟩ | ⟨old, hold, -, hcur⟩
    · rw [hzero]
      exact hnonneg
    · rw [hcur]
      exact h.within_max id old max hold hmax hnonneg

/-- A retuned table keeps the state consistent. -/
theorem Consistent.retuned (hr : s.table.Retuned t') : Consistent { s with table := t' } := by
  obtain ⟨f, hf, hsame⟩ := hr
  refine h.of_members (h.hierarchy.rewritten hf fun id cg => (hsame id cg).1) fun id cg' hcg' => ?_
  obtain ⟨cg, hcg, rfl⟩ := hf.lookup hcg'
  exact .inr ⟨cg, hcg, (hsame id cg).2⟩

/-- Making a group keeps the state consistent. -/
theorem Consistent.mkdir (path : String) (hok : s.Orderly (.mkdir path)) :
    Consistent (s.step (.mkdir path)) := by
  show Consistent { s with table := (s.table.mkdir path).2 }
  rcases mkdir_cases h.hierarchy path with
    heq | ⟨cg, parentId, hleaf, hid, hzero, hnext, hparent, hpath⟩
  · rw [heq]
    exact h
  · rw [u64_of_lt hok] at hnext
    refine h.of_members (h.hierarchy.added hleaf hid hparent hpath hnext) fun a cg' hcg' => ?_
    rcases hleaf.lookup hcg' with ⟨-, rfl⟩ | ⟨-, hold⟩
    · exact .inl (Prod.ext hleaf.no_processes hzero)
    · exact .inr ⟨_, hold, rfl⟩

/-- Removing a group keeps the state consistent. -/
theorem Consistent.rmdir (path : String) (hok : s.Orderly (.rmdir path)) :
    Consistent (s.step (.rmdir path)) := by
  show Consistent { s with table := (s.table.rmdir path).2 }
  rcases rmdir_cases h.hierarchy path with heq | ⟨id, cg, hpath, hleaf, hnext⟩
  · rw [heq]
    exact h
  · have hroot : id ≠ 0 := by
      rintro rfl
      -- the group 0 is at the root path, where an orderly call finds it busy
      have hslash : path = "/" := by
        obtain ⟨root, hlook, rfl⟩ := (h.hierarchy.path_iff path 0).mp hpath
        obtain ⟨root', hlook', hpath'⟩ := (h.hierarchy.path_iff "/" 0).mp h.hierarchy.root_path
        rw [hlook] at hlook'
        cases hlook'
        exact hpath'
      have hbusy := hok hslash
      rw [hleaf.present, any_some, hleaf.no_processes, hleaf.no_children] at hbusy
      cases hbusy
    refine h.of_members (h.hierarchy.removed hleaf hroot hnext) fun a old hold => ?_
    obtain ⟨-, cg', hcg', rfl⟩ := hleaf.lookup_old hold
    exact .inr ⟨cg', hcg', rfl⟩

/-- A process in no group joins one that has room. -/
theorem Consistent.attached {id pid : Nat} {cg : Cgroup2} {maxAtAttach : Nat → Option Int}
    (hr : Rewritten s.table t' fun a old => if a = id then attach pid old else old)
    (hcg : s.table.cgroups[id]? = some cg) (hcount : cg.pids.current + 1 < 2 ^ 64)
    (hnot : ∀ e ∈ s.table.cgroups.toList, pid ∉ e.2.processes)
    (hroom : 0 ≤ cg.pids.max → (cg.pids.current : Int) < cg.pids.max)
    (hself : maxAtAttach id = some cg.pids.max)
    (hother : ∀ a ≠ id, maxAtAttach a = s.maxAtAttach a) : Consistent ⟨t', maxAtAttach⟩ := by
  have hpid : ∀ (a : Nat) (ca : Cgroup2), s.table.cgroups[a]? = some ca → pid ∉ ca.processes :=
    fun a ca ha => hnot (a, ca) (mem_toList_iff.mpr ha)
  have hlook : ∀ (a : Nat) (cg' : Cgroup2), t'.cgroups[a]? = some cg' →
      (a = id ∧ cg'.processes = cg.processes ++ [pid] ∧
        cg'.pids.current = cg.pids.current + 1) ∨ (a ≠ id ∧ s.table.cgroups[a]? = some cg') := by
    intro a cg' ha
    obtain ⟨old, hold, rfl⟩ := hr.lookup ha
    split_ifs with haid
    · subst haid
      cases hcg.symm.trans hold
      exact .inl ⟨rfl, rfl, u64_of_lt hcount⟩
    · exact .inr ⟨haid, hold⟩
  refine ⟨h.hierarchy.rewritten hr fun a old => ?_, fun a b ca cb p ha hb hpa hpb => ?_,
    fun a ca ha => ?_, fun a ca ha => ?_, fun a ca max ha hmax hnonneg => ?_⟩
  · split_ifs <;> rfl
  · rcases hlook a ca ha with ⟨rfl, hca, -⟩ | ⟨-, ha'⟩ <;>
      rcases hlook b cb hb with ⟨rfl, hcb, -⟩ | ⟨-, hb'⟩
    · rfl
    · rcases mem_append.mp (hca ▸ hpa) with hold | hnew
      · exact h.one_group a b cg cb p hcg hb' hold hpb
      · exact absurd (mem_singleton.mp hnew ▸ hpb) (hpid b cb hb')
    · rcases mem_append.mp (hcb ▸ hpb) with hold | hnew
      · exact h.one_group a b ca cg p ha' hcg hpa hold
      · exact absurd (mem_singleton.mp hnew ▸ hpa) (hpid a ca ha')
    · exact h.one_group a b ca cb p ha' hb' hpa hpb
  · rcases hlook a ca ha with ⟨-, hca, -⟩ | ⟨-, ha'⟩
    · rw [hca]
      refine nodup_append.mpr ⟨h.processes_nodup id cg hcg, by simp, ?_⟩
      intro p hp q hq heq
      exact hpid id cg hcg (mem_singleton.mp hq ▸ heq ▸ hp)
    · exact h.processes_nodup a ca ha'
  · rcases hlook a ca ha with ⟨-, hca, hcur⟩ | ⟨-, ha'⟩
    · rw [hca, hcur, h.current_eq id cg hcg, length_append]
      rfl
    · exact h.current_eq a ca ha'
  · rcases hlook a ca ha with ⟨rfl, -, hcur⟩ | ⟨hne, ha'⟩
    · have heq : cg.pids.max = max := some.inj (hself.symm.trans hmax)
      omega
    · exact h.within_max a ca max ha' ((hother a hne).symm.trans hmax) hnonneg

/-- Moving a process keeps the state consistent, the counts along all ancestors included. -/
theorem Consistent.attachProcess (path : String) (pid : Nat)
    (hok : s.Orderly (.attachProcess path pid)) :
    Consistent (s.step (.attachProcess path pid)) := by
  cases hpath : s.table.pathToId[path]? with
  | none =>
    simp only [step, Cgroup2Table.attachProcess, hpath]
    exact h
  | some id =>
    obtain ⟨cg, hcg, -⟩ := (h.hierarchy.path_iff path id).mp hpath
    have hknown : path ∈ s.table.pathToId := by
      rw [TreeMap.mem_iff_isSome_getElem?, hpath]
      rfl
    have hnot : ∀ e ∈ s.table.cgroups.toList, pid ∉ e.2.processes :=
      fun e he => (hok hknown e he).1
    rcases attachProcess_cases hpath hcg hnot with
      ⟨t', heq, hretuned⟩ | ⟨t', heq, hroom, hr⟩
    · simp only [step, heq]
      exact h.retuned hretuned
    · simp only [step, heq, hpath, some.injEq]
      refine h.attached hr hcg (hok hknown (id, cg) (mem_toList_iff.mpr hcg)).2 hnot hroom
        (by simp [hcg]) fun a ha => if_neg (Ne.symm ha)

/-- Every operation keeps the state consistent. -/
theorem Consistent.step (op : CgroupOp) (hok : s.Orderly op) : Consistent (s.step op) := by
  cases op with
  | mkdir path => exact h.mkdir path hok
  | rmdir path => exact h.rmdir path hok
  | attachProcess path pid => exact h.attachProcess path pid hok
  | setPidsMax path max => exact h.retuned (s.table.retuned_setPidsMax path max)
  | setSubtreeControl path enable disable =>
    exact h.retuned (s.table.retuned_setSubtreeControl path enable disable)

end

end CgroupRun

open CgroupRun

/-- The views of the hierarchy agree in every state of an orderly run. -/
theorem cgroups_consistent {s : CgroupRun} (hreach : Reach step Orderly init s) : Consistent s :=
  hreach.invariant Consistent consistent_init fun _ op h hok => h.step op hok

/-- A run with nested groups, a limit that refuses a process and a removed group. -/
theorem cgroups_consistent_nested :
    Consistent ([CgroupOp.mkdir "/a", .mkdir "/a/b", .setPidsMax "/a" 1, .attachProcess "/a" 5,
      .attachProcess "/a" 6, .attachProcess "/" 6, .setPidsMax "/a" 0,
      .setSubtreeControl "/" [.cpu, .rdma] [], .rmdir "/a/b", .rmdir "/a", .mkdir "/c"].foldl
        step init) :=
  cgroups_consistent (Reach.start.foldl (by decide +kernel))

/-- Moving a process from one group to another leaves it counted in the first. -/
theorem attached_twice_miscounts :
    ∃ s, Reach step (fun _ _ => True) init s ∧
      (s.table.cgroups[1]?.map fun cg => (cg.processes, cg.pids.current)) = some ([], 1) ∧
      ¬ Consistent s := by
  have hstale : (([CgroupOp.mkdir "/a", .attachProcess "/a" 5, .attachProcess "/" 5].foldl step
      init).table.cgroups[1]?.map fun cg => (cg.processes, cg.pids.current)) = some ([], 1) := by
    decide +kernel
  refine ⟨_, Reach.start.foldl (by simp [Admitted]), hstale, fun h => ?_⟩
  obtain ⟨cg, hcg, heq⟩ := map_eq_some_iff.mp hstale
  obtain ⟨hnone, hone⟩ := Prod.mk.inj heq
  have hcount := h.current_eq 1 cg hcg
  rw [hnone, hone] at hcount
  cases hcount

end KnoxOS.Sched
