import Mathlib.Data.List.Nodup
import KnoxOS.Lib.Names
import KnoxOS.Vfs.Inodes

/-!
# The shape of a file system

What the name space of a file system depends on: the kind, name and children of each inode, and
the aliases. `Shape.WF` says that they form a tree whose directories have one name each and whose
files have one for each entry, and the theorems after it say which changes of a shape keep it so:
making an inode, adding a name, removing a name, and moving one.
-/

namespace KnoxOS.Vfs

open Function Lib List Option

@[ext] structure Shape where
  root : Nat
  kind : Nat → Option FileType
  name : Nat → Str
  kids : Nat → List Nat
  aliasAt : Nat × Str → Option Nat
  next : Nat

namespace Shape

/-- The inode is there. -/
def Node (s : Shape) (a : Nat) : Prop := s.kind a ≠ none

/-- The inode is a directory. -/
def Dir (s : Shape) (a : Nat) : Prop := s.kind a = some .directory

/-- The directory has this name for the inode, as a child or as an alias. -/
def Entry (s : Shape) (a : Nat) (n : Str) (b : Nat) : Prop :=
  b ∈ s.kids a ∧ s.name b = n ∨ s.aliasAt (a, n) = some b

/-- The lookup of one name: children come before aliases. -/
def lookup (s : Shape) (a : Nat) (n : Str) : Option Nat :=
  if s.kind a = none then none
  else
    match (s.kids a).find? fun c => s.name c = n with
    | some b => some b
    | none => s.aliasAt (a, n)

/-- The inode under a path. -/
def find (s : Shape) (ns : List Str) : Option Nat := follow s.lookup s.root ns

/-- A well-formed shape. -/
structure WF (s : Shape) : Prop where
  tree : NamedTree s.Node s.Dir s.Entry s.root
  kids_nodup : ∀ a, (s.kids a).Nodup
  one_parent : ∀ {a a' b}, b ∈ s.kids a → b ∈ s.kids a' → a = a'
  alias_free : ∀ {a n b c}, s.aliasAt (a, n) = some b → c ∈ s.kids a → s.name c ≠ n
  alias_file : ∀ {k b}, s.aliasAt k = some b → ¬ s.Dir b
  parts : ∀ {a n b}, s.Entry a n b → IsPart n
  fresh : ∀ {a}, s.Node a → a < s.next

variable {s s' : Shape} {a b p q x : Nat} {n m : Str} {ns ms : List Str}
  {f : Nat × Str → Option Nat} {k k' : Nat × Str}

theorem Entry.kid (h : s.Entry a n b) (halias : s.aliasAt (a, n) = none) :
    b ∈ s.kids a ∧ s.name b = n :=
  h.resolve_right (by rw [halias]; exact nofun)

/-- Children are looked up before aliases. -/
theorem lookup_eq_or (s : Shape) (a : Nat) (n : Str) :
    s.lookup a n = if s.kind a = none then none
      else ((s.kids a).find? fun c => s.name c = n).or (s.aliasAt (a, n)) := by
  unfold lookup
  cases (s.kids a).find? fun c => s.name c = n with
  | some b => rfl
  | none => rfl

theorem find_concat_eq (hns : s.find ns = some a) : s.find (ns ++ [n]) = s.lookup a n := by
  unfold find at hns ⊢
  rw [follow_append, hns]
  exact bind_fun_some _

/-- Where a name stands for one inode, a lookup finds what is recorded. -/
theorem lookup_iff_of_functional (hnode : ∀ {a n b}, s.Entry a n b → s.Node a)
    (hfun : ∀ a n b c, s.Entry a n b → s.Entry a n c → b = c) (a : Nat) (n : Str) (b : Nat) :
    s.lookup a n = some b ↔ s.Entry a n b := by
  unfold lookup
  constructor
  · intro hlook
    split_ifs at hlook with hnone
    cases hfind : (s.kids a).find? fun c => s.name c = n with
    | some c =>
      rw [hfind] at hlook
      obtain rfl := some.inj hlook
      exact .inl ⟨mem_of_find?_eq_some hfind, by simpa using find?_some hfind⟩
    | none =>
      rw [hfind] at hlook
      exact .inr hlook
  · intro hentry
    rw [if_neg (hnode hentry)]
    cases hfind : (s.kids a).find? fun c => s.name c = n with
    | some c =>
      -- the child found has the name, so it is the one
      have hc : s.Entry a n c :=
        .inl ⟨mem_of_find?_eq_some hfind, by simpa using find?_some hfind⟩
      rw [hfun a n b c hentry hc]
    | none =>
      rcases hentry with ⟨hkid, hname⟩ | halias
      · have hno := find?_eq_none.mp hfind b hkid
        simp [hname] at hno
      · exact halias

namespace WF

theorem entry_of_kid (hb : b ∈ s.kids a) : s.Entry a (s.name b) b := .inl ⟨hb, rfl⟩

theorem entry_of_alias (hb : s.aliasAt (a, n) = some b) : s.Entry a n b := .inr hb

variable (h : s.WF)
include h

theorem node_of_kid (hb : b ∈ s.kids a) : s.Node b :=
  h.tree.entry_node (entry_of_kid hb)

/-- A lookup finds exactly the names recorded. -/
theorem lookup_iff (a : Nat) (n : Str) (b : Nat) : s.lookup a n = some b ↔ s.Entry a n b :=
  lookup_iff_of_functional (fun hentry => h.tree.dir_node (h.tree.entry_dir hentry))
    h.tree.functional a n b

theorem follow_iff : follow s.lookup a ns = some b ↔ Walk s.Entry a ns b :=
  follow_eq_some_iff h.lookup_iff

theorem find_iff : s.find ns = some b ↔ Walk s.Entry s.root ns b := h.follow_iff

theorem lookup_eq_none_iff : s.lookup a n = none ↔ ∀ b, ¬ s.Entry a n b := by
  rw [eq_none_iff_forall_ne_some]
  exact forall_congr' fun b => not_congr (h.lookup_iff a n b)

/-- An entry leads on from the path of its directory. -/
theorem find_concat : s.find (ns ++ [n]) = some b ↔ ∃ a, s.find ns = some a ∧ s.Entry a n b := by
  rw [h.find_iff, Walk.concat_iff]
  exact exists_congr fun a => and_congr_left fun _ => h.find_iff.symm

theorem find_unique (hdir : s.Dir a) (hns : s.find ns = some a) (hms : s.find ms = some a) :
    ns = ms :=
  h.tree.path_unique hdir (h.find_iff.mp hns) (h.find_iff.mp hms)

theorem file_leaf (hfile : ¬ s.Dir a) (n : Str) (b : Nat) : ¬ s.Entry a n b :=
  fun hentry => hfile (h.tree.entry_dir hentry)

end WF

/-! ## Changes -/

/-- A new inode under a directory. -/
def create (s : Shape) (p : Nat) (n : Str) (t : FileType) : Shape :=
  { s with
    kind := Function.update s.kind s.next (some t)
    name := Function.update s.name s.next n
    kids := Function.update s.kids p (s.kids p ++ [s.next])
    next := s.next + 1 }

/-- A further name. -/
def link (s : Shape) (p : Nat) (n : Str) (b : Nat) : Shape :=
  { s with aliasAt := Function.update s.aliasAt (p, n) (some b) }

/-- An alias less. -/
def unalias (s : Shape) (p : Nat) (n : Str) : Shape :=
  { s with aliasAt := Function.update s.aliasAt (p, n) none }

/-- A child less. -/
def detach (s : Shape) (p b : Nat) : Shape :=
  { s with kids := Function.update s.kids p ((s.kids p).filter (· ≠ b)) }

/-- A child more. -/
def attach (s : Shape) (p b : Nat) : Shape :=
  { s with kids := Function.update s.kids p (s.kids p ++ [b]) }

def setName (s : Shape) (b : Nat) (n : Str) : Shape :=
  { s with name := Function.update s.name b n }

/-- An inode less. -/
def drop (s : Shape) (b : Nat) : Shape :=
  { s with
    kind := Function.update s.kind b none
    name := Function.update s.name b []
    kids := Function.update s.kids b [] }

/-- A child leaves its directory and takes another name. -/
def untie (s : Shape) (p x : Nat) (m : Str) : Shape := (s.detach p x).setName x m

/-- A child moves to another directory under another name. -/
def moveKid (s : Shape) (p x q : Nat) (m : Str) : Shape := (s.untie p x m).attach q x

/-- An alias moves. -/
def moveAlias (s : Shape) (p : Nat) (n : Str) (q : Nat) (m : Str) (x : Nat) : Shape :=
  (s.unalias p n).link q m x

/-- Children after one is added. -/
theorem mem_update_append {kids : Nat → List Nat} {p x a b : Nat} :
    b ∈ update kids p (kids p ++ [x]) a ↔ b ∈ kids a ∨ a = p ∧ b = x := by
  by_cases ha : a = p
  · subst ha
    simp
  · simp [ha]

/-- Children after one is filtered out. -/
theorem mem_update_filter {kids : Nat → List Nat} {p x a b : Nat} :
    b ∈ update kids p ((kids p).filter (· ≠ x)) a ↔ b ∈ kids a ∧ ¬ (a = p ∧ b = x) := by
  by_cases ha : a = p
  · subst ha
    simp
  · simp [ha]

/-- Aliases after one is set. -/
theorem update_eq_some_iff {b x : Nat} :
    update f k' (some x) k = some b ↔ f k = some b ∧ k ≠ k' ∨ k = k' ∧ b = x := by
  by_cases hk : k = k'
  · subst hk
    simp [eq_comm]
  · simp [hk]

theorem update_none_eq_some_iff {b : Nat} :
    update f k' none k = some b ↔ f k = some b ∧ k ≠ k' := by
  by_cases hk : k = k'
  · subst hk
    simp
  · simp [hk]

/-- The part of a well-formed shape that is not about the tree. -/
structure KidsWF (s : Shape) : Prop where
  kids_nodup : ∀ a, (s.kids a).Nodup
  one_parent : ∀ {a a' b}, b ∈ s.kids a → b ∈ s.kids a' → a = a'
  alias_free : ∀ {a n b c}, s.aliasAt (a, n) = some b → c ∈ s.kids a → s.name c ≠ n
  parts : ∀ {a n b}, s.Entry a n b → IsPart n

theorem WF.kids (h : s.WF) : s.KidsWF := ⟨h.kids_nodup, h.one_parent, h.alias_free, h.parts⟩

/-- Children and aliases less. -/
theorem KidsWF.shrink (h : s.KidsWF) (hkids : ∀ a, (s'.kids a).Sublist (s.kids a))
    (hname : ∀ {a b}, b ∈ s'.kids a → s'.name b = s.name b)
    (halias : ∀ {k b}, s'.aliasAt k = some b → s.aliasAt k = some b)
    (hentry : ∀ {a k b}, s'.Entry a k b → s.Entry a k b) : s'.KidsWF where
  kids_nodup a := (h.kids_nodup a).sublist (hkids a)
  one_parent hb hb' := h.one_parent ((hkids _).subset hb) ((hkids _).subset hb')
  alias_free hk hc := by
    rw [hname hc]
    exact h.alias_free (halias hk) ((hkids _).subset hc)
  parts hb := h.parts (hentry hb)

/-- `s'` is `s` with the child `x` under `p`, named `n`, which was no child before. -/
structure Attached (s s' : Shape) (p : Nat) (n : Str) (x : Nat) : Prop where
  new : ∀ a, x ∉ s.kids a
  kids : s'.kids = Function.update s.kids p (s.kids p ++ [x])
  name : s'.name = Function.update s.name x n
  aliasAt : s'.aliasAt = s.aliasAt

namespace Attached

variable (ha : Attached s s' p n x)
include ha

theorem mem_kids : b ∈ s'.kids a ↔ b ∈ s.kids a ∨ a = p ∧ b = x := by
  rw [ha.kids]
  exact mem_update_append

theorem name_kid (hb : b ∈ s.kids a) : s'.name b = s.name b := by
  rw [ha.name, update_of_ne]
  rintro rfl
  exact ha.new a hb

theorem name_new : s'.name x = n := by rw [ha.name, update_self]

/-- The only new entry is that of the attached node. -/
theorem entry (a : Nat) (k : Str) (b : Nat) :
    s'.Entry a k b ↔ s.Entry a k b ∨ a = p ∧ k = n ∧ b = x := by
  unfold Entry
  rw [ha.mem_kids, ha.aliasAt]
  constructor
  · rintro (⟨hkid | ⟨rfl, rfl⟩, hk⟩ | halias)
    · exact .inl (.inl ⟨hkid, (ha.name_kid hkid).symm.trans hk⟩)
    · exact .inr ⟨rfl, hk.symm.trans ha.name_new, rfl⟩
    · exact .inl (.inr halias)
  · rintro ((⟨hkid, hk⟩ | halias) | ⟨rfl, rfl, rfl⟩)
    · exact .inl ⟨.inl hkid, (ha.name_kid hkid).trans hk⟩
    · exact .inr halias
    · exact .inl ⟨.inr ⟨rfl, rfl⟩, ha.name_new⟩

/-- Attaching under a free name keeps the children well formed. -/
theorem kidsWF (h : s.KidsWF) (hn : IsPart n) (hfree : ∀ b, s.aliasAt (p, n) ≠ some b) :
    s'.KidsWF where
  kids_nodup a := by
    rw [ha.kids]
    by_cases hp : a = p
    · rw [hp, update_self, nodup_append]
      refine ⟨h.kids_nodup p, nodup_singleton x, fun b hb c hc => ?_⟩
      rw [mem_singleton.mp hc]
      rintro rfl
      exact ha.new p hb
    · rw [update_of_ne hp]
      exact h.kids_nodup a
  one_parent {a a' b} hb hb' := by
    rcases ha.mem_kids.mp hb with hold | ⟨rfl, rfl⟩ <;>
      rcases ha.mem_kids.mp hb' with hold' | ⟨rfl, heq⟩
    · exact h.one_parent hold hold'
    · exact absurd (heq ▸ hold) (ha.new _)
    · exact absurd hold' (ha.new _)
    · rfl
  alias_free {a k b c} halias hc := by
    rw [ha.aliasAt] at halias
    rcases ha.mem_kids.mp hc with hold | ⟨rfl, rfl⟩
    · rw [ha.name_kid hold]
      exact h.alias_free halias hold
    · rw [ha.name_new]
      rintro rfl
      exact hfree b halias
  parts {a k b} hb := by
    rcases (ha.entry a k b).mp hb with hold | ⟨-, rfl, -⟩
    · exact h.parts hold
    · exact hn

end Attached

namespace WF

/-- The only new node is the next number. -/
theorem node_create (t : FileType) (a : Nat) : (s.create p n t).Node a ↔ s.Node a ∨ a = s.next := by
  show update s.kind s.next (some t) a ≠ none ↔ _
  by_cases ha : a = s.next
  · subst ha
    simp
  · simp [ha, Node]

/-- Linking under a free name adds that entry only. -/
theorem entry_link (hfree : ∀ i, ¬ s.Entry p n i) (a : Nat) (k : Str) (b : Nat) :
    (s.link p n x).Entry a k b ↔ s.Entry a k b ∨ a = p ∧ k = n ∧ b = x := by
  show b ∈ s.kids a ∧ s.name b = k ∨ update s.aliasAt (p, n) (some x) (a, k) = some b ↔ _
  rw [update_eq_some_iff]
  constructor
  · rintro (hkid | ⟨halias, -⟩ | ⟨hkey, rfl⟩)
    · exact .inl (.inl hkid)
    · exact .inl (.inr halias)
    · cases hkey
      exact .inr ⟨rfl, rfl, rfl⟩
  · rintro ((hkid | halias) | ⟨rfl, rfl, rfl⟩)
    · exact .inl hkid
    · refine .inr (.inl ⟨halias, ?_⟩)
      intro hkey
      cases hkey
      exact hfree b (.inr halias)
    · exact .inr (.inr ⟨rfl, rfl⟩)

/-- A further alias under a free name. -/
theorem kids_link (h : s.KidsWF) (hn : IsPart n) (hfree : ∀ b, ¬ s.Entry p n b) :
    (s.link p n x).KidsWF where
  kids_nodup := h.kids_nodup
  one_parent := h.one_parent
  alias_free {a k b c} halias hc := by
    rcases update_eq_some_iff.mp halias with ⟨hold, -⟩ | ⟨hkey, -⟩
    · exact h.alias_free hold hc
    · cases hkey
      intro hname
      exact hfree c (.inl ⟨hc, hname⟩)
  parts {a k b} hb := by
    rcases (entry_link hfree a k b).mp hb with hold | ⟨-, rfl, -⟩
    · exact h.parts hold
    · exact hn

/-- An inode without names and without entries is in no entry. -/
theorem entry_drop (hno : ∀ b k, ¬ s.Entry b k x) (hleaf : s.kids x = []) (a : Nat) (k : Str)
    (b : Nat) : (s.drop x).Entry a k b ↔ s.Entry a k b := by
  have hkids : (s.drop x).kids = s.kids := by
    show update s.kids x [] = s.kids
    rw [← hleaf, update_eq_self]
  have hname : ∀ {b}, b ∈ s.kids a → (s.drop x).name b = s.name b := by
    intro b hb
    refine update_of_ne ?_ _ _
    rintro rfl
    exact hno a _ (entry_of_kid hb)
  show b ∈ (s.drop x).kids a ∧ (s.drop x).name b = k ∨ s.aliasAt (a, k) = some b ↔ _
  rw [hkids]
  refine or_congr (and_congr_right fun hb => ?_) Iff.rfl
  rw [hname hb]

variable (h : s.WF)
include h

theorem not_node_next : ¬ s.Node s.next := fun hnode => Nat.lt_irrefl _ (h.fresh hnode)

theorem ne_next_of_kid (hb : b ∈ s.kids a) : b ≠ s.next := by
  rintro rfl
  exact h.not_node_next (h.node_of_kid hb)

theorem attached_create (t : FileType) : Attached s (s.create p n t) p n s.next :=
  ⟨fun _ hb => h.ne_next_of_kid hb rfl, rfl, rfl, rfl⟩

theorem entry_create (t : FileType) (a : Nat) (k : Str) (b : Nat) :
    (s.create p n t).Entry a k b ↔ s.Entry a k b ∨ a = p ∧ k = n ∧ b = s.next :=
  (h.attached_create t).entry a k b

/-- The only new directory is the created one. -/
theorem dir_create (t : FileType) (a : Nat) :
    (s.create p n t).Dir a ↔ s.Dir a ∨ a = s.next ∧ t = .directory := by
  show update s.kind s.next (some t) a = some .directory ↔ _
  by_cases ha : a = s.next
  · subst ha
    have hnot : ¬ s.Dir s.next := fun hdir => h.not_node_next (h.tree.dir_node hdir)
    simp [hnot]
  · simp [ha, Dir]

/-- Making an inode under a free name of a directory. -/
theorem create (hp : s.Dir p) (hn : IsPart n) (hfree : ∀ b, ¬ s.Entry p n b) (t : FileType) :
    (s.create p n t).WF := by
  have hkids := (h.attached_create t).kidsWF h.kids hn fun b halias => hfree b (.inr halias)
  exact {
    hkids with
    tree := h.tree.add hp (fun hdir => h.not_node_next (h.tree.dir_node hdir))
      (fun _ => h.not_node_next) hfree (node_create t) (h.dir_create t) (h.entry_create t)
    alias_file := by
      intro k b halias hdir
      rcases (h.dir_create t b).mp hdir with hold | ⟨rfl, -⟩
      · exact h.alias_file halias hold
      · exact h.not_node_next (h.tree.entry_node (entry_of_alias halias))
    fresh := by
      intro a ha
      rcases (node_create t a).mp ha with hold | rfl
      · exact Nat.lt_succ_of_lt (h.fresh hold)
      · exact Nat.lt_succ_self _ }

/-- A further name for a file. -/
theorem link (hp : s.Dir p) (hx : s.Node x) (hfile : ¬ s.Dir x) (hn : IsPart n)
    (hfree : ∀ b, ¬ s.Entry p n b) : (s.link p n x).WF := {
  kids_link h.kids hn hfree with
  tree := h.tree.add hp hfile False.elim hfree
    (fun _ => (or_iff_left_of_imp fun heq => heq ▸ hx).symm)
    (fun _ => (or_iff_left fun hboth => hboth.2).symm) (entry_link hfree)
  alias_file := by
    intro k b halias
    rcases update_eq_some_iff.mp halias with ⟨hold, -⟩ | ⟨-, rfl⟩
    · exact h.alias_file hold
    · exact hfile
  fresh := h.fresh }

/-! ### Removing a name -/

/-- `s'` is `s` without the name `n` in `p` for the inode `x`, which is gone if that was its last
name. -/
structure Removed (s s' : Shape) (p : Nat) (n : Str) (x : Nat) : Prop where
  root : s'.root = s.root
  next : s'.next = s.next
  kids : ∀ a, (s'.kids a).Sublist (s.kids a)
  name : ∀ {a b}, b ∈ s'.kids a → s'.name b = s.name b
  aliasAt : ∀ {k b}, s'.aliasAt k = some b → s.aliasAt k = some b
  entry : ∀ a k b, s'.Entry a k b ↔ s.Entry a k b ∧ ¬ (a = p ∧ k = n)
  kind : ∀ {a}, s'.Node a → s'.kind a = s.kind a
  node : ∀ a, s'.Node a ↔ s.Node a ∧ (a = x → ∃ b k, s'.Entry b k x)

/-- Removing a name of an inode without entries of its own. -/
theorem remove (hx : s.Entry p n x) (hleaf : ∀ k b, ¬ s.Entry x k b) (hr : Removed s s' p n x) :
    s'.WF := by
  have hdir : ∀ a, s'.Dir a ↔ s.Dir a ∧ s'.Node a := by
    intro a
    unfold Dir
    constructor
    · intro ha
      have hnode : s'.Node a := by
        unfold Node
        rw [ha]
        exact some_ne_none _
      exact ⟨by rw [← hr.kind hnode, ha], hnode⟩
    · rintro ⟨ha, hnode⟩
      rw [hr.kind hnode, ha]
  exact {
    h.kids.shrink hr.kids hr.name hr.aliasAt fun hb => ((hr.entry _ _ _).mp hb).1 with
    tree := hr.root ▸ h.tree.remove hx hleaf hr.entry hr.node hdir
    alias_file := fun halias hb => h.alias_file (hr.aliasAt halias) ((hdir _).mp hb).1
    fresh := fun ha => hr.next ▸ h.fresh ((hr.node _).mp ha).1 }

/-- Clearing an alias takes its entry only. -/
theorem entry_unalias (hx : s.aliasAt (p, n) = some x) (a : Nat) (k : Str) (b : Nat) :
    (s.unalias p n).Entry a k b ↔ s.Entry a k b ∧ ¬ (a = p ∧ k = n) := by
  show b ∈ s.kids a ∧ s.name b = k ∨ update s.aliasAt (p, n) none (a, k) = some b ↔ _
  rw [update_none_eq_some_iff]
  constructor
  · rintro (⟨hkid, hk⟩ | ⟨halias, hkey⟩)
    · refine ⟨.inl ⟨hkid, hk⟩, ?_⟩
      rintro ⟨rfl, rfl⟩
      exact h.alias_free hx hkid hk
    · exact ⟨.inr halias, fun heq => hkey (by rw [heq.1, heq.2])⟩
  · rintro ⟨hkid | halias, hne⟩
    · exact .inl hkid
    · exact .inr ⟨halias, fun hkey => hne ⟨congrArg Prod.fst hkey, congrArg Prod.snd hkey⟩⟩

/-- Detaching a child takes its entry only. -/
theorem entry_detach (hx : x ∈ s.kids p) (a : Nat) (k : Str) (b : Nat) :
    (s.detach p x).Entry a k b ↔ s.Entry a k b ∧ ¬ (a = p ∧ k = s.name x) := by
  show b ∈ update s.kids p ((s.kids p).filter (· ≠ x)) a ∧ s.name b = k ∨
    s.aliasAt (a, k) = some b ↔ _
  rw [mem_update_filter]
  constructor
  · rintro (⟨⟨hkid, hne⟩, hk⟩ | halias)
    · refine ⟨.inl ⟨hkid, hk⟩, ?_⟩
      rintro ⟨rfl, rfl⟩
      exact hne ⟨rfl, h.tree.functional _ _ _ _ (.inl ⟨hkid, hk⟩) (entry_of_kid hx)⟩
    · refine ⟨.inr halias, ?_⟩
      rintro ⟨rfl, rfl⟩
      exact h.alias_free halias hx rfl
  · rintro ⟨⟨hkid, hk⟩ | halias, hne⟩
    · refine .inl ⟨⟨hkid, ?_⟩, hk⟩
      rintro ⟨rfl, rfl⟩
      exact hne ⟨rfl, hk.symm⟩
    · exact .inr halias

/-- `s'` is `s` without the name `n` in `p`, with every inode still there. -/
structure Cut (s s' : Shape) (p : Nat) (n : Str) : Prop where
  root : s'.root = s.root
  next : s'.next = s.next
  kids : ∀ a, (s'.kids a).Sublist (s.kids a)
  name : s'.name = s.name
  aliasAt : ∀ {k b}, s'.aliasAt k = some b → s.aliasAt k = some b
  entry : ∀ a k b, s'.Entry a k b ↔ s.Entry a k b ∧ ¬ (a = p ∧ k = n)
  kind : s'.kind = s.kind

/-- Clearing an alias cuts one entry. -/
theorem cut_unalias (hx : s.aliasAt (p, n) = some x) : Cut s (s.unalias p n) p n where
  root := rfl
  next := rfl
  kids _ := List.Sublist.refl _
  name := rfl
  aliasAt halias := (update_none_eq_some_iff.mp halias).1
  entry := h.entry_unalias hx
  kind := rfl

/-- Detaching a child cuts one entry. -/
theorem cut_detach (hx : x ∈ s.kids p) : Cut s (s.detach p x) p (s.name x) where
  root := rfl
  next := rfl
  kids a := by
    show (update s.kids p ((s.kids p).filter (· ≠ x)) a).Sublist _
    by_cases ha : a = p
    · subst ha
      rw [update_self]
      exact filter_sublist
    · rw [update_of_ne ha]
  name := rfl
  aliasAt halias := halias
  entry := h.entry_detach hx
  kind := rfl

omit h in
theorem Cut.kidsWF (hc : Cut s s' p n) (h : s.KidsWF) : s'.KidsWF :=
  h.shrink hc.kids (fun _ => by rw [hc.name]) hc.aliasAt fun hb => ((hc.entry _ _ _).mp hb).1

/-- A name goes and the inode stays, under another name. -/
theorem cut (hx : s.Entry p n x) (hleaf : ∀ k b, ¬ s.Entry x k b) (hc : Cut s s' p n)
    (hnamed : ∃ b k, s'.Entry b k x) : s'.WF := by
  refine h.remove hx hleaf ?_
  exact {
    root := hc.root
    next := hc.next
    kids := hc.kids
    name := fun _ => by rw [hc.name]
    aliasAt := hc.aliasAt
    entry := hc.entry
    kind := fun _ => by rw [hc.kind]
    node := by
      intro a
      unfold Node
      rw [hc.kind]
      exact ⟨fun ha => ⟨ha, fun _ => hnamed⟩, fun ha => ha.1⟩ }

/-- The last name goes, and the inode with it. -/
theorem cut_drop (hx : s.Entry p n x) (hleaf : ∀ k b, ¬ s.Entry x k b) (hc : Cut s s' p n)
    (hno : ∀ b k, ¬ s'.Entry b k x) : (s'.drop x).WF := by
  have hnil : s'.kids x = [] := by
    refine eq_nil_iff_forall_not_mem.mpr fun b hb => ?_
    exact hleaf _ b (entry_of_kid ((hc.kids x).subset hb))
  have hentry := entry_drop hno hnil
  have hkind : ∀ a, (s'.drop x).Node a ↔ s.Node a ∧ a ≠ x := by
    intro a
    show update s'.kind x none a ≠ none ↔ _
    by_cases ha : a = x
    · subst ha
      simp
    · rw [hc.kind]
      simp [ha, Node]
  refine h.remove hx hleaf ?_
  exact {
    root := hc.root
    next := hc.next
    kids := by
      intro a
      show (update s'.kids x [] a).Sublist _
      rw [← hnil, update_eq_self]
      exact hc.kids a
    name := by
      intro a b hb
      have hentryb := (hentry a _ b).mp (entry_of_kid hb)
      show update s'.name x [] b = _
      rw [update_of_ne, hc.name]
      rintro rfl
      exact hno a _ hentryb
    aliasAt := hc.aliasAt
    entry := fun a k b => (hentry a k b).trans (hc.entry a k b)
    kind := by
      intro a ha
      show update s'.kind x none a = _
      rw [update_of_ne ((hkind a).mp ha).2, hc.kind]
    node := by
      intro a
      rw [hkind]
      refine and_congr_right fun _ => ⟨fun hne heq => absurd heq hne, ?_⟩
      rintro himp rfl
      obtain ⟨b, k, hb⟩ := himp rfl
      exact hno b k ((hentry b k a).mp hb) }

/-! ### Moving a name -/

/-- Without a name, the paths that are left are those that do not go through it. -/
theorem follow_cut {next : Nat → Str → Option Nat}
    (hnext : ∀ a k, next a k = if a = p ∧ k = n then none else s.lookup a k)
    (hp : s.find ns = some p) (hx : s.Entry p n x) :
    follow next s.root ms = some b ↔ s.find ms = some b ∧ ¬ ns ++ [n] <+: ms := by
  have hlookup : ∀ a k b, next a k = some b ↔ s.Entry a k b ∧ ¬ (a = p ∧ k = n) := by
    intro a k b
    rw [hnext]
    split_ifs with hhere
    · simp [hhere]
    · rw [h.lookup_iff]
      simp [hhere]
  rw [h.find_iff, ← h.tree.walk_cut_iff (h.find_iff.mp hp) hx]
  exact follow_eq_some_iff hlookup

section

variable (hx : x ∈ s.kids p)
include hx

/-- Moving a child attaches it to what is left without it. -/
theorem attached_moveKid :
    Attached (s.detach p x) (s.moveKid p x q m) q m x where
  new a hb := by
    obtain ⟨hkid, hne⟩ := mem_update_filter.mp hb
    exact hne ⟨h.one_parent hkid hx, rfl⟩
  kids := rfl
  name := rfl
  aliasAt := rfl

/-- A child without its directory is in no entry. -/
theorem entry_untie (a : Nat) (k : Str) (b : Nat) :
    (s.untie p x m).Entry a k b ↔ s.Entry a k b ∧ ¬ (a = p ∧ k = s.name x) := by
  rw [← h.entry_detach hx]
  show b ∈ update s.kids p ((s.kids p).filter (· ≠ x)) a ∧
    update s.name x m b = k ∨ s.aliasAt (a, k) = some b ↔
    b ∈ update s.kids p ((s.kids p).filter (· ≠ x)) a ∧ s.name b = k ∨
    s.aliasAt (a, k) = some b
  rw [mem_update_filter]
  refine or_congr (and_congr_right fun hb => ?_) Iff.rfl
  have hne : b ≠ x := by
    rintro rfl
    exact hb.2 ⟨h.one_parent hb.1 hx, rfl⟩
  rw [update_of_ne hne]

/-- An untied child is not found in its parent; the other lookups are as before. -/
theorem lookup_untie (a : Nat) (k : Str) :
    (s.untie p x m).lookup a k = if a = p ∧ k = s.name x then none else s.lookup a k := by
  refine ext fun b => ?_
  have hlookup : (s.untie p x m).lookup a k = some b ↔
      s.Entry a k b ∧ ¬ (a = p ∧ k = s.name x) := by
    rw [← h.entry_untie hx (m := m)]
    refine lookup_iff_of_functional ?_ ?_ a k b
    · intro a k b hb
      exact h.tree.dir_node (h.tree.entry_dir ((h.entry_untie hx a k b).mp hb).1)
    · intro a k b c hb hc
      exact h.tree.functional a k b c ((h.entry_untie hx a k b).mp hb).1
        ((h.entry_untie hx a k c).mp hc).1
  rw [hlookup]
  split_ifs with hhere
  · simp [hhere]
  · rw [h.lookup_iff]
    simp [hhere]

theorem find_untie (hp : s.find ns = some p) :
    (s.untie p x m).find ms = some b ↔ s.find ms = some b ∧ ¬ ns ++ [s.name x] <+: ms :=
  h.follow_cut (h.lookup_untie hx) hp (entry_of_kid hx)

/-- Moving a child replaces its entry by the new one. -/
theorem entry_moveKid (a : Nat) (k : Str) (b : Nat) :
    (s.moveKid p x q m).Entry a k b ↔
      s.Entry a k b ∧ ¬ (a = p ∧ k = s.name x) ∨ a = q ∧ k = m ∧ b = x := by
  rw [← h.entry_detach hx]
  exact (h.attached_moveKid hx).entry a k b

/-- Moving a child to a free name of a directory that is not below it. -/
theorem moveKid (hq : s.Dir q) (hm : IsPart m) (hbelow : ∀ ns, ¬ Walk s.Entry x ns q)
    (hfree : ∀ i, s.Entry q m i → q = p ∧ m = s.name x) : (s.moveKid p x q m).WF := by
  have hkids := (h.attached_moveKid hx).kidsWF ((h.cut_detach hx).kidsWF h.kids) hm
    fun b halias => by
      -- an alias under the new name would be an alias under the old one
      obtain ⟨rfl, rfl⟩ := hfree b (.inr halias)
      exact h.alias_free halias hx rfl
  exact {
    hkids with
    tree := h.tree.move (entry_of_kid hx) hq hbelow hfree (h.entry_moveKid hx)
    alias_file := h.alias_file
    fresh := h.fresh }

end

section

variable (hx : s.aliasAt (p, n) = some x)
include hx

theorem free_unalias (hfree : ∀ i, ¬ s.Entry q m i) (i : Nat) : ¬ (s.unalias p n).Entry q m i :=
  fun hi => hfree i ((h.entry_unalias hx q m i).mp hi).1

/-- Moving an alias replaces its entry by the new one. -/
theorem entry_moveAlias (hfree : ∀ i, ¬ s.Entry q m i) (a : Nat) (k : Str) (b : Nat) :
    (s.moveAlias p n q m x).Entry a k b ↔
      s.Entry a k b ∧ ¬ (a = p ∧ k = n) ∨ a = q ∧ k = m ∧ b = x := by
  rw [← h.entry_unalias hx]
  exact entry_link (h.free_unalias hx hfree) a k b

/-- Moving an alias to a free name of a directory. -/
theorem moveAlias (hq : s.Dir q) (hm : IsPart m) (hfree : ∀ i, ¬ s.Entry q m i) :
    (s.moveAlias p n q m x).WF := by
  have hkids := kids_link (x := x) ((h.cut_unalias hx).kidsWF h.kids) hm (h.free_unalias hx hfree)
  -- nothing is below a file
  have hbelow : ∀ ns, ¬ Walk s.Entry x ns q := by
    intro ns hwalk
    exact h.alias_file hx (h.tree.dir_of_walk hq hwalk)
  exact {
    hkids with
    tree := h.tree.move (.inr hx) hq hbelow (fun i hi => absurd hi (hfree i))
      (h.entry_moveAlias hx hfree)
    alias_file := by
      intro k b halias
      rcases update_eq_some_iff.mp halias with ⟨hold, -⟩ | ⟨-, rfl⟩
      · exact h.alias_file (update_none_eq_some_iff.mp hold).1
      · exact h.alias_file hx
    fresh := h.fresh }

end

end WF

end Shape

end KnoxOS.Vfs
