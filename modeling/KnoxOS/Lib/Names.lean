import KnoxOS.Lib.Tree
import Mathlib.Data.List.Infix

/-!
# Trees of names

Directories hold named entries, and several entries may lead to one file. `Walk entry a names b`
follows `names` from `a` to `b`, and `follow` does so by a lookup function. A `NamedTree` has one
entry for each directory below the root, so that a directory has one path
(`NamedTree.path_unique`) while a file has one for each of its entries. The rules say what making,
linking, removing and moving an entry keep, and `walk_cut_iff` which paths are lost with an entry.
-/

namespace KnoxOS.Lib

open Relation List

variable {α ν : Type*} {entry entry' : α → ν → α → Prop} {a b c : α} {n : ν} {ns ms : List ν}

/-! ## Walks -/

/-- Following the names from `a` leads to the last node. -/
inductive Walk (entry : α → ν → α → Prop) : α → List ν → α → Prop where
  | nil (a : α) : Walk entry a [] a
  | cons {a b c : α} {n : ν} {ns : List ν} :
      entry a n b → Walk entry b ns c → Walk entry a (n :: ns) c

namespace Walk

theorem nil_iff : Walk entry a [] b ↔ a = b := by
  constructor
  · intro h
    cases h
    rfl
  · rintro rfl
    exact .nil a

theorem cons_iff : Walk entry a (n :: ns) c ↔ ∃ b, entry a n b ∧ Walk entry b ns c := by
  constructor
  · intro h
    cases h with
    | cons hedge hrest => exact ⟨_, hedge, hrest⟩
  · rintro ⟨b, hedge, hrest⟩
    exact .cons hedge hrest

theorem append_iff : Walk entry a (ns ++ ms) c ↔ ∃ b, Walk entry a ns b ∧ Walk entry b ms c := by
  induction ns generalizing a with
  | nil => simp [nil_iff]
  | cons n ns ih =>
    simp only [cons_append, cons_iff, ih]
    constructor
    · rintro ⟨b, hedge, b', h1, h2⟩
      exact ⟨b', ⟨b, hedge, h1⟩, h2⟩
    · rintro ⟨b', ⟨b, hedge, h1⟩, h2⟩
      exact ⟨b, hedge, b', h1, h2⟩

theorem concat_iff : Walk entry a (ns ++ [n]) c ↔ ∃ b, Walk entry a ns b ∧ entry b n c := by
  simp only [append_iff, cons_iff, nil_iff, exists_eq_right]

theorem mono (h : Walk entry a ns b) (hsub : ∀ a n b, entry a n b → entry' a n b) :
    Walk entry' a ns b := by
  induction h with
  | nil a => exact .nil a
  | cons hedge _ ih => exact .cons (hsub _ _ _ hedge) ih

/-- With one entry for each name, a walk has one end. -/
theorem unique (hfun : ∀ a n b c, entry a n b → entry a n c → b = c) (hb : Walk entry a ns b)
    (hc : Walk entry a ns c) : b = c := by
  induction hb with
  | nil a => exact nil_iff.mp hc
  | cons hedge _ ih =>
    obtain ⟨b', hedge', hrest⟩ := cons_iff.mp hc
    rw [hfun _ _ _ _ hedge' hedge] at hrest
    exact ih hrest

/-- A walk avoids the entries of `p` under `m`, or it comes to `p` without them and goes on with
`m`. -/
theorem avoid_or_through (p : α) (m : ν) (h : Walk entry a ns c) :
    Walk (fun a n b => entry a n b ∧ ¬ (a = p ∧ n = m)) a ns c ∨
      ∃ pre post x, ns = pre ++ m :: post ∧
        Walk (fun a n b => entry a n b ∧ ¬ (a = p ∧ n = m)) a pre p ∧ entry p m x ∧
        Walk entry x post c := by
  induction h with
  | nil a => exact .inl (.nil a)
  | @cons a b c n ns hedge hrest ih =>
    by_cases hhere : a = p ∧ n = m
    · obtain ⟨rfl, rfl⟩ := hhere
      exact .inr ⟨[], ns, b, rfl, .nil a, hedge, hrest⟩
    · rcases ih with havoid | ⟨pre, post, x, rfl, hpre, hx, hpost⟩
      · exact .inl (.cons ⟨hedge, hhere⟩ havoid)
      · exact .inr ⟨n :: pre, post, x, rfl, .cons ⟨hedge, hhere⟩ hpre, hx, hpost⟩

end Walk

/-- Following the names by a lookup function. -/
def follow (next : α → ν → Option α) (a : α) (ns : List ν) : Option α := ns.foldlM next a

open Walk

section Follow

variable {next : α → ν → Option α}

theorem follow_nil : follow next a [] = some a := rfl

theorem follow_cons : follow next a (n :: ns) = (next a n).bind fun b => follow next b ns := by
  rfl

theorem follow_append :
    follow next a (ns ++ ms) = (follow next a ns).bind fun b => follow next b ms := by
  unfold follow
  rw [foldlM_append]
  rfl

/-- A lookup function that finds the entries follows the walks. -/
theorem follow_eq_some_iff (hnext : ∀ a n b, next a n = some b ↔ entry a n b) :
    follow next a ns = some b ↔ Walk entry a ns b := by
  induction ns generalizing a with
  | nil => rw [follow_nil, Option.some_inj, nil_iff]
  | cons n ns ih =>
    rw [follow_cons, cons_iff, Option.bind_eq_some_iff]
    constructor
    · rintro ⟨c, hc, hrest⟩
      exact ⟨c, (hnext a n c).mp hc, ih.mp hrest⟩
    · rintro ⟨c, hc, hrest⟩
      exact ⟨c, (hnext a n c).mpr hc, ih.mpr hrest⟩

/-- A lookup that changes at one name changes no walk that does not meet it. -/
theorem follow_rebind {next' : α → ν → Option α} {q : α} {m : ν}
    (hsame : ∀ a n, ¬ (a = q ∧ n = m) → next' a n = next a n)
    (havoid : ∀ pre post, ns = pre ++ m :: post → follow next a pre ≠ some q) :
    follow next' a ns = follow next a ns := by
  induction ns generalizing a with
  | nil => rfl
  | cons n ns ih =>
    have hhere : ¬ (a = q ∧ n = m) := by
      rintro ⟨rfl, rfl⟩
      exact havoid [] ns rfl rfl
    rw [follow_cons, follow_cons, hsame a n hhere]
    cases hb : next a n with
    | none => rfl
    | some b =>
      refine ih fun pre post heq hpre => havoid (n :: pre) post (by rw [heq]; rfl) ?_
      rw [follow_cons, hb]
      exact hpre

end Follow

/-! ## Trees -/

/-- The nodes, directories and entries of a tree below `root`. -/
structure NamedTree (node dir : α → Prop) (entry : α → ν → α → Prop) (root : α) : Prop where
  root_dir : dir root
  dir_node : ∀ {a}, dir a → node a
  entry_dir : ∀ {a n b}, entry a n b → dir a
  entry_node : ∀ {a n b}, entry a n b → node b
  functional : ∀ a n b c, entry a n b → entry a n c → b = c
  root_top : ∀ {a n}, ¬ entry a n root
  one_entry : ∀ {a b d n m}, dir d → entry a n d → entry b m d → a = b ∧ n = m
  reachable : ∀ {a}, node a → ∃ ns, Walk entry root ns a

namespace NamedTree

variable {node node' dir dir' : α → Prop} {root p q x d : α} {m : ν}

section

variable (t : NamedTree node dir entry root)
include t

/-- The start of a walk to a directory is a directory. -/
theorem dir_of_walk (hd : dir d) (h : Walk entry a ns d) : dir a := by
  cases h with
  | nil => exact hd
  | cons hedge _ => exact t.entry_dir hedge

/-- A directory has one path. -/
theorem path_unique (hd : dir d) (hns : Walk entry root ns d) (hms : Walk entry root ms d) :
    ns = ms := by
  induction ns using reverseRecOn generalizing ms d with
  | nil =>
    obtain rfl := nil_iff.mp hns
    cases ms using reverseRecOn with
    | nil => rfl
    | append_singleton ms m =>
      obtain ⟨b, -, hb⟩ := concat_iff.mp hms
      exact absurd hb t.root_top
  | append_singleton ns n ih =>
    obtain ⟨a, ha, hedge⟩ := concat_iff.mp hns
    cases ms using reverseRecOn with
    | nil =>
      obtain rfl := nil_iff.mp hms
      exact absurd hedge t.root_top
    | append_singleton ms m =>
      obtain ⟨b, hb, hedge'⟩ := concat_iff.mp hms
      obtain ⟨rfl, rfl⟩ := t.one_entry hd hedge hedge'
      rw [ih (t.entry_dir hedge) ha hb]

/-- No walk comes back to where it started. -/
theorem walk_self (h : Walk entry a ns a) (hnode : node a) : ns = [] := by
  cases ns with
  | nil => rfl
  | cons n ns =>
    obtain ⟨b, hedge, -⟩ := cons_iff.mp h
    obtain ⟨ms, hms⟩ := t.reachable hnode
    have heq := t.path_unique (t.entry_dir hedge) hms (append_iff.mpr ⟨a, hms, h⟩)
    have hlen := congrArg length heq
    simp at hlen

/-- The directories with their child directories form a tree. -/
theorem isTree :
    IsTree dir (fun a b => dir b ∧ ∃ n, entry a n b) root where
  root_mem := t.root_dir
  edge_mem h := ⟨t.entry_dir h.2.choose_spec, h.1⟩
  root_top h := t.root_top h.2.choose_spec
  parent_unique ha hb := (t.one_entry ha.1 ha.2.choose_spec hb.2.choose_spec).1
  reachable {a} ha := by
    have hdown : ∀ {b ns c}, Walk entry b ns c → dir c →
        ReflTransGen (fun a b => dir b ∧ ∃ n, entry a n b) b c := by
      intro b ns c h hc
      induction h with
      | nil a => exact .refl
      | @cons a b c n ns hedge hrest ih =>
        exact .head ⟨t.dir_of_walk hc hrest, n, hedge⟩ (ih hc)
    obtain ⟨ns, hns⟩ := t.reachable (t.dir_node ha)
    exact hdown hns ha

/-- A walk from the root through an entry has the path of its directory in front. -/
theorem through_path {ps : List ν} (hps : Walk entry root ps p) (hx : entry p m x)
    (h : Walk entry root ns c) :
    Walk (fun a n b => entry a n b ∧ ¬ (a = p ∧ n = m)) root ns c ∨
      ∃ post, ns = ps ++ m :: post ∧ Walk entry x post c := by
  rcases h.avoid_or_through p m with havoid | ⟨pre, post, y, rfl, hpre, hy, hpost⟩
  · exact .inl havoid
  · have hpre' := hpre.mono fun _ _ _ hedge => hedge.1
    obtain rfl := t.path_unique (t.entry_dir hx) hpre' hps
    obtain rfl := t.functional _ _ _ _ hy hx
    exact .inr ⟨post, rfl, hpost⟩

/-- Without an entry, the walks whose names do not start with its path remain. -/
theorem walk_cut_iff {ps : List ν} (hps : Walk entry root ps p) (hx : entry p m x) :
    Walk (fun a n b => entry a n b ∧ ¬ (a = p ∧ n = m)) root ns c ↔
      Walk entry root ns c ∧ ¬ ps ++ [m] <+: ns := by
  constructor
  · intro h
    refine ⟨h.mono fun _ _ _ hedge => hedge.1, ?_⟩
    rintro ⟨post, rfl⟩
    obtain ⟨b, hb, -⟩ := append_iff.mp h
    obtain ⟨a, ha, hedge⟩ := concat_iff.mp hb
    have hap := (ha.mono fun _ _ _ hedge => hedge.1).unique t.functional hps
    exact hedge.2 ⟨hap, rfl⟩
  · rintro ⟨h, hnot⟩
    rcases t.through_path hps hx h with havoid | ⟨post, rfl, -⟩
    · exact havoid
    · exact absurd ⟨post, by simp⟩ hnot

/-! ## Changing a tree -/

/-- A free name for a node that is no directory yet; a node that becomes one is new. -/
theorem add {isDir : Prop} (hp : dir p) (hx : ¬ dir x) (hnew : isDir → ¬ node x)
    (hfree : ∀ i, ¬ entry p m i) (hnode : ∀ a, node' a ↔ node a ∨ a = x)
    (hdir : ∀ a, dir' a ↔ dir a ∨ a = x ∧ isDir)
    (hentry : ∀ a n b, entry' a n b ↔ entry a n b ∨ a = p ∧ n = m ∧ b = x) :
    NamedTree node' dir' entry' root where
  root_dir := (hdir _).mpr (.inl t.root_dir)
  dir_node {a} ha := by
    rcases (hdir a).mp ha with hold | ⟨rfl, -⟩
    · exact (hnode a).mpr (.inl (t.dir_node hold))
    · exact (hnode _).mpr (.inr rfl)
  entry_dir {a n b} h := by
    rcases (hentry a n b).mp h with hold | ⟨rfl, -, -⟩
    · exact (hdir a).mpr (.inl (t.entry_dir hold))
    · exact (hdir _).mpr (.inl hp)
  entry_node {a n b} h := by
    rcases (hentry a n b).mp h with hold | ⟨-, -, rfl⟩
    · exact (hnode b).mpr (.inl (t.entry_node hold))
    · exact (hnode _).mpr (.inr rfl)
  functional a n b c hb hc := by
    rcases (hentry a n b).mp hb with hold | ⟨rfl, rfl, rfl⟩ <;>
      rcases (hentry _ _ c).mp hc with hold' | ⟨hp', hm', rfl⟩
    · exact t.functional a n b c hold hold'
    · subst hp' hm'
      exact absurd hold (hfree b)
    · exact absurd hold' (hfree c)
    · rfl
  root_top {a n} h := by
    rcases (hentry a n root).mp h with hold | ⟨-, -, rfl⟩
    · exact t.root_top hold
    · exact hx t.root_dir
  one_entry {a b d n k} hd ha hb := by
    -- a directory that had an entry before is an old one
    have hdirOld : ∀ {a n}, entry a n d → dir d := fun hold =>
      ((hdir d).mp hd).resolve_right fun hboth => hnew hboth.2 (hboth.1 ▸ t.entry_node hold)
    rcases (hentry a n d).mp ha with hold | ⟨rfl, rfl, rfl⟩ <;>
      rcases (hentry b k _).mp hb with hold' | ⟨rfl, rfl, heq⟩
    · exact t.one_entry (hdirOld hold) hold hold'
    · exact absurd (heq ▸ hdirOld hold) hx
    · exact absurd (hdirOld hold') hx
    · exact ⟨rfl, rfl⟩
  reachable {a} ha := by
    have hmono : ∀ {b}, node b → ∃ ns, Walk entry' root ns b := by
      intro b hb
      obtain ⟨ns, hns⟩ := t.reachable hb
      exact ⟨ns, hns.mono fun _ _ _ h => (hentry _ _ _).mpr (.inl h)⟩
    rcases (hnode a).mp ha with hold | rfl
    · exact hmono hold
    · obtain ⟨ns, hns⟩ := hmono (t.dir_node hp)
      exact ⟨ns ++ [m], concat_iff.mpr ⟨p, hns, (hentry _ _ _).mpr (.inr ⟨rfl, rfl, rfl⟩)⟩⟩

/-- An entry of a node without entries is removed; the node goes with its last entry. -/
theorem remove (hx : entry p m x) (hleaf : ∀ n b, ¬ entry x n b)
    (hentry : ∀ a n b, entry' a n b ↔ entry a n b ∧ ¬ (a = p ∧ n = m))
    (hnode : ∀ a, node' a ↔ node a ∧ (a = x → ∃ b n, entry' b n x))
    (hdir : ∀ a, dir' a ↔ dir a ∧ node' a) : NamedTree node' dir' entry' root := by
  have hroot : root ≠ x := by
    rintro rfl
    exact t.root_top hx
  -- a walk to another node does not go through the leaf
  have hwalk : ∀ {b ns}, Walk entry root ns b → b ≠ x → Walk entry' root ns b := by
    intro b ns hns hne
    rcases hns.avoid_or_through p m with havoid | ⟨pre, post, y, rfl, -, hy, hpost⟩
    · exact havoid.mono fun _ _ _ h => (hentry _ _ _).mpr h
    · obtain rfl := t.functional _ _ _ _ hy hx
      cases hpost with
      | nil => exact absurd rfl hne
      | cons hedge _ => exact absurd hedge (hleaf _ _)
  exact {
    root_dir := (hdir _).mpr ⟨t.root_dir, (hnode _).mpr ⟨t.dir_node t.root_dir,
      fun h => absurd h hroot⟩⟩
    dir_node := fun ha => ((hdir _).mp ha).2
    entry_dir := by
      intro a n b h
      have hold := ((hentry a n b).mp h).1
      refine (hdir a).mpr ⟨t.entry_dir hold, (hnode a).mpr ⟨t.dir_node (t.entry_dir hold), ?_⟩⟩
      rintro rfl
      exact absurd hold (hleaf n b)
    entry_node := by
      intro a n b h
      refine (hnode b).mpr ⟨t.entry_node ((hentry a n b).mp h).1, ?_⟩
      rintro rfl
      exact ⟨a, n, h⟩
    functional := fun a n b c hb hc =>
      t.functional a n b c ((hentry a n b).mp hb).1 ((hentry a n c).mp hc).1
    root_top := fun h => t.root_top ((hentry _ _ _).mp h).1
    one_entry := fun hd ha hb =>
      t.one_entry ((hdir _).mp hd).1 ((hentry _ _ _).mp ha).1 ((hentry _ _ _).mp hb).1
    reachable := by
      intro a ha
      obtain ⟨hold, hlast⟩ := (hnode a).mp ha
      by_cases hax : a = x
      · subst hax
        obtain ⟨b, n, hb⟩ := hlast rfl
        have hb' := ((hentry b n a).mp hb).1
        have hne : b ≠ a := by
          rintro rfl
          exact hleaf n b hb'
        obtain ⟨ns, hns⟩ := t.reachable (t.dir_node (t.entry_dir hb'))
        exact ⟨ns ++ [n], concat_iff.mpr ⟨b, hwalk hns hne, hb⟩⟩
      · obtain ⟨ns, hns⟩ := t.reachable hold
        exact ⟨ns, hwalk hns hax⟩ }

/-- An entry moves to a free name in a directory that is not below its node. -/
theorem move (hx : entry p n x) (hq : dir q) (hbelow : ∀ ns, ¬ Walk entry x ns q)
    (hfree : ∀ i, entry q m i → q = p ∧ m = n)
    (hentry : ∀ a k b, entry' a k b ↔ entry a k b ∧ ¬ (a = p ∧ k = n) ∨ a = q ∧ k = m ∧ b = x) :
    NamedTree node dir entry' root where
  root_dir := t.root_dir
  dir_node := t.dir_node
  entry_dir {a k b} h := by
    rcases (hentry a k b).mp h with ⟨hold, -⟩ | ⟨rfl, -, -⟩
    · exact t.entry_dir hold
    · exact hq
  entry_node {a k b} h := by
    rcases (hentry a k b).mp h with ⟨hold, -⟩ | ⟨-, -, rfl⟩
    · exact t.entry_node hold
    · exact t.entry_node hx
  functional a k b c hb hc := by
    rcases (hentry a k b).mp hb with ⟨hold, hne⟩ | ⟨rfl, rfl, rfl⟩ <;>
      rcases (hentry _ _ c).mp hc with ⟨hold', hne'⟩ | ⟨hq', hm', rfl⟩
    · exact t.functional a k b c hold hold'
    · subst hq' hm'
      exact absurd (hfree b hold) hne
    · exact absurd (hfree c hold') hne'
    · rfl
  root_top {a k} h := by
    rcases (hentry a k root).mp h with ⟨hold, -⟩ | ⟨-, -, rfl⟩
    · exact t.root_top hold
    · exact t.root_top hx
  one_entry {a b d k l} hd ha hb := by
    rcases (hentry a k d).mp ha with ⟨hold, hne⟩ | ⟨rfl, rfl, rfl⟩ <;>
      rcases (hentry b l _).mp hb with ⟨hold', hne'⟩ | ⟨rfl, rfl, heq⟩
    · exact t.one_entry hd hold hold'
    · subst heq
      exact absurd (t.one_entry hd hold hx) hne
    · exact absurd (t.one_entry hd hold' hx) hne'
    · exact ⟨rfl, rfl⟩
  reachable {a} ha := by
    obtain ⟨ps, hps⟩ := t.reachable (t.dir_node (t.entry_dir hx))
    have hkeep : ∀ {b c ns}, Walk (fun a k b => entry a k b ∧ ¬ (a = p ∧ k = n)) b ns c →
        Walk entry' b ns c := fun h => h.mono fun _ _ _ hedge => (hentry _ _ _).mpr (.inl hedge)
    obtain ⟨qs, hqs⟩ := t.reachable (t.dir_node hq)
    -- the path to the new directory does not pass through the node
    have hqs' : Walk entry' root qs q := by
      rcases t.through_path hps hx hqs with havoid | ⟨post, -, hpost⟩
      · exact hkeep havoid
      · exact absurd hpost (hbelow post)
    have hnew : Walk entry' root (qs ++ [m]) x :=
      concat_iff.mpr ⟨q, hqs', (hentry _ _ _).mpr (.inr ⟨rfl, rfl, rfl⟩)⟩
    obtain ⟨ns, hns⟩ := t.reachable ha
    rcases t.through_path hps hx hns with havoid | ⟨post, -, hpost⟩
    · exact ⟨ns, hkeep havoid⟩
    · -- what lies below the node does not come back to the old entry
      rcases hpost.avoid_or_through p n with havoid | ⟨pre, _, _, -, hpre, -, -⟩
      · exact ⟨qs ++ [m] ++ post, append_iff.mpr ⟨x, hnew, hkeep havoid⟩⟩
      · have hpre' := hpre.mono fun _ _ _ hedge => hedge.1
        have hcycle := t.walk_self (concat_iff.mpr ⟨p, hpre', hx⟩) (t.entry_node hx)
        simp at hcycle

end

end NamedTree

end KnoxOS.Lib
