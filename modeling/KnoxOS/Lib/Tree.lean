import Mathlib.Logic.Relation

/-!
# Rooted trees given by their edges

A hierarchy kept in tables is a tree when every node is reached from the root and no node has two
parents. The rules below say that this survives adding a leaf, removing a leaf and moving a node
below one that it does not lead to. `IsTree.not_descendant_self` is what the definition is for: no
node of a tree is its own descendant.
-/

namespace KnoxOS.Lib

open Relation

variable {α : Type*} {node node' : α → Prop} {edge edge' : α → α → Prop} {root a p x : α}

/-- The nodes and edges of a tree below `root`. -/
structure IsTree (node : α → Prop) (edge : α → α → Prop) (root : α) : Prop where
  root_mem : node root
  edge_mem : ∀ {a b}, edge a b → node a ∧ node b
  root_top : ∀ {a}, ¬ edge a root
  parent_unique : ∀ {a b c}, edge a c → edge b c → a = b
  reachable : ∀ {a}, node a → ReflTransGen edge root a

namespace IsTree

/-- No node of a tree is its own descendant. -/
theorem not_descendant_self (t : IsTree node edge root) (ha : node a) : ¬ TransGen edge a a := by
  have hreach := t.reachable ha
  clear ha
  induction hreach with
  | refl =>
    intro hcycle
    obtain ⟨b, -, hb⟩ := TransGen.tail'_iff.mp hcycle
    exact t.root_top hb
  | tail _ hedge ih =>
    intro hcycle
    obtain ⟨b, hdown, hb⟩ := TransGen.tail'_iff.mp hcycle
    -- the last edge of the cycle comes from the only parent, which then lies on a cycle too
    have hparent := t.parent_unique hb hedge
    subst hparent
    exact ih (TransGen.head' hedge hdown)

theorem single (root : α) : IsTree (· = root) (fun _ _ => False) root where
  root_mem := rfl
  edge_mem h := h.elim
  root_top h := h
  parent_unique h := h.elim
  reachable h := h ▸ .refl

/-- A new node below an old one. -/
theorem insert (t : IsTree node edge root) (hp : node p) (hx : ¬ node x)
    (hnode : ∀ a, node' a ↔ node a ∨ a = x)
    (hedge : ∀ a b, edge' a b ↔ edge a b ∨ a = p ∧ b = x) : IsTree node' edge' root where
  root_mem := (hnode _).mpr (.inl t.root_mem)
  edge_mem {a b} h := by
    rcases (hedge a b).mp h with hold | ⟨rfl, rfl⟩
    · exact ⟨(hnode _).mpr (.inl (t.edge_mem hold).1), (hnode _).mpr (.inl (t.edge_mem hold).2)⟩
    · exact ⟨(hnode _).mpr (.inl hp), (hnode _).mpr (.inr rfl)⟩
  root_top {a} h := by
    rcases (hedge a root).mp h with hold | ⟨-, hroot⟩
    · exact t.root_top hold
    · exact hx (hroot ▸ t.root_mem)
  parent_unique {a b c} ha hb := by
    rcases (hedge a c).mp ha with hold | ⟨rfl, rfl⟩ <;> rcases (hedge b c).mp hb with hold' | hnew
    · exact t.parent_unique hold hold'
    · exact absurd (hnew.2 ▸ (t.edge_mem hold).2) hx
    · exact absurd (t.edge_mem hold').2 hx
    · exact hnew.1.symm
  reachable {a} ha := by
    have hold : ∀ {b}, node b → ReflTransGen edge' root b := fun hb =>
      (t.reachable hb).lift id fun _ _ h => (hedge _ _).mpr (.inl h)
    rcases (hnode a).mp ha with hnodeA | rfl
    · exact hold hnodeA
    · exact (hold hp).tail ((hedge _ _).mpr (.inr ⟨rfl, rfl⟩))

/-- A leaf other than the root is taken away. -/
theorem erase (t : IsTree node edge root) (hroot : x ≠ root) (hleaf : ∀ b, ¬ edge x b)
    (hnode : ∀ a, node' a ↔ node a ∧ a ≠ x)
    (hedge : ∀ a b, edge' a b ↔ edge a b ∧ b ≠ x) : IsTree node' edge' root where
  root_mem := (hnode _).mpr ⟨t.root_mem, hroot.symm⟩
  edge_mem {a b} h := by
    obtain ⟨hold, hne⟩ := (hedge a b).mp h
    refine ⟨(hnode _).mpr ⟨(t.edge_mem hold).1, ?_⟩, (hnode _).mpr ⟨(t.edge_mem hold).2, hne⟩⟩
    intro hax
    exact hleaf b (hax ▸ hold)
  root_top h := t.root_top ((hedge _ _).mp h).1
  parent_unique ha hb := t.parent_unique ((hedge _ _).mp ha).1 ((hedge _ _).mp hb).1
  reachable {a} ha := by
    obtain ⟨hold, hne⟩ := (hnode a).mp ha
    have hreach := t.reachable hold
    clear ha hold
    induction hreach with
    | refl => exact .refl
    | tail _ hlast ih =>
      -- a leaf is not inside a path, so only the last node of the path could be `x`
      exact (ih fun hx => hleaf _ (hx ▸ hlast)).tail ((hedge _ _).mpr ⟨hlast, hne⟩)

end IsTree

end KnoxOS.Lib
