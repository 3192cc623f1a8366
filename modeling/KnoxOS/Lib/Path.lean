import Mathlib.Data.List.Infix

/-!
# Paths

Paths as lists of characters: `components` splits a path at its slashes and drops empty parts, and
`absolute` writes components back. On names without slashes the two are inverse
(`components_absolute`), and to be a prefix as a path is to be a prefix as a list of components
(`below_of_slash`, `absolute_append`).
-/

namespace KnoxOS.Lib

open List

/-- The parts between slashes that are not empty. -/
def components (path : List Char) : List (List Char) := (path.splitOn '/').filter (· ≠ [])

/-- The absolute path with these components. -/
def absolute (parts : List (List Char)) : List Char := '/' :: ['/'].intercalate parts

/-- A part of a path: it is not empty and has no slash. -/
def IsPart (part : List Char) : Prop := part ≠ [] ∧ '/' ∉ part

/-- The parts have no separator. -/
theorem not_mem_of_mem_splitOn {c : Char} {path part : List Char} (h : part ∈ path.splitOn c) :
    c ∉ part := by
  induction path generalizing part with
  | nil =>
    rw [splitOn_nil, mem_singleton] at h
    rw [h]
    exact not_mem_nil
  | cons x path ih =>
    rw [splitOn_cons_eq_if_modifyHead] at h
    split_ifs at h with hx
    · rcases mem_cons.mp h with rfl | h
      · exact not_mem_nil
      · exact ih h
    · cases hparts : path.splitOn c with
      | nil => exact absurd hparts (splitOn_ne_nil c path)
      | cons first rest =>
        rw [hparts] at h ih
        rcases mem_cons.mp h with rfl | h
        · intro hmem
          rcases mem_cons.mp hmem with rfl | hmem
          · exact hx (beq_self_eq_true _)
          · exact ih mem_cons_self hmem
        · exact ih (mem_cons_of_mem first h)

/-- Every component is a part. -/
theorem isPart_of_mem_components {path part : List Char} (h : part ∈ components path) :
    IsPart part := by
  obtain ⟨hmem, hne⟩ := mem_filter.mp h
  exact ⟨by simpa using hne, not_mem_of_mem_splitOn hmem⟩

theorem components_append_slash (a b : List Char) :
    components (a ++ '/' :: b) = components a ++ components b := by
  unfold components
  rw [splitOn_append_cons_self, filter_append]

variable {parts : List (List Char)} {parts' : List (List Char)} {rest : List (List Char)}

theorem filter_ne_nil_eq_self (h : ∀ part ∈ parts, IsPart part) : parts.filter (· ≠ []) = parts :=
  filter_eq_self.mpr fun part hpart => by simpa using (h part hpart).1

/-- The parts of a path written from its components. -/
theorem splitOn_absolute (h : ∀ part ∈ parts, '/' ∉ part) (hne : parts ≠ []) :
    (absolute parts).splitOn '/' = [] :: parts := by
  have hsplit := splitOn_append_cons_self (a := '/') [] (['/'].intercalate parts)
  rw [splitOn_intercalate '/' h hne] at hsplit
  exact hsplit

/-- Parts that are empty are lost when they are written as a path. -/
theorem components_absolute_filter (h : ∀ part ∈ parts, '/' ∉ part) :
    components (absolute parts) = parts.filter (· ≠ []) := by
  by_cases hne : parts = []
  · rw [hne]
    decide
  · unfold components
    rw [splitOn_absolute h hne]
    rfl

theorem components_absolute (h : ∀ part ∈ parts, IsPart part) :
    components (absolute parts) = parts := by
  rw [components_absolute_filter fun part hpart => (h part hpart).2]
  exact filter_ne_nil_eq_self h

/-- Slashes in front of a path do not count. -/
theorem components_dropWhile (path : List Char) :
    components (path.dropWhile (· = '/')) = components path := by
  induction path with
  | nil => rfl
  | cons c path ih =>
    by_cases hc : c = '/'
    · subst hc
      rw [dropWhile_cons_of_pos (by decide), ih]
      exact (components_append_slash [] path).symm
    · rw [dropWhile_cons_of_neg (by simpa using hc)]

theorem absolute_injective (h : ∀ part ∈ parts, IsPart part) (h' : ∀ part ∈ parts', IsPart part)
    (heq : absolute parts = absolute parts') : parts = parts' := by
  rw [← components_absolute h, heq, components_absolute h']

/-- Joining two lists of parts. -/
theorem intercalate_append (hparts : parts ≠ []) (hrest : rest ≠ []) :
    ['/'].intercalate (parts ++ rest) =
      ['/'].intercalate parts ++ '/' :: ['/'].intercalate rest := by
  induction parts with
  | nil => exact absurd rfl hparts
  | cons part parts ih =>
    by_cases hp : parts = []
    · rw [hp, singleton_append, intercalate_cons_of_ne_nil hrest,
        intercalate_singleton, append_assoc]
      rfl
    · rw [cons_append, intercalate_cons_of_ne_nil (by simp [hp]),
        intercalate_cons_of_ne_nil hp, ih hp]
      simp only [append_assoc]

theorem absolute_append (hparts : parts ≠ []) (hrest : rest ≠ []) :
    absolute (parts ++ rest) = absolute parts ++ absolute rest := by
  unfold absolute
  rw [intercalate_append hparts hrest]
  rfl

/-- A path that another one continues after a slash is a prefix of it in components. -/
theorem below_of_slash (h : ∀ part ∈ parts, IsPart part) (h' : ∀ part ∈ parts', IsPart part)
    (hslash : absolute parts ++ ['/'] <+: absolute parts') : parts <+: parts' := by
  obtain ⟨rest, hrest⟩ := hslash
  rw [append_assoc] at hrest
  have hcomponents := congrArg components hrest
  rw [singleton_append, components_append_slash, components_absolute h,
    components_absolute h'] at hcomponents
  exact ⟨components rest, hcomponents⟩

end KnoxOS.Lib
