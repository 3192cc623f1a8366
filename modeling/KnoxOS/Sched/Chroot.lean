import KnoxOS.Lib.Path
import KnoxOS.Lib.Reach

/-!
# Process roots

Path translation and `chroot` of `sched/process.rs`, with `sys_chdir` of `syscall/fs.rs`. A path is
walked component by component on a stack that starts at the root or at the working directory and
is not popped below the depth of the root. The main theorem, `chroot_confines`, says that the
working directory, every translated path and every later root stay at or below the root. As
strings they start with the root and a slash unless the root is `/` itself
(`unconfined_path_has_one_slash`).
-/

namespace KnoxOS.Sched

open Lib List

/-- Strings, as their characters. -/
abbrev Str := List Char

/-- The fields of a process that path translation reads. -/
structure ProcessPaths where
  root : Str
  cwd : Str
  oldRoot : Str
  putOld : Str
deriving DecidableEq, Repr

/-- Why `chdir` fails. -/
inductive ChdirError where
  | notDirectory
  | fileNotFound
deriving DecidableEq, Repr

def remapPivot (host oldRoot putOld : Str) : Str :=
  if putOld = [] then host
  else if host = putOld ∨ (putOld ++ ['/']).isPrefixOf host then
    let suffix := if host.length = putOld.length then [] else host.drop putOld.length
    if oldRoot = ['/'] then (if suffix = [] then ['/'] else suffix)
    else if suffix = [] then oldRoot
    else oldRoot ++ suffix
  else host

/-- The loop of `translate_path` for one part, with the depth of the root. -/
def pushPart (rootDepth : Nat) (stack : List Str) (part : Str) : List Str :=
  if part = [] ∨ part = ['.'] then stack
  else if part = ['.', '.'] then (if rootDepth < stack.length then stack.dropLast else stack)
  else stack ++ [part]

namespace ProcessPaths

def translatePath (p : ProcessPaths) (userPath : Str) : Str :=
  let start := if ['/'].isPrefixOf userPath then components p.root else components p.cwd
  let stack := (userPath.splitOn '/').foldl (pushPart (components p.root).length) start
  let host := if stack = [] then ['/'] else '/' :: ['/'].intercalate stack
  remapPivot host p.oldRoot p.putOld

def getcwdVisible (p : ProcessPaths) : Str :=
  if p.root = ['/'] then p.cwd
  else if p.cwd = p.root then ['/']
  else if p.root.isPrefixOf p.cwd then
    let rest := p.cwd.drop p.root.length
    if rest = [] then ['/'] else if ['/'].isPrefixOf rest then rest else '/' :: rest
  else ['/']

/-- `chroot`, where `directory` says which paths resolve, and which of those to a directory. -/
def chroot (p : ProcessPaths) (directory : Str → Option Bool) (userPath : Str) :
    Except Int ProcessPaths :=
  let host := p.translatePath userPath
  match directory host with
  | none => .error (-2)
  | some false => .error (-20)
  | some true =>
    let under := p.cwd = host ∨ (host ++ ['/']).isPrefixOf p.cwd ∨ host = ['/']
    .ok { p with cwd := if under then p.cwd else host, root := host }

/-- `sys_chdir`. -/
def chdir (p : ProcessPaths) (directory : Str → Option Bool) (userPath : Str) :
    Except ChdirError ProcessPaths :=
  let path := p.translatePath userPath
  match directory path with
  | none => .error .fileNotFound
  | some false => .error .notDirectory
  | some true => .ok { p with cwd := path }

end ProcessPaths

/-- The calls, each with what the file system answers at the time. -/
inductive RootOp where
  | chroot (directory : Str → Option Bool) (userPath : Str)
  | chdir (directory : Str → Option Bool) (userPath : Str)

/-- The process after a call; a call that fails changes nothing. -/
def ProcessPaths.step (p : ProcessPaths) : RootOp → ProcessPaths
  | .chroot directory userPath => ((p.chroot directory userPath).toOption).getD p
  | .chdir directory userPath => ((p.chdir directory userPath).toOption).getD p

/-- The path is the root or below it. Below `/` is every absolute path. -/
def AtOrBelow (root path : Str) : Prop :=
  path = root ∨ root ++ ['/'] <+: path ∨ root = ['/'] ∧ ['/'] <+: path

/-! ### Paths as components -/

/-- A part that names an entry. -/
def IsName (part : Str) : Prop := IsPart part ∧ part ≠ ['.'] ∧ part ≠ ['.', '.']

/-- A process as it is made: it has the whole tree and works in some directory, which is `/` or
`/home/user` for a new process and the one it had for a process restored from a checkpoint. A
forked process takes over the paths of its parent. -/
def ProcessPaths.Created (p : ProcessPaths) : Prop :=
  p.root = ['/'] ∧ (∃ below, (∀ part ∈ below, IsName part) ∧ p.cwd = absolute below) ∧ p.putOld = []

/-- The paths of a process in components: the root, and the working directory below it. -/
structure Rooted (p : ProcessPaths) (root below : List Str) : Prop where
  root_eq : p.root = absolute root
  cwd_eq : p.cwd = absolute (root ++ below)
  names : ∀ part ∈ root ++ below, IsName part
  noPivot : p.putOld = []

variable {parts below root : List Str}

theorem isPart_of_isName (h : ∀ part ∈ parts, IsName part) :
    ∀ part ∈ parts, IsPart part := fun part hpart => (h part hpart).1

/-- A path below another one in components is so as a string. -/
theorem atOrBelow_absolute (root below : List Str) :
    AtOrBelow (absolute root) (absolute (root ++ below)) := by
  by_cases hbelow : below = []
  · rw [hbelow, append_nil]
    exact .inl rfl
  · by_cases hroot : root = []
    · rw [hroot]
      exact .inr (.inr ⟨rfl, ⟨['/'].intercalate below, rfl⟩⟩)
    · rw [absolute_append hroot hbelow]
      refine .inr (.inl ⟨['/'].intercalate below, ?_⟩)
      rw [append_assoc]
      rfl

/-- One part leaves the components of the root at the bottom of the stack. -/
theorem pushPart_root {part : Str} (hpart : '/' ∉ part)
    (hnames : ∀ part ∈ root ++ below, IsName part) :
    ∃ below', pushPart root.length (root ++ below) part = root ++ below' ∧
      ∀ part ∈ root ++ below', IsName part := by
  unfold pushPart
  split_ifs with hskip hup hdepth
  · exact ⟨below, rfl, hnames⟩
  · -- the stack is deeper than the root, so the last component is not the root's
    have hne : below ≠ [] := by
      rintro rfl
      simp at hdepth
    refine ⟨below.dropLast, dropLast_append_of_ne_nil hne, fun part hmem => ?_⟩
    refine hnames part ?_
    rcases mem_append.mp hmem with hmem | hmem
    · exact mem_append_left _ hmem
    · exact mem_append_right _ (dropLast_subset below hmem)
  · exact ⟨below, rfl, hnames⟩
  · refine ⟨below ++ [part], append_assoc .., fun q hq => ?_⟩
    rw [← append_assoc] at hq
    rcases mem_append.mp hq with hq | hq
    · exact hnames q hq
    · rw [mem_singleton.mp hq]
      exact ⟨⟨fun h => hskip (.inl h), hpart⟩, fun h => hskip (.inr h), hup⟩

/-- The whole walk does. -/
theorem foldl_pushPart_root (hparts : ∀ part ∈ parts, '/' ∉ part)
    (hnames : ∀ part ∈ root ++ below, IsName part) :
    ∃ below', parts.foldl (pushPart root.length) (root ++ below) = root ++ below' ∧
      ∀ part ∈ root ++ below', IsName part := by
  induction parts generalizing below with
  | nil => exact ⟨below, rfl, hnames⟩
  | cons part parts ih =>
    obtain ⟨below', heq, hnames'⟩ := pushPart_root (hparts part mem_cons_self) hnames
    rw [foldl_cons, heq]
    exact ih (fun q hq => hparts q (mem_cons_of_mem part hq)) hnames'

/-- Names are pushed as they come. -/
theorem foldl_pushPart_names (rootDepth : Nat) (stack : List Str)
    (h : ∀ part ∈ parts, IsName part) :
    parts.foldl (pushPart rootDepth) stack = stack ++ parts := by
  induction parts generalizing stack with
  | nil => rw [foldl_nil, append_nil]
  | cons part parts ih =>
    obtain ⟨⟨hne, -⟩, hdot, hdots⟩ := h part mem_cons_self
    have hpush : pushPart rootDepth stack part = stack ++ [part] := by
      unfold pushPart
      rw [if_neg (fun hor => hor.elim hne hdot), if_neg hdots]
    rw [foldl_cons, hpush, ih _ fun q hq => h q (mem_cons_of_mem part hq), append_assoc]
    rfl

namespace Rooted

variable {p : ProcessPaths} {root below : List Str}

section

variable (h : Rooted p root below)
include h

theorem components_root : components p.root = root := by
  rw [h.root_eq]
  exact components_absolute fun part hpart => (h.names part (mem_append_left _ hpart)).1

theorem components_cwd : components p.cwd = root ++ below := by
  rw [h.cwd_eq]
  exact components_absolute (isPart_of_isName h.names)

/-- A translated path is the stack its walk ends with. -/
theorem translatePath_eq {userPath : Str} {start stack : List Str}
    (hstart : (if ['/'].isPrefixOf userPath then root else root ++ below) = start)
    (hstack : (userPath.splitOn '/').foldl (pushPart root.length) start = stack) :
    p.translatePath userPath = absolute stack := by
  unfold ProcessPaths.translatePath
  simp only [h.components_root, h.components_cwd, hstart, hstack, remapPivot, if_pos h.noPivot]
  split_ifs with hnil
  · rw [hnil]
    rfl
  · rfl

/-- A translated path is below the root in components. -/
theorem translatePath (userPath : Str) :
    ∃ below', p.translatePath userPath = absolute (root ++ below') ∧
      ∀ part ∈ root ++ below', IsName part := by
  have hparts : ∀ part ∈ userPath.splitOn '/', '/' ∉ part := fun _ => not_mem_of_mem_splitOn
  have hstart : ∃ below₀, (if ['/'].isPrefixOf userPath then root else root ++ below) =
      root ++ below₀ ∧ ∀ part ∈ root ++ below₀, IsName part := by
    split_ifs
    · refine ⟨[], (append_nil root).symm, fun part hpart => h.names part ?_⟩
      rw [append_nil] at hpart
      exact mem_append_left _ hpart
    · exact ⟨below, rfl, h.names⟩
  obtain ⟨below₀, hstart, hnames₀⟩ := hstart
  obtain ⟨below', heq, hnames⟩ := foldl_pushPart_root hparts hnames₀
  exact ⟨below', h.translatePath_eq hstart heq, hnames⟩

/-- Translating an absolute path of names puts it behind the root. -/
theorem translatePath_absolute {parts : List Str} (hparts : ∀ part ∈ parts, IsName part) :
    p.translatePath (absolute parts) = absolute (root ++ parts) := by
  have habsolute : ['/'].isPrefixOf (absolute parts) = true := rfl
  refine h.translatePath_eq (if_pos habsolute) ?_
  by_cases hnil : parts = []
  · rw [hnil, append_nil]
    rfl
  · rw [splitOn_absolute (fun part hpart => (hparts part hpart).1.2) hnil]
    exact foldl_pushPart_names root.length root hparts

/-- `getcwd_visible` names the working directory. -/
theorem translatePath_getcwdVisible : p.translatePath p.getcwdVisible = p.cwd := by
  have hbelow : ∀ part ∈ below, IsName part :=
    fun part hpart => h.names part (mem_append_right _ hpart)
  have hvisible : p.getcwdVisible = absolute below := by
    unfold ProcessPaths.getcwdVisible
    rw [h.root_eq, h.cwd_eq]
    by_cases hroot : root = []
    · rw [hroot]
      exact if_pos rfl
    · have hslash : absolute root ≠ ['/'] := by
        intro heq
        have hempty : absolute root = absolute [] := heq
        exact hroot (absolute_injective (fun part hpart => (h.names part
          (mem_append_left _ hpart)).1) nofun hempty)
      rw [if_neg hslash]
      by_cases hnil : below = []
      · rw [hnil, append_nil]
        exact if_pos rfl
      · have hne : absolute (root ++ below) ≠ absolute root := by
          intro heq
          have := absolute_injective (isPart_of_isName h.names)
            (fun part hpart => (h.names part (mem_append_left _ hpart)).1) heq
          exact hnil (append_right_eq_self.mp this)
        rw [if_neg hne, absolute_append hroot hnil, if_pos]
        · rw [drop_left]
          rfl
        · exact isPrefixOf_iff_prefix.mpr (prefix_append _ _)
  rw [hvisible, h.translatePath_absolute hbelow, h.cwd_eq]

/-- The working directory `chroot` leaves is below the new root: the test on the strings says
whether it is so in components. -/
theorem below_of_under {down : List Str} (hnames : ∀ part ∈ root ++ down, IsName part) : ∃ below',
      (if p.cwd = absolute (root ++ down) ∨ (absolute (root ++ down) ++ ['/']).isPrefixOf p.cwd ∨
        absolute (root ++ down) = ['/'] then p.cwd else absolute (root ++ down)) =
          absolute (root ++ down ++ below') ∧ ∀ part ∈ root ++ down ++ below', IsName part := by
  have hself : ∃ below', absolute (root ++ down) = absolute (root ++ down ++ below') ∧
      ∀ part ∈ root ++ down ++ below', IsName part := by
    refine ⟨[], ?_, ?_⟩
    · rw [append_nil]
    · rw [append_nil]
      exact hnames
  split_ifs with hunder
  · rcases hunder with heq | hslash | hall
    · rw [heq]
      exact hself
    · -- the strings agree up to a slash, so the components do
      have hprefix : absolute (root ++ down) ++ ['/'] <+: absolute (root ++ below) := by
        rw [← h.cwd_eq]
        exact isPrefixOf_iff_prefix.mp hslash
      obtain ⟨below', heq⟩ := below_of_slash (isPart_of_isName hnames) (isPart_of_isName h.names)
        hprefix
      refine ⟨below', by rw [heq, h.cwd_eq], ?_⟩
      rw [heq]
      exact h.names
    · have hnil : root ++ down = [] :=
        absolute_injective (isPart_of_isName hnames) nofun (hall : _ = absolute [])
      refine ⟨root ++ below, ?_, ?_⟩
      · rw [hnil, nil_append, h.cwd_eq]
      · rw [hnil]
        exact h.names
  · exact hself

/-- A call keeps the working directory below the root, and moves the root down. -/
theorem step (op : RootOp) : ∃ down below', Rooted (p.step op) (root ++ down) below' := by
  have hstays : ∃ down below', Rooted p (root ++ down) below' :=
    ⟨[], below, by rw [append_nil]; exact h⟩
  cases op with
  | chdir directory userPath =>
    obtain ⟨below', heq, hnames⟩ := h.translatePath userPath
    simp only [ProcessPaths.step, ProcessPaths.chdir]
    cases directory (p.translatePath userPath) with
    | none => exact hstays
    | some isDirectory =>
      cases isDirectory with
      | false => exact hstays
      | true =>
        refine ⟨[], below', ?_⟩
        rw [append_nil]
        exact ⟨h.root_eq, heq, hnames, h.noPivot⟩
  | chroot directory userPath =>
    obtain ⟨down, heq, hnames⟩ := h.translatePath userPath
    simp only [ProcessPaths.step, ProcessPaths.chroot]
    cases directory (p.translatePath userPath) with
    | none => exact hstays
    | some isDirectory =>
      cases isDirectory with
      | false => exact hstays
      | true =>
        rw [heq]
        obtain ⟨below', hcwd, hbelow⟩ := h.below_of_under hnames
        exact ⟨down, below', rfl, hcwd, hbelow, h.noPivot⟩

end

end Rooted

theorem ProcessPaths.Created.rooted {p : ProcessPaths} (h : p.Created) :
    ∃ below, Rooted p [] below := by
  obtain ⟨hroot, ⟨below, hnames, hcwd⟩, hpivot⟩ := h
  exact ⟨below, hroot, hcwd, hnames, hpivot⟩

/-- The root only moves down. -/
theorem rooted_of_reach {p q : ProcessPaths} (h : Rooted p root below)
    (hrun : Reach ProcessPaths.step (fun _ _ => True) p q) :
    ∃ down below', Rooted q (root ++ down) below' := by
  refine hrun.invariant (fun q => ∃ down below', Rooted q (root ++ down) below')
    ⟨[], below, by rw [append_nil]; exact h⟩ ?_
  rintro q op ⟨down, below', hq⟩ -
  obtain ⟨further, below'', hnext⟩ := hq.step op
  exact ⟨down ++ further, below'', by rw [← append_assoc]; exact hnext⟩

/-- In every run of `chroot` and `chdir`, the working directory and every translated path are the
root or below it, every later root is at or below the root, and the path `getcwd` shows translates
to the working directory. -/
theorem chroot_confines {start p : ProcessPaths} (hstart : start.Created)
    (hrun : Reach ProcessPaths.step (fun _ _ => True) start p) :
    AtOrBelow p.root p.cwd ∧ (∀ userPath, AtOrBelow p.root (p.translatePath userPath)) ∧
      (∀ q, Reach ProcessPaths.step (fun _ _ => True) p q → AtOrBelow p.root q.root) ∧
      p.translatePath p.getcwdVisible = p.cwd := by
  obtain ⟨below₀, hrooted⟩ := hstart.rooted
  obtain ⟨root, below, h⟩ := rooted_of_reach hrooted hrun
  refine ⟨?_, fun userPath => ?_, fun q hq => ?_, h.translatePath_getcwdVisible⟩
  · rw [h.root_eq, h.cwd_eq]
    exact atOrBelow_absolute _ below
  · obtain ⟨below', heq, -⟩ := h.translatePath userPath
    rw [h.root_eq, heq]
    exact atOrBelow_absolute _ below'
  · obtain ⟨down, below', hq⟩ := rooted_of_reach h hq
    rw [h.root_eq, hq.root_eq]
    exact atOrBelow_absolute _ down

/-- A process goes to `/srv`, makes it its root and tries to leave. -/
def jailed : List RootOp :=
  [.chdir (fun _ => some true) "/srv/www".toList, .chroot (fun _ => some true) "..".toList,
    .chdir (fun _ => some true) "../../etc".toList]

theorem chroot_confines_three_calls :
    (jailed.foldl ProcessPaths.step ⟨['/'], ['/'], [], []⟩).root = "/srv".toList ∧
      AtOrBelow (jailed.foldl ProcessPaths.step ⟨['/'], ['/'], [], []⟩).root
        (jailed.foldl ProcessPaths.step ⟨['/'], ['/'], [], []⟩).cwd :=
  ⟨by decide +kernel, (chroot_confines ⟨rfl, ⟨[], nofun, rfl⟩, rfl⟩ (Reach.free jailed)).1⟩

/-- In a process that has the whole tree, `/etc` translates to itself, which neither is the root `/`
nor starts with `//`. -/
theorem unconfined_path_has_one_slash :
    ∃ p : ProcessPaths, p.Created ∧ p.translatePath "/etc".toList ≠ p.root ∧
      ¬ p.root ++ ['/'] <+: p.translatePath "/etc".toList := by
  refine ⟨⟨['/'], ['/'], [], []⟩, ⟨rfl, ⟨[], nofun, rfl⟩, rfl⟩, ?_, ?_⟩
  · decide +kernel
  · decide +kernel

end KnoxOS.Sched
