import KnoxOS.Lib.Map
import KnoxOS.Lib.Reach
import KnoxOS.Lib.Tree
import KnoxOS.Lib.Word
import Mathlib.Data.List.DropRight

/-!
# The cgroup v2 hierarchy

`sched/cgroup2.rs`: groups by id, their paths, and the processes attached to them, with the runs of
its calls. A run records the `pids.max` each group had at its last attachment.
-/

namespace KnoxOS.Sched

open Lib
open Std (TreeMap)

inductive Cgroup2Controller where
  | cpu
  | memory
  | io
  | pids
  | cpuset
  | rdma
  | hugeTlb
  | misc
  deriving DecidableEq, Repr

/-- `memory.max` (negative for no limit) and `memory.current`. -/
structure MemoryController where
  max : Int := -1
  current : Nat := 0
  deriving DecidableEq, Repr

/-- `pids.max` (negative for no limit), `pids.current` and the count of refused attachments. -/
structure PidsController where
  max : Int := -1
  current : Nat := 0
  eventsMax : Nat := 0
  deriving DecidableEq, Repr

structure Cgroup2 where
  id : Nat
  path : String
  parentId : Option Nat
  children : List Nat := []
  processes : List Nat := []
  subtreeControl : List Cgroup2Controller := []
  controllers : List Cgroup2Controller := [.cpu, .memory, .io, .pids, .cpuset]
  memory : MemoryController := {}
  pids : PidsController := {}
  deriving DecidableEq, Repr

inductive Cgroup2Error where
  | notFound
  | alreadyExists
  | notEmpty
  | controllerNotAvailable
  | limitExceeded
  deriving DecidableEq, Repr

structure Cgroup2Table where
  cgroups : TreeMap Nat Cgroup2
  pathToId : TreeMap String Nat
  nextId : Nat

/-- The byte position of the last slash. -/
def rfindSlash (s : List Char) : Option Nat :=
  (s.reverse.idxOf? '/').map fun i => s.length - 1 - i

def parentOf (path : String) : String :=
  if path = "/" then "/"
  else
    let trimmed := path.toList.rdropWhile (· = '/')
    match rfindSlash trimmed with
    | some 0 => "/"
    | some pos => String.ofList (trimmed.take pos)
    | none => "/"

namespace Cgroup2Table

/-- The table at boot: the root group alone. -/
def new : Cgroup2Table where
  cgroups := (∅ : TreeMap Nat Cgroup2).insert 0 { id := 0, path := "/", parentId := none }
  pathToId := (∅ : TreeMap String Nat).insert "/" 0
  nextId := 1

/-- Store a group under its id. -/
def setGroup (t : Cgroup2Table) (id : Nat) (cg : Cgroup2) : Cgroup2Table :=
  { t with cgroups := t.cgroups.insert id cg }

def mkdir (t : Cgroup2Table) (path : String) : Except Cgroup2Error Nat × Cgroup2Table :=
  if path ∈ t.pathToId then (.error .alreadyExists, t)
  else
    match t.pathToId[parentOf path]? with
    | none => (.error .notFound, t)
    | some parentId =>
      let id := t.nextId
      let parentControllers := (t.cgroups[parentId]?.map (·.subtreeControl)).getD []
      let cgroup : Cgroup2 :=
        { id := id, path := path, parentId := some parentId, controllers := parentControllers }
      (.ok id, {
        nextId := u64 (t.nextId + 1)
        cgroups := (t.cgroups.insert id cgroup).modify parentId fun parent =>
          { parent with children := parent.children ++ [id] }
        pathToId := t.pathToId.insert path id })

def rmdir (t : Cgroup2Table) (path : String) : Except Cgroup2Error Unit × Cgroup2Table :=
  match t.pathToId[path]? with
  | none => (.error .notFound, t)
  | some id =>
    let cg := t.cgroups[id]?
    if cg.any fun cg => !cg.processes.isEmpty || !cg.children.isEmpty then
      (.error .notEmpty, t)
    else
      let cgroups := match cg.bind (·.parentId) with
        | none => t.cgroups
        | some parentId => t.cgroups.modify parentId fun parent =>
          { parent with children := parent.children.filter (· ≠ id) }
      (.ok (), { t with cgroups := cgroups.erase id, pathToId := t.pathToId.erase path })

/-- Take a process out of every group. -/
def dropProcess (t : Cgroup2Table) (pid : Nat) : Cgroup2Table :=
  { t with cgroups := t.cgroups.map fun _ cg =>
      { cg with processes := cg.processes.filter (· ≠ pid) } }

/-- Move a process into a group. The process leaves every group first. -/
def attachProcess (t : Cgroup2Table) (path : String) (pid : Nat) :
    Except Cgroup2Error Unit × Cgroup2Table :=
  match t.pathToId[path]? with
  | none => (.error .notFound, t)
  | some id =>
    let t := t.dropProcess pid
    match t.cgroups[id]? with
    | none => (.error .notFound, t)
    | some cg =>
      if cg.pids.max ≥ 0 ∧ (cg.pids.current : Int) ≥ cg.pids.max then
        (.error .limitExceeded, t.setGroup id
          { cg with pids := { cg.pids with eventsMax := u64 (cg.pids.eventsMax + 1) } })
      else
        (.ok (), t.setGroup id
          { cg with
            processes := cg.processes ++ [pid]
            pids := { cg.pids with current := u64 (cg.pids.current + 1) } })

/-- The enabling loop of `set_subtree_control`, which stops at the first missing controller. -/
def enableControllers (available : List Cgroup2Controller) :
    List Cgroup2Controller → List Cgroup2Controller →
      Except Cgroup2Error Unit × List Cgroup2Controller
  | [], control => (.ok (), control)
  | ctrl :: rest, control =>
    if ctrl ∉ available then (.error .controllerNotAvailable, control)
    else enableControllers available rest
      (if ctrl ∈ control then control else control ++ [ctrl])

def setSubtreeControl (t : Cgroup2Table) (path : String)
    (enable disable : List Cgroup2Controller) : Except Cgroup2Error Unit × Cgroup2Table :=
  match t.pathToId[path]? with
  | none => (.error .notFound, t)
  | some id =>
    match t.cgroups[id]? with
    | none => (.error .notFound, t)
    | some cg =>
      match enableControllers cg.controllers enable cg.subtreeControl with
      | (.error e, control) =>
        (.error e, t.setGroup id { cg with subtreeControl := control })
      | (.ok (), control) =>
        (.ok (), t.setGroup id { cg with subtreeControl := control.filter (· ∉ disable) })

def setPidsMax (t : Cgroup2Table) (path : String) (max : Int) :
    Except Cgroup2Error Unit × Cgroup2Table :=
  match t.pathToId[path]? with
  | none => (.error .notFound, t)
  | some id =>
    match t.cgroups[id]? with
    | none => (.error .notFound, t)
    | some cg =>
      (.ok (), t.setGroup id { cg with pids := { cg.pids with max := max } })

/-- Addition on `u64` that stops at the largest word. -/
def saturatingAdd (a b : Nat) : Nat := min (a + b) (2 ^ 64 - 1)

/-- Charge the first group that holds the process; a process in no group is not limited. -/
def chargeMemory (t : Cgroup2Table) (pid bytes : Nat) : Except Cgroup2Error Unit × Cgroup2Table :=
  match t.cgroups.toList.find? fun e => pid ∈ e.2.processes with
  | none => (.ok (), t)
  | some (id, cg) =>
    let current := saturatingAdd cg.memory.current bytes
    if cg.memory.max ≥ 0 ∧ (current : Int) > cg.memory.max then (.error .limitExceeded, t)
    else (.ok (), t.setGroup id { cg with memory := { cg.memory with current := current } })

def unchargeMemory (t : Cgroup2Table) (pid bytes : Nat) : Cgroup2Table :=
  match t.cgroups.toList.find? fun e => pid ∈ e.2.processes with
  | none => t
  | some (id, cg) =>
    t.setGroup id { cg with memory := { cg.memory with current := cg.memory.current - bytes } }

end Cgroup2Table

/-! ## Runs -/

inductive CgroupOp where
  | mkdir (path : String)
  | rmdir (path : String)
  | attachProcess (path : String) (pid : Nat)
  | setPidsMax (path : String) (max : Int)
  | setSubtreeControl (path : String) (enable disable : List Cgroup2Controller)
  deriving DecidableEq, Repr

/-- A table with the `pids.max` each group had when a process was last attached to it. -/
structure CgroupRun where
  table : Cgroup2Table
  maxAtAttach : Nat → Option Int

namespace CgroupRun

def init : CgroupRun := ⟨.new, fun _ => none⟩

def step (s : CgroupRun) : CgroupOp → CgroupRun
  | .mkdir path => { s with table := (s.table.mkdir path).2 }
  | .rmdir path => { s with table := (s.table.rmdir path).2 }
  | .attachProcess path pid =>
    match s.table.attachProcess path pid with
    | (.error _, t) => { s with table := t }
    | (.ok (), t) =>
      { table := t
        maxAtAttach := fun id =>
          if s.table.pathToId[path]? = some id then s.table.cgroups[id]?.map (·.pids.max)
          else s.maxAtAttach id }
  | .setPidsMax path max => { s with table := (s.table.setPidsMax path max).2 }
  | .setSubtreeControl path enable disable =>
    { s with table := (s.table.setSubtreeControl path enable disable).2 }

/-- The calls that keep the views in agreement: a process is attached while it is in no group,
an empty root is not removed, and no counter is at the end of its range. -/
def Orderly (s : CgroupRun) : CgroupOp → Prop
  | .mkdir _ => s.table.nextId + 1 < 2 ^ 64
  | .rmdir path => path = "/" →
      (s.table.cgroups[0]?).any fun root => !root.processes.isEmpty || !root.children.isEmpty
  | .attachProcess path pid => path ∈ s.table.pathToId → ∀ e ∈ s.table.cgroups.toList,
      pid ∉ e.2.processes ∧ e.2.pids.current + 1 < 2 ^ 64
  | _ => True

instance (s : CgroupRun) : ∀ op, Decidable (s.Orderly op)
  | .mkdir _ => inferInstanceAs (Decidable (_ < _))
  | .rmdir _ => inferInstanceAs (Decidable (_ → _))
  | .attachProcess _ _ => inferInstanceAs (Decidable (_ → _))
  | .setPidsMax _ _ => inferInstanceAs (Decidable True)
  | .setSubtreeControl _ _ _ => inferInstanceAs (Decidable True)

end CgroupRun

end KnoxOS.Sched
