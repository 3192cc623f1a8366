import KnoxOS.Sched.Cgroup2

/-!
# Memory charges

The memory controller of `sched/cgroups.rs`. A charge goes to the first v1 group that holds the
process and then to its v2 group; when the second refuses, the first is given back. The two spec
lemmas say what a charge and its refund do to the usage of the one v1 group of a process.
-/

namespace KnoxOS.Sched

open Lib
open Std (TreeMap)

/-- `limit_bytes` (negative for no limit), `usage_bytes` and `max_usage_bytes`. -/
structure CgroupMemory where
  limitBytes : Int := -1
  usageBytes : Nat := 0
  maxUsageBytes : Nat := 0
  deriving DecidableEq, Repr

structure CGroup where
  pids : List Nat := []
  memory : CgroupMemory := {}
  deriving DecidableEq, Repr

namespace CGroup

def canAllocate (cg : CGroup) (bytes : Nat) : Bool :=
  cg.memory.limitBytes < 0 || (u64 (cg.memory.usageBytes + bytes) : Int) ≤ cg.memory.limitBytes

def recordAlloc (cg : CGroup) (bytes : Nat) : CGroup :=
  let usage := u64 (cg.memory.usageBytes + bytes)
  { cg with memory :=
      { cg.memory with
        usageBytes := usage
        maxUsageBytes := max cg.memory.maxUsageBytes usage } }

def recordFree (cg : CGroup) (bytes : Nat) : CGroup :=
  { cg with memory := { cg.memory with usageBytes := cg.memory.usageBytes - bytes } }

end CGroup

/-- The v1 groups by path, and the v2 hierarchy. -/
structure Cgroups where
  v1 : TreeMap String CGroup
  v2 : Cgroup2Table

namespace Cgroups

/-- The first v1 group that holds the process. -/
def find (c : Cgroups) (pid : Nat) : Option (String × CGroup) :=
  c.v1.toList.find? fun e => pid ∈ e.2.pids

def uncharge (c : Cgroups) (pid bytes : Nat) : Cgroups where
  v1 := match c.find pid with
    | none => c.v1
    | some (path, cg) => c.v1.insert path (cg.recordFree bytes)
  v2 := c.v2.unchargeMemory pid bytes

def tryCharge (c : Cgroups) (pid bytes : Nat) : Except Int Unit × Cgroups :=
  match c.find pid with
  | some (path, cg) =>
    if !cg.canAllocate bytes then (.error (-12), c)
    else chargeV2 { c with v1 := c.v1.insert path (cg.recordAlloc bytes) }
  | none => chargeV2 c
where
  /-- The second half: charge the v2 group or undo the first half. -/
  chargeV2 (c : Cgroups) : Except Int Unit × Cgroups :=
    match c.v2.chargeMemory pid bytes with
    | (.error _, v2) => (.error (-12), { c with v2 := v2 }.uncharge pid bytes)
    | (.ok (), v2) => (.ok (), { c with v2 := v2 })

/-- The process is in the group `cg` at `path`, and in no other v1 group. -/
structure Attached (c : Cgroups) (pid : Nat) (path : String) (cg : CGroup) : Prop where
  lookup : c.v1[path]? = some cg
  mem : pid ∈ cg.pids
  only : ∀ (q : String) (other : CGroup), c.v1[q]? = some other → pid ∈ other.pids → q = path

variable {c : Cgroups} {pid : Nat} {path : String} {cg : CGroup}

section

variable (h : c.Attached pid path cg)
include h

/-- A process is found in the one group that holds it. -/
theorem Attached.find_eq : c.find pid = some (path, cg) := by
  cases hfind : c.find pid with
  | none =>
    have hnot := List.find?_eq_none.mp hfind (path, cg) (mem_toList_iff.mpr h.lookup)
    exact absurd h.mem (by simpa using hnot)
  | some e =>
    have hlook : c.v1[e.1]? = some e.2 := mem_toList_iff.mp (List.mem_of_find?_eq_some hfind)
    have hmem : pid ∈ e.2.pids := by simpa using List.find?_some hfind
    have hpath := h.only e.1 e.2 hlook hmem
    rw [hpath, h.lookup] at hlook
    cases hlook
    rw [← hpath]

/-- A change of the group's memory record keeps the process in it. -/
theorem Attached.insert (cg' : CGroup) (hpids : cg'.pids = cg.pids) (v2 : Cgroup2Table) :
    Attached ⟨c.v1.insert path cg', v2⟩ pid path cg' where
  lookup := by rw [lookup_insert, if_pos rfl]
  mem := hpids ▸ h.mem
  only q other hq hmem := by
    rw [lookup_insert] at hq
    split_ifs at hq with heq
    · exact heq.symm
    · exact h.only q other hq hmem

theorem Attached.uncharge (bytes : Nat) :
    (c.uncharge pid bytes).Attached pid path (cg.recordFree bytes) := by
  unfold Cgroups.uncharge
  rw [h.find_eq]
  exact h.insert (cg.recordFree bytes) rfl _

/-- A charge within the range of `u64` is recorded within the limit, or leaves the usage as it
was. -/
theorem Attached.tryCharge {bytes : Nat} (hfits : cg.memory.usageBytes + bytes < 2 ^ 64) :
    ∃ cg', (c.tryCharge pid bytes).2.Attached pid path cg' ∧
      cg'.memory.limitBytes = cg.memory.limitBytes ∧
      (((c.tryCharge pid bytes).1 = .ok () ∧
          cg'.memory.usageBytes = cg.memory.usageBytes + bytes ∧
          (0 ≤ cg.memory.limitBytes → (cg'.memory.usageBytes : Int) ≤ cg.memory.limitBytes)) ∨
        ((c.tryCharge pid bytes).1 = .error (-12) ∧
          cg'.memory.usageBytes = cg.memory.usageBytes)) := by
  unfold Cgroups.tryCharge
  rw [h.find_eq]
  dsimp only
  split_ifs with hfull
  · exact ⟨cg, h, rfl, .inr ⟨rfl, rfl⟩⟩
  · have hcharged := h.insert (cg.recordAlloc bytes) rfl
    have husage : (cg.recordAlloc bytes).memory.usageBytes = cg.memory.usageBytes + bytes :=
      u64_of_lt hfits
    unfold tryCharge.chargeV2
    split
    · next v2 heq =>
        refine ⟨_, (hcharged v2).uncharge bytes, rfl, .inr ⟨rfl, ?_⟩⟩
        show (cg.recordAlloc bytes).memory.usageBytes - bytes = _
        omega
    · next v2 heq =>
        refine ⟨_, hcharged v2, rfl, .inl ⟨rfl, husage, fun hlimit => ?_⟩⟩
        simp only [CGroup.canAllocate, u64_of_lt hfits, Bool.not_eq_true', Bool.or_eq_false_iff,
          decide_eq_false_iff_not, not_and, not_not] at hfull
        rw [husage]
        exact hfull (by omega)

end

end Cgroups

end KnoxOS.Sched
