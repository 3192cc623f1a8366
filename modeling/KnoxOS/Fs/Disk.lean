import Mathlib.Algebra.Group.Nat.Defs
import KnoxOS.Lib.Bytes
import KnoxOS.Lib.Crash

/-!
# The block device

`read_sectors` and `write_sectors` of `drivers/virtio_blk.rs`, on a disk that is a function from
byte addresses to bytes. A write goes sector by sector and can be cut off after any of them: the
device reports a failure, or the machine stops. A program on the disk is an `Except Disk`, whose
error is the disk that a crash leaves.
-/

namespace KnoxOS.Fs

open Lib

def sectorSize : Nat := 512

/-- The disk. Its capacity is in sectors; its size in bytes is a `u64`: no sector number wraps. -/
structure Disk where
  capacity : Nat
  bytes : Nat → UInt8
  size_le : sectorSize * capacity ≤ 2 ^ 64

/-- A write is done or fails, or the machine stops. In the last two cases the first `k` sectors have
reached the disk. -/
inductive Outcome where
  | done
  | failed (k : Nat)
  | crashed (k : Nat)
deriving DecidableEq, Repr

/-- How many of the sectors reach the disk. -/
def Outcome.reached (count : Nat) : Outcome → Nat
  | .done => count
  | .failed k => min k count
  | .crashed k => min k count

theorem Outcome.reached_le (count : Nat) (outcome : Outcome) : outcome.reached count ≤ count := by
  cases outcome with
  | done => exact Nat.le_refl _
  | failed k => exact Nat.min_le_right _ _
  | crashed k => exact Nat.min_le_right _ _

namespace Disk

/-- `count` sectors of the buffer are on the disk. -/
def put (d : Disk) (start count : Nat) (buf : List UInt8) : Disk :=
  { d with
    bytes := fun a =>
      if sectorSize * start ≤ a ∧ a < sectorSize * (start + count) then
        byteAt buf (a - sectorSize * start)
      else d.bytes a }

def read (d : Disk) (start count : Nat) : Option (List UInt8) :=
  if d.capacity < start + count then none
  else some (bytesFrom d.bytes (sectorSize * start) (sectorSize * count))

def write (d : Disk) (outcome : Outcome) (start count : Nat) (buf : List UInt8) :
    Except Disk (Bool × Disk) :=
  if d.capacity < start + count then .ok (false, d)
  else if buf.length < count * sectorSize then .ok (false, d)
  else
    match outcome with
    | .done => .ok (true, d.put start count buf)
    | .failed k => .ok (false, d.put start (min k count) buf)
    | .crashed k => .error (d.put start (min k count) buf)

variable {d d' d'' : Disk} {lo hi start count k : Nat} {buf : List UInt8}

/-! ## What a write leaves alone -/

/-- The two disks have the same sectors from `lo` up to `hi`. -/
structure AgreeOn (lo hi : Nat) (d d' : Disk) : Prop where
  capacity : d'.capacity = d.capacity
  bytes : ∀ a, sectorSize * lo ≤ a → a < sectorSize * hi → d'.bytes a = d.bytes a

theorem AgreeOn.refl (lo hi : Nat) (d : Disk) : AgreeOn lo hi d d := ⟨rfl, fun _ _ _ => rfl⟩

theorem AgreeOn.trans (h : AgreeOn lo hi d d') (h' : AgreeOn lo hi d' d'') : AgreeOn lo hi d d'' :=
  ⟨h'.capacity.trans h.capacity, fun a hlo hhi => (h'.bytes a hlo hhi).trans (h.bytes a hlo hhi)⟩

theorem AgreeOn.mono {lo' hi' : Nat} (h : AgreeOn lo hi d d') (hlo : lo ≤ lo') (hhi : hi' ≤ hi) :
    AgreeOn lo' hi' d d' := by
  refine ⟨h.capacity, fun a ha hb => h.bytes a ?_ ?_⟩
  · exact Nat.le_trans (Nat.mul_le_mul_left _ hlo) ha
  · exact Nat.lt_of_lt_of_le hb (Nat.mul_le_mul_left _ hhi)

/-- A write changes no sector outside its range. -/
theorem agreeOn_put (buf : List UInt8) (h : hi ≤ start ∨ start + count ≤ lo) :
    AgreeOn lo hi d (d.put start count buf) := by
  refine ⟨rfl, fun a hlo hhi => if_neg ?_⟩
  unfold sectorSize at *
  omega

theorem bytesFrom_of_agreeOn (h : AgreeOn lo hi d d') {a n : Nat} (hlo : sectorSize * lo ≤ a)
    (hhi : a + n ≤ sectorSize * hi) : bytesFrom d'.bytes a n = bytesFrom d.bytes a n :=
  bytesFrom_congr fun i hi => h.bytes (a + i) (by omega) (by omega)

/-- A read depends on its sectors only. -/
theorem read_of_agreeOn (h : AgreeOn lo hi d d') (hlo : lo ≤ start) (hhi : start + count ≤ hi) :
    d'.read start count = d.read start count := by
  unfold read
  rw [h.capacity, bytesFrom_of_agreeOn h]
  · exact Nat.mul_le_mul_left _ hlo
  · rw [← Nat.mul_add]
    exact Nat.mul_le_mul_left _ hhi

/-! ## What a write puts -/

/-- The bytes of the sectors written. -/
theorem bytesFrom_put {a n : Nat} (h : a + n ≤ sectorSize * count) :
    bytesFrom (d.put start count buf).bytes (sectorSize * start + a) n =
      bytesFrom (byteAt buf) a n := by
  refine bytesFrom_congr fun i hi => ?_
  have hin : sectorSize * start ≤ sectorSize * start + a + i ∧
      sectorSize * start + a + i < sectorSize * (start + count) := by
    rw [Nat.mul_add]
    omega
  refine (if_pos hin).trans ?_
  congr 1
  omega

/-- A buffer that is written whole is read back. -/
theorem bytesFrom_put_self (d : Disk) (start : Nat) (h : buf.length = sectorSize * count) :
    bytesFrom (d.put start count buf).bytes (sectorSize * start) (sectorSize * count) = buf := by
  rw [← Nat.add_zero (sectorSize * start), bytesFrom_put (by omega),
    ← slice_eq_bytesFrom (by omega)]
  unfold slice
  rw [List.drop_zero, List.take_of_length_le (by omega)]

theorem put_zero : d.put start 0 buf = d := by
  unfold put
  congr 1
  funext a
  refine if_neg ?_
  rw [Nat.add_zero]
  omega

/-- A write puts some of its sectors, and all of them where it says so. -/
theorem write_ends (d : Disk) (outcome : Outcome) (start count : Nat) (buf : List UInt8) :
    Ends (d.write outcome start count buf)
      (fun r => ∃ k ≤ count, r.2 = d.put start k buf ∧
        (r.1 = true → k = count ∧ start + count ≤ d.capacity))
      (fun d' => ∃ k ≤ count, d' = d.put start k buf) := by
  unfold write
  split_ifs with hcap hbuf
  · exact ⟨0, Nat.zero_le _, put_zero.symm, nofun⟩
  · exact ⟨0, Nat.zero_le _, put_zero.symm, nofun⟩
  · cases outcome with
    | done => exact ⟨count, Nat.le_refl _, rfl, fun _ => ⟨rfl, Nat.le_of_not_lt hcap⟩⟩
    | failed k => exact ⟨min k count, Nat.min_le_right _ _, rfl, nofun⟩
    | crashed k => exact ⟨min k count, Nat.min_le_right _ _, rfl⟩

/-- A write of one sector puts it or leaves the disk as it is. -/
theorem write_one_ends {P : Disk → Prop} {start : Nat} {buf : List UInt8} (hold : P d)
    (hnew : P (d.put start 1 buf)) (outcome : Outcome) : Ends (d.write outcome start 1 buf)
      (fun r => P r.2 ∧ (r.1 = true → r.2 = d.put start 1 buf)) P := by
  have hcases : ∀ k ≤ 1, P (d.put start k buf) := by
    intro k hk
    rcases Nat.le_one_iff_eq_zero_or_eq_one.mp hk with rfl | rfl
    · rw [put_zero]
      exact hold
    · exact hnew
  refine (d.write_ends outcome start 1 buf).mono ?_ ?_
  · rintro ⟨done, d'⟩ ⟨k, hk, rfl, hdone⟩
    exact ⟨hcases k hk, fun htrue => by rw [(hdone htrue).1]⟩
  · rintro d' ⟨k, hk, rfl⟩
    exact hcases k hk

end Disk

end KnoxOS.Fs
