import KnoxOS.Vmm.PageTable

/-!
# User memory

`mm/vmm/user.rs`: the kernel reads and writes the memory of a process through its page tables, an
unmapped page reads as zeros and is skipped by a write. The source copies page by page and looks
the page up once; here each byte looks its page up, which is the same while the tables are not
written.
-/

namespace KnoxOS.Vmm

open Lib Swap

/-- `translate_vaddr_for_pid`: the physical page behind each page of an address space. -/
def PageMap : Type := Nat → Option Nat

/-- The page of an address. -/
def pageOf (vaddr : UInt64) : Nat := vaddr.toNat / pageSize * pageSize

def loadByte (mem : PhysMem) (pages : PageMap) (vaddr : UInt64) : UInt8 :=
  match pages (pageOf vaddr) with
  | some phys => mem phys (vaddr.toNat % pageSize)
  | none => 0

def storeByte (mem : PhysMem) (pages : PageMap) (vaddr : UInt64) (b : UInt8) : PhysMem :=
  match pages (pageOf vaddr) with
  | some phys => fun f o => if f = phys ∧ o = vaddr.toNat % pageSize then b else mem f o
  | none => mem

def readUserMemory (mem : PhysMem) (pages : PageMap) (vaddr : UInt64) (n : Nat) : List UInt8 :=
  bytesFrom (fun i => loadByte mem pages (vaddr + UInt64.ofNat i)) 0 n

def writeUserMemory (mem : PhysMem) (pages : PageMap) (vaddr : UInt64) : List UInt8 → PhysMem
  | [] => mem
  | b :: data => writeUserMemory (storeByte mem pages vaddr b) pages (vaddr + 1) data

/-- No two pages with addresses in `on` share a physical page. -/
def PageMap.PrivateOn (pages : PageMap) (on : UInt64 → Prop) : Prop :=
  ∀ a b phys, on a → on b → pages (pageOf a) = some phys → pages (pageOf b) = some phys →
    pageOf a = pageOf b

theorem byteAt_readUserMemory (mem : PhysMem) (pages : PageMap) (vaddr : UInt64) {n i : Nat}
    (hi : i < n) :
    byteAt (readUserMemory mem pages vaddr n) i = loadByte mem pages (vaddr + UInt64.ofNat i) := by
  simp [readUserMemory, bytesFrom, byteAt, hi]

theorem add_ofNat_zero (vaddr : UInt64) : vaddr + UInt64.ofNat 0 = vaddr := UInt64.add_zero vaddr

theorem add_ofNat_succ (vaddr : UInt64) (i : Nat) :
    vaddr + 1 + UInt64.ofNat i = vaddr + UInt64.ofNat (i + 1) := by
  rw [UInt64.add_assoc, Nat.add_comm i 1, UInt64.ofNat_add]
  rfl

section

variable {mem : PhysMem} {pages : PageMap} {vaddr addr : UInt64} {on : UInt64 → Prop}

theorem loadByte_storeByte_self (b : UInt8) (hmapped : (pages (pageOf vaddr)).isSome) :
    loadByte (storeByte mem pages vaddr b) pages vaddr = b := by
  unfold loadByte storeByte
  cases hpage : pages (pageOf vaddr) with
  | none => rw [hpage] at hmapped; cases hmapped
  | some phys => simp

/-- Where pages are private a store changes one address. -/
theorem loadByte_storeByte_ne (hprivate : pages.PrivateOn on) (haddr : on addr)
    (hvaddr : on vaddr) (b : UInt8) (hne : addr ≠ vaddr) :
    loadByte (storeByte mem pages vaddr b) pages addr = loadByte mem pages addr := by
  unfold loadByte storeByte
  cases hpage : pages (pageOf vaddr) with
  | none => rfl
  | some phys =>
    cases hpage' : pages (pageOf addr) with
    | none => rfl
    | some phys' =>
      refine if_neg fun hsame => hne ?_
      obtain ⟨hphys, hoffset⟩ := hsame
      rw [hphys] at hpage'
      have hpages := hprivate _ _ _ haddr hvaddr hpage' hpage
      unfold pageOf at hpages
      refine UInt64.toNat_inj.mp ?_
      have hdiv := Nat.div_add_mod' addr.toNat pageSize
      have hdiv' := Nat.div_add_mod' vaddr.toNat pageSize
      omega

/-- A write leaves the addresses outside its range alone. -/
theorem loadByte_writeUserMemory_outside (hprivate : pages.PrivateOn on) (haddr : on addr)
    (data : List UInt8) (hon : ∀ i < data.length, on (vaddr + UInt64.ofNat i))
    (hout : ∀ i < data.length, addr ≠ vaddr + UInt64.ofNat i) :
    loadByte (writeUserMemory mem pages vaddr data) pages addr = loadByte mem pages addr := by
  induction data generalizing mem vaddr with
  | nil => rfl
  | cons b data ih =>
    have hself := hon 0 (by simp)
    have hne := hout 0 (by simp)
    rw [add_ofNat_zero] at hself hne
    show loadByte (writeUserMemory (storeByte mem pages vaddr b) pages (vaddr + 1) data) pages
      addr = _
    rw [ih (fun i hi => ?_) (fun i hi => ?_), loadByte_storeByte_ne hprivate haddr hself b hne]
    · rw [add_ofNat_succ]
      exact hon (i + 1) (by simpa using hi)
    · rw [add_ofNat_succ]
      exact hout (i + 1) (by simpa using hi)

/-- A write to mapped pages is read back. -/
theorem loadByte_writeUserMemory_inside (hprivate : pages.PrivateOn on) (data : List UInt8)
    (hlength : data.length ≤ 2 ^ 64) (hon : ∀ i < data.length, on (vaddr + UInt64.ofNat i))
    (hmapped : ∀ i < data.length, (pages (pageOf (vaddr + UInt64.ofNat i))).isSome) {i : Nat}
    (hi : i < data.length) :
    loadByte (writeUserMemory mem pages vaddr data) pages (vaddr + UInt64.ofNat i) =
      byteAt data i := by
  induction data generalizing mem vaddr i with
  | nil => cases hi
  | cons b data ih =>
    rw [List.length_cons] at hlength hi
    have hrest : ∀ j < data.length, on (vaddr + 1 + UInt64.ofNat j) := by
      intro j hj
      rw [add_ofNat_succ]
      exact hon (j + 1) (by simpa using hj)
    show loadByte (writeUserMemory (storeByte mem pages vaddr b) pages (vaddr + 1) data) pages
      _ = _
    cases i with
    | zero =>
      have haddr := hon 0 (by simp)
      have hself := hmapped 0 (by simp)
      rw [add_ofNat_zero] at haddr hself ⊢
      rw [loadByte_writeUserMemory_outside hprivate haddr data hrest ?_,
        loadByte_storeByte_self b hself]
      · rfl
      -- the other bytes are at other addresses
      intro j hj heq
      rw [add_ofNat_succ] at heq
      have hnat := congrArg UInt64.toNat heq
      rw [UInt64.toNat_add, UInt64.toNat_ofNat'] at hnat
      omega
    | succ j =>
      rw [← add_ofNat_succ]
      refine ih (by omega) hrest (fun k hk => ?_) (by omega)
      rw [add_ofNat_succ]
      exact hmapped (k + 1) (by simpa using hk)

end

end KnoxOS.Vmm
