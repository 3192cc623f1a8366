import KnoxOS.Vmm.PageTable

/-!
# Typed page tables

Tables and data pages live in the same frames, so every argument about an address space rests on
knowing which frame is what. `Typed` assigns each table that hangs below a root (the L4 frame of
an address space) its root, its level and its place in the tree; kernel tables, which all roots
share, and free frames have no place. On a typed machine a walk from a root stays in that root's
own tables as long as the address lies in an L4 slot that the kernel template leaves unused, so
mapping, unmapping and re-flagging a page change the leaf of that page and no other:
`mapPageInTable_spec`, `unmapPage_spec` and `updatePageFlags_spec`. A fresh frame becomes a root
that shares the kernel slots, and roots and data frames go back to the pool.
-/

namespace KnoxOS.Vmm

open Function Lib Machine PhysMem Option

/-! ## Indices of a walk -/

/-- The page number of a 48-bit virtual address. -/
def vpn (vaddr : Nat) : Nat := vaddr / pageSize % 2 ^ 36

/-- The place, among all tables with `n` levels below them, of the one that serves `vaddr`. -/
def tableNo (n vaddr : Nat) : Nat := vpn vaddr / 512 ^ (n + 1)

variable {n v w : Nat} {mem : PhysMem}

/-- The index at a level is a digit of the page number in base 512. -/
theorem tableIdx_eq (hn : n ≤ 3) (vaddr : Nat) : tableIdx n vaddr = vpn vaddr / 512 ^ n % 512 := by
  have hand : tableIdx n vaddr = vaddr / 2 ^ (12 + 9 * n) % 512 := by
    rw [tableIdx, Nat.shiftRight_eq_div_pow]
    exact Nat.and_two_pow_sub_one_eq_mod _ 9
  rw [vpn]
  unfold pageSize
  rcases n with _ | _ | _ | _ | n
  · omega
  · omega
  · omega
  · omega
  · omega

theorem tableIdx_lt (n vaddr : Nat) : tableIdx n vaddr < 512 := by
  have hand : tableIdx n vaddr = vaddr >>> (12 + 9 * n) % 512 :=
    Nat.and_two_pow_sub_one_eq_mod _ 9
  rw [hand]
  exact Nat.mod_lt _ (by decide)

theorem tableNo_three (vaddr : Nat) : tableNo 3 vaddr = 0 := by
  unfold tableNo vpn
  omega

theorem tableNo_succ (hn : n < 3) (vaddr : Nat) :
    tableNo (n + 1) vaddr * 512 + tableIdx (n + 1) vaddr = tableNo n vaddr := by
  rw [tableIdx_eq (by omega), tableNo, tableNo, Nat.pow_succ 512 (n + 1), ← Nat.div_div_eq_div_mul]
  omega

theorem tableNo_zero (vaddr : Nat) : tableNo 0 vaddr * 512 + tableIdx 0 vaddr = vpn vaddr := by
  rw [tableIdx_eq (by omega), tableNo]
  omega

/-! ## The kernel template -/

/-- Physical memory when the first address space is created, and the frame of the kernel L4
template in it. -/
structure Boot where
  mem : PhysMem
  l4 : Nat

namespace Boot

/-- The tables of the template, with the number of levels below them. -/
inductive Table (b : Boot) : Nat → Nat → Prop where
  | root : Table b 3 b.l4
  | child {n table i : Nat} : Table b (n + 1) table → i < 512 → b.mem.readEntry table i ≠ 0 →
      ¬ (n + 1 < 3 ∧ entryHuge (b.mem.readEntry table i) = true) →
      Table b n (entryAddr (b.mem.readEntry table i))

/-- The template leaves the L4 slot of the address unused, so its tables are private to each
address space. -/
def Private (b : Boot) (vaddr : Nat) : Prop := b.mem.readEntry b.l4 (tableIdx 3 vaddr) = 0

instance (b : Boot) (vaddr : Nat) : Decidable (b.Private vaddr) :=
  inferInstanceAs (Decidable (_ = _))

end Boot

/-! ## Typed machines -/

/-- The place of a table: its root, the levels below it, and its number on its level. -/
structure Node where
  root : Nat
  level : Nat
  index : Nat

/-- Every frame with a place is a table whose entries lead to the tables of the next places. -/
structure Trees (b : Boot) (mem : PhysMem) (node : Nat → Option Node) : Prop where
  boot_mem : ∀ n f, b.Table n f → mem f = b.mem f
  boot_plain : ∀ n f, b.Table n f → node f = none
  node_frame : ∀ f, node f ≠ none → FrameAddr f ∧ 0 < f
  /-- A root shares the used slots of the template. -/
  root_kernel : ∀ c, node c = some ⟨c, 3, 0⟩ → ∀ i < 512, b.mem.readEntry b.l4 i ≠ 0 →
    mem.readEntry c i = b.mem.readEntry b.l4 i
  linked : ∀ t c n q i, node t = some ⟨c, n + 1, q⟩ → i < 512 →
    (n + 1 = 3 → b.mem.readEntry b.l4 i = 0) →
    mem.readEntry t i = 0 ∨ ∃ g, mem.readEntry t i = mkEntry g .pwu ∧ FrameAddr g ∧
      node g = some ⟨c, n, q * 512 + i⟩ ∧ n < 3

/-- The frames of the pool are aligned, listed once and no tables. -/
structure FreeFrames (b : Boot) (pool : PhysicalFramePool) (node : Nat → Option Node) : Prop where
  pool_aligned : pool.AllAligned
  free_nodup : pool.freeFrames.Nodup
  free_bound : ∀ f ∈ pool.freeFrames, 0 < f ∧ f < 2 ^ 52
  free_plain : ∀ f ∈ pool.freeFrames, node f = none ∧ ∀ n, ¬ b.Table n f

/-- A machine whose tables and free frames are known. -/
structure Typed (b : Boot) (m : Machine) (node : Nat → Option Node) : Prop
    extends Trees b m.mem node, FreeFrames b m.pool node where
  template : m.kernelL4 = b.l4

/-- The frame is the L4 table of an address space. -/
def IsRoot (node : Nat → Option Node) (c : Nat) : Prop := node c = some ⟨c, 3, 0⟩

theorem IsRoot.place {node : Nat → Option Node} {c : Nat} (hc : IsRoot node c) (vaddr : Nat) :
    node c = some ⟨c, 3, tableNo 3 vaddr⟩ := by
  rw [tableNo_three]
  exact hc

/-- The entry that a walk from a table with `n` levels below it finds for an address. -/
def leafFrom (mem : PhysMem) (n table vaddr : Nat) : Option Nat :=
  (findTable mem n table vaddr).bind fun l1 =>
    let entry := mem.readEntry l1 (tableIdx 0 vaddr)
    if entry = 0 then none else some entry

/-- The entry of the 4 KiB page at an address. -/
def leaf (mem : PhysMem) (cr3 vaddr : Nat) : Option Nat := leafFrom mem 3 cr3 vaddr

/-! ## Page numbers -/

theorem vpn_lt (v : Nat) : vpn v < 2 ^ 36 := Nat.mod_lt _ (by decide)

theorem vpn_mul {p : Nat} (hp : p < 2 ^ 36) : vpn (p * pageSize) = p := by
  rw [vpn, Nat.mul_div_cancel _ (by unfold pageSize; decide), Nat.mod_eq_of_lt hp]

theorem tableIdx_vpn (hn : n ≤ 3) (h : vpn v = vpn w) : tableIdx n v = tableIdx n w := by
  rw [tableIdx_eq hn, tableIdx_eq hn, h]

/-- The last table depends on the page only. -/
theorem findTable_vpn (mem : PhysMem) (h : vpn v = vpn w) (hn : n ≤ 3) (t : Nat) :
    findTable mem n t v = findTable mem n t w := by
  induction n generalizing t with
  | zero => rfl
  | succ n ih =>
    rw [findTable, findTable, tableIdx_vpn hn h]
    split
    · rfl
    · exact ih (by omega) _

theorem leaf_vpn (mem : PhysMem) (c : Nat) (h : vpn v = vpn w) : leaf mem c v = leaf mem c w := by
  rw [leaf, leaf, leafFrom, leafFrom, findTable_vpn mem h (Nat.le_refl 3),
    tableIdx_vpn (Nat.zero_le 3) h]

theorem private_vpn {b : Boot} (h : vpn v = vpn w) (hp : b.Private v) : b.Private w := by
  rwa [Boot.Private, ← tableIdx_vpn (Nat.le_refl 3) h]

/-- The walk goes down where the entry is not empty. -/
theorem leafFrom_succ (mem : PhysMem) (n table vaddr : Nat) :
    leafFrom mem (n + 1) table vaddr =
      if mem.readEntry table (tableIdx (n + 1) vaddr) = 0 then none
      else leafFrom mem n (entryAddr (mem.readEntry table (tableIdx (n + 1) vaddr))) vaddr := by
  rw [leafFrom, findTable]
  simp only
  split
  · simp only [bind_none]
  · rw [leafFrom]

theorem leafFrom_eq_none {table : Nat} (h : ∀ i, mem.readEntry table i = 0) (n vaddr : Nat) :
    leafFrom mem n table vaddr = none := by
  cases n with
  | zero =>
    rw [leafFrom, findTable]
    simp only [bind_some, h, if_true]
  | succ n => rw [leafFrom_succ, if_pos (h _)]

section Walks

variable {b : Boot} {m : Machine} {node : Nat → Option Node} {c vaddr : Nat} {n t : Nat}

/-- The slot of a private address in a table of its own path links to the next table. -/
theorem Typed.link (h : Typed b m node) (hn : n < 3)
    (ht : node t = some ⟨c, n + 1, tableNo (n + 1) vaddr⟩) (hp : b.Private vaddr) :
    m.mem.readEntry t (tableIdx (n + 1) vaddr) = 0 ∨
      ∃ g, m.mem.readEntry t (tableIdx (n + 1) vaddr) = mkEntry g .pwu ∧ FrameAddr g ∧
        node g = some ⟨c, n, tableNo n vaddr⟩ := by
  have hlinked := h.linked t c n _ _ ht (tableIdx_lt (n + 1) vaddr) fun htop => htop ▸ hp
  rw [tableNo_succ hn] at hlinked
  exact hlinked.imp_right fun ⟨g, hentry, hg, hnode, _⟩ => ⟨g, hentry, hg, hnode⟩

theorem findTable_of_zero (h : mem.readEntry t (tableIdx (n + 1) vaddr) = 0) :
    findTable mem (n + 1) t vaddr = none := by
  simp only [findTable, h, if_true]

theorem findTable_of_link {g : Nat} (h : mem.readEntry t (tableIdx (n + 1) vaddr) = mkEntry g .pwu)
    (hg : FrameAddr g) : findTable mem (n + 1) t vaddr = findTable mem n g vaddr := by
  simp only [findTable, h, mkEntry_ne_zero hg (f := .pwu) rfl, if_false, entryAddr_mkEntry hg]

variable (h : Typed b m node) (hp : b.Private vaddr)
include h hp

/-- A walk from a typed table of the address ends in the level-1 table of the address. -/
theorem Typed.findTable_node {l1 : Nat} (hn : n ≤ 3) (ht : node t = some ⟨c, n, tableNo n vaddr⟩)
    (hfind : findTable m.mem n t vaddr = some l1) : node l1 = some ⟨c, 0, tableNo 0 vaddr⟩ := by
  induction n generalizing t with
  | zero =>
    cases hfind
    exact ht
  | succ n ih =>
    rcases h.link (by omega) ht hp with hzero | ⟨g, hentry, hg, hnode⟩
    · rw [findTable_of_zero hzero] at hfind
      cases hfind
    · rw [findTable_of_link hentry hg] at hfind
      exact ih (by omega) hnode hfind

/-- No private table holds a large page, so the readers walk the same way. -/
theorem Typed.walk_eq (hn : n ≤ 3) (ht : node t = some ⟨c, n, tableNo n vaddr⟩) :
    walk m.mem n t vaddr = match findTable m.mem n t vaddr with
      | none => .unused
      | some l1 => .table l1 := by
  induction n generalizing t with
  | zero => rfl
  | succ n ih =>
    rw [walk]
    rcases h.link (by omega) ht hp with hzero | ⟨g, hentry, hg, hnode⟩
    · rw [findTable_of_zero hzero, hzero]
      rfl
    · rw [findTable_of_link hentry hg, hentry]
      simp only [mkEntry_ne_zero hg (f := .pwu) rfl, if_false, entryAddr_mkEntry hg,
        entryHuge_mkEntry hg, Bool.false_eq_true, and_false]
      exact ih (by omega) hnode

/-- No huge pages: a translation is the last-level entry. -/
theorem Typed.translation_eq (hc : IsRoot node c) :
    translation m.mem c vaddr = (leaf m.mem c vaddr).map fun entry => (0, entry) := by
  have hwalk := h.walk_eq hp (Nat.le_refl 3) (hc.place vaddr)
  rw [translation, leaf, leafFrom, hwalk]
  cases findTable m.mem 3 c vaddr with
  | none => rfl
  | some l1 =>
    simp only [bind_some]
    split <;> rfl

theorem Typed.getMappedFrame_eq (hc : IsRoot node c) :
    getMappedFrame m.mem c vaddr = (leaf m.mem c vaddr).map entryAddr := by
  rw [getMappedFrame, h.translation_eq hp hc, map_map]
  rfl

omit hp in
/-- The walk below a table of the template reads tables of the template only. -/
theorem Typed.walk_template (vaddr : Nat) (hn : n < 3) (ht : b.Table n t) :
    walk m.mem n t vaddr = walk b.mem n t vaddr ∧
      ∀ l1, walk b.mem n t vaddr = .table l1 → b.Table 0 l1 := by
  induction n generalizing t with
  | zero =>
    refine ⟨rfl, fun l1 hl1 => ?_⟩
    cases hl1
    exact ht
  | succ n ih =>
    have hread := readEntry_congr (h.boot_mem _ t ht) (tableIdx (n + 1) vaddr)
    simp only [walk, hread]
    split_ifs with hzero hhuge
    · exact ⟨rfl, fun l1 hl1 => by cases hl1⟩
    · exact ⟨rfl, fun l1 hl1 => by cases hl1⟩
    · exact ih (by omega) (.child ht (tableIdx_lt _ _) hzero hhuge)

omit hp in
/-- An address in a slot of the template has the translation that the template gives it. -/
theorem Typed.translation_kernel (hc : IsRoot node c) (hkernel : ¬ b.Private vaddr) :
    translation m.mem c vaddr = translation b.mem b.l4 vaddr := by
  unfold Boot.Private at hkernel
  have hslot := h.root_kernel c hc _ (tableIdx_lt 3 vaddr) hkernel
  have htable := Boot.Table.child .root (tableIdx_lt 3 vaddr) hkernel (by simp)
  obtain ⟨hwalk, hend⟩ := h.walk_template vaddr (by omega) htable
  -- the highest level holds no large page
  have htop : ∀ (mem : PhysMem) (t : Nat), mem.readEntry t (tableIdx 3 vaddr) =
      b.mem.readEntry b.l4 (tableIdx 3 vaddr) → walk mem 3 t vaddr =
        walk mem 2 (entryAddr (b.mem.readEntry b.l4 (tableIdx 3 vaddr))) vaddr := by
    intro mem t ht
    show (if _ then _ else if _ then _ else _) = _
    rw [ht, if_neg hkernel, if_neg (by simp)]
  rw [translation, translation, htop m.mem c hslot, htop b.mem b.l4 rfl, hwalk]
  cases hl1 : walk b.mem 2 (entryAddr (b.mem.readEntry b.l4 (tableIdx 3 vaddr))) vaddr with
  | unused => rfl
  | huge level entry => rfl
  | table l1 => simp only [readEntry_congr (h.boot_mem 0 l1 (hend l1 hl1))]

end Walks

/-! ## Memory that a walk does not see -/

section Frames

variable {b : Boot} {m m' : Machine} {node : Nat → Option Node} {c vaddr : Nat} {mem : PhysMem}

section

variable (h : Typed b m node) (hp : b.Private vaddr)
include h hp

/-- A walk reads the entries on its path only. -/
theorem Typed.findTable_congr {n t : Nat} (hn : n ≤ 3) (ht : node t = some ⟨c, n, tableNo n vaddr⟩)
    (hpath : ∀ t n, node t = some ⟨c, n + 1, tableNo (n + 1) vaddr⟩ →
      mem.readEntry t (tableIdx (n + 1) vaddr) = m.mem.readEntry t (tableIdx (n + 1) vaddr)) :
    findTable mem n t vaddr = findTable m.mem n t vaddr := by
  induction n generalizing t with
  | zero => rfl
  | succ n ih =>
    have hread := hpath t n ht
    rcases h.link (by omega) ht hp with hzero | ⟨g, hentry, hg, hnode⟩
    · rw [findTable_of_zero (hread.trans hzero), findTable_of_zero hzero]
    · rw [findTable_of_link (hread.trans hentry) hg, findTable_of_link hentry hg]
      exact ih (by omega) hnode

variable (hc : IsRoot node c)
include hc

theorem Typed.findTable_root {l1 : Nat} (hfind : findTable m.mem 3 c vaddr = some l1) :
    node l1 = some ⟨c, 0, tableNo 0 vaddr⟩ :=
  h.findTable_node hp (Nat.le_refl 3) (hc.place vaddr) hfind

/-- The entry of an address depends on the tables of its path only. -/
theorem Typed.leaf_path (hpath : ∀ t n, node t = some ⟨c, n, tableNo n vaddr⟩ →
      mem.readEntry t (tableIdx n vaddr) = m.mem.readEntry t (tableIdx n vaddr)) :
    leaf mem c vaddr = leaf m.mem c vaddr := by
  rw [leaf, leaf, leafFrom, leafFrom, h.findTable_congr hp (Nat.le_refl 3) (hc.place vaddr)
    fun t n ht => hpath t (n + 1) ht]
  cases hfind : findTable m.mem 3 c vaddr with
  | none => simp only [bind_none]
  | some l1 => simp only [bind_some, hpath l1 0 (h.findTable_root hp hc hfind)]

theorem Typed.leaf_congr (hmem : ∀ t n q, node t = some ⟨c, n, q⟩ → mem t = m.mem t) :
    leaf mem c vaddr = leaf m.mem c vaddr :=
  h.leaf_path hp hc fun t n ht => readEntry_congr (hmem t n _ ht) _

end

/-- A machine stays typed when only level-1 tables and frames that are no tables change. -/
theorem Typed.of_mem (h : Typed b m node) (htemplate : m'.kernelL4 = m.kernelL4)
    (hpool : m'.pool = m.pool)
    (hupper : ∀ t c n q, node t = some ⟨c, n + 1, q⟩ → m'.mem t = m.mem t)
    (hboot : ∀ n f, b.Table n f → m'.mem f = m.mem f) : Typed b m' node where
  boot_mem n f hf := (hboot n f hf).trans (h.boot_mem n f hf)
  boot_plain := h.boot_plain
  node_frame := h.node_frame
  root_kernel c hc i hi hne := by
    rw [readEntry_congr (hupper c c 2 0 hc)]
    exact h.root_kernel c hc i hi hne
  linked t c n q i ht hi hp := by
    rw [readEntry_congr (hupper t c n q ht)]
    exact h.linked t c n q i ht hi hp
  toFreeFrames := hpool ▸ h.toFreeFrames
  template := htemplate.trans h.template

section

variable {l1 : Nat}

theorem writeEntry_upper {q : Nat} (hl1 : node l1 = some ⟨c, 0, q⟩) (i entry : Nat) :
    ∀ t d n q, node t = some ⟨d, n + 1, q⟩ → m.mem.writeEntry l1 i entry t = m.mem t := by
  intro t d n q ht
  refine writeEntry_of_ne _ _ _ ?_
  rintro rfl
  rw [hl1] at ht
  cases ht

variable (h : Typed b m node) (hp : b.Private vaddr) (hc : IsRoot node c) {entry : Nat}
    (hfind : findTable m.mem 3 c vaddr = some l1)
include h hp hc hfind

/-- Writing one leaf sets the entry of its page … -/
theorem Typed.leaf_writeEntry_self (hentry : entry < 2 ^ 64) :
    leaf (m.mem.writeEntry l1 (tableIdx 0 vaddr) entry) c vaddr =
      if entry = 0 then none else some entry := by
  have hupper := writeEntry_upper (m := m) (h.findTable_root hp hc hfind) (tableIdx 0 vaddr) entry
  rw [leaf, leafFrom, h.findTable_congr hp (Nat.le_refl 3) (hc.place vaddr)
    fun t n ht => readEntry_congr (hupper t c n _ ht) _, hfind]
  simp only [bind_some, readEntry_writeEntry_self _ _ _ hentry]

/-- … and of no other. -/
theorem Typed.leaf_writeEntry_ne {d w : Nat} (hd : IsRoot node d) (hw : b.Private w)
    (hne : ¬ (d = c ∧ vpn w = vpn vaddr)) :
    leaf (m.mem.writeEntry l1 (tableIdx 0 vaddr) entry) d w = leaf m.mem d w := by
  refine h.leaf_path hw hd fun t n ht => readEntry_writeEntry_ne _ _ ?_
  -- the same slot of the same table would serve the same page
  rintro ⟨rfl, hidx⟩
  rw [h.findTable_root hp hc hfind] at ht
  injection ht with hnode
  injection hnode with hroot hlevel hno
  subst hlevel
  exact hne ⟨hroot.symm, by rw [← tableNo_zero w, ← tableNo_zero vaddr, hno, hidx]⟩

end

end Frames

/-! ## One frame changes its place -/

section Places

variable {b : Boot} {mem mem' : PhysMem} {pool pool' : PhysicalFramePool}
  {node node' : Nat → Option Node} {f : Nat}

/-- A frame that is no table, or a root, takes the place `x` or none. As a table it is empty but
for the slots that a root shares with the template. -/
theorem Trees.place (h : Trees b mem node) {x : Option Node} (hold : node f = none ∨ IsRoot node f)
    (hframe : FrameAddr f ∧ 0 < f) (hboot : ∀ n, ¬ b.Table n f) (hmem : ∀ g, g ≠ f → mem' g = mem g)
    (hkernel : x = some ⟨f, 3, 0⟩ → ∀ i < 512, b.mem.readEntry b.l4 i ≠ 0 →
      mem'.readEntry f i = b.mem.readEntry b.l4 i)
    (hempty : ∀ c n q, x = some ⟨c, n + 1, q⟩ → ∀ i < 512,
      (n + 1 = 3 → b.mem.readEntry b.l4 i = 0) → mem'.readEntry f i = 0) :
    Trees b mem' (update node f x) := by
  have hother : ∀ g, g ≠ f → update node f x g = node g := fun g hg => update_of_ne hg ..
  have hboot' : ∀ n g, b.Table n g → g ≠ f := fun n g hg heq => hboot n (heq ▸ hg)
  refine ⟨fun n g hg => ?_, fun n g hg => ?_, fun g hg => ?_, fun c hc i hi hused => ?_,
    fun t c n q i ht hi hslot => ?_⟩
  · rw [hmem g (hboot' n g hg)]
    exact h.boot_mem n g hg
  · rw [hother g (hboot' n g hg)]
    exact h.boot_plain n g hg
  · by_cases hgf : g = f
    · exact hgf ▸ hframe
    · exact h.node_frame g (hother g hgf ▸ hg)
  · by_cases hcf : c = f
    · subst hcf
      exact hkernel (by rwa [update_self] at hc) i hi hused
    · rw [readEntry_congr (hmem c hcf)]
      exact h.root_kernel c (hother c hcf ▸ hc) i hi hused
  · by_cases htf : t = f
    · subst htf
      exact .inl (hempty c n q (by rwa [update_self] at ht) i hi hslot)
    · rw [readEntry_congr (hmem t htf)]
      refine (h.linked t c n q i (hother t htf ▸ ht) hi hslot).imp_right
        fun ⟨g, hentry, hg, hnode, hn⟩ => ⟨g, hentry, hg, ?_, hn⟩
      -- tables lead to tables of lower levels, never to a root
      rw [hother g, hnode]
      rintro rfl
      rcases hold with hnone | hroot
      · rw [hnone] at hnode
        cases hnode
      · rw [hroot] at hnode
        injection hnode with hnode
        injection hnode with _ hlevel _
        omega

/-- A table is linked into the slot of its place. -/
theorem Trees.writeLink (h : Trees b mem node) {t c n q i : Nat}
    (ht : node t = some ⟨c, n + 1, q⟩) (hn : n < 3)
    (hslot : n + 1 = 3 → b.mem.readEntry b.l4 i = 0) (hf : node f = some ⟨c, n, q * 512 + i⟩) :
    Trees b (mem.writeEntry t i (mkEntry f .pwu)) node := by
  have hframe := (h.node_frame f (by rw [hf]; simp)).1
  refine ⟨fun k g hg => ?_, h.boot_plain, h.node_frame, fun d hd j hj hused => ?_,
    fun g d k r j hg hj hp => ?_⟩
  · refine (writeEntry_of_ne _ _ _ ?_).trans (h.boot_mem k g hg)
    rintro rfl
    rw [h.boot_plain k g hg] at ht
    cases ht
  · refine (readEntry_writeEntry_ne _ _ ?_).trans (h.root_kernel d hd j hj hused)
    -- the slot is unused in the template, so it is not a kernel slot
    rintro ⟨rfl, rfl⟩
    rw [ht] at hd
    injection hd with hd
    injection hd with _ hlevel _
    exact hused (hslot hlevel)
  · by_cases hsame : g = t ∧ j = i
    · obtain ⟨rfl, rfl⟩ := hsame
      rw [ht] at hg
      cases hg
      exact .inr ⟨f, readEntry_writeEntry_self _ _ _ (mkEntry_lt hframe _), hframe, hf, hn⟩
    · rw [readEntry_writeEntry_ne _ _ hsame]
      exact h.linked g d k r j hg hj hp

/-- A frame that is no table. -/
structure Plain (b : Boot) (node : Nat → Option Node) (f : Nat) : Prop where
  frame : FrameAddr f ∧ 0 < f
  no_node : node f = none
  no_boot : ∀ n, ¬ b.Table n f

variable (h : FreeFrames b pool node) (hother : ∀ g, g ≠ f → node' g = node g)
include h hother

/-- Allocating takes one plain frame from the free ones. -/
theorem FreeFrames.allocate (halloc : pool.allocate = (some f, pool')) :
    f ∈ pool.freeFrames ∧ Plain b node f ∧ FreeFrames b pool' node' ∧
      ∀ g, g ∈ pool'.freeFrames ↔ g ∈ pool.freeFrames ∧ g ≠ f := by
  obtain ⟨hdvd, haligned, hfree, -, -⟩ := PhysicalFramePool.allocate_spec h.pool_aligned halloc
  have hnodup := h.free_nodup
  rw [hfree, Multiset.nodup_cons] at hnodup
  have hmem : f ∈ pool.freeFrames := by
    rw [hfree]
    exact Multiset.mem_cons_self _ _
  have hiff : ∀ g, g ∈ pool'.freeFrames ↔ g ∈ pool.freeFrames ∧ g ≠ f := by
    intro g
    rw [hfree, Multiset.mem_cons]
    constructor
    · exact fun hg => ⟨.inr hg, fun heq => hnodup.1 (heq ▸ hg)⟩
    · rintro ⟨hg | hg, hne⟩
      · exact absurd hg hne
      · exact hg
  obtain ⟨hpos, hlt⟩ := h.free_bound f hmem
  obtain ⟨hnode, hboot⟩ := h.free_plain f hmem
  refine ⟨hmem, ⟨⟨⟨Nat.mod_eq_zero_of_dvd hdvd, hlt⟩, hpos⟩, hnode, hboot⟩,
    ⟨haligned, hnodup.2, fun g hg => h.free_bound g ((hiff g).mp hg).1, fun g hg => ?_⟩, hiff⟩
  obtain ⟨hg, hne⟩ := (hiff g).mp hg
  rw [hother g hne]
  exact h.free_plain g hg

/-- A frame that is no table goes back to the pool. -/
theorem FreeFrames.freeFrame (hself : node' f = none) (hframe : FrameAddr f ∧ 0 < f)
    (hfree : f ∉ pool.freeFrames) (hboot : ∀ n, ¬ b.Table n f) :
    FreeFrames b (pool.freeFrame f) node' ∧
      ∀ g, g ∈ (pool.freeFrame f).freeFrames ↔ g = f ∨ g ∈ pool.freeFrames := by
  obtain ⟨haligned, hframes, -, -⟩ :=
    PhysicalFramePool.freeFrame_spec h.pool_aligned (Nat.dvd_of_mod_eq_zero hframe.1.1)
  have hiff : ∀ g, g ∈ (pool.freeFrame f).freeFrames ↔ g = f ∨ g ∈ pool.freeFrames := by
    intro g
    rw [hframes, Multiset.mem_cons]
  refine ⟨⟨haligned, ?_, fun g hg => ?_, fun g hg => ?_⟩, hiff⟩
  · rw [hframes, Multiset.nodup_cons]
    exact ⟨hfree, h.free_nodup⟩
  · rcases (hiff g).mp hg with rfl | hg
    · exact ⟨hframe.2, hframe.1.2⟩
    · exact h.free_bound g hg
  · rcases (hiff g).mp hg with rfl | hg
    · exact ⟨hself, hboot⟩
    · rw [hother g fun heq => hfree (heq ▸ hg)]
      exact h.free_plain g hg

end Places

/-! ## Creating tables -/

/-- Tables may have been added in free frames, and the pages of `X`, given by root and page number,
may have been edited; nothing else has changed. -/
structure Edits (b : Boot) (m m' : Machine) (node node' : Nat → Option Node)
    (X : Nat → Nat → Prop) : Prop where
  typed : Typed b m' node'
  keeps : ∀ f, node f ≠ none → node' f = node f
  root_iff : ∀ c, IsRoot node' c ↔ IsRoot node c
  added : ∀ f, node' f ≠ none → node f = none → f ∈ m.pool.freeFrames
  free : ∀ f, f ∈ m'.pool.freeFrames ↔ f ∈ m.pool.freeFrames ∧ node' f = none
  leaf_eq : ∀ c v, IsRoot node c → b.Private v → ¬ X c (vpn v) → leaf m'.mem c v = leaf m.mem c v
  data : ∀ f, f ∉ m.pool.freeFrames → node f = none → m'.mem f = m.mem f

/-- Tables have been added, and every entry of the tables before is as it was. -/
structure Grows (b : Boot) (m m' : Machine) (node node' : Nat → Option Node) : Prop
    extends Edits b m m' node node' fun _ _ => False where
  entry_eq : ∀ t i, node t ≠ none → m.mem.readEntry t i ≠ 0 →
    m'.mem.readEntry t i = m.mem.readEntry t i

section Growth

variable {b : Boot} {m m' m'' : Machine} {node node' node'' : Nat → Option Node} {c vaddr : Nat}
  {X Y : Nat → Nat → Prop}

theorem Edits.mono (h : Edits b m m' node node' X) (hXY : ∀ c p, X c p → Y c p) :
    Edits b m m' node node' Y :=
  { h with leaf_eq := fun c v hc hv hY => h.leaf_eq c v hc hv fun hX => hY (hXY _ _ hX) }

/-- Edits of the same pages compose. -/
theorem Edits.trans (h : Edits b m m' node node' X) (h' : Edits b m' m'' node' node'' X) :
    Edits b m m'' node node'' X := by
  have hnone : ∀ f, node'' f = none → node' f = none := by
    intro f hf
    by_contra hne
    rw [h'.keeps f hne] at hf
    exact hne hf
  refine ⟨h'.typed, fun f hf => ?_, fun c => (h'.root_iff c).trans (h.root_iff c),
    fun f hf hnode => ?_, fun f => ?_, fun c v hc hv hX => ?_, fun f hf hnode => ?_⟩
  · have hkeep := h.keeps f hf
    rw [h'.keeps f (by rwa [hkeep]), hkeep]
  · by_cases hmid : node' f = none
    · exact ((h.free f).mp (h'.added f hf hmid)).1
    · exact h.added f hmid hnode
  · rw [h'.free, h.free]
    exact ⟨fun ⟨⟨h1, _⟩, h2⟩ => ⟨h1, h2⟩, fun ⟨h1, h2⟩ => ⟨⟨h1, hnone f h2⟩, h2⟩⟩
  · rw [h'.leaf_eq c v ((h.root_iff c).mpr hc) hv hX, h.leaf_eq c v hc hv hX]
  · rw [h'.data f (fun hin => hf ((h.free f).mp hin).1)
      (by_contra fun hne => hf (h.added f hne hnode)), h.data f hf hnode]

/-- A change outside of memory and pool adds no table. -/
theorem Grows.of_pool_eq (h : Typed b m node) (htemplate : m'.kernelL4 = m.kernelL4)
    (hmem : m'.mem = m.mem) (hpool : m'.pool = m.pool) : Grows b m m' node node where
  typed := h.of_mem htemplate hpool (fun _ _ _ _ _ => by rw [hmem]) fun _ _ _ => by rw [hmem]
  keeps _ _ := rfl
  root_iff _ := .rfl
  added f hf hnone := absurd hnone hf
  free f := by
    rw [hpool]
    exact ⟨fun hf => ⟨hf, (h.free_plain f hf).1⟩, And.left⟩
  leaf_eq _ _ _ _ _ := by rw [hmem]
  data _ _ _ := by rw [hmem]
  entry_eq _ _ _ _ := by rw [hmem]

theorem Edits.refl (h : Typed b m node) (X : Nat → Nat → Prop) : Edits b m m node node X :=
  (Grows.of_pool_eq h rfl rfl rfl).mono fun _ _ hfalse => hfalse.elim

/-- A link to a table stays. -/
theorem Grows.link_eq (h : Grows b m m' node node') {t i g : Nat} (ht : node t ≠ none)
    (hentry : m.mem.readEntry t i = mkEntry g .pwu) (hg : FrameAddr g) :
    m'.mem.readEntry t i = mkEntry g .pwu := by
  rw [h.entry_eq t i ht (by rw [hentry]; exact mkEntry_ne_zero hg rfl), hentry]

/-- Growths compose. -/
theorem Grows.trans (h : Grows b m m' node node') (h' : Grows b m' m'' node' node'') :
    Grows b m m'' node node'' where
  toEdits := h.toEdits.trans h'.toEdits
  entry_eq t i ht hi := by
    have hentry := h.entry_eq t i ht hi
    rw [h'.entry_eq t i (by rwa [h.keeps t ht]) (by rwa [hentry]), hentry]

variable {pool : PhysicalFramePool} {f n t : Nat}

/-- Linking a zeroed frame into an unused slot adds one table. -/
theorem Typed.linkTable (h : Typed b m node) {q i : Nat} (ht : node t = some ⟨c, n + 1, q⟩)
    (hn : n < 3) (hslot : n + 1 = 3 → b.mem.readEntry b.l4 i = 0)
    (hunused : m.mem.readEntry t i = 0) (halloc : m.pool.allocate = (some f, pool)) :
    Grows b m { m with pool := pool, mem := (m.mem.zeroFrame f).writeEntry t i (mkEntry f .pwu) }
      node (update node f (some ⟨c, n, q * 512 + i⟩)) := by
  set mem := (m.mem.zeroFrame f).writeEntry t i (mkEntry f .pwu) with hmem
  set node' := update node f (some (⟨c, n, q * 512 + i⟩ : Node)) with hnode'
  have hself : node' f = some ⟨c, n, q * 512 + i⟩ := update_self ..
  have hother : ∀ g, g ≠ f → node' g = node g := fun g hg => update_of_ne hg ..
  obtain ⟨hin, hfresh, hpool, hfree⟩ := h.toFreeFrames.allocate hother halloc
  have hold : ∀ g x, node g = some x → g ≠ f := by
    rintro g x hg rfl
    rw [hfresh.no_node] at hg
    cases hg
  have htrees : Trees b mem node' := by
    refine Trees.writeLink ?_ ((hother t (hold t _ ht)).trans ht) hn hslot hself
    refine h.toTrees.place (.inl hfresh.no_node) hfresh.frame hfresh.no_boot
      (fun g hg => zeroFrame_of_ne _ hg) (fun hroot => ?_) fun _ _ _ _ j _ _ =>
        readEntry_zeroFrame _ _ _
    injection hroot with hroot
    injection hroot with _ hlevel _
    omega
  -- the parent gains one entry, the other tables are as before
  have hentry_new : mem.readEntry t i = mkEntry f .pwu :=
    readEntry_writeEntry_self _ _ _ (mkEntry_lt hfresh.frame.1 _)
  have hentry_old : ∀ g j x, node g = some x → ¬ (g = t ∧ j = i) →
      mem.readEntry g j = m.mem.readEntry g j := by
    intro g j x hg hne
    rw [readEntry_writeEntry_ne _ _ hne]
    exact readEntry_congr (zeroFrame_of_ne _ (hold g x hg)) j
  -- the new table is empty, so no walk finds a page through it
  have hleaf : ∀ d v, b.Private v → ∀ k ≤ 3, ∀ g, node g = some ⟨d, k, tableNo k v⟩ →
      leafFrom mem k g v = leafFrom m.mem k g v := by
    intro d v hv k
    induction k with
    | zero =>
      intro _ g hg
      have hgt : ¬ (g = t ∧ tableIdx 0 v = i) := by
        rintro ⟨rfl, -⟩
        rw [ht] at hg
        cases hg
      rw [leafFrom, leafFrom, findTable, findTable]
      simp only [bind_some, hentry_old g _ _ hg hgt]
    | succ k ih =>
      intro hk g hg
      rw [leafFrom_succ, leafFrom_succ]
      by_cases hsame : g = t ∧ tableIdx (k + 1) v = i
      · obtain ⟨rfl, hidx⟩ := hsame
        rw [hidx, hentry_new, hunused, if_neg (mkEntry_ne_zero hfresh.frame.1 rfl), if_pos rfl,
          entryAddr_mkEntry hfresh.frame.1]
        refine leafFrom_eq_none (fun j => ?_) k v
        rw [readEntry_writeEntry_ne _ _ fun heq => hold g _ hg heq.1.symm]
        exact readEntry_zeroFrame _ _ _
      · rw [hentry_old g _ _ hg hsame]
        rcases h.link (by omega) hg hv with hzero | ⟨x, hentry, hx, hnode⟩
        · rw [hzero, if_pos rfl, if_pos rfl]
        · rw [hentry, if_neg (mkEntry_ne_zero hx rfl), if_neg (mkEntry_ne_zero hx rfl),
            entryAddr_mkEntry hx]
          exact ih (by omega) x hnode
  have hkeeps : ∀ g, node g ≠ none → node' g = node g := by
    intro g hg
    obtain ⟨x, hx⟩ := ne_none_iff_exists'.mp hg
    exact hother g (hold g x hx)
  refine ⟨⟨⟨htrees, hpool, h.template⟩, hkeeps, fun d => ⟨fun hd => ?_, fun hd => ?_⟩,
    fun g hg hnone => ?_, fun g => ?_,
    fun d v hd hv _ => hleaf d v hv 3 (Nat.le_refl 3) d (hd.place v), fun g hg hnone => ?_⟩,
    fun g j hg hne => ?_⟩
  · have hdf : d ≠ f := by
      rintro rfl
      rw [IsRoot, hself] at hd
      injection hd with hd
      injection hd with _ hlevel _
      omega
    rwa [IsRoot, hother d hdf] at hd
  · exact (hother d (hold d _ hd)).trans hd
  · by_contra hnot
    rw [hother g fun heq => hnot (heq ▸ hin)] at hg
    exact hg hnone
  · rw [hfree]
    constructor
    · rintro ⟨hg, hne⟩
      exact ⟨hg, (hother g hne).trans (h.free_plain g hg).1⟩
    · rintro ⟨hg, hnone⟩
      refine ⟨hg, ?_⟩
      rintro rfl
      rw [hself] at hnone
      cases hnone
  · refine (writeEntry_of_ne _ _ _ ?_).trans (zeroFrame_of_ne _ ?_)
    · rintro rfl
      rw [hnone] at ht
      cases ht
    · rintro rfl
      exact hg hin
  · obtain ⟨x, hx⟩ := ne_none_iff_exists'.mp hg
    refine hentry_old g j x hx ?_
    rintro ⟨rfl, rfl⟩
    exact hne hunused

theorem allocatePageTableFrame_of_some (h : m.pool.allocate = (some f, pool)) :
    m.allocatePageTableFrame = (some f, { m with pool := pool, mem := m.mem.zeroFrame f }) := by
  simp [allocatePageTableFrame, allocatePhysicalFrame, h]

theorem allocatePageTableFrame_of_none (h : m.pool.allocate = (none, pool)) :
    m.allocatePageTableFrame = (none, { m with pool := pool, swap := dropVictims 16 m.swap }) := by
  simp [allocatePageTableFrame, allocatePhysicalFrame, h]

/-- A table that exists is walked through. -/
theorem ensureTables_of_link {g : Nat}
    (hentry : m.mem.readEntry t (tableIdx (n + 1) vaddr) = mkEntry g .pwu) (hg : FrameAddr g) :
    ensureTables (n + 1) m t vaddr = ensureTables n m g vaddr := by
  rw [ensureTables]
  simp only [hentry, mkEntry_ne_zero hg (f := .pwu) rfl, if_false, entryAddr_mkEntry hg,
    entryHuge_mkEntry hg, Bool.false_eq_true, and_false]

/-- The walk of `map_page_in_table` adds the missing tables of the address and ends in its level-1
table unless the frames run out. -/
theorem Typed.ensureTables_spec (h : Typed b m node) (hp : b.Private vaddr) (hn : n ≤ 3)
    (ht : node t = some ⟨c, n, tableNo n vaddr⟩) :
    ∃ node', Grows b m (ensureTables n m t vaddr).2 node node' ∧
      ∀ l1, (ensureTables n m t vaddr).1 = some l1 →
        findTable (ensureTables n m t vaddr).2.mem n t vaddr = some l1 := by
  induction n generalizing m node t with
  | zero =>
    refine ⟨node, .of_pool_eq h rfl rfl rfl, fun l1 hl1 => ?_⟩
    simpa [ensureTables, findTable] using hl1
  | succ n ih =>
    rcases h.link (by omega) ht hp with hzero | ⟨g, hentry, hg, hnode⟩
    · cases halloc : m.pool.allocate with
      | mk frame pool =>
        cases frame with
        | none =>
          obtain ⟨rfl, -⟩ := PhysicalFramePool.allocate_none halloc
          have heq : ensureTables (n + 1) m t vaddr =
              (none, { m with swap := dropVictims 16 m.swap }) := by
            rw [ensureTables]
            simp only [hzero, if_true, allocatePageTableFrame_of_none halloc]
          rw [heq]
          exact ⟨node, .of_pool_eq h rfl rfl rfl, fun l1 hl1 => by cases hl1⟩
        | some f =>
          have hlink := h.linkTable (c := c) (i := tableIdx (n + 1) vaddr) ht (by omega)
            (fun htop => by rw [htop]; exact hp) hzero halloc
          rw [tableNo_succ (by omega)] at hlink
          have hframe := (h.toFreeFrames.allocate (fun _ _ => rfl) halloc).2.1.frame.1
          set m1 : Machine := { m with
            pool := pool
            mem := (m.mem.zeroFrame f).writeEntry t (tableIdx (n + 1) vaddr)
              (mkEntry f .pwu) } with hm1
          have hentry : m1.mem.readEntry t (tableIdx (n + 1) vaddr) = mkEntry f .pwu :=
            readEntry_writeEntry_self _ _ _ (mkEntry_lt hframe _)
          have heq : ensureTables (n + 1) m t vaddr =
              ensureTables n m1 f vaddr := by
            rw [ensureTables]
            simp only [hzero, if_true, allocatePageTableFrame_of_some halloc]
            rw [hentry, entryAddr_mkEntry hframe]
          have ht' : update node f (some ⟨c, n, tableNo n vaddr⟩) t = node t := by
            refine hlink.keeps t ?_
            rw [ht]
            simp
          obtain ⟨node', hgrows, hfound⟩ := ih (t := f) hlink.typed (by omega) (update_self ..)
          rw [heq]
          refine ⟨node', hlink.trans hgrows, fun l1 hl1 => ?_⟩
          have hkept := hgrows.link_eq (by rw [ht', ht]; simp) hentry hframe
          rw [findTable_of_link hkept hframe]
          exact hfound l1 hl1
    · obtain ⟨node', hgrows, hfound⟩ := ih h (by omega) hnode
      rw [ensureTables_of_link hentry hg]
      refine ⟨node', hgrows, fun l1 hl1 => ?_⟩
      rw [findTable_of_link (hgrows.link_eq (by rw [ht]; simp) hentry hg) hg]
      exact hfound l1 hl1

end Growth

/-! ## Editing pages -/

section Editing

variable {b : Boot} {m : Machine} {node : Nat → Option Node} {c vaddr : Nat}
  {flags : PageTableFlags}

/-- The single page of a root. -/
def OnePage (c vaddr : Nat) : Nat → Nat → Prop := fun d p => d = c ∧ p = vpn vaddr

theorem Typed.leaf_of_not_found (hfind : findTable m.mem 3 c vaddr = none) :
    leaf m.mem c vaddr = none := by
  rw [leaf, leafFrom, hfind]
  rfl

variable (h : Typed b m node) (hp : b.Private vaddr) (hc : IsRoot node c)
include h hp hc

/-- Writing one leaf edits its page. -/
theorem Typed.writeLeaf_edits {l1 : Nat} (hfind : findTable m.mem 3 c vaddr = some l1)
    (entry : Nat) :
    Edits b m { m with mem := m.mem.writeEntry l1 (tableIdx 0 vaddr) entry } node node
      (OnePage c vaddr) := by
  have hl1 := h.findTable_root hp hc hfind
  have hupper := writeEntry_upper (m := m) hl1 (tableIdx 0 vaddr) entry
  have hdata : ∀ f, node f = none → m.mem.writeEntry l1 (tableIdx 0 vaddr) entry f = m.mem f := by
    intro f hnone
    refine writeEntry_of_ne _ _ _ ?_
    rintro rfl
    rw [hnone] at hl1
    cases hl1
  refine ⟨h.of_mem rfl rfl hupper fun n f hf => ?_, fun _ _ => rfl, fun _ => Iff.rfl,
    fun f hf hnone => absurd hnone hf, fun f => ?_, fun d w hd hw hne => ?_,
    fun f _ hnone => hdata f hnone⟩
  · exact hdata f (h.boot_plain n f hf)
  · exact ⟨fun hf => ⟨hf, (h.free_plain f hf).1⟩, And.left⟩
  · exact h.leaf_writeEntry_ne hp hc hfind hd hw hne

/-- Mapping a page sets its leaf, or changes no leaf when the frames for its tables run out. -/
theorem Typed.mapPageInTable_spec {f : Nat} (hf : FrameAddr f) (hflags : flags.present = true) :
    ∃ node', Edits b m (m.mapPageInTable c vaddr f flags) node node' (OnePage c vaddr) ∧
      (leaf (m.mapPageInTable c vaddr f flags).mem c vaddr = some (mkEntry f flags) ∨
        leaf (m.mapPageInTable c vaddr f flags).mem c vaddr = leaf m.mem c vaddr) := by
  obtain ⟨node', hgrows, hfound⟩ := h.ensureTables_spec hp (Nat.le_refl 3) (hc.place vaddr)
  have hgrow := hgrows.mono (Y := OnePage c vaddr) fun _ _ hfalse => hfalse.elim
  unfold mapPageInTable
  split
  next m1 heq =>
    rw [heq] at hgrows hgrow
    exact ⟨node', hgrow, .inr (hgrows.leaf_eq c vaddr hc hp id)⟩
  next l1 m1 heq =>
    rw [heq] at hgrows hgrow
    have hfind : findTable m1.mem 3 c vaddr = some l1 := by
      have hl1 := hfound l1 (by rw [heq])
      rwa [heq] at hl1
    have hc' := (hgrows.root_iff c).mpr hc
    refine ⟨node', hgrow.trans (hgrows.typed.writeLeaf_edits hp hc' hfind _), .inl ?_⟩
    have hleaf := hgrows.typed.leaf_writeEntry_self hp hc' hfind (mkEntry_lt hf flags)
    rwa [if_neg (mkEntry_ne_zero hf hflags)] at hleaf

/-- Unmapping a page clears its leaf. -/
theorem Typed.unmapPage_spec :
    Edits b m (m.unmapPage c vaddr) node node (OnePage c vaddr) ∧
      leaf (m.unmapPage c vaddr).mem c vaddr = none := by
  unfold unmapPage unmapPageInTable
  split
  next hfind => exact ⟨.refl h _, Typed.leaf_of_not_found hfind⟩
  next l1 hfind =>
    exact ⟨h.writeLeaf_edits hp hc hfind 0,
      h.leaf_writeEntry_self hp hc hfind (Nat.two_pow_pos 64)⟩

/-- Replacing the flags of a page keeps the frame its leaf leads to. -/
theorem Typed.updatePageFlags_spec (hflags : flags.present = true) :
    Edits b m (m.updatePageFlags c vaddr flags) node node (OnePage c vaddr) ∧
      leaf (m.updatePageFlags c vaddr flags).mem c vaddr =
        (leaf m.mem c vaddr).map fun entry => mkEntry (entryAddr entry) flags := by
  unfold updatePageFlags updatePageFlagsInTable
  split
  next hfind =>
    rw [Typed.leaf_of_not_found hfind]
    exact ⟨.refl h _, rfl⟩
  next l1 hfind =>
    have hleaf : leaf m.mem c vaddr =
        if m.mem.readEntry l1 (tableIdx 0 vaddr) = 0 then none
        else some (m.mem.readEntry l1 (tableIdx 0 vaddr)) := by
      rw [leaf, leafFrom, hfind, bind_some]
    simp only
    split
    next hzero =>
      rw [if_pos hzero] at hleaf
      rw [hleaf]
      exact ⟨.refl h _, rfl⟩
    next hne =>
      rw [if_neg hne] at hleaf
      rw [hleaf]
      have hframe := frameAddr_entryAddr (m.mem.readEntry l1 (tableIdx 0 vaddr))
      refine ⟨h.writeLeaf_edits hp hc hfind _, ?_⟩
      have hnew := h.leaf_writeEntry_self hp hc hfind (mkEntry_lt hframe flags)
      rw [if_neg (mkEntry_ne_zero hframe hflags)] at hnew
      exact hnew

end Editing

/-! ## Roots and freed frames -/

section Roots

variable {b : Boot} {m : Machine} {node : Nat → Option Node} {c f : Nat}

/-- A new L4 holds the template's entry in each used slot and nothing in the others. -/
theorem readEntry_cloneKernelMappings {i : Nat} (hne : m.kernelL4 ≠ f) (hi : i < 512) :
    ({ m with mem := m.mem.zeroFrame f }.cloneKernelMappings f).mem.readEntry f i =
      m.mem.readEntry m.kernelL4 i := by
  have htemplate : ∀ j, (m.mem.zeroFrame f).readEntry m.kernelL4 j = m.mem.readEntry m.kernelL4 j :=
    fun j => readEntry_congr (zeroFrame_of_ne _ hne) j
  by_cases hused : m.mem.readEntry m.kernelL4 i = 0
  · have hbytes : ∀ k < 8, ({ m with mem := m.mem.zeroFrame f }.cloneKernelMappings f).mem f
        (8 * i + k) = 0 := by
      intro k hk
      have hdiv : (8 * i + k) / 8 = i := by omega
      simp [Machine.cloneKernelMappings, htemplate, hdiv, hused, zeroFrame]
    rw [hused, readEntry, leWord_congr hbytes, leWord_zero]
  · rw [readEntry, readEntry]
    refine leWord_congr fun k hk => ?_
    have hdiv : (8 * i + k) / 8 = i := by omega
    have hlt : 8 * i + k < pageSize := by
      unfold pageSize
      omega
    simp [Machine.cloneKernelMappings, htemplate, hdiv, hused, hlt, zeroFrame, hne]

theorem cloneKernelMappings_of_ne {g : Nat} (h : g ≠ f) :
    ({ m with mem := m.mem.zeroFrame f }.cloneKernelMappings f).mem g = m.mem g := by
  funext o
  simp [Machine.cloneKernelMappings, h, zeroFrame]

/-- A fresh frame with the kernel slots is a root without private pages. -/
theorem Typed.spawn (h : Typed b m node) {pool : PhysicalFramePool}
    (halloc : m.pool.allocate = (some f, pool)) {m' : Machine}
    (hm' : m' = { m with pool := pool, mem := m.mem.zeroFrame f }.cloneKernelMappings f) :
    Typed b m' (update node f (some ⟨f, 3, 0⟩)) ∧
      ∀ v, b.Private v → leaf m'.mem f v = none := by
  obtain ⟨-, hfresh, hpool, -⟩ := h.toFreeFrames.allocate
    (fun g hg => update_of_ne hg (some ⟨f, 3, 0⟩) node) halloc
  have hl4 : m.kernelL4 ≠ f := by
    rw [h.template]
    exact fun heq => hfresh.no_boot 3 (heq ▸ .root)
  have hentry : ∀ i < 512, m'.mem.readEntry f i = b.mem.readEntry b.l4 i := by
    intro i hi
    rw [hm']
    refine (readEntry_cloneKernelMappings (m := { m with pool := pool }) hl4 hi).trans ?_
    rw [h.template, readEntry_congr (h.boot_mem 3 b.l4 .root)]
  have htrees : Trees b m'.mem (update node f (some ⟨f, 3, 0⟩)) := by
    refine h.toTrees.place (.inl hfresh.no_node) hfresh.frame hfresh.no_boot (fun g hg => ?_)
      (fun _ i hi _ => hentry i hi) fun c n q heq i hi hslot => ?_
    · rw [hm']
      exact cloneKernelMappings_of_ne (m := { m with pool := pool }) hg
    · cases heq
      exact (hentry i hi).trans (hslot rfl)
  refine ⟨⟨htrees, ?_, ?_⟩, fun v hv => Typed.leaf_of_not_found ?_⟩
  · rw [hm']
    exact hpool
  · rw [hm']
    exact h.template
  · rw [findTable]
    simp only [Nat.reduceAdd, (hentry _ (tableIdx_lt 3 v)).trans hv, if_true]

/-- A data frame or a root can go back to the pool. -/
theorem Typed.freePhysicalFrame (h : Typed b m node) (hframe : FrameAddr f ∧ 0 < f)
    (hfree : f ∉ m.pool.freeFrames) (hboot : ∀ n, ¬ b.Table n f)
    (hnode : node f = none ∨ IsRoot node f) :
    Typed b (m.freePhysicalFrame f) (update node f none) ∧
      ∀ g, g ∈ (m.freePhysicalFrame f).pool.freeFrames ↔ g = f ∨ g ∈ m.pool.freeFrames := by
  obtain ⟨hpool, hiff⟩ := h.toFreeFrames.freeFrame (fun g hg => update_of_ne hg ..)
    (update_self f none node) hframe hfree hboot
  exact ⟨⟨h.toTrees.place hnode hframe hboot (fun g hg => zeroFrame_of_ne _ hg) (by simp) (by simp),
    hpool, h.template⟩, hiff⟩

/-- Freeing data frames one after the other. -/
theorem Typed.freeAll (h : Typed b m node) {frames : List Nat} (hnodup : frames.Nodup)
    (hplain : ∀ f ∈ frames, Plain b node f) (hfree : ∀ f ∈ frames, f ∉ m.pool.freeFrames) :
    Typed b (frames.foldl Machine.freePhysicalFrame m) node ∧
      (∀ g, g ∈ (frames.foldl Machine.freePhysicalFrame m).pool.freeFrames ↔
        g ∈ frames ∨ g ∈ m.pool.freeFrames) ∧
      ∀ g ∉ frames, (frames.foldl Machine.freePhysicalFrame m).mem g = m.mem g := by
  induction frames generalizing m with
  | nil => exact ⟨h, by simp, fun _ _ => rfl⟩
  | cons f frames ih =>
    obtain ⟨hnew, hnodup⟩ := List.nodup_cons.mp hnodup
    obtain ⟨hframe, hnode, hboot⟩ := hplain f List.mem_cons_self
    obtain ⟨htyped, hiff⟩ :=
      h.freePhysicalFrame hframe (hfree f List.mem_cons_self) hboot (.inl hnode)
    rw [← hnode, update_eq_self] at htyped
    obtain ⟨hlast, hiff', hmem⟩ := ih htyped hnodup
      (fun g hg => hplain g (List.mem_cons_of_mem f hg)) fun g hg hmem =>
        ((hiff g).mp hmem).elim (fun heq => hnew (heq ▸ hg)) (hfree g (List.mem_cons_of_mem f hg))
    refine ⟨hlast, fun g => ?_, fun g hg => ?_⟩
    · rw [List.foldl_cons, hiff', hiff, List.mem_cons]
      tauto
    · rw [List.mem_cons, not_or] at hg
      exact (hmem g hg.2).trans (zeroFrame_of_ne _ hg.1)

/-- `m'` is `m` after a space with the given root and frames has been dropped. -/
structure Drops (b : Boot) (m m' : Machine) (node : Nat → Option Node) (c : Nat)
    (frames : List Nat) : Prop where
  typed : Typed b m' (update node c none)
  free : ∀ g, g ∈ m'.pool.freeFrames ↔ g ∈ m.pool.freeFrames ∨ g ∈ frames ∨ g = c
  mem : ∀ g, g ∉ frames → g ≠ c → m'.mem g = m.mem g
  leaf_eq : ∀ d v, d ≠ c → IsRoot node d → b.Private v → leaf m'.mem d v = leaf m.mem d v

/-- Freeing the frames of a space and then its root. -/
theorem Typed.drops (h : Typed b m node) {c : Nat} (hroot : IsRoot node c) {frames : List Nat}
    (hnodup : frames.Nodup) (hplain : ∀ f ∈ frames, Plain b node f)
    (hfree : ∀ f ∈ frames, f ∉ m.pool.freeFrames) :
    Drops b m ((frames.foldl Machine.freePhysicalFrame m).freePhysicalFrame c) node c frames := by
  have hne : node c ≠ none := by
    rw [hroot]
    simp
  obtain ⟨htyped, hiff, hmem⟩ := h.freeAll hnodup hplain hfree
  obtain ⟨hlast, hiff'⟩ := htyped.freePhysicalFrame (h.node_frame c hne)
    (fun hc => hne (htyped.free_plain c hc).1) (fun n hn => hne (h.boot_plain n c hn)) (.inr hroot)
  have hmem' : ∀ g, g ∉ frames → g ≠ c →
      ((frames.foldl Machine.freePhysicalFrame m).freePhysicalFrame c).mem g = m.mem g :=
    fun g hg hgc => (zeroFrame_of_ne _ hgc).trans (hmem g hg)
  refine ⟨hlast, fun g => ?_, hmem', fun d v hd hroot' hv => h.leaf_congr hv hroot'
    fun g n q hg => hmem' g (fun hin => ?_) ?_⟩
  · rw [hiff', hiff]
    tauto
  · rw [(hplain g hin).no_node] at hg
    cases hg
  · rintro rfl
    rw [hroot] at hg
    cases hg
    exact hd rfl

end Roots

end KnoxOS.Vmm
