import Mathlib.Data.List.Induction
import KnoxOS.Fs.Jbd2Log

/-!
# When the replay is exact

`replay_exact` says that the replay leaves the filesystem as the log says if only the last item of a
transaction logs blocks, with tags that `parse_tags` keeps, if no revoke block names a block that
was logged before, and if behind the last transaction no commit block writes anything back. The
proof follows the walk from block to block: `EndsAt` is what the walk will have done to the
filesystem when it ends.
-/

namespace KnoxOS.Fs.Jbd2

open Lib List Item

/-! ## Conditions -/

/-- The tags of an item; a revoke block has none. -/
def Item.tags : Item → List Tag
  | .descriptor block _ => allTags block
  | .revoke _ => []

/-- Only the last item logs blocks, and all its tags are kept. -/
structure Transaction.Plain (t : Transaction) : Prop where
  idle : ∀ item ∈ t.items.dropLast, item.tags = []
  kept : ∀ item ∈ t.items, ∀ tag ∈ item.tags, tag.kept = true

/-- The blocks that an item logs. -/
def Item.loggedBlocks : Item → List Nat
  | .descriptor block data => (logged block data).map (·.1)
  | .revoke _ => []

/-- No revoke block names a block that was logged before it. -/
def RevokesFresh (items : List Item) : Prop :=
  ∀ before block after, items = before ++ Item.revoke block :: after →
    ∀ b ∈ revokedBlocks block, ∀ item ∈ before, b ∉ item.loggedBlocks

/-- From block `i` of the log on, up to the first block without the magic number or the end of the
round, no commit block has anything to write back. `last` is the sequence number of pending blocks,
if any. -/
inductive Quiet (dev : Device) (ring : LogRing) : Option UInt32 → Nat → Prop where
  | full (last : Option UInt32) : Quiet dev ring last ring.cap
  | stop {i : Nat} {last : Option UInt32} {blk : Block} (hi : i < ring.cap)
      (hblk : dev.journal (ring.pos i) = some blk) (hmagic : be32 blk 0 ≠ jbd2Magic) :
      Quiet dev ring last i
  | descriptor {i : Nat} {last : Option UInt32} {blk : Block} (hi : i < ring.cap)
      (hblk : dev.journal (ring.pos i) = some blk) {seq : UInt32}
      (hheader : Header blk jbd2DescriptorBlock seq)
      (hfits : i + 1 + (parseTags blk).length ≤ ring.cap)
      (rest : Quiet dev ring (if parseTags blk = [] then none else some seq)
        (i + 1 + (parseTags blk).length)) : Quiet dev ring last i
  -- the data blocks run into the start of the log, or the count of blocks into `maxlen`
  | round {i : Nat} {last : Option UInt32} {blk : Block} (hi : i < ring.cap)
      (hblk : dev.journal (ring.pos i) = some blk) {seq : UInt32}
      (hheader : Header blk jbd2DescriptorBlock seq)
      (hover : ring.cap < i + 1 + (parseTags blk).length)
      (hends : i + 1 < ring.cap ∨ ring.maxlen ≤ i + 1 + (parseTags blk).length) :
      Quiet dev ring last i
  | commit {i : Nat} {last : Option UInt32} {blk : Block} (hi : i < ring.cap)
      (hblk : dev.journal (ring.pos i) = some blk) {seq : UInt32}
      (hheader : Header blk jbd2CommitBlock seq) (hlast : last ≠ some seq)
      (rest : Quiet dev ring none (i + 1)) : Quiet dev ring last i
  | other {i : Nat} {last : Option UInt32} {blk : Block} (hi : i < ring.cap)
      (hblk : dev.journal (ring.pos i) = some blk) {type seq : UInt32}
      (hheader : Header blk type seq) (hdesc : type ≠ jbd2DescriptorBlock)
      (hcommit : type ≠ jbd2CommitBlock)
      (rest : Quiet dev ring (if type = jbd2RevokeBlock then none else last) (i + 1)) :
      Quiet dev ring last i

/-! ## The walk, block by block -/

section

variable {dev : Device} {ring : LogRing} {i : Nat} {s : Scan} {fs : Nat → Block} {seq : UInt32}

/-- The walk is at block `i` of the log. -/
structure At (ring : LogRing) (i : Nat) (s : Scan) : Prop where
  rel : s.rel = ring.pos i
  scanned : s.scanned = i

/-- The filesystem will be `fs` when the walk, now at block `i`, has ended. -/
structure EndsAt (dev : Device) (ring : LogRing) (i : Nat) (s : Scan) (fs : Nat → Block) :
    Prop where
  done : i = ring.cap → s.fs = fs
  goes : i < ring.cap → ∀ fuel, ring.maxlen ≤ fuel + i →
    (scanLoop dev.journal ring.first ring.maxlen ring.start fuel s).fs = fs

/-- The inner loop reads the data blocks up to the end of the round. -/
theorem readData_spec (dev : Device) (s : Scan) (tags : List Tag) (data : List Block)
    (hlength : data.length = tags.length) (hpos : 0 < i) (hrel : s.rel = ring.pos i)
    (hend : i + tags.length ≤ ring.cap) (hdata : LaidAt dev ring i data) :
    readData dev.journal ring.first ring.maxlen ring.start tags s =
      { s with
        pending := s.pending ++ (tags.zip data).map fun e => (e.1.fsBlock, unescape e.1 e.2)
        rel := ring.pos (i + tags.length)
        scanned := s.scanned + tags.length } := by
  induction tags generalizing data i s with
  | nil =>
    have hnil : s.pending ++ (([] : List Tag).zip data).map
        (fun e => (e.1.fsBlock, unescape e.1 e.2)) = s.pending := append_nil _
    rw [hnil]
    show s = { s with rel := ring.pos i }
    rw [← hrel]
  | cons tag tags ih =>
    cases data with
    | nil => cases hlength
    | cons block data =>
      have hread : dev.journal s.rel = some block := by
        rw [hrel]
        exact hdata 0 (by simp)
      unfold readData
      rw [hread]
      dsimp only
      rw [hrel, ring.nextRel_pos]
      have hlen : i + 1 + tags.length ≤ ring.cap := by
        rw [length_cons] at hend
        omega
      have hrest : LaidAt dev ring (i + 1) data := by
        intro k hk
        have h := hdata (k + 1) (by simpa using hk)
        rw [show i + 1 + k = i + (k + 1) by omega]
        exact h
      have hfinal : ring.pos (i + (tag :: tags).length) = ring.pos (i + 1 + tags.length) := by
        rw [length_cons]
        congr 1
        omega
      have hscanned : s.scanned + (tag :: tags).length = s.scanned + 1 + tags.length := by
        rw [length_cons]
        omega
      split_ifs with hstart
      · -- the round is over, and so are the tags
        have hcap := (ring.pos_eq_start_iff (by omega) (by omega)).mp hstart
        have hnone : tags = [] := length_eq_zero_iff.mp (by omega)
        subst hnone
        simp
      · rw [ih _ data (by simpa using hlength) (by omega) rfl hlen hrest, hfinal, hscanned]
        simp

/-- The inner loop stops at the start of the log, or behind the last tag if it does not pass the
start. -/
theorem readData_stops (dev : Device) (hreadable : ∀ i, (dev.journal (ring.pos i)).isSome)
    (tags : List Tag) (s : Scan) (hrel : s.rel = ring.pos i) :
    let r := readData dev.journal ring.first ring.maxlen ring.start tags s
    r.fs = s.fs ∧ ∃ n, r.scanned = s.scanned + n ∧ r.rel = ring.pos (i + n) ∧
      (ring.pos (i + n) = ring.start ∨
        n = tags.length ∧ ∀ m, 0 < m → m ≤ n → ring.pos (i + m) ≠ ring.start) := by
  induction tags generalizing i s with
  | nil => exact ⟨rfl, 0, rfl, hrel, .inr ⟨rfl, by omega⟩⟩
  | cons tag tags ih =>
    obtain ⟨block, hblock⟩ := Option.isSome_iff_exists.mp (hreadable i)
    unfold readData
    rw [hrel, hblock]
    dsimp only
    rw [ring.nextRel_pos]
    split_ifs with hstart
    · exact ⟨rfl, 1, rfl, rfl, .inl hstart⟩
    · obtain ⟨hfs, n, hscanned, hrel', hends⟩ := ih (i := i + 1)
        { s with
          pending := s.pending ++ [(tag.fsBlock, unescape tag block)]
          rel := ring.pos (i + 1)
          scanned := s.scanned + 1 } rfl
      have hplace : i + 1 + n = i + (n + 1) := by omega
      rw [hplace] at hrel' hends
      have hcount : s.scanned + 1 + n = s.scanned + (n + 1) := by omega
      refine ⟨hfs, n + 1, hscanned.trans hcount, hrel', hends.imp_right fun ⟨hn, hpass⟩ => ?_⟩
      refine ⟨congrArg (· + 1) hn, fun m hpos hm => ?_⟩
      obtain rfl | hone := Nat.eq_or_lt_of_le hpos
      · exact hstart
      · have h := hpass (m - 1) (by omega) (by omega)
        rwa [show i + 1 + (m - 1) = i + m by omega] at h

theorem cap_lt_maxlen (ring : LogRing) : ring.cap < ring.maxlen := by
  have h := ring.first_pos
  have h' := ring.room
  unfold LogRing.cap
  omega

theorem exists_laidAt (hreadable : ∀ i, (dev.journal (ring.pos i)).isSome) (i n : Nat) :
    ∃ data, data.length = n ∧ LaidAt dev ring i data := by
  refine ⟨(range n).map fun k => (dev.journal (ring.pos (i + k))).getD [], by simp, ?_⟩
  intro k hk
  rw [length_map, length_range] at hk
  obtain ⟨block, hblock⟩ := Option.isSome_iff_exists.mp (hreadable (i + k))
  simp [hk, hblock]

theorem Mounted.readable_pos {jblockSize : Nat} (h : Mounted dev jblockSize ring seq) (i : Nat) :
    (dev.journal (ring.pos i)).isSome := by
  have hcap := ring.cap_pos
  have hpos : ring.pos i = ring.pos (i % ring.cap) := by
    unfold LogRing.pos
    rw [Nat.add_mod_mod]
  rw [hpos]
  exact h.readable _ (Nat.mod_lt _ (by omega))

theorem scanLoop_done {journal : Nat → Option Block} {first maxlen start : Nat} (fuel : Nat)
    (h : maxlen ≤ s.scanned) : scanLoop journal first maxlen start fuel s = s := by
  cases fuel with
  | zero => rfl
  | succ fuel => exact if_neg (Nat.not_lt.mpr h)

/-- The walk after a descriptor and its data blocks. -/
def afterDescriptor (ring : LogRing) (i : Nat) (s : Scan) (blk : Block) (data : List Block) :
    Scan :=
  { s with
    pending := ((parseTags blk).zip data).map fun e => (e.1.fsBlock, unescape e.1 e.2)
    pendingSeq := be32 blk 8
    rel := ring.pos (i + 1 + (parseTags blk).length)
    scanned := i + 1 + (parseTags blk).length }

theorem commit_scanned (s : Scan) (seq : UInt32) : (Jbd2.commit s seq).scanned = s.scanned ∧
    (Jbd2.commit s seq).rel = s.rel := by
  unfold Jbd2.commit
  split_ifs <;> exact ⟨rfl, rfl⟩

section

variable {blk : Block} (hat : At ring i s)
include hat

/-- The walk goes on while blocks of the log are left. -/
theorem EndsAt.of_round (hi : i < ring.cap) (h : s.scanned < ring.maxlen → ∀ fuel,
    ring.maxlen ≤ fuel + 1 + i →
      (scanLoop dev.journal ring.first ring.maxlen ring.start (fuel + 1) s).fs = fs) :
    EndsAt dev ring i s fs := by
  have hcap := cap_lt_maxlen ring
  refine ⟨fun hdone => by omega, fun _ fuel hfuel => ?_⟩
  cases fuel with
  | zero => omega
  | succ fuel => exact h (by rw [hat.scanned]; omega) fuel hfuel

variable (hblk : dev.journal (ring.pos i) = some blk)
include hblk

/-- The scan of a descriptor with its data. -/
theorem EndsAt.descriptor {data : List Block} (hheader : Header blk jbd2DescriptorBlock seq)
    (hlength : data.length = (parseTags blk).length) (hdata : LaidAt dev ring (i + 1) data)
    (hi : i + 1 + (parseTags blk).length ≤ ring.cap)
    (h : EndsAt dev ring (i + 1 + (parseTags blk).length) (afterDescriptor ring i s blk data) fs) :
    EndsAt dev ring i s fs := by
  refine .of_round hat (by omega) fun hscan fuel hfuel => ?_
  have hread : dev.journal s.rel = some blk := by
    rw [hat.rel]
    exact hblk
  have hspec := readData_spec dev
    { s with
      pending := []
      pendingSeq := be32 blk 8
      rel := nextRel s.rel ring.first ring.maxlen }
    (parseTags blk) data hlength (Nat.succ_pos i)
    (by rw [hat.rel, ring.nextRel_pos]) (by omega) hdata
  have hscanned : i + (parseTags blk).length + 1 = i + 1 + (parseTags blk).length := by omega
  unfold scanLoop
  rw [if_pos hscan, hread]
  dsimp only
  rw [if_neg (by rw [hheader.magic]; simp), if_pos hheader.type, hspec]
  rw [hat.scanned, hscanned]
  by_cases hround : i + 1 + (parseTags blk).length = ring.cap
  · have hstart := (ring.pos_eq_start_iff (by omega) hi).mpr hround
    have htwo := ring.cap_pos
    rw [if_pos ⟨hstart, by omega⟩]
    exact h.done hround
  · have hstart := (ring.pos_eq_start_iff (by omega) hi).not.mpr hround
    rw [if_neg fun hboth => hstart hboth.1]
    exact h.goes (by omega) fuel (by omega)

/-- The walk ends with a descriptor whose data blocks run into the start of the log. -/
theorem EndsAt.round (hreadable : ∀ i, (dev.journal (ring.pos i)).isSome)
    (hheader : Header blk jbd2DescriptorBlock seq) (hi : i < ring.cap)
    (hover : ring.cap < i + 1 + (parseTags blk).length)
    (hends : i + 1 < ring.cap ∨ ring.maxlen ≤ i + 1 + (parseTags blk).length) :
    EndsAt dev ring i s s.fs := by
  have htwo := ring.cap_pos
  refine .of_round hat hi fun hscan fuel hfuel => ?_
  obtain ⟨hfs, n, hscanned, hrel, hstops⟩ := readData_stops (i := i + 1) dev hreadable
    (parseTags blk)
    { s with
      pending := []
      pendingSeq := be32 blk 8
      rel := nextRel s.rel ring.first ring.maxlen } (by rw [hat.rel, ring.nextRel_pos])
  unfold scanLoop
  rw [if_pos hscan, hat.rel, hblk]
  dsimp only
  rw [if_neg (by rw [hheader.magic]; simp), if_pos hheader.type]
  rw [hat.rel] at hfs hscanned hrel
  generalize readData dev.journal ring.first ring.maxlen ring.start (parseTags blk) _ = r at *
  have hcount : r.scanned + 1 = i + 1 + n := by
    rw [hscanned, hat.scanned]
    omega
  have hround := ring.pos_eq_start_iff (Nat.succ_pos i) hi
  rw [hcount, hrel]
  rcases hstops with hstart | ⟨hn, hpass⟩
  · have hmore : 1 < i + 1 + n := by
      by_contra hone
      obtain ⟨rfl, rfl⟩ : i = 0 ∧ n = 0 := by omega
      have hcap := hround.mp hstart
      omega
    rw [if_pos ⟨hstart, hmore⟩]
    exact hfs
  · -- the loop has not come by the start, so the count ends the walk
    have hfull : ring.maxlen ≤ i + 1 + n := by
      refine hn ▸ hends.resolve_left fun hlt =>
        hpass (ring.cap - (i + 1)) (by omega) (by omega) ?_
      rw [show i + 1 + (ring.cap - (i + 1)) = ring.cap by omega]
      exact (ring.pos_eq_start_iff (by omega) (Nat.le_refl _)).mpr rfl
    rw [scanLoop_done fuel hfull, ite_self]
    exact hfs

/-- The walk after a block that is no descriptor. -/
def afterBlock (ring : LogRing) (i : Nat) (s : Scan) (type seq : UInt32) : Scan :=
  { (if type = jbd2CommitBlock then Jbd2.commit s seq
      else if type = jbd2RevokeBlock then { s with pending := [] } else s) with
    rel := ring.pos (i + 1)
    scanned := i + 1 }

/-- The scan of a block that is no descriptor. -/
theorem EndsAt.block {type seq : UInt32} (hheader : Header blk type seq)
    (hdesc : type ≠ jbd2DescriptorBlock) (hi : i < ring.cap)
    (h : EndsAt dev ring (i + 1) (afterBlock ring i s type seq) fs) : EndsAt dev ring i s fs := by
  refine .of_round hat hi fun hscan fuel hfuel => ?_
  have hread : dev.journal s.rel = some blk := by
    rw [hat.rel]
    exact hblk
  obtain ⟨hcs, hcr⟩ := commit_scanned s seq
  unfold scanLoop
  rw [if_pos hscan, hread]
  dsimp only
  rw [if_neg (by rw [hheader.magic]; simp), hheader.type, hheader.seq, if_neg hdesc]
  unfold afterBlock at h
  -- the match on the block type moves neither the place nor the count
  generalize hmatch : (if type = jbd2CommitBlock then Jbd2.commit s seq
    else if type = jbd2RevokeBlock then { s with pending := [] } else s) = t at h ⊢
  have hnext : nextRel t.rel ring.first ring.maxlen = ring.pos (i + 1) := by
    have hrel : t.rel = s.rel := by
      rw [← hmatch]
      split_ifs
      · exact hcr
      · rfl
      · rfl
    rw [hrel, hat.rel, ring.nextRel_pos]
  have hscanned : t.scanned = i := by
    rw [← hat.scanned, ← hmatch]
    split_ifs
    · exact hcs
    · rfl
    · rfl
  rw [hnext, hscanned]
  by_cases hround : i + 1 = ring.cap
  · have hstart := (ring.pos_eq_start_iff (by omega) (by omega)).mpr hround
    rw [if_pos hstart]
    exact h.done hround
  · have hstart := (ring.pos_eq_start_iff (by omega) (by omega)).not.mpr hround
    rw [if_neg hstart]
    exact h.goes (by omega) fuel (by omega)

theorem EndsAt.stop (hmagic : be32 blk 0 ≠ jbd2Magic) (hi : i < ring.cap) :
    EndsAt dev ring i s s.fs := by
  refine .of_round hat hi fun hscan fuel hfuel => ?_
  unfold scanLoop
  rw [if_pos hscan, hat.rel, hblk]
  dsimp only
  rw [if_pos hmagic]

end

/-- Behind the last transaction nothing is written back. -/
theorem Quiet.endsAt {last : Option UInt32} (h : Quiet dev ring last i)
    (hreadable : ∀ i, (dev.journal (ring.pos i)).isSome) (hat : At ring i s)
    (hlast : s.pending = [] ∨ last = some s.pendingSeq) : EndsAt dev ring i s s.fs := by
  induction h generalizing s with
  | full last => exact ⟨fun _ => rfl, fun hlt => absurd hlt (Nat.lt_irrefl _)⟩
  | stop hi hblk hmagic => exact .stop hat hblk hmagic hi
  | round hi hblk hheader hover hends => exact .round hat hblk hreadable hheader hi hover hends
  | @descriptor i last blk hi hblk seq hheader hfits _ ih =>
    obtain ⟨data, hlength, hdata⟩ := exists_laidAt hreadable (i + 1) (parseTags blk).length
    refine .descriptor hat hblk hheader hlength hdata hfits (ih ⟨rfl, rfl⟩ ?_)
    unfold afterDescriptor
    rw [hheader.seq]
    split_ifs with hnone
    · rw [hnone]
      exact .inl rfl
    · exact .inr rfl
  | @commit i last blk hi hblk seq hheader hne _ ih =>
    refine .block hat hblk hheader (by decide) hi ?_
    -- the commit block does not belong to the pending blocks
    have hdropped : Jbd2.commit s seq = { s with pending := [] } := by
      refine if_neg fun hboth => ?_
      rcases hlast with hnone | hsome
      · exact hboth.2 hnone
      · exact hne (by rw [hsome, hboth.1])
    unfold afterBlock
    rw [if_pos rfl, hdropped]
    exact ih (s := { s with pending := [], rel := ring.pos (i + 1), scanned := i + 1 })
      ⟨rfl, rfl⟩ (.inl rfl)
  | @other i last blk hi hblk type seq hheader hdesc hcommit _ ih =>
    refine .block hat hblk hheader hdesc hi ?_
    unfold afterBlock
    rw [if_neg hcommit]
    split_ifs at ih ⊢
    · exact ih (s := { s with pending := [], rel := ring.pos (i + 1), scanned := i + 1 })
        ⟨rfl, rfl⟩ (.inl rfl)
    · exact ih (s := { s with rel := ring.pos (i + 1), scanned := i + 1 }) ⟨rfl, rfl⟩ hlast

end

/-! ## Meanings -/

/-- Writing back what a descriptor logged. -/
theorem on_foldl_logged (writes : List (Nat × Block)) (m : Meaning) (fs : Nat → Block) :
    Meaning.on (writes.foldl (fun m e b => if b = e.1 then some e.2 else m b) m) fs =
      writes.foldl writeFsBlock (m.on fs) := by
  induction writes generalizing m with
  | nil => rfl
  | cons e writes ih =>
    rw [foldl_cons, foldl_cons, ih]
    congr 1
    funext b
    show (if b = e.1 then some e.2 else m b).getD (fs b) =
      if b = e.1 then e.2 else (m b).getD (fs b)
    split_ifs <;> rfl

/-- A block that no item logs has no meaning. -/
theorem foldl_apply_eq_none {b : Nat} (items : List Item) {m : Meaning} (hm : m b = none)
    (h : ∀ item ∈ items, b ∉ item.loggedBlocks) : items.foldl apply m b = none := by
  induction items generalizing m with
  | nil => exact hm
  | cons item items ih =>
    refine ih ?_ fun other hother => h other (mem_cons_of_mem _ hother)
    have hitem := h item mem_cons_self
    cases item with
    | revoke block =>
      show (if b ∈ revokedBlocks block then none else m b) = none
      rw [hm, ite_self]
    | descriptor block data =>
      have hlogged : ∀ (writes : List (Nat × Block)) (m : Meaning), m b = none →
          b ∉ writes.map (·.1) →
          writes.foldl (fun m e b => if b = e.1 then some e.2 else m b) m b = none := by
        intro writes
        induction writes with
        | nil => exact fun m hm _ => hm
        | cons e writes ih =>
          intro m hm hnot
          rw [map_cons, mem_cons, not_or] at hnot
          exact ih _ ((if_neg hnot.1).trans hm) hnot.2
      exact hlogged _ m hm hitem

theorem on_apply_revoke {m : Meaning} {block : Block} (fs : Nat → Block)
    (h : ∀ b ∈ revokedBlocks block, m b = none) : (apply m (.revoke block)).on fs = m.on fs := by
  funext b
  unfold Meaning.on apply
  dsimp only
  split_ifs with hb
  · rw [h b hb]
  · rfl

theorem meaning_append_singleton (items : List Item) (item : Item) :
    meaning (items ++ [item]) = apply (meaning items) item := by
  unfold meaning
  rw [foldl_append]
  rfl

/-- Items that log nothing, and revoke no block logged before, change nothing. -/
theorem on_meaning_idle {done after : List Item} (fs : Nat → Block) (items : List Item)
    (hidle : ∀ item ∈ items, item.tags = []) (hfresh : RevokesFresh (done ++ items ++ after)) :
    (meaning (done ++ items)).on fs = (meaning done).on fs := by
  induction items using reverseRecOn generalizing after with
  | nil => rw [append_nil]
  | append_singleton items item ih =>
    rw [← append_assoc, append_assoc (done ++ items)] at hfresh
    rw [← append_assoc, meaning_append_singleton]
    refine Eq.trans ?_ (ih (fun other hother => hidle other (mem_append_left _ hother)) hfresh)
    have hitem := hidle item (mem_append_right _ mem_cons_self)
    cases item with
    | revoke block =>
      refine on_apply_revoke fs fun b hb => ?_
      exact foldl_apply_eq_none _ rfl (hfresh _ block after rfl b hb)
    | descriptor block data =>
      show Meaning.on ((logged block data).foldl _ _) fs = _
      unfold logged
      rw [show allTags block = [] from hitem]
      rfl

/-! ## Transactions -/

section

variable {dev : Device} {ring : LogRing} {i : Nat} {s : Scan} {fs fs₀ : Nat → Block}

/-- Two parts of a log lie behind each other. -/
theorem laidAt_append {a b : List Block} (h : LaidAt dev ring i (a ++ b)) :
    LaidAt dev ring i a ∧ LaidAt dev ring (i + a.length) b := by
  constructor
  · intro k hk
    rw [h k (by rw [length_append]; omega), getElem?_append_left hk]
  · intro k hk
    rw [Nat.add_assoc, h (a.length + k) (by rw [length_append]; omega),
      getElem?_append_right (by omega), Nat.add_sub_cancel_left]

theorem laidAt_cons {block : Block} {b : List Block} (h : LaidAt dev ring i (block :: b)) :
    dev.journal (ring.pos i) = some block ∧ LaidAt dev ring (i + 1) b := by
  obtain ⟨hone, hrest⟩ := laidAt_append (a := [block]) h
  exact ⟨hone 0 Nat.zero_lt_one, hrest⟩

/-- The walk over an item that logs nothing. -/
theorem EndsAt.idleItem (fs : Nat → Block) {item : Item} (hat : At ring i s)
    (hwell : item.WellFormed seq) (hidle : item.tags = []) : ∃ block, item.blocks = [block] ∧
      (i < ring.cap → dev.journal (ring.pos i) = some block →
        (∀ s', At ring (i + 1) s' → s'.pending = [] → s'.fs = s.fs →
          EndsAt dev ring (i + 1) s' fs) → EndsAt dev ring i s fs) := by
  cases item with
  | revoke block =>
    refine ⟨block, rfl, fun hi hblk hnext => .block hat hblk hwell (by decide) hi ?_⟩
    unfold afterBlock
    rw [if_neg (by decide), if_pos rfl]
    exact hnext _ ⟨rfl, rfl⟩ rfl rfl
  | descriptor block data =>
    have htags : parseTags block = [] := by
      unfold parseTags
      rw [show allTags block = [] from hidle]
      rfl
    have hlength : (parseTags block).length = 0 := congrArg length htags
    have hnil : data = [] := length_eq_zero_iff.mp (hwell.2.trans (congrArg length hidle))
    refine ⟨block, by rw [hnil]; rfl, fun hi hblk hnext => ?_⟩
    refine .descriptor hat hblk hwell.1 (show [].length = _ from hlength.symm) nofun (by omega) ?_
    unfold afterDescriptor
    rw [htags]
    exact hnext _ ⟨rfl, rfl⟩ rfl rfl

/-- The walk over items that log nothing. -/
theorem EndsAt.idle (items : List Item) (hat : At ring i s) (hpending : s.pending = [])
    (hlaid : LaidAt dev ring i (items.flatMap blocks))
    (hend : i + (items.flatMap blocks).length ≤ ring.cap)
    (hwell : ∀ item ∈ items, item.WellFormed seq ∧ item.tags = [])
    (hnext : ∀ s', At ring (i + (items.flatMap blocks).length) s' → s'.pending = [] →
      s'.fs = s.fs → EndsAt dev ring (i + (items.flatMap blocks).length) s' fs) :
    EndsAt dev ring i s fs := by
  induction items generalizing i s with
  | nil => exact hnext s hat hpending rfl
  | cons item items ih =>
    obtain ⟨⟨hitem, hidle⟩, hwell⟩ := forall_mem_cons.mp hwell
    obtain ⟨block, hblocks, hwalk⟩ := EndsAt.idleItem fs hat hitem hidle
    rw [flatMap_cons, hblocks] at hlaid hend hnext
    rw [length_append, length_singleton, ← Nat.add_assoc] at hend hnext
    obtain ⟨hblk, hrest⟩ := laidAt_cons hlaid
    refine hwalk (by omega) hblk fun s₁ hat₁ hpending₁ hfs₁ => ?_
    refine ih hat₁ hpending₁ hrest hend hwell fun s₂ hat₂ hpending₂ hfs₂ => ?_
    exact hnext s₂ hat₂ hpending₂ (hfs₂.trans hfs₁)

/-- The walk over a descriptor with kept tags, its data blocks and its commit block. -/
theorem EndsAt.committed {block commit : Block} {data : List Block} (hat : At ring i s)
    (hlaid : LaidAt dev ring i (block :: data ++ [commit]))
    (hend : i + (block :: data ++ [commit]).length ≤ ring.cap)
    (hheader : Header block jbd2DescriptorBlock seq)
    (hlength : data.length = (allTags block).length)
    (hkept : ∀ tag ∈ allTags block, tag.kept = true) (hcommit : Header commit jbd2CommitBlock seq)
    (hnext : ∀ s', At ring (i + (block :: data ++ [commit]).length) s' → s'.pending = [] →
      s'.fs = (logged block data).foldl writeFsBlock s.fs →
      EndsAt dev ring (i + (block :: data ++ [commit]).length) s' fs) : EndsAt dev ring i s fs := by
  have htags : parseTags block = allTags block := filter_eq_self.mpr hkept
  obtain ⟨hfirst, hlast⟩ := laidAt_append hlaid
  obtain ⟨hblk, hdata⟩ := laidAt_cons hfirst
  obtain ⟨hcommitBlk, -⟩ := laidAt_cons hlast
  have hlen : (block :: data ++ [commit]).length = 1 + (parseTags block).length + 1 := by
    rw [htags, length_append, length_cons, length_singleton]
    omega
  have hplace : i + (block :: data).length = i + 1 + (parseTags block).length := by
    rw [htags, length_cons]
    omega
  rw [hlen] at hend hnext
  rw [hplace] at hcommitBlk
  refine .descriptor hat hblk hheader (by rw [htags]; exact hlength) hdata (by omega) ?_
  refine .block ⟨rfl, rfl⟩ hcommitBlk hcommit (by decide) (by omega) ?_
  have hnextPlace : i + 1 + (parseTags block).length + 1 =
      i + (1 + (parseTags block).length + 1) := by
    omega
  rw [hnextPlace]
  have hpending : (afterDescriptor ring i s block data).pending = logged block data := by
    unfold afterDescriptor logged
    rw [htags]
  have hseq : seq = (afterDescriptor ring i s block data).pendingSeq := hheader.seq.symm
  -- a descriptor without tags leaves the commit block nothing to write
  have hdone : (Jbd2.commit (afterDescriptor ring i s block data) seq).pending = [] ∧
      (Jbd2.commit (afterDescriptor ring i s block data) seq).fs =
        (logged block data).foldl writeFsBlock s.fs := by
    unfold Jbd2.commit
    rw [hpending]
    split_ifs with hboth
    · exact ⟨rfl, rfl⟩
    · have hnone : logged block data = [] := by
        by_contra hne
        exact hboth ⟨hseq, hne⟩
      rw [hnone]
      exact ⟨rfl, rfl⟩
  have hafter : afterBlock ring (i + 1 + (parseTags block).length)
      (afterDescriptor ring i s block data) jbd2CommitBlock seq =
      { Jbd2.commit (afterDescriptor ring i s block data) seq with
        rel := ring.pos (i + 1 + (parseTags block).length + 1)
        scanned := i + 1 + (parseTags block).length + 1 } := by
    unfold afterBlock
    rw [if_pos rfl]
  rw [hafter]
  exact hnext _ ⟨congrArg ring.pos hnextPlace, hnextPlace⟩ hdone.1 hdone.2

/-- The walk over a transaction. -/
theorem EndsAt.transaction {t : Transaction} {done after : List Item} (hat : At ring i s)
    (hpending : s.pending = []) (hfs : s.fs = (meaning done).on fs₀) (hwell : t.WellFormed seq)
    (hplain : t.Plain) (hlaid : LaidAt dev ring i t.blocks) (hend : i + t.blocks.length ≤ ring.cap)
    (hfresh : RevokesFresh (done ++ t.items ++ after))
    (hnext : ∀ s', At ring (i + t.blocks.length) s' → s'.pending = [] →
      s'.fs = (meaning (done ++ t.items)).on fs₀ →
      EndsAt dev ring (i + t.blocks.length) s' fs) : EndsAt dev ring i s fs := by
  obtain ⟨block, data, hdescriptor⟩ := hwell.descriptor
  obtain hnil | ⟨pre, item, hitems⟩ := eq_nil_or_concat' t.items
  · rw [hnil] at hdescriptor
    cases hdescriptor
  have hidle : ∀ item ∈ pre, item.tags = [] := by
    have h := hplain.idle
    rwa [hitems, dropLast_concat] at h
  have hmem : ∀ other ∈ pre, other ∈ t.items := by
    rw [hitems]
    exact fun other => mem_append_left _
  have hblocks : t.blocks = pre.flatMap blocks ++ (item.blocks ++ [t.commit]) := by
    unfold Transaction.blocks
    rw [hitems, flatMap_append, flatMap_singleton, append_assoc]
  rw [hitems] at hfresh hnext
  rw [hblocks] at hlaid hend hnext
  rw [length_append, ← Nat.add_assoc] at hend hnext
  obtain ⟨hfirst, hlaid⟩ := laidAt_append hlaid
  refine .idle pre hat hpending hfirst (by omega)
    (fun other hother => ⟨hwell.items other (hmem other hother), hidle other hother⟩)
    fun s₁ hat₁ hpending₁ hfs₁ => ?_
  rw [← append_assoc, append_assoc (done ++ pre)] at hfresh
  rw [← append_assoc, meaning_append_singleton] at hnext
  have hmeaning : s₁.fs = (meaning (done ++ pre)).on fs₀ := by
    rw [hfs₁, hfs, on_meaning_idle fs₀ pre hidle hfresh]
  have hitem : item ∈ t.items := by
    rw [hitems]
    exact mem_append_right _ mem_cons_self
  have hwell' := hwell.items item hitem
  cases item with
  | descriptor block data =>
    refine .committed hat₁ hlaid hend hwell'.1 hwell'.2 (hplain.kept _ hitem) hwell.commit
      fun s₂ hat₂ hpending₂ hfs₂ => hnext s₂ hat₂ hpending₂ ?_
    rw [hfs₂, hmeaning]
    exact (on_foldl_logged ..).symm
  | revoke block =>
    obtain ⟨hblk, hcommit⟩ := laidAt_cons (b := [t.commit]) hlaid
    have hlength : ((revoke block).blocks ++ [t.commit]).length = 2 := rfl
    rw [hlength] at hend hnext
    refine .block hat₁ hblk hwell' (by decide) (by omega) ?_
    refine .block ⟨rfl, rfl⟩ (laidAt_cons hcommit).1 hwell.commit (by decide) (by omega) ?_
    -- nothing is pending at the commit block
    have hafter : ∀ j, (afterBlock ring j (afterBlock ring (i + (pre.flatMap blocks).length) s₁
        jbd2RevokeBlock seq) jbd2CommitBlock seq).pending = [] ∧
        (afterBlock ring j (afterBlock ring (i + (pre.flatMap blocks).length) s₁
          jbd2RevokeBlock seq) jbd2CommitBlock seq).fs = s₁.fs := by
      simp +decide [afterBlock, Jbd2.commit]
    refine hnext _ ⟨rfl, rfl⟩ (hafter _).1 ?_
    rw [(hafter _).2, hmeaning, on_apply_revoke]
    exact fun b hb => foldl_apply_eq_none _ rfl (hfresh _ block after rfl b hb)

/-- The walk over the rest of a log. -/
theorem log_endsAt (hreadable : ∀ i, (dev.journal (ring.pos i)).isSome)
    (txs : List Transaction) {done : List Item} (hat : At ring i s) (hpending : s.pending = [])
    (hfs : s.fs = (meaning done).on fs₀) (hconsecutive : Consecutive seq txs)
    (hlaid : LaidAt dev ring i (blocksOf txs)) (hend : i + (blocksOf txs).length ≤ ring.cap)
    (hplain : ∀ t ∈ txs, t.Plain) (hfresh : RevokesFresh (done ++ itemsOf txs))
    (hquiet : Quiet dev ring none (i + (blocksOf txs).length)) :
    EndsAt dev ring i s ((meaning (done ++ itemsOf txs)).on fs₀) := by
  induction txs generalizing seq done i s with
  | nil =>
    have hnil : done ++ itemsOf [] = done := append_nil _
    rw [hnil, ← hfs]
    exact hquiet.endsAt hreadable hat (.inl hpending)
  | cons t txs ih =>
    obtain ⟨hwell, hconsecutive⟩ := hconsecutive
    obtain ⟨hplain, hrest⟩ := forall_mem_cons.mp hplain
    have hitems : done ++ itemsOf (t :: txs) = done ++ t.items ++ itemsOf txs :=
      (append_assoc ..).symm
    have hblocks : blocksOf (t :: txs) = t.blocks ++ blocksOf txs := rfl
    rw [hitems] at hfresh ⊢
    rw [hblocks] at hlaid hend hquiet
    rw [length_append, ← Nat.add_assoc] at hend hquiet
    obtain ⟨hfirst, hlaid⟩ := laidAt_append hlaid
    refine .transaction hat hpending hfs hwell hplain hfirst (by omega) hfresh
      fun s' hat' hpending' hfs' => ?_
    exact ih hat' hpending' hfs' hconsecutive hlaid hend hrest hfresh hquiet

end

/-- The replay walks the log from its start. -/
theorem Mounted.replay_fs {dev : Device} {jblockSize : Nat} {ring : LogRing}
    (h : Mounted dev jblockSize ring seq) : (replayContiguous dev jblockSize).2.fs =
      (scanLoop dev.journal ring.first ring.maxlen ring.start ring.maxlen
        ⟨ring.start, 0, [], 0, 0, dev.fs⟩).fs := by
  obtain ⟨jsb, hjsb, hmagic, htype, hmaxlen, hfirst, -, hstart⟩ := h.superblock
  have hfirstPos := ring.first_pos
  have hfirstLe := ring.first_le
  have hstartLt := ring.start_lt
  have hsize : ¬ (jblockSize < 512 ∨ jblockSize % blockSize ≠ 0) := by
    have hs := h.size
    omega
  have htype' : ¬ (be32 jsb 4 ≠ jbd2SuperblockV1 ∧ be32 jsb 4 ≠ jbd2SuperblockV2) := by
    intro hne
    exact htype.elim hne.1 hne.2
  unfold replayContiguous
  rw [if_neg hsize, hjsb]
  dsimp only
  rw [if_neg (by rw [hmagic]; simp), if_neg htype', hmaxlen, hfirst, hstart,
    if_neg (by omega), if_neg (by omega)]

/-- The replay is exact on a log whose transactions are plain, whose revoke blocks name no block
logged before, and behind which no commit block follows on a descriptor with its sequence number. -/
theorem replay_exact {dev : Device} {jblockSize : Nat} {ring : LogRing} {seq : UInt32}
    {txs : List Transaction} (hmounted : Mounted dev jblockSize ring seq)
    (hholds : Holds dev ring seq txs) (hplain : ∀ t ∈ txs, t.Plain)
    (hfresh : RevokesFresh (itemsOf txs))
    (hquiet : Quiet dev ring none (blocksOf txs).length) : ReplayExact dev jblockSize txs := by
  have hends : EndsAt dev ring 0 ⟨ring.start, 0, [], 0, 0, dev.fs⟩
      ((meaning ([] ++ itemsOf txs)).on dev.fs) :=
    log_endsAt hmounted.readable_pos txs ⟨ring.pos_zero.symm, rfl⟩ rfl rfl hholds.consecutive
      hholds.laid (by rw [Nat.zero_add]; exact hholds.fits) hplain hfresh
      (by rw [Nat.zero_add]; exact hquiet)
  unfold ReplayExact
  rw [hmounted.replay_fs]
  exact hends.goes (by have h := ring.cap_pos; omega) ring.maxlen (Nat.le_refl _)

/-! ## Two journals -/

/-- A block of 512 bytes with a journal header. -/
def headedBlock (type seq : UInt8) (rest : List UInt8) : Block :=
  padTo 512 ([0xC0, 0x3B, 0x39, 0x98, 0, 0, 0, type, 0, 0, 0, seq] ++ rest)

/-- A descriptor with one tag. -/
def descriptorBlock (seq fsBlock : UInt8) : Block :=
  headedBlock 1 seq [0, 0, 0, fsBlock, 0, 0, 0, 10]

def commitBlock (seq : UInt8) : Block := headedBlock 2 seq []

/-- A revoke block that names one block. -/
def revokeBlock (seq fsBlock : UInt8) : Block := headedBlock 5 seq [0, 0, 0, 20, 0, 0, 0, fsBlock]

/-- The superblock of a journal of 16 blocks with sequence number 1. -/
def superblock (start : UInt8) : Block :=
  headedBlock 4 0 [0, 0, 2, 0, 0, 0, 0, 16, 0, 0, 0, 1, 0, 0, 0, 1, 0, 0, 0, start]

/-- A data block. -/
def dataBlock (b : UInt8) : Block := padTo 512 [b]

/-- A device with the given log blocks, on a filesystem of zeros. -/
def device (start : UInt8) (log : List (Nat × Block)) : Device where
  journal := fun rel => if rel = 0 then some (superblock start) else
    if rel < 16 then some ((log.lookup rel).getD (dataBlock 0)) else none
  fs := fun _ => dataBlock 0

/-- Block 200 is logged twice, round the end of the journal; a third transaction is torn. -/
def wrapped : Device := device 13
  [(13, descriptorBlock 1 200), (14, dataBlock 7), (15, commitBlock 1), (1, revokeBlock 2 90),
    (2, descriptorBlock 2 200), (3, dataBlock 8), (4, commitBlock 2), (5, descriptorBlock 3 201),
    (6, dataBlock 9)]

def wrappedRing : LogRing := ⟨1, 16, 13, by decide, by decide, by decide, by decide, by decide⟩

def wrappedLog : List Transaction :=
  [⟨[.descriptor (descriptorBlock 1 200) [dataBlock 7]], commitBlock 1⟩,
    ⟨[.revoke (revokeBlock 2 90), .descriptor (descriptorBlock 2 200) [dataBlock 8]],
      commitBlock 2⟩]

instance (block : Block) (type seq : UInt32) : Decidable (Header block type seq) :=
  decidable_of_iff (be32 block 0 = jbd2Magic ∧ be32 block 4 = type ∧ be32 block 8 = seq)
    ⟨fun h => ⟨h.1, h.2.1, h.2.2⟩, fun h => ⟨h.magic, h.type, h.seq⟩⟩

instance (seq : UInt32) (item : Item) : Decidable (item.WellFormed seq) :=
  match item with
  | .descriptor _ _ => inferInstanceAs (Decidable (_ ∧ _))
  | .revoke _ => inferInstanceAs (Decidable (Header _ _ _))

theorem wrapped_mounted : Mounted wrapped 512 wrappedRing 1 :=
  ⟨by decide, ⟨superblock 13, rfl, by decide +kernel⟩, by decide +kernel⟩

theorem wrapped_holds : Holds wrapped wrappedRing 1 wrappedLog := by
  refine ⟨⟨⟨by decide +kernel, ⟨_, _, mem_cons_self⟩, by decide +kernel⟩,
    ⟨by decide +kernel, ⟨_, _, mem_cons_of_mem _ mem_cons_self⟩, by decide +kernel⟩,
    trivial⟩, ?_, by decide +kernel⟩
  unfold LaidAt
  decide +kernel

/-- The revoke block of the second transaction names block 90, and only block 200 is logged. -/
theorem wrapped_fresh : RevokesFresh (itemsOf wrappedLog) := by
  intro before block after hsplit b hb item hitem
  have hitems : itemsOf wrappedLog = [.descriptor (descriptorBlock 1 200) [dataBlock 7],
      .revoke (revokeBlock 2 90), .descriptor (descriptorBlock 2 200) [dataBlock 8]] := rfl
  rw [hitems] at hsplit
  match before, hsplit with
  | [], hsplit => cases hsplit
  | [first], hsplit =>
    cases hsplit
    rw [mem_singleton.mp hitem]
    revert b
    decide +kernel
  | [first, second], hsplit => cases hsplit
  | first :: second :: third :: rest, hsplit =>
    have hlength := congrArg length hsplit
    simp at hlength

theorem wrapped_quiet : Quiet wrapped wrappedRing none (blocksOf wrappedLog).length := by
  have htorn : wrapped.journal (wrappedRing.pos (blocksOf wrappedLog).length) =
      some (descriptorBlock 3 201) := by decide +kernel
  have hend : wrapped.journal (wrappedRing.pos ((blocksOf wrappedLog).length + 1 +
      (parseTags (descriptorBlock 3 201)).length)) = some (dataBlock 0) := by decide +kernel
  refine .descriptor (by decide +kernel) htorn ⟨by decide, by decide, rfl⟩ (by decide +kernel) ?_
  exact .stop (by decide +kernel) hend (by decide)

theorem replay_exact_wrapped : ReplayExact wrapped 512 wrappedLog := by
  refine replay_exact wrapped_mounted wrapped_holds ?_ wrapped_fresh wrapped_quiet
  intro t ht
  rcases mem_cons.mp ht with rfl | ht
  · exact ⟨by decide +kernel, by decide +kernel⟩
  · rw [mem_singleton.mp ht]
    exact ⟨by decide +kernel, by decide +kernel⟩

/-- One transaction with two descriptors. -/
def twoDescriptors : Device := device 1
  [(1, descriptorBlock 1 200), (2, dataBlock 7), (3, descriptorBlock 1 201), (4, dataBlock 8),
    (5, commitBlock 1)]

def twoDescriptorsRing : LogRing :=
  ⟨1, 16, 1, by decide, by decide, by decide, by decide, by decide⟩

def twoDescriptorsLog : List Transaction :=
  [⟨[.descriptor (descriptorBlock 1 200) [dataBlock 7],
      .descriptor (descriptorBlock 1 201) [dataBlock 8]], commitBlock 1⟩]

/-- The second descriptor discards the blocks of the first. -/
theorem first_descriptor_is_lost :
    Mounted twoDescriptors 512 twoDescriptorsRing 1 ∧
      Holds twoDescriptors twoDescriptorsRing 1 twoDescriptorsLog ∧
      Quiet twoDescriptors twoDescriptorsRing none (blocksOf twoDescriptorsLog).length ∧
      ¬ ReplayExact twoDescriptors 512 twoDescriptorsLog := by
  refine ⟨⟨by decide, ⟨superblock 1, rfl, by decide +kernel⟩, by decide +kernel⟩,
    ⟨⟨⟨by decide +kernel, ⟨_, _, mem_cons_self⟩, by decide +kernel⟩, trivial⟩, ?_,
      by decide +kernel⟩, ?_, ?_⟩
  · unfold LaidAt
    decide +kernel
  · have hend : twoDescriptors.journal (twoDescriptorsRing.pos
        (blocksOf twoDescriptorsLog).length) = some (dataBlock 0) := by decide +kernel
    exact .stop (by decide +kernel) hend (by decide)
  · intro hexact
    have hblock : byteAt ((replayContiguous twoDescriptors 512).2.fs 200) 0 = 0 := by
      decide +kernel
    rw [hexact] at hblock
    exact absurd hblock (by decide +kernel)

end KnoxOS.Fs.Jbd2
