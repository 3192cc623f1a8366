import KnoxOS.Fs.Persist

/-!
# The format of the persistent store

What `apply_entry` writes, `restore_all` reads back (`readEntry_of_stored`), what `journal_write`
writes, `journal_read` reads back (`journalRead_put`), and each of the header, the log and the
record is read from its own sectors only.
-/

namespace KnoxOS.Fs.Persist

open Lib Vfs List

variable {d d' : Disk} {e : Entry} {base start current n : Nat} {a b : List UInt8}

/-- Strings come back from their bytes. -/
theorem fromUtf8_asBytes (path : Str) : fromUtf8 (asBytes path) = some path := by
  unfold fromUtf8 asBytes
  rw [← utf8Encode]
  simp

theorem le_divCeil (n : Nat) : n ≤ divCeil n * sectorSize := by
  unfold divCeil sectorSize
  omega

theorem divCeil_pos {n : Nat} (h : 0 < n) : 0 < divCeil n := by
  unfold divCeil sectorSize
  omega

section

variable (e : Entry)

theorem Entry.length_bytes :
    e.bytes.length = entryHeaderSize + (asBytes e.path).length + e.data.length := by
  simp [Entry.bytes, entryHeaderSize]
  omega

theorem Entry.length_bytes_le : e.bytes.length ≤ e.sectors * sectorSize := by
  rw [e.length_bytes]
  exact le_divCeil _

theorem Entry.sectors_pos : 0 < e.sectors := divCeil_pos (by
  unfold entryHeaderSize
  omega)

theorem Entry.length_record (state : Nat) :
    (e.record state).length = jrnlHeaderSize + e.payload.length := by
  have hmagic : journalMagic.length = 12 := by decide
  simp [Entry.record, jrnlHeaderSize, hmagic]
  omega

/-- A journal record fits in its sectors. -/
theorem Entry.length_record_le (state : Nat) :
    (e.record state).length ≤ e.recordSectors * sectorSize := by
  rw [e.length_record]
  exact le_divCeil _

theorem Entry.recordSectors_pos : 0 < e.recordSectors := divCeil_pos (by
  unfold jrnlHeaderSize
  omega)

end

/-- The lengths fit the fields they are written to. -/
structure Entry.Sized (e : Entry) : Prop where
  path : (asBytes e.path).length < 2 ^ 30
  data : e.data.length < 2 ^ 32

/-! ## Fields -/

/-- A slice behind a known start. -/
theorem slice_skip {k : Nat} (h : a.length = k) (m n : Nat) :
    slice (a ++ b) (m + k) n = slice b m n := by
  rw [slice_append_right (by omega), h, Nat.add_sub_cancel]

theorem slice_append_of_le {start n : Nat} (h : start + n ≤ a.length) :
    slice (a ++ b) start n = slice a start n := by
  unfold slice
  rw [drop_append_of_le_length (by omega),
    take_append_of_le_length (by rw [length_drop]; omega)]

/-- The permissions read back as written. -/
theorem ofNat_leBytes (x : UInt16) : UInt16.ofNat (leNat (leBytes 2 x.toNat)) = x := by
  rw [leNat_leBytes_of_lt x.toNat_lt, UInt16.ofNat_toNat]

/-- The fields of an entry. -/
structure EntryFields (e : Entry) (buf : List UInt8) : Prop where
  pathLen : leNat (slice buf 0 4) = (asBytes e.path).length
  dataLen : leNat (slice buf 4 4) = e.data.length
  permissions : UInt16.ofNat (leNat (slice buf 8 2)) = e.permissions
  fileType : UInt16.ofNat (leNat (slice buf 10 2)) = e.fileType
  path : slice buf entryHeaderSize (asBytes e.path).length = asBytes e.path
  contents : slice buf (entryHeaderSize + (asBytes e.path).length) e.data.length = e.data

/-- The fields of a written entry read back. -/
theorem Entry.Sized.fields (h : e.Sized) :
    EntryFields e (padTo (e.sectors * sectorSize) e.bytes) := by
  have h4 : ∀ v, (leBytes 4 v).length = 4 := length_leBytes 4
  have h2 : ∀ v, (leBytes 2 v).length = 2 := length_leBytes 2
  have hpath : (asBytes e.path).length < 256 ^ 4 := Nat.lt_trans h.path (by decide)
  rw [padTo_eq_append e.length_bytes_le]
  simp only [Entry.bytes, append_assoc]
  constructor
  · rw [slice_append_left (h4 _), leNat_leBytes_of_lt hpath]
  · rw [slice_skip (h4 _), slice_append_left (h4 _), leNat_leBytes_of_lt h.data]
  · rw [slice_skip (h4 _), slice_skip (h4 _), slice_append_left (h2 _), ofNat_leBytes]
  · rw [slice_skip (h4 _), slice_skip (h4 _), slice_skip (h2 _), slice_append_left (h2 _),
      ofNat_leBytes]
  · rw [entryHeaderSize, slice_skip (h4 _), slice_skip (h4 _), slice_skip (h2 _),
      slice_skip (h2 _), slice_append_left rfl]
  · rw [entryHeaderSize, Nat.add_comm, slice_skip (h4 _), slice_skip (h4 _), slice_skip (h2 _),
      slice_skip (h2 _), slice_append_right le_rfl, Nat.sub_self, slice_append_left rfl]

/-- The fields of a write-ahead record. -/
structure RecordFields (e : Entry) (state : Nat) (buf : List UInt8) : Prop where
  magic : slice buf 0 12 = journalMagic
  state : leNat (slice buf 12 4) = state
  pathLen : leNat (slice buf 24 4) = (asBytes e.path).length
  dataLen : leNat (slice buf 28 4) = e.data.length
  permissions : UInt16.ofNat (leNat (slice buf 32 2)) = e.permissions
  fileType : UInt16.ofNat (leNat (slice buf 34 2)) = e.fileType
  storedCrc : leNat (slice buf 36 4) = (crc32 e.payload).toNat

/-- The fields of a written record read back. -/
theorem Entry.Sized.recordFields (h : e.Sized) {state : Nat} (hstate : state < 2 ^ 32) :
    RecordFields e state (padTo (e.recordSectors * sectorSize) (e.record state)) := by
  have h4 : ∀ v, (leBytes 4 v).length = 4 := length_leBytes 4
  have h2 : ∀ v, (leBytes 2 v).length = 2 := length_leBytes 2
  have h8 : ∀ v, (leBytes 8 v).length = 8 := length_leBytes 8
  have hm : journalMagic.length = 12 := by decide
  have hpath : (asBytes e.path).length < 256 ^ 4 := Nat.lt_trans h.path (by decide)
  rw [padTo_eq_append (e.length_record_le state)]
  simp only [Entry.record, append_assoc]
  constructor
  · exact slice_append_left hm
  · rw [slice_skip hm, slice_append_left (h4 _), leNat_leBytes_of_lt hstate]
  · rw [slice_skip hm, slice_skip (h4 _), slice_skip (h8 _), slice_append_left (h4 _),
      leNat_leBytes_of_lt hpath]
  · rw [slice_skip hm, slice_skip (h4 _), slice_skip (h8 _), slice_skip (h4 _),
      slice_append_left (h4 _), leNat_leBytes_of_lt h.data]
  · rw [slice_skip hm, slice_skip (h4 _), slice_skip (h8 _), slice_skip (h4 _), slice_skip (h4 _),
      slice_append_left (h2 _), ofNat_leBytes]
  · rw [slice_skip hm, slice_skip (h4 _), slice_skip (h8 _), slice_skip (h4 _), slice_skip (h4 _),
      slice_skip (h2 _), slice_append_left (h2 _), ofNat_leBytes]
  · rw [slice_skip hm, slice_skip (h4 _), slice_skip (h8 _), slice_skip (h4 _), slice_skip (h4 _),
      slice_skip (h2 _), slice_skip (h2 _), slice_append_left (h4 _),
      leNat_leBytes_of_lt (crc32 e.payload).toNat_lt]

/-! ## Reading back -/

/-- The entry stands on the disk from a sector on. -/
def StoredAt (d : Disk) (start : Nat) (e : Entry) : Prop :=
  bytesFrom d.bytes (sectorSize * start) (sectorSize * e.sectors) =
    padTo (e.sectors * sectorSize) e.bytes

theorem read_eq (h : start + n ≤ d.capacity) :
    d.read start n = some (bytesFrom d.bytes (sectorSize * start) (sectorSize * n)) :=
  if_neg (Nat.not_lt.mpr h)

/-- The first sector and the rest, as the two reads return them. -/
theorem read_rest (hpos : 0 < n) (h : start + n ≤ d.capacity) :
    ∃ rest, (if 1 < n then d.read (start + 1) (n - 1) else some []) = some rest ∧
      bytesFrom d.bytes (sectorSize * start) sectorSize ++ rest =
        bytesFrom d.bytes (sectorSize * start) (sectorSize * n) := by
  refine ⟨bytesFrom d.bytes (sectorSize * (start + 1)) (sectorSize * (n - 1)), ?_, ?_⟩
  · split_ifs with hone
    · exact read_eq (by omega)
    · obtain rfl : n = 1 := by omega
      rfl
  · have hn : sectorSize * n = sectorSize + sectorSize * (n - 1) := by
      unfold sectorSize
      omega
    rw [hn, bytesFrom_add, Nat.mul_add, Nat.mul_one]

/-- An entry is read back. -/
theorem readEntry_of_stored (h : StoredAt d current e) (hsized : e.Sized)
    (hcap : current + e.sectors ≤ d.capacity) : readEntry d current = some (some e, e.sectors) := by
  have hpos := e.sectors_pos
  obtain ⟨rest, hrest, hbuf⟩ := read_rest hpos hcap
  have hfields := hsized.fields
  rw [← h, ← hbuf] at hfields
  have hfirst : ∀ start n, start + n ≤ sectorSize →
      slice (bytesFrom d.bytes (sectorSize * current) sectorSize) start n =
        slice (bytesFrom d.bytes (sectorSize * current) sectorSize ++ rest) start n := by
    intro start n hle
    exact (slice_append_of_le (by rw [length_bytesFrom]; exact hle)).symm
  unfold readEntry
  rw [read_eq (by omega), Nat.mul_one]
  simp only [hfirst _ _ (show 0 + 4 ≤ sectorSize by decide),
    hfirst _ _ (show 4 + 4 ≤ sectorSize by decide), hfirst _ _ (show 8 + 2 ≤ sectorSize by decide),
    hfirst _ _ (show 10 + 2 ≤ sectorSize by decide), hfields.pathLen, hfields.dataLen,
    hfields.permissions, hfields.fileType]
  have hsectors : divCeil (entryHeaderSize + (asBytes e.path).length + e.data.length) =
      e.sectors := rfl
  simp only [hsectors, hrest, hfields.path, hfields.contents, fromUtf8_asBytes]
  rfl

/-- The buffer of `journal_write`. -/
def Entry.recordBuf (e : Entry) : List UInt8 :=
  padTo (e.recordSectors * sectorSize) (e.record jrnlCommitted)

/-- The payload in the slot after some sectors of the record are written. -/
def tornPayload (d : Disk) (base k : Nat) (e : Entry) : List UInt8 :=
  bytesFrom (d.put base k e.recordBuf).bytes (sectorSize * base + jrnlHeaderSize) e.payload.length

/-- The checksum tells a torn payload from the one that was to be written. -/
def TornDetected (d : Disk) (outcome : Outcome) (e : Entry) : Prop :=
  ∀ base ∈ journalBase d, 0 < outcome.reached e.recordSectors →
    crc32 (tornPayload d base (outcome.reached e.recordSectors) e) = crc32 e.payload →
    tornPayload d base (outcome.reached e.recordSectors) e = e.payload

/-- The journal is the end of the disk. -/
theorem journalBase_add (h : journalBase d = some base) : base + journalSectors = d.capacity := by
  unfold journalBase at h
  split_ifs at h with hcap
  obtain rfl := Option.some.inj h
  omega

/-- The payload in the slot, of the given length. -/
def slotPayload (d : Disk) (base n : Nat) : List UInt8 :=
  bytesFrom d.bytes (sectorSize * base + jrnlHeaderSize) n

/-- The first sector of the slot. -/
def slotHeader (d : Disk) (base : Nat) : List UInt8 :=
  bytesFrom d.bytes (sectorSize * base) sectorSize

theorem read_slotHeader (h : journalBase d = some base) :
    d.read base 1 = some (slotHeader d base) := by
  have hadd := journalBase_add h
  unfold journalSectors at hadd
  exact read_eq (by omega)

/-- The two reads of `journal_read` find the payload. -/
theorem read_slotPayload (h : journalBase d = some base)
    (hfits : divCeil (jrnlHeaderSize + n) ≤ journalSectors) :
    ∃ rest, (if 1 < divCeil (jrnlHeaderSize + n) then
        d.read (base + 1) (divCeil (jrnlHeaderSize + n) - 1) else some []) = some rest ∧
      slice (slotHeader d base ++ rest) jrnlHeaderSize n = slotPayload d base n := by
  have hadd := journalBase_add h
  have hpos : 0 < divCeil (jrnlHeaderSize + n) := divCeil_pos (by unfold jrnlHeaderSize; omega)
  obtain ⟨rest, hrest, hbuf⟩ := @read_rest d base _ hpos (by omega)
  refine ⟨rest, hrest, ?_⟩
  rw [slotHeader, hbuf, slice_bytesFrom, slotPayload]
  rw [Nat.mul_comm]
  exact le_divCeil _

/-- A record in the slot is read back if the reader takes its state and its path. -/
theorem RecordFields.journalRead {state : Nat} (h : RecordFields e state (slotHeader d base))
    (hbase : journalBase d = some base) (hfits : e.recordSectors ≤ journalSectors)
    (hcrc : crc32 (slotPayload d base e.payload.length) = crc32 e.payload →
      slotPayload d base e.payload.length = e.payload) :
    journalRead d =
      if state = jrnlEmpty ∨ 4096 < (asBytes e.path).length ∨
        slotPayload d base e.payload.length ≠ e.payload then none else some (state, e) := by
  have hlen : (asBytes e.path).length + e.data.length = e.payload.length :=
    length_append.symm
  obtain ⟨rest, hrest, hpayload⟩ := read_slotPayload hbase hfits
  unfold Persist.journalRead
  rw [hbase]
  dsimp only
  rw [read_slotHeader hbase]
  unfold journalRecord
  simp only [h.magic, h.state, h.pathLen, h.dataLen, h.permissions, h.fileType, h.storedCrc, hlen,
    hrest, hpayload, ne_eq, not_true_eq_false, if_false]
  by_cases hempty : state = jrnlEmpty
  · rw [if_pos hempty, if_pos (.inl hempty)]
  rw [if_neg hempty]
  by_cases hlong : 4096 < (asBytes e.path).length
  · rw [if_pos (.inl hlong), if_pos (.inr (.inl hlong))]
  have hpos := e.recordSectors_pos
  unfold Entry.recordSectors at hpos hfits
  rw [if_neg (by omega)]
  by_cases hsame : slotPayload d base e.payload.length = e.payload
  · rw [hsame, if_neg (not_not.mpr rfl), if_neg (by simp [hempty, hlong])]
    unfold Entry.payload
    rw [take_left, drop_left, fromUtf8_asBytes]
    rfl
  · rw [if_pos fun heq => hsame (hcrc (UInt32.toNat_inj.mp heq)), if_pos (.inr (.inr hsame))]

/-- The payload does not have the checksum in the header. -/
def Mismatched (d : Disk) (base : Nat) : Prop :=
  (crc32 (slotPayload d base (leNat (slice (slotHeader d base) 24 4) +
    leNat (slice (slotHeader d base) 28 4)))).toNat ≠ leNat (slice (slotHeader d base) 36 4)

/-- A slot that does not match is read as empty. -/
theorem journalRead_of_mismatch (hbase : journalBase d = some base) (h : Mismatched d base) :
    journalRead d = none := by
  unfold journalRead journalRecord
  rw [hbase]
  dsimp only
  rw [read_slotHeader hbase]
  refine ite_eq_left_iff.mpr fun _ => ite_eq_left_iff.mpr fun _ => ?_
  refine ite_eq_left_iff.mpr fun hbad => ?_
  obtain ⟨rest, hrest, hpayload⟩ :=
    read_slotPayload hbase (Nat.le_of_not_lt fun hlt => hbad (.inr (.inr hlt)))
  rw [hrest]
  dsimp only
  rw [hpayload]
  exact if_pos h

/-- The first sector of a record that is written, at least in part. -/
theorem RecordFields.put {state k : Nat} {buf : List UInt8} (h : RecordFields e state buf)
    (hlen : sectorSize ≤ buf.length) (hk : 0 < k) :
    RecordFields e state (slotHeader (d.put base k buf) base) := by
  have hfirst : ∀ start n, start + n ≤ sectorSize →
      slice (slotHeader (d.put base k buf) base) start n = slice buf start n := by
    intro start n hle
    have hin : start + n ≤ sectorSize * k := Nat.le_trans hle (Nat.le_mul_of_pos_right _ hk)
    rw [slotHeader, slice_bytesFrom _ _ hle, Disk.bytesFrom_put hin, slice_eq_bytesFrom]
    exact Nat.le_trans hle hlen
  obtain ⟨h1, h2, h3, h4, h5, h6, h7⟩ := h
  refine ⟨?_, ?_, ?_, ?_, ?_, ?_, ?_⟩ <;> rw [hfirst _ _ (by decide)] <;> assumption

theorem sectorSize_le_recordBuf (e : Entry) (buf : List UInt8) :
    sectorSize ≤ (padTo (e.recordSectors * sectorSize) buf).length := by
  rw [length_padTo]
  exact Nat.le_mul_of_pos_left _ e.recordSectors_pos

/-- An entry whose record fits the slot has lengths that fit their fields. -/
theorem Entry.Sized.of_fits (h : e.recordSectors ≤ journalSectors) : e.Sized := by
  have hle := Nat.le_trans (le_divCeil _) (Nat.mul_le_mul_right sectorSize h)
  rw [Entry.payload, length_append] at hle
  unfold journalSectors sectorSize at hle
  exact ⟨by omega, by omega⟩

/-- With its first sector on the disk, a record is read back whole or not at all. -/
theorem journalRead_put (hbase : journalBase d = some base) (hsized : e.Sized)
    (hfits : e.recordSectors ≤ journalSectors) {k : Nat} (hk : 0 < k)
    (htorn : crc32 (tornPayload d base k e) = crc32 e.payload →
      tornPayload d base k e = e.payload) :
    journalRead (d.put base k e.recordBuf) = none ∨
      journalRead (d.put base k e.recordBuf) = some (jrnlCommitted, e) := by
  have hfields : RecordFields e jrnlCommitted e.recordBuf := hsized.recordFields (by decide)
  have hput : RecordFields e jrnlCommitted (slotHeader (d.put base k e.recordBuf) base) :=
    hfields.put (sectorSize_le_recordBuf e _) hk
  rw [hput.journalRead hbase hfits htorn]
  split_ifs
  · exact .inl rfl
  · exact .inr rfl

/-- A slot whose first sector is cleared holds no record. -/
theorem journalRead_cleared (hbase : journalBase d = some base) :
    journalRead (d.put base 1 (padTo sectorSize (journalMagic ++ leBytes 4 jrnlEmpty))) = none := by
  have hheader : slotHeader (d.put base 1
      (padTo sectorSize (journalMagic ++ leBytes 4 jrnlEmpty))) base =
        padTo sectorSize (journalMagic ++ leBytes 4 jrnlEmpty) :=
    d.bytesFrom_put_self base (length_padTo _ _)
  have hbase' : journalBase (d.put base 1
      (padTo sectorSize (journalMagic ++ leBytes 4 jrnlEmpty))) = some base := hbase
  unfold journalRead
  rw [hbase']
  dsimp only
  rw [read_slotHeader hbase', hheader]
  dsimp only
  have hstate : leNat (slice (padTo sectorSize (journalMagic ++ leBytes 4 jrnlEmpty)) 12 4) =
      jrnlEmpty := by
    decide
  rw [hstate, if_pos rfl, ite_self]

end KnoxOS.Fs.Persist
