import Mathlib.Algebra.Group.Nat.Defs
import Mathlib.Data.List.Infix
import KnoxOS.Lib.Bytes

/-!
# DER elements

`crypto/tls/asn1.rs`: reading an element with its tag and length, object identifiers, names and
times. An element that is read lies inside the bytes it was read from, and it is read the same way
on its own (`asn1ReadTlv_alone`). A time is
parsed when its string can be cut behind the year (`parseAsn1Time_ok`), and panics otherwise.

Text is a list of characters, except in a time, whose string is cut at byte offsets.
-/

namespace KnoxOS.Crypto.X509

open Lib List

/-- A text. -/
abbrev Text := List Char

def fromUtf8 (bytes : List UInt8) : Option Text := bytes.toByteArray.utf8Decode?.map Array.toList

/-- The index of a slice is outside of a string or inside of a character. -/
inductive Panic where
  | strIndex
deriving DecidableEq, Repr

/-! ## Elements -/

/-- An element: its tag, its content, and the bytes behind it. -/
structure Tlv where
  tag : UInt8
  content : List UInt8
  rest : List UInt8
deriving DecidableEq, Repr

/-- The number that bytes stand for, the most significant first. -/
def beNat (bytes : List UInt8) : Nat := bytes.foldl (fun n b => n * 256 + b.toNat) 0

/-- The size of the header and the length it gives, in the short or in the long form. -/
def tlvHeader (data : List UInt8) : Option (Nat × Nat) :=
  if data.length < 2 then none
  else if byteAt data 1 &&& 0x80 = 0 then some (2, (byteAt data 1).toNat)
  else
    let numBytes := (byteAt data 1 &&& 0x7F).toNat
    if numBytes = 0 ∨ 4 < numBytes ∨ data.length < 2 + numBytes then none
    else some (2 + numBytes, beNat (slice data 2 numBytes))

def asn1ReadTlv (data : List UInt8) : Option Tlv :=
  match tlvHeader data with
  | none => none
  | some (headerSize, len) =>
    if data.length < headerSize + len then none
    else some ⟨byteAt data 0, slice data headerSize len, data.drop (headerSize + len)⟩

variable {data : List UInt8} {t : Tlv}

/-- A header has at least two bytes and is inside of the data. -/
theorem tlvHeader_size {n len : Nat} (h : tlvHeader data = some (n, len)) :
    2 ≤ n ∧ n ≤ data.length := by
  unfold tlvHeader at h
  split_ifs at h with hshort hform
  · cases h
    exact ⟨Nat.le_refl 2, Nat.le_of_not_lt hshort⟩
  · dsimp only at h
    split_ifs at h with hbad
    cases h
    omega

/-- What an element is made of. -/
theorem asn1ReadTlv_split (h : asn1ReadTlv data = some t) :
    ∃ header, data = header ++ t.content ++ t.rest ∧ 2 ≤ header.length ∧
      tlvHeader data = some (header.length, t.content.length) ∧ t.tag = byteAt data 0 := by
  unfold asn1ReadTlv at h
  cases hhead : tlvHeader data with
  | none =>
    rw [hhead] at h
    cases h
  | some e =>
    obtain ⟨n, len⟩ := e
    rw [hhead] at h
    dsimp only at h
    split_ifs at h with hshort
    cases h
    obtain ⟨hn, hle⟩ := tlvHeader_size hhead
    have hheader : (data.take n).length = n := by
      rw [length_take]
      omega
    have hcontent : (slice data n len).length = len := by
      unfold slice
      rw [length_take, length_drop]
      omega
    refine ⟨data.take n, ?_, by omega, ?_, rfl⟩
    · show data = data.take n ++ (data.drop n).take len ++ data.drop (n + len)
      rw [← drop_drop, append_assoc, take_append_drop, take_append_drop]
    · rw [hheader]
      rw [hcontent]

/-- The header is determined by the bytes up to the end of the element. -/
theorem tlvHeader_append {a b : List UInt8} {n len : Nat}
    (h : tlvHeader (a ++ b) = some (n, len)) (hn : n ≤ a.length) : tlvHeader a = some (n, len) := by
  have hsize := tlvHeader_size h
  have hbyte : byteAt (a ++ b) 1 = byteAt a 1 := by
    rw [byteAt_append, if_pos (by omega)]
  unfold tlvHeader at h ⊢
  rw [hbyte] at h
  rw [if_neg (by omega)]
  split_ifs at h ⊢ with hform
  · exact h
  · dsimp only at h ⊢
    split_ifs at h with hbad
    obtain ⟨rfl, hlen⟩ := Prod.mk.inj (Option.some.inj h)
    have hslice : slice (a ++ b) 2 (byteAt a 1 &&& 0x7F).toNat =
        slice a 2 (byteAt a 1 &&& 0x7F).toNat := by
      unfold slice
      rw [drop_append_of_le_length (by omega), take_append_of_le_length]
      rw [length_drop]
      omega
    rw [if_neg (by omega), ← hslice, hlen]

section

variable (h : asn1ReadTlv data = some t)
include h

/-- An element is read the same way without the bytes behind it. -/
theorem asn1ReadTlv_alone :
    asn1ReadTlv (data.take (data.length - t.rest.length)) = some { t with rest := [] } := by
  obtain ⟨header, hdata, hheader, hhead, htag⟩ := asn1ReadTlv_split h
  have htake : data.take (data.length - t.rest.length) = header ++ t.content := by
    rw [hdata, length_append, Nat.add_sub_cancel, take_left]
  rw [hdata] at hhead
  have hhead' := tlvHeader_append hhead (by rw [length_append]; omega)
  have hbyte : byteAt (header ++ t.content) 0 = t.tag := by
    rw [htag, hdata, byteAt_append (header ++ t.content), if_pos]
    rw [length_append]
    omega
  unfold asn1ReadTlv
  rw [htake, hhead']
  dsimp only
  rw [length_append, if_neg (Nat.lt_irrefl _), hbyte, ← length_append, drop_length]
  unfold slice
  rw [drop_left, take_length]

theorem Tlv.content_within : t.content <:+: data := by
  obtain ⟨header, hdata, -⟩ := asn1ReadTlv_split h
  exact ⟨header, t.rest, hdata.symm⟩

theorem Tlv.rest_suffix : t.rest <:+ data := by
  obtain ⟨header, hdata, -⟩ := asn1ReadTlv_split h
  exact ⟨header ++ t.content, hdata.symm⟩

theorem Tlv.rest_length : t.rest.length + 2 ≤ data.length := by
  obtain ⟨header, hdata, hheader, -⟩ := asn1ReadTlv_split h
  have hlen := congrArg length hdata
  rw [length_append, length_append] at hlen
  omega

end

/-- A loop over the elements in `pos`, up to the first unreadable one. A pass takes two bytes or
more. -/
def elementLoop {β : Type} (f : β → Tlv → β) (pos : List UInt8) (acc : β) : β :=
  match _hread : asn1ReadTlv pos with
  | none => acc
  | some t => elementLoop f t.rest (f acc t)
termination_by pos.length
decreasing_by
  have := Tlv.rest_length _hread
  omega

/-! ## Object identifiers -/

/-- The arcs behind the first byte; `val` is the arc being read, kept in 64 bits. -/
def oidArcs : Nat → List UInt8 → List Nat
  | _, [] => []
  | val, b :: bs =>
    let val := val * 128 % 2 ^ 64 ||| (b &&& 0x7F).toNat
    if b &&& 0x80 = 0 then val :: oidArcs 0 bs else oidArcs val bs

/-- `parse_oid`: the dotted form. -/
def parseOid : List UInt8 → Text
  | [] => []
  | b :: bs => List.intercalate ['.']
      ((b.toNat / 40 :: b.toNat % 40 :: oidArcs 0 bs).map (Nat.toDigits 10))

def oidBasicConstraints : Text := "2.5.29.19".toList

def oidShortName (oid : Text) : Text :=
  if oid = "2.5.4.3".toList then "CN".toList
  else if oid = "2.5.4.6".toList then "C".toList
  else if oid = "2.5.4.7".toList then "L".toList
  else if oid = "2.5.4.8".toList then "ST".toList
  else if oid = "2.5.4.10".toList then "O".toList
  else if oid = "2.5.4.11".toList then "OU".toList
  else oid

/-! ## Names -/

/-- The attribute in a set: its short name and its value. -/
def nameAttribute (set : Tlv) : Option (Text × Text) :=
  if set.tag = 0x31 then do
    let seq ← asn1ReadTlv set.content
    let oid ← asn1ReadTlv seq.content
    if oid.tag = 0x06 then do
      let val ← asn1ReadTlv oid.rest
      return (oidShortName (parseOid oid.content), (fromUtf8 val.content).getD ['?'])
    else none
  else none

/-- What a pass of the loop does; `result` is empty up to the first attribute. -/
def nameStep (result : Text) (set : Tlv) : Text :=
  match nameAttribute set with
  | none => result
  | some (name, value) =>
    result ++ (if result = [] then [] else [',', ' ']) ++ name ++ ['='] ++ value

def parseX501Name (data : List UInt8) : Text := elementLoop nameStep data []

/-! ## Times -/

/-- `str::is_char_boundary`, on the bytes of a string. -/
def isCharBoundary (s : List UInt8) (i : Nat) : Bool :=
  i = 0 || i = s.length || (i < s.length && byteAt s i &&& 0xC0 ≠ 0x80)

/-- `str::get` with a range. -/
def strGet (s : List UInt8) (i j : Nat) : Option (List UInt8) :=
  if j ≤ s.length ∧ isCharBoundary s i ∧ isCharBoundary s j then some (slice s i (j - i)) else none

/-- The slice of a string from `i` on. -/
def strFrom (s : List UInt8) (i : Nat) : Except Panic (List UInt8) :=
  if isCharBoundary s i then .ok (s.drop i) else .error .strIndex

/-- A nonempty run of decimal digits. -/
def parseDigits (s : List UInt8) : Option Nat :=
  if s ≠ [] ∧ s.all (fun b => 48 ≤ b && b ≤ 57) then
    some (s.foldl (fun n b => n * 10 + (b.toNat - 48)) 0)
  else none

/-- `parse::<u64>()` of at most four bytes: a sign `+` is accepted. -/
def parseU64 (s : List UInt8) : Option Nat :=
  match s with
  | 43 :: rest => parseDigits rest
  | _ => parseDigits s

/-- A field of a time, or its default. -/
def timeField (s : List UInt8) (i j default : Nat) : Nat :=
  ((strGet s i j).bind parseU64).getD default

def isLeap (y : Nat) : Bool := y % 4 = 0 && (y % 100 ≠ 0 || y % 400 = 0)

def daysPerMonth : List Nat := [31, 28, 31, 30, 31, 30, 31, 31, 30, 31, 30, 31]

/-- The days before a date. -/
def daysBefore (year month day : Nat) : Nat :=
  (List.range (min (month - 1) 11)).foldl
    (fun days m => days + daysPerMonth.getD m 0 + if m = 1 ∧ isLeap year then 1 else 0)
    ((List.range (year - 1970)).foldl
      (fun days i => days + if isLeap (1970 + i) then 366 else 365) 0) + (day - 1)

/-- The seconds of a date and time behind the year. -/
def timeSeconds (year : Nat) (rest : List UInt8) : Nat :=
  daysBefore year (timeField rest 0 2 1) (timeField rest 2 4 1) * 86400 +
    timeField rest 4 6 0 * 3600 + timeField rest 6 8 0 * 60 + timeField rest 8 10 0

/-- The string of a time; bytes that are no UTF-8 count as empty. -/
def timeString (data : List UInt8) : List UInt8 := if (fromUtf8 data).isSome then data else []

/-- The number of digits of the year. -/
def yearDigits (tag : UInt8) : Nat := if tag = 0x17 then 2 else 4

/-- The year that the digits stand for. -/
def yearOf (tag : UInt8) (y : Nat) : Nat :=
  if tag = 0x17 then if 50 ≤ y then 1900 + y else 2000 + y else y

def parseAsn1Time (tag : UInt8) (data : List UInt8) : Except Panic Nat :=
  (strFrom (timeString data) (yearDigits tag)).map
    (timeSeconds (yearOf tag (timeField (timeString data) 0 (yearDigits tag) 0)))

/-- A time whose string can be cut behind the digits of the year. -/
def Tlv.TimeFits (t : Tlv) : Prop :=
  (fromUtf8 t.content).isSome ∧ yearDigits t.tag ≤ t.content.length ∧
    byteAt t.content (yearDigits t.tag) &&& 0xC0 ≠ 0x80

instance (t : Tlv) : Decidable t.TimeFits := inferInstanceAs (Decidable (_ ∧ _ ∧ _))

theorem yearDigits_pos (tag : UInt8) : 0 < yearDigits tag := by
  unfold yearDigits
  split <;> decide

/-- A character starts where no continuation byte is. -/
theorem isCharBoundary_iff {s : List UInt8} {i : Nat} (hi : 0 < i) :
    isCharBoundary s i = true ↔ i ≤ s.length ∧ byteAt s i &&& 0xC0 ≠ 0x80 := by
  have hend : s.length ≤ i → byteAt s i &&& 0xC0 ≠ 0x80 := by
    intro h
    rw [byteAt_of_length_le h]
    decide
  unfold isCharBoundary
  simp only [Bool.or_eq_true, Bool.and_eq_true, decide_eq_true_eq]
  constructor
  · intro h
    obtain (h | h) | ⟨hlt, hbyte⟩ := h
    · omega
    · exact ⟨Nat.le_of_eq h, hend (Nat.le_of_eq h.symm)⟩
    · exact ⟨Nat.le_of_lt hlt, hbyte⟩
  · intro ⟨hle, hbyte⟩
    by_cases hlt : i < s.length
    · exact Or.inr ⟨hlt, hbyte⟩
    · exact Or.inl (Or.inr (by omega))

/-- Bytes that are no UTF-8 are no time either. -/
theorem boundary_timeString (t : Tlv) :
    isCharBoundary (timeString t.content) (yearDigits t.tag) = true ↔ t.TimeFits := by
  rw [isCharBoundary_iff (yearDigits_pos t.tag)]
  unfold timeString
  by_cases hutf8 : (fromUtf8 t.content).isSome
  · rw [if_pos hutf8]
    exact ⟨fun h => ⟨hutf8, h⟩, fun h => h.2⟩
  · rw [if_neg hutf8]
    have hpos := yearDigits_pos t.tag
    exact ⟨fun h => absurd h.1 (Nat.not_le_of_lt hpos), fun h => absurd h.1 hutf8⟩

theorem parseAsn1Time_ok (h : t.TimeFits) : ∃ n, parseAsn1Time t.tag t.content = .ok n := by
  unfold parseAsn1Time strFrom
  rw [if_pos ((boundary_timeString t).mpr h)]
  exact ⟨_, rfl⟩

/-- Any other time panics. -/
theorem parseAsn1Time_panic (h : ¬ t.TimeFits) :
    parseAsn1Time t.tag t.content = .error .strIndex := by
  unfold parseAsn1Time strFrom
  rw [if_neg (fun hb => h ((boundary_timeString t).mp hb))]
  rfl

end KnoxOS.Crypto.X509
