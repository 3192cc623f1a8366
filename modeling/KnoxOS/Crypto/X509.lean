import KnoxOS.Crypto.Asn1

/-!
# Certificates

`crypto/tls/x509.rs`: `X509Certificate::from_der` and `from_pem`. Read `from_der_safe_iff` first.
The parser reads every element in bounds and every field it returns comes out of `tbs_raw`, which
is the first element of the outer sequence. The one thing that stops it is a time whose string
cannot be cut behind the digits of the year, and then it panics.
-/

namespace KnoxOS.Crypto.X509

open Lib Option List

structure X509Certificate where
  subject : Text
  issuer : Text
  serial : List UInt8
  notBefore : Nat
  notAfter : Nat
  publicKey : List UInt8
  signature : List UInt8
  signatureAlgorithm : Text
  isCa : Bool
  tbsRaw : List UInt8
deriving DecidableEq, Repr

/-! ## `from_der` -/

/-- The outer sequence: the signed bytes, what is in them, and what follows them. -/
structure Outer where
  tbsRaw : List UInt8
  tbsContent : List UInt8
  afterTbs : List UInt8
deriving DecidableEq, Repr

/-- `from_der`, the outer sequence. -/
def readOuter (data : List UInt8) : Option Outer := do
  let cert ← asn1ReadTlv data
  let tbs ← asn1ReadTlv cert.content
  if tbs.tag ≠ 0x30 then none
  return {
    tbsRaw := cert.content.take (cert.content.length - tbs.rest.length)
    tbsContent := tbs.content
    afterTbs := tbs.rest }

/-- What `from_der` has read when it comes to the validity. -/
structure Head where
  serial : List UInt8
  sigAlg : Text
  issuer : Text
  validity : List UInt8
  /-- `tbsCertificate` behind the validity. -/
  pos : List UInt8
deriving DecidableEq, Repr

/-- The optional version is skipped; its value is not used. -/
def skipVersion (pos : List UInt8) : Option (List UInt8) :=
  if pos.head? = some 0xA0 then (asn1ReadTlv pos).map Tlv.rest else some pos

/-- The object identifier of an algorithm. -/
def algorithmOid (content : List UInt8) : Text :=
  match asn1ReadTlv content with
  | some oid => parseOid oid.content
  | none => []

/-- `from_der`, up to the validity. -/
def readHead (tbsContent : List UInt8) : Option Head := do
  let pos ← skipVersion tbsContent
  let serial ← asn1ReadTlv pos
  let sigAlg ← asn1ReadTlv serial.rest
  let issuer ← asn1ReadTlv sigAlg.rest
  let validity ← asn1ReadTlv issuer.rest
  return {
    serial := serial.content
    sigAlg := algorithmOid sigAlg.content
    issuer := parseX501Name issuer.content
    validity := validity.content
    pos := validity.rest }

/-- `from_der`, the validity: `notBefore` is parsed before `notAfter` is read. -/
def readTimes (validity : List UInt8) : Except Panic (Option (Nat × Nat)) :=
  match asn1ReadTlv validity with
  | none => .ok none
  | some nb => do
    let notBefore ← parseAsn1Time nb.tag nb.content
    match asn1ReadTlv nb.rest with
    | none => return none
    | some na =>
      let notAfter ← parseAsn1Time na.tag na.content
      return some (notBefore, notAfter)

/-- The bytes of a bit string, without the count of unused bits. -/
def bitString (t : Option Tlv) : List UInt8 :=
  match t with
  | none => []
  | some t => if 1 < t.content.length then t.content.drop 1 else t.content

/-- The flag in the basic constraints of an extension, if it has one. -/
def extensionCa (ext : Tlv) : Option Bool := do
  let oid ← asn1ReadTlv ext.content
  if parseOid oid.content ≠ oidBasicConstraints then none
  let vpos := match asn1ReadTlv oid.rest with
    | some critical => if oid.rest.head? = some 0x01 then critical.rest else oid.rest
    | none => oid.rest
  let octets ← asn1ReadTlv vpos
  let seq ← asn1ReadTlv octets.content
  let flag ← asn1ReadTlv seq.content
  if flag.tag = 0x01 then flag.content.head?.map (· ≠ 0) else none

/-- The flag `is_ca`, from what follows the public key. -/
def readExtensions (pos : List UInt8) : Bool :=
  if pos.head? = some 0xA3 then
    match (asn1ReadTlv pos).bind fun outer => asn1ReadTlv outer.content with
    | none => false
    | some seq => elementLoop (fun isCa ext => (extensionCa ext).getD isCa) seq.content false
  else false

/-- What `from_der` reads behind the validity. -/
structure Tail where
  subject : Text
  publicKey : List UInt8
  isCa : Bool
deriving DecidableEq, Repr

/-- `from_der`, behind the validity. -/
def readTail (pos : List UInt8) : Option Tail := do
  let subject ← asn1ReadTlv pos
  let spki ← asn1ReadTlv subject.rest
  let alg ← asn1ReadTlv spki.content
  return {
    subject := parseX501Name subject.content
    publicKey := bitString (asn1ReadTlv alg.rest)
    isCa := readExtensions spki.rest }

/-- `from_der`, behind `tbsCertificate`. -/
def readSignature (afterTbs : List UInt8) : Option (List UInt8) := do
  let sigAlg ← asn1ReadTlv afterTbs
  return bitString (asn1ReadTlv sigAlg.rest)

/-- `from_der`, what is made of the parts. -/
def certificate (outer : Outer) (head : Head) (times : Nat × Nat) : Option X509Certificate := do
  let tail ← readTail head.pos
  let signature ← readSignature outer.afterTbs
  return {
    subject := tail.subject
    issuer := head.issuer
    serial := head.serial
    notBefore := times.1
    notAfter := times.2
    publicKey := tail.publicKey
    signature := signature
    signatureAlgorithm := head.sigAlg
    isCa := tail.isCa
    tbsRaw := outer.tbsRaw }

def fromDer (data : List UInt8) : Except Panic (Option X509Certificate) :=
  match readOuter data with
  | none => .ok none
  | some outer =>
    match readHead outer.tbsContent with
    | none => .ok none
    | some head =>
      (readTimes head.validity).map fun times => times.bind (certificate outer head)

/-! ## `from_pem` -/

def isWhitespace (c : Char) : Bool :=
  (9 ≤ c.toNat && c.toNat ≤ 13) || (0x2000 ≤ c.toNat && c.toNat ≤ 0x200A) ||
    [0x20, 0x85, 0xA0, 0x1680, 0x2028, 0x2029, 0x202F, 0x205F, 0x3000].contains c.toNat

def trim (s : Text) : Text := ((s.dropWhile isWhitespace).reverse.dropWhile isWhitespace).reverse

/-- `str::lines`: a line feed ends a line, with a carriage return before it; what is empty behind
the last one is no line. -/
def lines (s : Text) : List Text :=
  let parts := s.splitOn '\n'
  parts.dropLast.map (fun l => if l.getLast? = some '\r' then l.dropLast else l) ++
    (parts.getLast?.toList.filter (· ≠ []))

/-- The loop of `from_pem` over the lines. -/
def pemBody : List Text → Bool → Text
  | [], _ => []
  | line :: rest, inBody =>
    if "-----BEGIN".toList.isPrefixOf (trim line) then pemBody rest true
    else if "-----END".toList.isPrefixOf (trim line) then []
    else (if inBody then trim line else []) ++ pemBody rest inBody

def decodeChar (c : UInt8) : Option UInt8 :=
  if 65 ≤ c ∧ c ≤ 90 then some (c - 65)
  else if 97 ≤ c ∧ c ≤ 122 then some (c - 97 + 26)
  else if 48 ≤ c ∧ c ≤ 57 then some (c - 48 + 52)
  else if c = 43 then some 62
  else if c = 47 then some 63
  else none

/-- The bytes of a chunk of `base64_decode`; `=` is 61. -/
def decodeChunk : List UInt8 → Option (List UInt8)
  | c₀ :: c₁ :: more => do
    let a ← decodeChar c₀
    let b ← decodeChar c₁
    match more with
    | [] => return [(a <<< 2) ||| (b >>> 4)]
    | c₂ :: more =>
      if c₂ = 61 then return [(a <<< 2) ||| (b >>> 4)]
      let c ← decodeChar c₂
      match more with
      | [] => return [(a <<< 2) ||| (b >>> 4), ((b &&& 0x0F) <<< 4) ||| (c >>> 2)]
      | c₃ :: _ =>
        if c₃ = 61 then
          return [(a <<< 2) ||| (b >>> 4), ((b &&& 0x0F) <<< 4) ||| (c >>> 2)]
        let d ← decodeChar c₃
        return [(a <<< 2) ||| (b >>> 4), ((b &&& 0x0F) <<< 4) ||| (c >>> 2),
          ((c &&& 0x03) <<< 6) ||| d]
  -- a chunk of one byte ends the loop, and it is the last one
  | _ => some []

/-- The loop of `base64_decode` over the chunks of four. -/
def decodeChunks : List UInt8 → Option (List UInt8)
  | c₀ :: c₁ :: c₂ :: c₃ :: rest => do
    let chunk ← decodeChunk [c₀, c₁, c₂, c₃]
    let more ← decodeChunks rest
    return chunk ++ more
  | chunk => decodeChunk chunk

def base64Decode (input : Text) : Option (List UInt8) :=
  decodeChunks ((input.flatMap String.utf8EncodeChar).filter fun b => b ≠ 10 && b ≠ 13 && b ≠ 32)

/-- The DER bytes in a PEM text. -/
def pemDer (text : Text) : Option (List UInt8) := base64Decode (pemBody (lines text) false)

def fromPem (text : Text) : Except Panic (Option X509Certificate) :=
  match pemDer text with
  | none => .ok none
  | some der => fromDer der

/-! ## What the parts of `from_der` read -/

/-- What is signed is the first element of the outer sequence, with its header. -/
structure Outer.Reads (data : List UInt8) (tbsRaw tbsContent afterTbs : List UInt8) : Prop where
  first : ∃ cert, asn1ReadTlv data = some cert ∧
    asn1ReadTlv cert.content = some ⟨0x30, tbsContent, afterTbs⟩ ∧
    cert.content = tbsRaw ++ afterTbs
  alone : asn1ReadTlv tbsRaw = some ⟨0x30, tbsContent, []⟩

variable {data tbsRaw tbsContent afterTbs : List UInt8} {validity : List UInt8}

/-- What the outer sequences yield lies in the data in the order of the encoding. -/
theorem readOuter_reads {outer : Outer} (h : readOuter data = some outer) :
    Outer.Reads data outer.tbsRaw outer.tbsContent outer.afterTbs := by
  unfold readOuter at h
  simp only [bind, bind_eq_some_iff] at h
  obtain ⟨cert, hcert, tbs, htbs, h⟩ := h
  by_cases htag : tbs.tag = 0x30
  · rw [if_neg (not_not_intro htag)] at h
    cases h
    have hsplit : cert.content =
        cert.content.take (cert.content.length - tbs.rest.length) ++ tbs.rest := by
      obtain ⟨front, hfront⟩ := Tlv.rest_suffix htbs
      rw [← hfront, length_append, Nat.add_sub_cancel, take_left]
    have halone := asn1ReadTlv_alone htbs
    obtain ⟨tag, content, rest⟩ := tbs
    cases htag
    exact ⟨⟨cert, hcert, htbs, hsplit⟩, halone⟩
  · rw [if_pos htag] at h
    cases h

/-- The content of the signed part lies in the bytes that the signature covers. -/
theorem Outer.Reads.content_within (h : Outer.Reads data tbsRaw tbsContent afterTbs) :
    tbsContent <:+: tbsRaw :=
  Tlv.content_within h.alone

/-- What follows the signed part lies in the data. -/
theorem Outer.Reads.after_within (h : Outer.Reads data tbsRaw tbsContent afterTbs) :
    afterTbs <:+: data := by
  obtain ⟨cert, hcert, htbs, -⟩ := h.first
  exact (Tlv.rest_suffix htbs).isInfix.trans (Tlv.content_within hcert)

/-- Skipping the optional version leaves an end of the input. -/
theorem skipVersion_suffix {pos rest : List UInt8} (h : skipVersion pos = some rest) :
    rest <:+ pos := by
  unfold skipVersion at h
  split_ifs at h
  · obtain ⟨version, hversion, rfl⟩ := map_eq_some_iff.mp h
    exact Tlv.rest_suffix hversion
  · cases h
    exact suffix_refl pos

/-- The bytes of a bit string are bytes of the input. -/
theorem bitString_within (data : List UInt8) : bitString (asn1ReadTlv data) <:+: data := by
  cases h : asn1ReadTlv data with
  | none => exact nil_suffix.isInfix
  | some t =>
    unfold bitString
    dsimp only
    split_ifs
    · exact (drop_suffix 1 t.content).isInfix.trans (Tlv.content_within h)
    · exact Tlv.content_within h

/-- The algorithm is the identifier that some bytes of the input spell. -/
theorem algorithmOid_within (data : List UInt8) :
    ∃ oid, oid <:+: data ∧ algorithmOid data = parseOid oid := by
  unfold algorithmOid
  cases h : asn1ReadTlv data with
  | none => exact ⟨[], nil_suffix.isInfix, rfl⟩
  | some t => exact ⟨t.content, Tlv.content_within h, rfl⟩

/-- Everything in the head was read from the bytes given. -/
theorem readHead_within {head : Head} (h : readHead data = some head) :
    head.serial <:+: data ∧ (∃ oid, oid <:+: data ∧ head.sigAlg = parseOid oid) ∧
      (∃ name, name <:+: data ∧ head.issuer = parseX501Name name) ∧
      head.validity <:+: data ∧ head.pos <:+: data := by
  unfold readHead at h
  simp only [bind, bind_eq_some_iff] at h
  obtain ⟨pos, hpos, serial, hserial, sigAlg, hsigAlg, issuer, hissuer, validity, hvalidity, h⟩ := h
  cases h
  -- what is behind each element is still inside of the data
  have h₁ : serial.rest <:+: data :=
    ((Tlv.rest_suffix hserial).trans (skipVersion_suffix hpos)).isInfix
  have h₂ : sigAlg.rest <:+: data := (Tlv.rest_suffix hsigAlg).isInfix.trans h₁
  have h₃ : issuer.rest <:+: data := (Tlv.rest_suffix hissuer).isInfix.trans h₂
  obtain ⟨oid, hoid, heq⟩ := algorithmOid_within sigAlg.content
  refine ⟨?_, ⟨oid, ?_, heq⟩, ⟨issuer.content, ?_, rfl⟩, ?_, ?_⟩
  · exact (Tlv.content_within hserial).trans (skipVersion_suffix hpos).isInfix
  · exact hoid.trans ((Tlv.content_within hsigAlg).trans h₁)
  · exact (Tlv.content_within hissuer).trans h₂
  · exact (Tlv.content_within hvalidity).trans h₃
  · exact (Tlv.rest_suffix hvalidity).isInfix.trans h₃

/-- The subject, the key and the extensions are read from the bytes they are given. -/
theorem readTail_within {tail : Tail} (h : readTail data = some tail) :
    (∃ name, name <:+: data ∧ tail.subject = parseX501Name name) ∧ tail.publicKey <:+: data ∧
      ∃ pos, pos <:+: data ∧ tail.isCa = readExtensions pos := by
  unfold readTail at h
  simp only [bind, bind_eq_some_iff] at h
  obtain ⟨subject, hsubject, spki, hspki, alg, halg, h⟩ := h
  cases h
  have h₁ : subject.rest <:+: data := (Tlv.rest_suffix hsubject).isInfix
  refine ⟨⟨subject.content, Tlv.content_within hsubject, rfl⟩, ?_, spki.rest, ?_, rfl⟩
  · have hkey := (bitString_within alg.rest).trans (Tlv.rest_suffix halg).isInfix
    exact hkey.trans ((Tlv.content_within hspki).trans h₁)
  · exact (Tlv.rest_suffix hspki).isInfix.trans h₁

/-- The signature is a run of bytes of the input. -/
theorem readSignature_within {signature : List UInt8} (h : readSignature data = some signature) :
    signature <:+: data := by
  unfold readSignature at h
  simp only [bind, bind_eq_some_iff] at h
  obtain ⟨sigAlg, hsigAlg, h⟩ := h
  cases h
  exact (bitString_within sigAlg.rest).trans (Tlv.rest_suffix hsigAlg).isInfix

/-! ## Times -/

/-- The times that are read from a validity fit: `notBefore`, and `notAfter` if it is there. -/
def ValidityFits (validity : List UInt8) : Prop :=
  ∀ nb, asn1ReadTlv validity = some nb →
    nb.TimeFits ∧ ∀ na, asn1ReadTlv nb.rest = some na → na.TimeFits

/-- A time that is inside of the data. -/
def TimeIn (data : List UInt8) (n : Nat) : Prop :=
  ∃ t : Tlv, t.content <:+: data ∧ parseAsn1Time t.tag t.content = .ok n

/-- A time read from a part is a time read from the whole. -/
theorem TimeIn.mono {data' : List UInt8} {n : Nat} (h : TimeIn data n) (hin : data <:+: data') :
    TimeIn data' n := by
  obtain ⟨t, ht, hparse⟩ := h
  exact ⟨t, ht.trans hin, hparse⟩

/-- Where both times fit, reading them does not panic and both come from the input. -/
theorem readTimes_ok (h : ValidityFits validity) : ∃ times, readTimes validity = .ok times ∧
      ∀ t, times = some t → TimeIn validity t.1 ∧ TimeIn validity t.2 := by
  unfold readTimes
  cases hnb : asn1ReadTlv validity with
  | none => exact ⟨none, rfl, fun t ht => by cases ht⟩
  | some nb =>
    obtain ⟨hfits, hna⟩ := h nb hnb
    obtain ⟨notBefore, hbefore⟩ := parseAsn1Time_ok hfits
    dsimp only
    rw [hbefore]
    cases hread : asn1ReadTlv nb.rest with
    | none => exact ⟨none, rfl, fun t ht => by cases ht⟩
    | some na =>
      obtain ⟨notAfter, hafter⟩ := parseAsn1Time_ok (hna na hread)
      refine ⟨some (notBefore, notAfter), ?_, ?_⟩
      · show (parseAsn1Time na.tag na.content >>= fun a => pure (some (notBefore, a))) = _
        rw [hafter]
        rfl
      · intro t ht
        cases ht
        refine ⟨⟨nb, Tlv.content_within hnb, hbefore⟩, ⟨na, ?_, hafter⟩⟩
        exact (Tlv.content_within hread).trans (Tlv.rest_suffix hnb).isInfix

/-- A time that does not fit panics, `notAfter` only if it is reached. -/
theorem readTimes_panic (h : ¬ ValidityFits validity) : readTimes validity = .error .strIndex := by
  unfold ValidityFits at h
  push Not at h
  obtain ⟨nb, hnb, h⟩ := h
  unfold readTimes
  rw [hnb]
  dsimp only
  by_cases hfits : nb.TimeFits
  · obtain ⟨na, hna, hnot⟩ := h hfits
    obtain ⟨notBefore, hbefore⟩ := parseAsn1Time_ok hfits
    rw [hbefore, hna]
    show (parseAsn1Time na.tag na.content >>= fun a => pure (some (notBefore, a))) = _
    rw [parseAsn1Time_panic hnot]
    rfl
  · rw [parseAsn1Time_panic hfits]
    rfl

/-! ## Safety -/

/-- A certificate read from the data: the signed bytes are the first element of the outer sequence,
the signature stands behind them, and every other field inside of them. -/
structure ReadFrom (data : List UInt8) (c : X509Certificate) : Prop where
  first : ∃ tbsContent afterTbs, Outer.Reads data c.tbsRaw tbsContent afterTbs
  signature : c.signature <:+: data
  serial : c.serial <:+: c.tbsRaw
  publicKey : c.publicKey <:+: c.tbsRaw
  issuer : ∃ name, name <:+: c.tbsRaw ∧ c.issuer = parseX501Name name
  subject : ∃ name, name <:+: c.tbsRaw ∧ c.subject = parseX501Name name
  algorithm : ∃ oid, oid <:+: c.tbsRaw ∧ c.signatureAlgorithm = parseOid oid
  notBefore : TimeIn c.tbsRaw c.notBefore
  notAfter : TimeIn c.tbsRaw c.notAfter
  extensions : ∃ pos, pos <:+: c.tbsRaw ∧ c.isCa = readExtensions pos

/-- A certificate is put together from bytes of the data. -/
theorem certificate_readFrom {outer : Outer} {head : Head} {times : Nat × Nat} {c : X509Certificate}
    (houter : readOuter data = some outer) (hhead : readHead outer.tbsContent = some head)
    (htimes : TimeIn head.validity times.1 ∧ TimeIn head.validity times.2)
    (h : certificate outer head times = some c) : ReadFrom data c := by
  have hreads := readOuter_reads houter
  have hin := hreads.content_within
  obtain ⟨hserial, ⟨oid, hoid, halg⟩, ⟨issuer, hissuer, hname⟩, hvalidity, hpos⟩ :=
    readHead_within hhead
  unfold certificate at h
  simp only [bind, bind_eq_some_iff] at h
  obtain ⟨tail, htail, signature, hsignature, h⟩ := h
  cases h
  obtain ⟨⟨subject, hsubject, hsubj⟩, hkey, ⟨exts, hexts, hca⟩⟩ := readTail_within htail
  have hposIn := hpos.trans hin
  exact {
    first := ⟨outer.tbsContent, outer.afterTbs, hreads⟩
    signature := (readSignature_within hsignature).trans hreads.after_within
    serial := hserial.trans hin
    publicKey := hkey.trans hposIn
    issuer := ⟨issuer, hissuer.trans hin, hname⟩
    subject := ⟨subject, hsubject.trans hposIn, hsubj⟩
    algorithm := ⟨oid, hoid.trans hin, halg⟩
    notBefore := htimes.1.mono (hvalidity.trans hin)
    notAfter := htimes.2.mono (hvalidity.trans hin)
    extensions := ⟨exts, hexts.trans hposIn, hca⟩ }

/-- `from_der` returns, and what it returns was read from the data. -/
def DerSafe (data : List UInt8) : Prop :=
  ∃ result, fromDer data = .ok result ∧ ∀ c, result = some c → ReadFrom data c

/-- `from_pem` returns, with what it read from the bytes that the text encodes. -/
def PemSafe (text : Text) : Prop :=
  ∃ result, fromPem text = .ok result ∧
    ∀ c, result = some c → ∃ der, pemDer text = some der ∧ ReadFrom der c

/-- The times that are reached in the data fit. -/
def TimesFit (data : List UInt8) : Prop :=
  ∀ outer, readOuter data = some outer →
    ∀ head, readHead outer.tbsContent = some head → ValidityFits head.validity

/-- Where the times fit, parsing ends and what it returns was read from the data. -/
theorem derSafe_of_timesFit (h : TimesFit data) : DerSafe data := by
  unfold DerSafe fromDer
  cases houter : readOuter data with
  | none => exact ⟨none, rfl, fun c hc => by cases hc⟩
  | some outer =>
    dsimp only
    cases hhead : readHead outer.tbsContent with
    | none => exact ⟨none, rfl, fun c hc => by cases hc⟩
    | some head =>
      obtain ⟨times, htimes, hin⟩ := readTimes_ok (h outer houter head hhead)
      dsimp only
      rw [htimes]
      refine ⟨times.bind (certificate outer head), rfl, ?_⟩
      intro c hc
      obtain ⟨t, ht, hcert⟩ := bind_eq_some_iff.mp hc
      exact certificate_readFrom houter hhead (hin t ht) hcert

/-- Where a time does not fit, slicing its text panics. -/
theorem fromDer_panic (h : ¬ TimesFit data) : fromDer data = .error .strIndex := by
  unfold TimesFit at h
  push Not at h
  obtain ⟨outer, houter, head, hhead, hnot⟩ := h
  unfold fromDer
  rw [houter]
  dsimp only
  rw [hhead]
  dsimp only
  rw [readTimes_panic hnot]
  rfl

/-- Parsing ends only where the times fit. -/
theorem timesFit_of_ok {result : Option X509Certificate} (h : fromDer data = .ok result) :
    TimesFit data := by
  by_contra hnot
  rw [fromDer_panic hnot] at h
  cases h

/-- The times are the only field whose reading can panic. -/
theorem derSafe_iff (data : List UInt8) : DerSafe data ↔ TimesFit data :=
  ⟨fun ⟨_, hresult, _⟩ => timesFit_of_ok hresult, derSafe_of_timesFit⟩

/-- An armoured certificate is parsed safely exactly when the encoding inside it is. -/
theorem pemSafe_iff (text : Text) :
    PemSafe text ↔ ∀ der, pemDer text = some der → TimesFit der := by
  unfold PemSafe fromPem
  cases hder : pemDer text with
  | none =>
    refine ⟨fun _ der h => (by cases h), fun _ => ⟨none, rfl, fun c hc => by cases hc⟩⟩
  | some der =>
    constructor
    · intro ⟨result, hresult, _⟩ der' hder'
      cases hder'
      exact timesFit_of_ok hresult
    · intro h
      obtain ⟨result, hresult, hfrom⟩ := derSafe_of_timesFit (h der rfl)
      exact ⟨result, hresult, fun c hc => ⟨der, rfl, hfrom c hc⟩⟩

/-- Parsing a certificate is safe on exactly the inputs whose times, as far as they are reached, are
UTF-8 that can be cut behind the digits of the year. -/
theorem from_der_safe_iff (data : List UInt8) (text : Text) :
    (DerSafe data ↔ TimesFit data) ∧
      (PemSafe text ↔ ∀ der, pemDer text = some der → TimesFit der) :=
  ⟨derSafe_iff data, pemSafe_iff text⟩

/-- A certificate with an empty `UTCTime`. -/
def emptyTime : List UInt8 :=
  [0x30, 13, 0x30, 11, 0x02, 1, 1, 0x30, 0, 0x30, 0, 0x30, 2, 0x17, 0]

/-- An empty time stops the parser. -/
theorem empty_time_panics : fromDer emptyTime = .error .strIndex ∧ ¬ DerSafe emptyTime := by
  have hpanic : fromDer emptyTime = .error .strIndex := by
    apply fromDer_panic
    intro h
    have hfits := h ⟨emptyTime.drop 2, emptyTime.drop 4, []⟩ rfl
      ⟨[1], [], parseX501Name [], [0x17, 0], []⟩ rfl ⟨0x17, [], []⟩ rfl
    exact absurd hfits.1.2.1 (by decide)
  refine ⟨hpanic, ?_⟩
  intro ⟨result, hresult, _⟩
  cases hresult

end KnoxOS.Crypto.X509
