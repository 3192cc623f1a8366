import Mathlib.Data.List.Chain
import KnoxOS.Crypto.Rsa
import KnoxOS.Crypto.X509

/-!
# Certificate chains

`CertificateStore::verify_chain` of `crypto/tls/x509.rs`. Read `accepted_chain_trusted_iff` first.
An accepted chain is within its validity and all its issuers are CAs. Its signatures mean something
only where they are present, and the trust in the last certificate compares names and no keys.
-/

namespace KnoxOS.Crypto.X509

open Rsa List

structure CertificateStore where
  trustedRoots : List X509Certificate
deriving DecidableEq, Repr

def X509Certificate.isSelfSigned (c : X509Certificate) : Bool := c.subject = c.issuer

def X509Certificate.isValidAt (c : X509Certificate) (unixTime : Nat) : Bool :=
  c.notBefore ≤ unixTime && unixTime ≤ c.notAfter

def rsaPublicFromSpkiBits (pk : List UInt8) : Option RsaPublicKey := do
  let seq ← asn1ReadTlv pk
  if seq.tag ≠ 0x30 then none
  let nRaw ← asn1ReadTlv seq.content
  let eRaw ← asn1ReadTlv nRaw.rest
  let n := if nRaw.content.head? = some 0 then nRaw.content.drop 1 else nRaw.content
  if n = [] then none
  return {
    n := n
    e := eRaw.content.foldl (fun e b => (e <<< 8) ||| b.toUInt32) 0
    bits := UInt32.ofNat (n.length * 8) }

/-- The signature of a certificate verifies under a public key. -/
def X509Certificate.verifiesUnder (c : X509Certificate) (publicKey : List UInt8) : Bool :=
  match rsaPublicFromSpkiBits publicKey with
  | none => false
  | some key => rsaVerify c.tbsRaw c.signature key

/-! ## `verify_chain` -/

/-- The second loop: names and CA flags. -/
def linked : List X509Certificate → Bool
  | c :: issuer :: rest => c.issuer = issuer.subject && issuer.isCa && linked (issuer :: rest)
  | _ => true

/-- A pass of the last loop, which skips a missing signature and a missing key. -/
def signatureOk (c issuer : X509Certificate) : Bool :=
  c.signature = [] || issuer.publicKey = [] || c.verifiesUnder issuer.publicKey

/-- The last loop: the last certificate is checked under its own key. -/
def signaturesOk : List X509Certificate → Bool
  | [] => true
  | [c] => signatureOk c c
  | c :: issuer :: rest => signatureOk c issuer && signaturesOk (issuer :: rest)

/-- The trust in the last certificate. -/
def CertificateStore.trusted (store : CertificateStore) (root : X509Certificate) : Bool :=
  store.trustedRoots.any fun tr => tr.subject = root.subject || tr.subject = root.issuer

/-- `verify_chain` at the time `now`. -/
def CertificateStore.verifyChain (store : CertificateStore) (now : Nat)
    (chain : List X509Certificate) : Bool :=
  match chain.getLast? with
  | none => false
  | some root =>
    chain.all (·.isValidAt now) && linked chain &&
      (store.trusted root || root.isSelfSigned) && signaturesOk chain

/-! ## Trust -/

/-- What a certificate and the next one in the chain have to be. -/
def IssuedBy (c issuer : X509Certificate) : Prop :=
  issuer.isCa = true ∧ c.verifiesUnder issuer.publicKey = true

/-- The certificate is a trusted root, its key included, or signed with the key of one. -/
def CertificateStore.Anchors (store : CertificateStore) (root : X509Certificate) : Prop :=
  ∃ tr ∈ store.trustedRoots, root.verifiesUnder tr.publicKey = true ∨
    (tr.subject = root.subject ∧ tr.publicKey = root.publicKey)

/-- A chain that deserves trust. -/
structure CertificateStore.Trusts (store : CertificateStore) (now : Nat)
    (chain : List X509Certificate) : Prop where
  valid : ∀ c ∈ chain, c.isValidAt now = true
  issued : chain.IsChain IssuedBy
  anchored : ∃ root, chain.getLast? = some root ∧ store.Anchors root

/-- The signature that the last loop has to check is there, and so is the key. -/
def Checkable (c issuer : X509Certificate) : Prop := c.signature ≠ [] ∧ issuer.publicKey ≠ []

/-- The key of the last certificate is that of a trusted root, with its name or a signature of its
own. Or the signature verifies under another root's key, as the code never checks: that part of
trust stands here as it is. -/
def CertificateStore.KnowsKey (store : CertificateStore) (root : X509Certificate) : Prop :=
  ∃ tr ∈ store.trustedRoots,
    (tr.publicKey = root.publicKey ∧ (tr.subject = root.subject ∨ Checkable root root)) ∨
    (tr.publicKey ≠ root.publicKey ∧ root.verifiesUnder tr.publicKey = true)

/-- Only a signature that is there verifies, and only under a key. -/
theorem checkable_of_verifies {c : X509Certificate} {publicKey : List UInt8}
    (h : c.verifiesUnder publicKey = true) : c.signature ≠ [] ∧ publicKey ≠ [] := by
  unfold X509Certificate.verifiesUnder at h
  constructor
  · intro hsig
    rw [hsig] at h
    cases hkey : rsaPublicFromSpkiBits publicKey with
    | none =>
      rw [hkey] at h
      cases h
    | some key =>
      rw [hkey] at h
      cases h
  · intro hkey
    rw [hkey] at h
    cases h

theorem verifies_of_signatureOk {c issuer : X509Certificate} (hok : signatureOk c issuer = true)
    (h : Checkable c issuer) : c.verifiesUnder issuer.publicKey = true := by
  unfold signatureOk at hok
  simpa [h.1, h.2] using hok

/-! ## What an accepted chain is -/

/-- The last pass of the last loop. -/
theorem signatureOk_last {chain : List X509Certificate} {root : X509Certificate}
    (hsigs : signaturesOk chain = true) (hroot : chain.getLast? = some root) :
    signatureOk root root = true := by
  induction chain with
  | nil => cases hroot
  | cons c rest ih =>
    cases rest with
    | nil =>
      cases hroot
      exact hsigs
    | cons issuer rest =>
      simp only [signaturesOk, Bool.and_eq_true] at hsigs
      exact ih hsigs.2 hroot

theorem issuedBy_iff {c issuer : X509Certificate} (hca : issuer.isCa = true)
    (hok : signatureOk c issuer = true) : IssuedBy c issuer ↔ Checkable c issuer :=
  ⟨fun h => checkable_of_verifies h.2, fun h => ⟨hca, verifies_of_signatureOk hok h⟩⟩

/-- So it is in all links of the chain. -/
theorem issued_iff {chain : List X509Certificate} (hlinked : linked chain = true)
    (hsigs : signaturesOk chain = true) : chain.IsChain IssuedBy ↔ chain.IsChain Checkable := by
  induction chain with
  | nil => exact ⟨fun _ => isChain_nil, fun _ => isChain_nil⟩
  | cons c rest ih =>
    cases rest with
    | nil => exact ⟨fun _ => isChain_singleton c, fun _ => isChain_singleton c⟩
    | cons issuer rest =>
      simp only [linked, Bool.and_eq_true, decide_eq_true_eq] at hlinked
      simp only [signaturesOk, Bool.and_eq_true] at hsigs
      rw [isChain_cons_cons, isChain_cons_cons]
      exact and_congr (issuedBy_iff hlinked.1.2 hsigs.1) (ih hlinked.2 hsigs.2)

/-- The last certificate is checked under its own key, so a root with it vouches for it. -/
theorem anchors_iff (store : CertificateStore) {root : X509Certificate}
    (hok : signatureOk root root = true) : store.Anchors root ↔ store.KnowsKey root := by
  constructor
  · intro ⟨tr, htr, h⟩
    refine ⟨tr, htr, ?_⟩
    by_cases hkey : tr.publicKey = root.publicKey
    · refine Or.inl ⟨hkey, ?_⟩
      obtain hverifies | ⟨hname, -⟩ := h
      · right
        rw [hkey] at hverifies
        exact checkable_of_verifies hverifies
      · exact Or.inl hname
    · obtain hverifies | ⟨-, hsame⟩ := h
      · exact Or.inr ⟨hkey, hverifies⟩
      · exact absurd hsame hkey
  · intro ⟨tr, htr, h⟩
    refine ⟨tr, htr, ?_⟩
    obtain ⟨hkey, hname | hcheck⟩ | ⟨-, hverifies⟩ := h
    · exact Or.inr ⟨hname, hkey⟩
    · left
      rw [hkey]
      exact verifies_of_signatureOk hok hcheck
    · exact Or.inl hverifies

/-- An accepted chain deserves trust exactly when no signature and no key that the last loop of
`verify_chain` would skip is missing in it, and a trusted root vouches for the key of its last
certificate. -/
theorem accepted_chain_trusted_iff (store : CertificateStore) (now : Nat)
    (chain : List X509Certificate) (haccepted : store.verifyChain now chain = true) :
    store.Trusts now chain ↔
      chain.IsChain Checkable ∧ ∃ root, chain.getLast? = some root ∧ store.KnowsKey root := by
  unfold CertificateStore.verifyChain at haccepted
  cases hroot : chain.getLast? with
  | none =>
    rw [hroot] at haccepted
    cases haccepted
  | some root =>
    rw [hroot] at haccepted
    simp only [Bool.and_eq_true, all_eq_true] at haccepted
    obtain ⟨⟨⟨hvalid, hlinked⟩, -⟩, hsigs⟩ := haccepted
    have hanchor := anchors_iff store (signatureOk_last hsigs hroot)
    constructor
    · intro ⟨_, hissued, root', hroot', hanchored⟩
      rw [hroot] at hroot'
      cases hroot'
      exact ⟨(issued_iff hlinked hsigs).mp hissued, root, rfl, hanchor.mp hanchored⟩
    · intro ⟨hcheck, root', hroot', hknows⟩
      cases hroot'
      exact ⟨hvalid, (issued_iff hlinked hsigs).mpr hcheck, root, hroot, hanchor.mpr hknows⟩

/-- A certificate without a key and a signature, whose subject is its issuer. -/
def unsignedCa : X509Certificate :=
  { subject := ['C', 'N', '=', 'a'], issuer := ['C', 'N', '=', 'a'], serial := [1],
    notBefore := 0, notAfter := 100, publicKey := [], signature := [],
    signatureAlgorithm := [], isCa := true, tbsRaw := [] }

/-- A leaf of that CA, which is not signed either. -/
def unsignedLeaf : X509Certificate :=
  { unsignedCa with subject := ['C', 'N', '=', 'b'], isCa := false }

/-- The modulus `GATE_X509_N` of the key that `build_self_signed_der` signs with. -/
def gateX509N : List UInt8 :=
  toBe 0xcbcc737e9ee465d658092b69cb026ff6f03e4f52a53e168ce898fd9a1a0da816 32 ++
  toBe 0x9197526a159aa3418768d6309bc3a87df2d2ae2701066aa12cf05d5f3d59f4ed 32

/-- The CA with that key, signed with the key itself. -/
def signedCa : X509Certificate :=
  { unsignedCa with
    publicKey := [0x30, 0x48, 0x02, 0x41, 0x00] ++ gateX509N ++ [0x02, 0x03, 0x01, 0x00, 0x01]
    tbsRaw := [0x63, 0x61]
    signature :=
      toBe 0xad91b3b64e77bac0ebb9e3fd4e8e9820c1d7695c6eb2b6e4677a1916eb6503bb 32 ++
      toBe 0xe0cc976d6f98935a4901b64a416030ba7701af339905c775cf1066657a4aaf9a 32 }

/-- A leaf that the CA has signed. -/
def signedLeaf : X509Certificate :=
  { unsignedLeaf with
    tbsRaw := [0x6c, 0x65, 0x61, 0x66]
    signature :=
      toBe 0x6c37ef537f1208ebe307a371cb62c2dc04c45a002237606e87f6b1cf1e08c554 32 ++
      toBe 0xbd9bd83af73932f26662054cf880fee28b549b118f23cea8b17b3887aedda9ec 32 }

/-- With the CA in the store, the signed chain is accepted and deserves trust. -/
theorem accepted_chain_trusted_signed :
    CertificateStore.verifyChain ⟨[signedCa]⟩ 50 [signedLeaf, signedCa] = true ∧
      CertificateStore.Trusts ⟨[signedCa]⟩ 50 [signedLeaf, signedCa] := by
  have haccepted : CertificateStore.verifyChain ⟨[signedCa]⟩ 50 [signedLeaf, signedCa] = true := by
    decide +kernel
  refine ⟨haccepted, (accepted_chain_trusted_iff _ _ _ haccepted).mpr ?_⟩
  have hcheck : Checkable signedLeaf signedCa := ⟨by decide, by decide⟩
  refine ⟨isChain_pair.mpr hcheck, signedCa, rfl, signedCa, mem_singleton_self _, ?_⟩
  exact Or.inl ⟨rfl, Or.inl rfl⟩

/-- An unsigned leaf of an invented CA is accepted by a store without any root. -/
theorem unsigned_chain_accepted :
    CertificateStore.verifyChain ⟨[]⟩ 50 [unsignedLeaf, unsignedCa] = true ∧
      ¬ CertificateStore.Trusts ⟨[]⟩ 50 [unsignedLeaf, unsignedCa] := by
  refine ⟨by decide, ?_⟩
  intro h
  obtain ⟨root, -, tr, htr, -⟩ := h.anchored
  cases htr

end KnoxOS.Crypto.X509
