import KnoxOS.Crypto.Asn1

/-!
# RSA signatures

`crypto/sha256.rs` and the part of `crypto/rsa.rs` that checks a signature, as `rsa_verify`. The
limb vectors of `crypto/bn.rs` are numbers here.
-/

namespace KnoxOS.Crypto.Rsa

open Lib List
open X509 (beNat)

/-! ## SHA-256 -/

def sha256K : List UInt32 :=
  [0x428a2f98, 0x71374491, 0xb5c0fbcf, 0xe9b5dba5, 0x3956c25b, 0x59f111f1, 0x923f82a4, 0xab1c5ed5,
   0xd807aa98, 0x12835b01, 0x243185be, 0x550c7dc3, 0x72be5d74, 0x80deb1fe, 0x9bdc06a7, 0xc19bf174,
   0xe49b69c1, 0xefbe4786, 0x0fc19dc6, 0x240ca1cc, 0x2de92c6f, 0x4a7484aa, 0x5cb0a9dc, 0x76f988da,
   0x983e5152, 0xa831c66d, 0xb00327c8, 0xbf597fc7, 0xc6e00bf3, 0xd5a79147, 0x06ca6351, 0x14292967,
   0x27b70a85, 0x2e1b2138, 0x4d2c6dfc, 0x53380d13, 0x650a7354, 0x766a0abb, 0x81c2c92e, 0x92722c85,
   0xa2bfe8a1, 0xa81a664b, 0xc24b8b70, 0xc76c51a3, 0xd192e819, 0xd6990624, 0xf40e3585, 0x106aa070,
   0x19a4c116, 0x1e376c08, 0x2748774c, 0x34b0bcb5, 0x391c0cb3, 0x4ed8aa4a, 0x5b9cca4f, 0x682e6ff3,
   0x748f82ee, 0x78a5636f, 0x84c87814, 0x8cc70208, 0x90befffa, 0xa4506ceb, 0xbef9a3f7, 0xc67178f2]

/-- The eight words of the state. -/
structure HashState where
  a : UInt32
  b : UInt32
  c : UInt32
  d : UInt32
  e : UInt32
  f : UInt32
  g : UInt32
  h : UInt32
deriving DecidableEq, Repr

/-- The state of `Sha256::new`. -/
def HashState.initial : HashState :=
  ⟨0x6a09e667, 0xbb67ae85, 0x3c6ef372, 0xa54ff53a, 0x510e527f, 0x9b05688c, 0x1f83d9ab, 0x5be0cd19⟩

def rotateRight (x : UInt32) (n : UInt32) : UInt32 := (x >>> n) ||| (x <<< (32 - n))

/-- The word of the schedule that follows the words so far. -/
def nextWord (w : List UInt32) : UInt32 :=
  let i := w.length
  let w15 := w.getD (i - 15) 0
  let w2 := w.getD (i - 2) 0
  let s0 := rotateRight w15 7 ^^^ rotateRight w15 18 ^^^ (w15 >>> 3)
  let s1 := rotateRight w2 17 ^^^ rotateRight w2 19 ^^^ (w2 >>> 10)
  w.getD (i - 16) 0 + s0 + w.getD (i - 7) 0 + s1

/-- The message schedule of a block. -/
def schedule (block : List UInt8) : List UInt32 :=
  (range 48).foldl (fun w _ => w ++ [nextWord w])
    ((range 16).map fun i => be32 block (4 * i))

/-- A round of `compress`, with the constant and the word of the schedule. -/
def hashRound (s : HashState) (kw : UInt32 × UInt32) : HashState :=
  let s1 := rotateRight s.e 6 ^^^ rotateRight s.e 11 ^^^ rotateRight s.e 25
  let ch := (s.e &&& s.f) ^^^ (~~~ s.e &&& s.g)
  let temp1 := s.h + s1 + ch + kw.1 + kw.2
  let s0 := rotateRight s.a 2 ^^^ rotateRight s.a 13 ^^^ rotateRight s.a 22
  let maj := (s.a &&& s.b) ^^^ (s.a &&& s.c) ^^^ (s.b &&& s.c)
  ⟨temp1 + (s0 + maj), s.a, s.b, s.c, s.d + temp1, s.e, s.f, s.g⟩

def compress (s : HashState) (block : List UInt8) : HashState :=
  let r := (sha256K.zip (schedule block)).foldl hashRound s
  ⟨s.a + r.a, s.b + r.b, s.c + r.c, s.d + r.d, s.e + r.e, s.f + r.f, s.g + r.g, s.h + r.h⟩

/-- `Sha256`; the buffer is the part of it in use. -/
structure Sha256 where
  state : HashState
  buffer : List UInt8
  totalLen : UInt64
deriving DecidableEq, Repr

/-- The blocks of 64 bytes are compressed, the bytes behind them are left. -/
def absorb (s : HashState) (bytes : List UInt8) : HashState × List UInt8 :=
  if 64 ≤ bytes.length then absorb (compress s (bytes.take 64)) (bytes.drop 64) else (s, bytes)
termination_by bytes.length
decreasing_by
  rw [length_drop]
  omega

/-- `Sha256::update`: a block is filled up from the buffer first. -/
def Sha256.update (h : Sha256) (data : List UInt8) : Sha256 :=
  let r := absorb h.state (h.buffer ++ data)
  ⟨r.1, r.2, h.totalLen + UInt64.ofNat data.length⟩

/-- The bytes of a word, the most significant first. -/
def be32Bytes (x : UInt32) : List UInt8 :=
  [(x >>> 24).toUInt8, (x >>> 16).toUInt8, (x >>> 8).toUInt8, x.toUInt8]

def be64Bytes (x : UInt64) : List UInt8 :=
  be32Bytes (x >>> 32).toUInt32 ++ be32Bytes x.toUInt32

def Sha256.finalize (h : Sha256) : List UInt8 :=
  let padLen := if h.buffer.length < 56 then 56 - h.buffer.length else 120 - h.buffer.length
  let h' := (h.update (0x80 :: replicate (padLen - 1) 0)).update (be64Bytes (h.totalLen * 8))
  let s := h'.state
  [s.a, s.b, s.c, s.d, s.e, s.f, s.g, s.h].flatMap be32Bytes

def sha256 (data : List UInt8) : List UInt8 :=
  (Sha256.update ⟨HashState.initial, [], 0⟩ data).finalize

/-! ## Verification -/

structure RsaPublicKey where
  n : List UInt8
  e : UInt32
  bits : UInt32
deriving DecidableEq, Repr

/-- `bn_bitlen`. -/
def bitlen (n : Nat) : Nat := if n = 0 then 0 else n.log2 + 1

/-- `bn_modexp`: the bits of the exponent are taken from the lowest on. -/
def modexp (base exp modulus : Nat) : Nat :=
  ((range (bitlen exp)).foldl (fun (acc : Nat × Nat) i =>
    (if exp.testBit i then acc.1 * acc.2 % modulus else acc.1, acc.2 * acc.2 % modulus))
    (1, base % modulus)).1

/-- `bn_to_be`: the lowest bytes of a number, the most significant first. -/
def toBe (n outLen : Nat) : List UInt8 :=
  (range outLen).map fun i => UInt8.ofNat (n / 2 ^ (8 * (outLen - 1 - i)))

def modPowBytes (base exp modulus : List UInt8) : List UInt8 :=
  let m := beNat modulus
  if m = 0 then [0]
  else toBe (modexp (beNat base) (beNat exp) m) (max (max modulus.length ((bitlen m + 7) / 8)) 1)

def rsaEncrypt (plaintext : List UInt8) (key : RsaPublicKey) : List UInt8 :=
  modPowBytes plaintext (be32Bytes key.e) key.n

/-- `PKCS1_SHA256_DIGESTINFO`. -/
def digestInfo : List UInt8 :=
  [0x30, 0x31, 0x30, 0x0d, 0x06, 0x09, 0x60, 0x86, 0x48, 0x01, 0x65, 0x03, 0x04, 0x02, 0x01, 0x05,
   0x00, 0x04, 0x20]

/-- The last `k` bytes, with zeros in front if there are fewer. -/
def fitTo (k : Nat) (raw : List UInt8) : List UInt8 :=
  replicate (k - raw.length) 0 ++ raw.drop (raw.length - k)

/-- The padding of `rsa_verify`: `00 01`, at least eight `FF`, `00`, then the digest. -/
def paddingOk (em hash : List UInt8) : Bool :=
  let i := 2 + ((em.drop 2).takeWhile (· = 0xFF)).length
  byteAt em 0 = 0 && byteAt em 1 = 1 && 10 ≤ i && i < em.length && byteAt em i = 0 &&
    em.length - (i + 1) = digestInfo.length + 32 &&
    slice em (i + 1) digestInfo.length = digestInfo &&
    em.drop (i + 1 + digestInfo.length) = hash

def rsaVerify (message signature : List UInt8) (key : RsaPublicKey) : Bool :=
  let k := max key.n.length 1
  if signature = [] ∨ k < digestInfo.length + 32 + 11 then false
  else paddingOk (fitTo k (rsaEncrypt signature key)) (sha256 message)

end KnoxOS.Crypto.Rsa
