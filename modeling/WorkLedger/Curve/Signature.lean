import WorkLedger.Bytes.BigEndian
import WorkLedger.Digest.Hmac
import WorkLedger.Curve.Secp256k1

/-!
# Signatures on secp256k1

A signature is a pair of numbers below the group order, in the lower of its two forms: of `s` and
`order - s` the smaller one is taken, and only that one verifies. The secret multiplier is derived
from the key and the message by a chain of keyed digests, so signing is a function of the two.
-/

namespace WorkLedger.Secp256k1

/-- A signature: two numbers below the group order. -/
structure Signature where
  r : Nat
  s : Nat
  deriving DecidableEq, Repr

/-- The sixty-four bytes of a signature. -/
def Signature.toBytes (sig : Signature) : List UInt8 :=
  BigEndian.ofNat 32 sig.r ++ BigEndian.ofNat 32 sig.s

@[simp] theorem Signature.length_toBytes (sig : Signature) : sig.toBytes.length = 64 := by
  simp [Signature.toBytes]

/-- Reads a signature of exactly sixty-four bytes whose two numbers are below the group order. -/
def Signature.ofBytes? (bytes : List UInt8) : Option Signature :=
  let r := BigEndian.toNat (bytes.take 32)
  let s := BigEndian.toNat (bytes.drop 32)
  if bytes.length = 64 ∧ r < order ∧ s < order then some ⟨r, s⟩ else none

/-- The state of the generator of secret multipliers. -/
structure Nonces where
  key : List UInt8
  value : List UInt8

/-- Mixes bytes into the generator. -/
def Nonces.update (g : Nonces) (bytes : List UInt8) : Nonces :=
  let key := Hmac.hash g.key (g.value ++ bytes)
  ⟨key, Hmac.hash key g.value⟩

/-- The generator for a secret key and the digest of a message. -/
def Nonces.start (secret : Nat) (digest : List UInt8) : Nonces :=
  let seed := BigEndian.ofNat 32 secret ++ digest
  let g : Nonces := ⟨List.replicate 32 0, List.replicate 32 1⟩
  (g.update (0 :: seed)).update (1 :: seed)

/-- The signature with the secret multiplier `k`, if that multiplier is usable. -/
def signWith (secret message k : Nat) : Option Signature :=
  if k = 0 ∨ order ≤ k then none
  else
    match base.multiple k with
    | .neutral => none
    | .affine x _ =>
      let r := x % order
      let s := inverse order k * (message + r * secret) % order
      if r = 0 ∨ s = 0 then none
      else some ⟨r, if order / 2 < s then order - s else s⟩

/-- Tries the multipliers of the generator in turn; an unusable one has a chance of one in
`2 ^ 127`, so a bound on the number of trials is never reached. -/
def signFrom (secret message : Nat) : Nat → Nonces → Signature
  | 0, _ => ⟨0, 0⟩
  | trials + 1, g =>
    let value := Hmac.hash g.key g.value
    match signWith secret message (BigEndian.toNat value) with
    | some sig => sig
    | none => signFrom secret message trials (Nonces.update ⟨g.key, value⟩ [0])

/-- The signature of a message under a secret key. The message is hashed first. -/
def sign (secret : Nat) (message : List UInt8) : Signature :=
  let digest := Sha256.hash message
  signFrom secret (BigEndian.toNat digest % order) 64 (.start secret digest)

/-- Whether a signature in its lower form belongs to a message under the public key `signer`. -/
def verify (signer : Point) (message : List UInt8) (sig : Signature) : Bool :=
  if sig.r = 0 ∨ sig.s = 0 ∨ order / 2 < sig.s then false
  else
    let m := BigEndian.toNat (Sha256.hash message) % order
    let i := inverse order sig.s
    match (base.multiple (m * i % order)).add (signer.multiple (sig.r * i % order)) with
    | .neutral => false
    | .affine x _ => x % order == sig.r

end WorkLedger.Secp256k1
