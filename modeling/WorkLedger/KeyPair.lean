import WorkLedger.Bytes.Base58
import WorkLedger.Bytes.Hex
import WorkLedger.Curve.Signature
import WorkLedger.Digest.Ripemd160
import WorkLedger.Text.Blank

/-!
# Key pairs

A private key is a number between one and the order of the curve, written in hexadecimal. Its
address is the Base 58 text of a version byte, the digest of the public key, and a checksum of
those.
-/

namespace WorkLedger

/-- Why a key or a signature is refused. -/
inductive KeyError where
  | invalidPrivateKey
  | invalidSignature
  deriving DecidableEq, Repr

/-- The text of a key error. -/
def KeyError.message : KeyError → String
  | invalidPrivateKey => "Invalid private key"
  | invalidSignature => "Invalid signature"

/-- A private key and the public key that belongs to it. -/
structure KeyPair where
  secret : Nat
  point : Secp256k1.Point

namespace KeyPair

/-- The pair of a private key. -/
def ofSecret (secret : Nat) : KeyPair := ⟨secret, Secp256k1.base.multiple secret⟩

/-- The private key of exactly thirty-two bytes, if it lies between one and the group order. -/
def secretOfBytes? (bytes : List UInt8) : Option Nat :=
  let n := BigEndian.toNat bytes
  if bytes.length = 32 ∧ 0 < n ∧ n < Secp256k1.order then some n else none

/-- The pair of a private key in hexadecimal; blanks around it are ignored. -/
def ofHex (text : String) : Except KeyError KeyPair :=
  match (Hex.decode? (Text.trim text)).bind secretOfBytes? with
  | some secret => .ok (ofSecret secret)
  | none => .error .invalidPrivateKey

/-- The private key in hexadecimal. -/
def privateHex (k : KeyPair) : String := Hex.encode (BigEndian.ofNat 32 k.secret)

/-- The public key in its compressed form: the parity of the second coordinate, then the first. -/
def publicBytes (k : KeyPair) : List UInt8 :=
  match k.point with
  | .neutral => [0]
  | .affine x y => UInt8.ofNat (2 + y % 2) :: BigEndian.ofNat 32 x

/-- The compressed public key in hexadecimal. -/
def publicHex (k : KeyPair) : String := Hex.encode k.publicBytes

/-- The address that owns what is paid to this pair. -/
def address (k : KeyPair) : String :=
  let body := 0 :: Ripemd160.hash (Sha256.hash k.publicBytes)
  Base58.encode (body ++ (Sha256.hash (Sha256.hash body)).take 4)

/-- The signature of a message, sixty-four bytes. -/
def sign (k : KeyPair) (message : List UInt8) : List UInt8 :=
  (Secp256k1.sign k.secret message).toBytes

/-- Whether sixty-four bytes are this pair's signature of a message. -/
def verify (k : KeyPair) (message signature : List UInt8) : Except KeyError Bool :=
  match Secp256k1.Signature.ofBytes? signature with
  | some sig => .ok (Secp256k1.verify k.point message sig)
  | none => .error .invalidSignature

@[simp] theorem length_sign (k : KeyPair) (message : List UInt8) :
    (k.sign message).length = 64 := by
  simp [sign]

end KeyPair

end WorkLedger
