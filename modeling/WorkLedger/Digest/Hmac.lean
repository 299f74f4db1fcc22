import WorkLedger.Digest.Sha256

/-!
# Keyed digests

HMAC over SHA-256 for keys of at most one block.
-/

namespace WorkLedger.Hmac

/-- The key filled up to one block, combined with a constant byte. -/
def mask (key : List UInt8) (byte : UInt8) : List UInt8 :=
  (key ++ List.replicate (64 - key.length) 0).map (· ^^^ byte)

/-- The digest of a message under a key of at most sixty-four bytes. -/
def hash (key message : List UInt8) : List UInt8 :=
  Sha256.hash (mask key 0x5c ++ Sha256.hash (mask key 0x36 ++ message))

end WorkLedger.Hmac
