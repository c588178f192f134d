import DelayLedger.Bytes

/-!
# The primitives that the ledger rests on

A `Suite` gives the ledger its hash function, its signature scheme and the modulus of the group in
which delays are computed.  Everything else takes a suite as an argument, so that statements about
the ledger say what they need of its primitives.
-/

namespace DelayLedger

/-- A hash function, a signature scheme and the modulus of the delay group. -/
structure Suite where
  digest : Bytes → Digest
  publicSize : Nat
  secretSize : Nat
  signatureSize : Nat
  /-- The public and the secret key that a seed stands for. -/
  keypair : Bytes → Bytes × Bytes
  /-- The signature of a message under a secret key. -/
  sign : (secret message : Bytes) → Bytes
  /-- Whether a signature is one of a message under a public key, sizes being right. -/
  accepts : (key message signature : Bytes) → Bool
  modulus : Nat

inductive KeyError
  | invalidSignature
  | invalidPublicKey
  | invalidSecretKey
  | mismatch
deriving DecidableEq, Repr

def KeyError.message : KeyError → String
  | .invalidSignature => "invalid signature"
  | .invalidPublicKey => "invalid public key"
  | .invalidSecretKey => "invalid secret key"
  | .mismatch => "keystore pair does not match"

structure Keypair where
  publicKey : Bytes
  secretKey : Bytes
deriving DecidableEq

namespace Suite

variable (s : Suite)

def generate (seed : Bytes) : Keypair := ⟨(s.keypair seed).1, (s.keypair seed).2⟩

/-- Checks a signature.  A key of the wrong size is reported before the signature is looked at. -/
def verify (key message signature : Bytes) : Except KeyError Unit :=
  if key.length ≠ s.publicSize then .error .invalidPublicKey
  else if signature.length ≠ s.signatureSize then .error .invalidSignature
  else if s.accepts key message signature then .ok () else .error .invalidSignature

def verifies (key message signature : Bytes) : Bool :=
  match s.verify key message signature with
  | .ok _ => true
  | .error _ => false

/-- What a keypair signs to show that its halves belong together. -/
def probe : Bytes := Bytes.ofString "vdfchain keystore probe"

/-- The keypair with the given halves, if they have the right sizes and belong together. -/
def joinKeys (publicKey secretKey : Bytes) : Except KeyError Keypair :=
  if publicKey.length ≠ s.publicSize then .error .invalidPublicKey
  else if secretKey.length ≠ s.secretSize then .error .invalidSecretKey
  else if s.verifies publicKey probe (s.sign secretKey probe) then .ok ⟨publicKey, secretKey⟩
  else .error .mismatch

theorem verify_eq_ok_iff (key message signature : Bytes) :
    s.verify key message signature = .ok () ↔
      key.length = s.publicSize ∧ signature.length = s.signatureSize ∧
        s.accepts key message signature = true := by
  unfold verify
  split
  · simp_all
  · split
    · simp_all
    · split <;> simp_all

theorem verifies_iff (key message signature : Bytes) :
    s.verifies key message signature = true ↔ s.verify key message signature = .ok () := by
  unfold verifies
  split <;> simp_all

end Suite

end DelayLedger
