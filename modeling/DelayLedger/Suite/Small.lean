import DelayLedger.Suite

/-!
# A small suite

Primitives that are computed at once: a checksum in the place of the hash function, keys of one byte,
and a modulus of two small primes.  They keep nobody out, but a keypair signs what verifies under it
(`small_verify_sign`), and whole ledgers over them can be evaluated.
-/

namespace DelayLedger.Suite

/-- A byte string read as a number of base 257, of which 32 bytes are kept. -/
def checksum (b : Bytes) : Digest :=
  ⟨Bytes.littleEndian 32 (b.foldl (fun n x => 257 * n + x.toNat + 1) 0), Bytes.length_littleEndian ..⟩

/-- A public key is the complement of its secret key, and a signature is the checksum of the secret
key and the message. -/
def small : Suite where
  digest := checksum
  publicSize := 1
  secretSize := 1
  signatureSize := 32
  keypair seed := ([255 - seed.headD 0], [seed.headD 0])
  sign secret message := (checksum (secret ++ message)).bytes
  accepts key message signature := signature == (checksum (key.map (255 - ·) ++ message)).bytes
  modulus := 5 * 7

theorem small_verify_sign (seed message : Bytes) :
    small.verify (small.generate seed).publicKey message
      (small.sign (small.generate seed).secretKey message) = .ok () := by
  have hkey : ∀ k : UInt8, 255 - (255 - k) = k := by grind
  rw [verify_eq_ok_iff]
  refine ⟨rfl, (checksum _).length_eq, ?_⟩
  simp [small, generate, hkey]

end DelayLedger.Suite
