import DelayLedger.Delay.Proof
import DelayLedger.Membership.Change

/-!
# Blocks

A block names its parent by hash, carries the proof of the delay that followed it, records the
changes made to the consensus set and lists the set that results.  Its hash is the digest of
`preimage`, which holds every field but the hash and the signature.
-/

namespace DelayLedger

structure Block where
  /-- Absent in the first block only. -/
  previousHash : Option Digest
  height : UInt64
  /-- The length of the delay in the round that the block opens. -/
  difficulty : UInt64
  /-- Seconds since 1970. -/
  timestamp : UInt64
  /-- The delay over the parent's difficulty and hash.  Absent in the first block only. -/
  proof : Option DelayProof
  producer : Bytes
  changes : List Change
  /-- The candidates for the next round, in the order of their tickets. -/
  nodes : List Bytes
  hash : Digest
  signature : Bytes
deriving DecidableEq

namespace Block

def domain : Bytes := Bytes.ofString "vdfchain/block/v1"

/-- An optional part: a zero byte, or a one and the part. -/
def optional {α : Type} (write : α → Bytes) : Option α → Bytes
  | none => [0]
  | some x => 1 :: write x

/-- The bytes that are hashed: every field but `hash` and `signature`. -/
def preimage (b : Block) : Bytes :=
  domain ++ optional Digest.bytes b.previousHash ++ Bytes.ofWord b.height ++
    Bytes.ofWord b.difficulty ++ Bytes.ofWord b.timestamp ++
    optional DelayProof.toBytes b.proof ++ Bytes.prefixed b.producer ++
    Bytes.ofLength b.changes.length ++ b.changes.flatMap Change.toBytes ++
    Bytes.ofLength b.nodes.length ++ b.nodes.flatMap Bytes.prefixed

variable (s : Suite)

def contentHash (b : Block) : Digest := s.digest b.preimage

def hashMatches (b : Block) : Bool := b.contentHash s == b.hash

def verify (b : Block) : Except KeyError Unit := s.verify b.producer b.hash.bytes b.signature

def isSigned (b : Block) : Bool := s.verifies b.producer b.hash.bytes b.signature

def sealWith (b : Block) (keys : Keypair) : Block :=
  let hash := b.contentHash s
  { b with hash := hash, signature := s.sign keys.secretKey hash.bytes }

def isGenesis (b : Block) : Bool := b.height == 0 && b.previousHash.isNone

/-- The randomness of the next round's tickets: the proof, or the hash of a block that has none. -/
def seed (b : Block) : Bytes :=
  match b.proof with
  | some proof => proof.toBytes
  | none => b.hash.bytes

end Block

end DelayLedger
