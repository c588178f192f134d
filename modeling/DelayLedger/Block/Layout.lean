import DelayLedger.Block

/-!
# Laying out blocks as bytes

Two byte formats write the fields of a block in the same order and differ in how they write numbers
of 64 bits, lengths and alternatives.  A `Layout` gives these writers and their readers; the rest
is shared.  Reading takes bytes from the front and stops at the first error; what is left over is
returned.
-/

namespace DelayLedger

inductive ReadError
  | endOfInput
  | unterminatedNumber
  | badOptionTag (found : UInt8)
  | badVariant (found : Nat)
deriving DecidableEq, Repr

/-- Takes a value from the front of a byte string. -/
abbrev Reader (α : Type) := Bytes → Except ReadError (α × Bytes)

namespace Reader

variable {α β : Type}

@[inline] def andThen (r : Reader α) (f : α → Reader β) : Reader β := fun input =>
  match r input with
  | .error e => .error e
  | .ok (x, rest) => f x rest

@[inline] def result (x : α) : Reader α := fun input => .ok (x, input)

instance : Monad Reader where
  pure := result
  bind := andThen

def byte : Reader UInt8
  | [] => .error .endOfInput
  | b :: rest => .ok (b, rest)

def take (count : Nat) : Reader Bytes := fun input =>
  let front := input.take count
  if front.length < count then .error .endOfInput else .ok (front, input.drop count)

/-- `count` values one after the other, behind those in `done`, which holds the last one first. -/
def manyFrom (item : Reader α) : (count : Nat) → List α → Reader (List α)
  | 0, done, input => .ok (done.reverse, input)
  | count + 1, done, input =>
    match item input with
    | .error e => .error e
    | .ok (x, rest) => manyFrom item count (x :: done) rest

def many (item : Reader α) (count : Nat) : Reader (List α) := manyFrom item count []

def digest : Reader Digest := fun input =>
  match take 32 input with
  | .error e => .error e
  | .ok (front, rest) =>
    match Digest.ofBytes? front with
    | some d => .ok (d, rest)
    | none => .error .endOfInput

/-- A value that may be absent: a zero byte, or a one and the value. -/
def optional (item : Reader α) : Reader (Option α) := do
  match ← byte with
  | 0 => pure none
  | 1 => some <$> item
  | tag => fun _ => .error (.badOptionTag tag)

end Reader

/-- How a byte format writes and reads numbers of 64 bits, lengths and alternatives. -/
structure Layout where
  putWord : UInt64 → Bytes
  putLength : Nat → Bytes
  putVariant : Nat → Bytes
  word : Reader UInt64
  length : Reader Nat
  variant : Reader Nat

namespace Layout

variable (l : Layout)

def putBytes (b : Bytes) : Bytes := l.putLength b.length ++ b

def putProof (p : DelayProof) : Bytes := l.putBytes p.output ++ l.putBytes p.witness

def putAction : Action → Bytes
  | .join => l.putVariant 0
  | .leave => l.putVariant 1

def putChange (c : Change) : Bytes :=
  l.putBytes c.identity ++ l.putAction c.action ++ l.putWord c.requestedAt ++
    l.putBytes c.signature

def putBlock (b : Block) : Bytes :=
  Block.optional Digest.bytes b.previousHash ++ l.putWord b.height ++ l.putWord b.difficulty ++
    l.putWord b.timestamp ++ Block.optional l.putProof b.proof ++ l.putBytes b.producer ++
    l.putLength b.changes.length ++ b.changes.flatMap l.putChange ++
    l.putLength b.nodes.length ++ b.nodes.flatMap l.putBytes ++ b.hash.bytes ++
    l.putBytes b.signature

def bytes : Reader Bytes := do Reader.take (← l.length)

def proof : Reader DelayProof := do
  let output ← l.bytes
  let witness ← l.bytes
  pure ⟨output, witness⟩

def action : Reader Action := do
  match ← l.variant with
  | 0 => pure .join
  | 1 => pure .leave
  | n => fun _ => .error (.badVariant n)

def change : Reader Change := do
  let identity ← l.bytes
  let action ← l.action
  let requestedAt ← l.word
  let signature ← l.bytes
  pure ⟨identity, action, requestedAt, signature⟩

def block : Reader Block := do
  let previousHash ← Reader.optional Reader.digest
  let height ← l.word
  let difficulty ← l.word
  let timestamp ← l.word
  let proof ← Reader.optional l.proof
  let producer ← l.bytes
  let changes ← Reader.many l.change (← l.length)
  let nodes ← Reader.many l.bytes (← l.length)
  let hash ← Reader.digest
  let signature ← l.bytes
  pure ⟨previousHash, height, difficulty, timestamp, proof, producer, changes, nodes, hash,
    signature⟩

end Layout

end DelayLedger
