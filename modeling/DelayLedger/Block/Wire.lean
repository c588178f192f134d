import DelayLedger.Block.Layout

/-!
# The wire format

Blocks travel with numbers in groups of seven bits, the lowest group first and every byte but the
last with its high bit set.  Readers accept more groups than are needed, up to the number that fits
the width, and ignore what follows a block.  A payload is bounded in size, and a block read from
one in its nodes and changes.
-/

namespace DelayLedger.Wire

/-- A number in groups of seven bits, `more` groups following the first. -/
def putVarintFrom : (more : Nat) → Nat → Bytes
  | 0, n => [UInt8.ofNat n]
  | more + 1, n => UInt8.ofNat (n % 128 + 128) :: putVarintFrom more (n / 128)

def putVarint (n : Nat) : Bytes := putVarintFrom (n.log2 / 7) n

/-- Reads the groups of a number, at most `left` of them.  `unit` is the value of a one in the next
group, and the last group that fits may be at most `lastMax`. -/
def varintFrom (lastMax : Nat) : (left unit sum : Nat) → Reader Nat
  | 0, _, _, _ => .error .unterminatedNumber
  | _ + 1, _, _, [] => .error .endOfInput
  | left + 1, unit, sum, b :: rest =>
    let sum := sum + b.toNat % 128 * unit
    if b.toNat < 128 then
      if left = 0 ∧ lastMax < b.toNat then .error .unterminatedNumber else .ok (sum, rest)
    else varintFrom lastMax left (unit * 128) sum rest

/-- A number of 64 bits: ten groups, the tenth of one bit. -/
def varint64 : Reader Nat := varintFrom 1 10 1 0

/-- A number of 32 bits: five groups, the fifth of four bits. -/
def varint32 : Reader Nat := varintFrom 15 5 1 0

def layout : Layout where
  putWord w := putVarint w.toNat
  putLength := putVarint
  putVariant := putVarint
  word := UInt64.ofNat <$> varint64
  length := varint64
  variant := varint32

def maxBytes : Nat := 8388608

inductive Error
  | tooLarge (size : Nat)
  | tooManyNodes (count : Nat)
  | tooManyChanges (count : Nat)
  | malformed (cause : ReadError)
deriving DecidableEq, Repr

def readErrorText : ReadError → String
  | .endOfInput => "Hit the end of buffer, expected more data"
  | .unterminatedNumber =>
    "Found a varint that didn't terminate. Is the usize too big for this platform?"
  | .badOptionTag _ => "Found an Option discriminant that wasn't 0 or 1"
  | .badVariant _ => "Serde Deserialization Error"

def Error.message : Error → String
  | .tooLarge size => s!"block payload too large: {size} bytes (max {maxBytes})"
  | .tooManyNodes count => s!"too many consensus nodes: {count} (max {maxNodes})"
  | .tooManyChanges count => s!"too many membership changes: {count} (max {maxChanges})"
  | .malformed cause => s!"postcard: {readErrorText cause}"

/-- The payload of a block, unless it is too large. -/
def encode (b : Block) : Except Error Bytes :=
  let payload := layout.putBlock b
  if maxBytes < payload.length then .error (.tooLarge payload.length) else .ok payload

/-- The block of a payload from anyone.  Its bounds are checked, its validity is not. -/
def decode (payload : Bytes) : Except Error Block :=
  if maxBytes < payload.length then .error (.tooLarge payload.length)
  else
    match layout.block payload with
    | .error cause => .error (.malformed cause)
    | .ok (b, _) =>
      if maxNodes < b.nodes.length then .error (.tooManyNodes b.nodes.length)
      else if maxChanges < b.changes.length then .error (.tooManyChanges b.changes.length)
      else .ok b

end DelayLedger.Wire
