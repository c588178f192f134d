import DelayLedger.Block.Layout

/-!
# The record format

Blocks are stored with numbers and lengths in eight bytes and alternatives in four, the least
significant byte first.  What follows a block in a record is ignored.
-/

namespace DelayLedger.Record

def fixed (width : Nat) : Reader Nat := Bytes.ofLittleEndian <$> Reader.take width

def layout : Layout where
  putWord := Bytes.ofWord
  putLength := Bytes.littleEndian 8
  putVariant := Bytes.littleEndian 4
  word := UInt64.ofNat <$> fixed 8
  length := fixed 8
  variant := fixed 4

/-- What is said of a record that does not read as a block. -/
def readErrorText : ReadError → String
  | .endOfInput => "io error: unexpected end of file"
  | .unterminatedNumber => "number without an end"
  | .badOptionTag found => s!"tag for enum is not valid, found {found}"
  | .badVariant found => s!"invalid value: integer `{found}`, expected variant index 0 <= i < 2"

def encode (b : Block) : Bytes := layout.putBlock b

def decode (record : Bytes) : Except ReadError Block :=
  match layout.block record with
  | .error cause => .error cause
  | .ok (b, _) => .ok b

end DelayLedger.Record
