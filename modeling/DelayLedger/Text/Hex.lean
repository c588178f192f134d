import DelayLedger.Bytes

/-!
# Hexadecimal text
-/

namespace DelayLedger.Text

def hexDigits : Array Char :=
  #['0', '1', '2', '3', '4', '5', '6', '7', '8', '9', 'a', 'b', 'c', 'd', 'e', 'f']

def hexDigit (n : Nat) : Char := hexDigits.getD n '0'

def hex (b : Bytes) : String :=
  String.ofList (b.flatMap fun x => [hexDigit (x.toNat / 16), hexDigit (x.toNat % 16)])

/-- The first eight bytes of a key or a hash, by which people tell them apart. -/
def fingerprint (b : Bytes) : String := hex (b.take 8)

end DelayLedger.Text
