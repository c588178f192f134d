import DelayLedger.Text.Property

/-!
# Quoted text

Text between double quotes, with escapes for the quote, the backslash, the usual control characters
and whatever would not show: such characters are written by number.
-/

namespace DelayLedger.Text

/-- A number in hexadecimal digits, lower case, without leading zeros. -/
def hexNumber (n : Nat) : String := String.ofList (Nat.toDigits 16 n)

def escapeByNumber (c : Char) : String := "\\u\x7b" ++ hexNumber c.toNat ++ "\x7d"

def escape (c : Char) : String :=
  if c = '\x00' then "\\0"
  else if c = '\t' then "\\t"
  else if c = '\n' then "\\n"
  else if c = '\r' then "\\r"
  else if c = '"' then "\\\""
  else if c = '\\' then "\\\\"
  else if extendsCluster c || !isVisible c then escapeByNumber c
  else String.singleton c

def quoted (t : String) : String := "\"" ++ String.join (t.toList.map escape) ++ "\""

end DelayLedger.Text
