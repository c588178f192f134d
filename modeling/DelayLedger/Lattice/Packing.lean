import DelayLedger.Bytes
import DelayLedger.Lattice.Ring

/-!
# Packed integers and hints

A row of small numbers is packed into bytes with a fixed number of bits for each, the lowest bits
first.  A hint vector is packed as the positions of its ones, polynomial by polynomial, in
ascending order, padded with zeros, followed by the running totals.  `unpackHints` accepts exactly
one form of each vector: positions have to ascend and the padding has to be zero.
-/

namespace DelayLedger.Lattice

/-- `count` digits of a number in base `base`, lowest first. -/
def digits (base : Nat) : (count : Nat) → Nat → List Nat
  | 0, _ => []
  | count + 1, n => n % base :: digits base count (n / base)

/-- Packs numbers of `width` bits behind the `pending` bits of `carry`. -/
def packFrom (width : Nat) (carry pending : Nat) : List Nat → Bytes
  | [] => []
  | v :: r =>
    let carry := carry + v <<< pending
    let pending := pending + width
    Bytes.littleEndian (pending / 8) carry ++
      packFrom width (carry >>> (8 * (pending / 8))) (pending % 8) r

def pack (width : Nat) (values : List Nat) : Bytes := packFrom width 0 0 values

/-- Reads numbers of `width` bits behind the `pending` bits of `carry`. -/
def unpackFrom (width : Nat) (carry pending : Nat) : Bytes → List Nat
  | [] => []
  | b :: r =>
    let carry := carry + b.toNat <<< pending
    let pending := pending + 8
    digits (1 <<< width) (pending / width) carry ++
      unpackFrom width (carry >>> (width * (pending / width))) (pending % width) r

def unpack (width : Nat) (bytes : Bytes) : List Nat := unpackFrom width 0 0 bytes

def pieces (size : Nat) : (count : Nat) → Bytes → List Bytes
  | 0, _ => []
  | count + 1, bytes => bytes.take size :: pieces size count (bytes.drop size)

def hintLimit : Nat := 55

def totals : Nat → List (List Nat) → List Nat
  | _, [] => []
  | n, l :: r => (n + l.length) :: totals (n + l.length) r

/-- The packed form of the positions of the ones in each polynomial. -/
def packHints (positions : List (List Nat)) : Bytes :=
  let all := positions.flatten
  (all ++ List.replicate (hintLimit - all.length) 0 ++ totals 0 positions).map UInt8.ofNat

def ascends : Bytes → Bool
  | x :: y :: r => x < y && ascends (y :: r)
  | _ => true

/-- Reads the positions for the given running totals, `used` positions being taken already. -/
def unpackHintsFrom (used : Nat) (positions : Bytes) : (totals : Bytes) → Option (List (List Nat))
  | [] => if positions.all (· == 0) then some [] else none
  | total :: r =>
    let total := total.toNat
    if total < used || hintLimit < total then none
    else
      let here := positions.take (total - used)
      if ascends here then
        (unpackHintsFrom total (positions.drop (total - used)) r).map
          (here.map UInt8.toNat :: ·)
      else none

/-- The positions of the ones in each polynomial, for a packed vector in its only valid form. -/
def unpackHints (bytes : Bytes) : Option (List (List Nat)) :=
  unpackHintsFrom 0 (bytes.take hintLimit) (bytes.drop hintLimit)

end DelayLedger.Lattice
