/-!
# The ring of the lattice signature

Polynomials of degree below 256 over the integers modulo `q`, with `X ^ 256 = -1`.  A polynomial is
the array of its coefficients, each reduced to `0, …, q - 1`.  Products are taken in the transformed
domain, where they are coefficientwise; `Poly.transform` goes there and `Poly.restore` comes back.
`norm` is the distance of a coefficient to the nearest multiple of `q`.
-/

namespace DelayLedger.Lattice

def q : Nat := 8380417

abbrev Poly := Array Nat

@[inline] def add (x y : Nat) : Nat := let z := x + y; if z < q then z else z - q

@[inline] def sub (x y : Nat) : Nat := if y ≤ x then x - y else x + q - y

@[inline] def mul (x y : Nat) : Nat := x * y % q

def pow (x : Nat) : Nat → Nat
  | 0 => 1
  | n + 1 => mul x (pow x n)

/-- The distance of a residue to the nearest multiple of `q`. -/
@[inline] def norm (x : Nat) : Nat := if x ≤ q / 2 then x else q - x

/-- The eight bits of a number below 256 in opposite order. -/
def reverseBits (k : Nat) : Nat :=
  (List.range 8).foldl (fun r i => 2 * r + k >>> i % 2) 0

/-- The powers of a primitive 512-th root of unity, in the order in which the transform meets
them. -/
def roots : Array Nat := ((List.range 256).map fun k => pow 1753 (reverseBits k)).toArray

namespace Poly

def zero : Poly := Array.replicate 256 0

def add (x y : Poly) : Poly := Array.zipWith Lattice.add x y

def sub (x y : Poly) : Poly := Array.zipWith Lattice.sub x y

def mul (x y : Poly) : Poly := Array.zipWith Lattice.mul x y

/-- Every coefficient lies within distance `bound - 1` of a multiple of `q`. -/
def shorterThan (x : Poly) (bound : Nat) : Bool := x.all fun c => norm c < bound

/-- Into the transformed domain: blocks of twice `half` coefficients are split in two, for `half`
from 128 down to 1. -/
def transform (x : Poly) : Poly := Id.run do
  let mut a := x
  for half in [128, 64, 32, 16, 8, 4, 2, 1] do
    let blocks := 128 / half
    for b in [0:blocks] do
      let root := roots.getD (blocks + b) 0
      let start := 2 * half * b
      for i in [start:start + half] do
        let low := a.getD i 0
        let high := Lattice.mul root (a.getD (i + half) 0)
        a := a.setIfInBounds i (Lattice.add low high)
        a := a.setIfInBounds (i + half) (Lattice.sub low high)
  return a

/-- Out of the transformed domain.  The last factor is the inverse of 256. -/
def restore (x : Poly) : Poly := Id.run do
  let mut a := x
  for half in [1, 2, 4, 8, 16, 32, 64, 128] do
    let blocks := 128 / half
    for b in [0:blocks] do
      let root := q - roots.getD (2 * blocks - 1 - b) 0
      let start := 2 * half * b
      for i in [start:start + half] do
        let low := a.getD i 0
        let high := a.getD (i + half) 0
        a := a.setIfInBounds i (Lattice.add low high)
        a := a.setIfInBounds (i + half) (Lattice.mul root (Lattice.sub low high))
  return a.map (Lattice.mul 8347681)

def dot (xs ys : List Poly) : Poly := (List.zipWith mul xs ys).foldl add zero

end Poly

end DelayLedger.Lattice
