import DelayLedger.Keccak
import DelayLedger.Lattice.Packing

/-!
# Polynomials from seeds

Each sampler reads a sponge's output and keeps the numbers that fall into its range, in the order
in which they come.  A bound on the number of blocks makes them total; the bound is far beyond
what a run ever needs.
-/

namespace DelayLedger.Lattice

open Keccak

/-- Feeds blocks of output to `take` until 256 coefficients are there. -/
def collect (take : Poly → Bytes → Poly) : (blocks : Nat) → Stream → Poly → Poly
  | 0, _, p => p
  | blocks + 1, s, p =>
    if p.size < 256 then
      let (block, rest) := s.next
      collect take blocks rest (take p block)
    else p

/-- Appends the numbers of 23 bits that are below `q`. -/
def takeResidues (p : Poly) : Bytes → Poly
  | a :: b :: c :: r =>
    let v := a.toNat + 256 * b.toNat + 65536 * (c.toNat % 128)
    if v < q ∧ p.size < 256 then takeResidues (p.push v) r else takeResidues p r
  | _ => p

/-- Appends `4 - v` for the half bytes `v` below 9. -/
def takeShort (p : Poly) : Bytes → Poly
  | b :: r =>
    let low := b.toNat % 16
    let high := b.toNat / 16
    let p := if low < 9 ∧ p.size < 256 then p.push (sub 4 low) else p
    let p := if high < 9 ∧ p.size < 256 then p.push (sub 4 high) else p
    takeShort p r
  | [] => p

/-- A polynomial with coefficients anywhere below `q`. -/
def uniform (seed : Bytes) : Poly :=
  collect takeResidues 1000 (shake128 seed) (Array.mkEmpty 256)

/-- A polynomial with coefficients from -4 to 4. -/
def short (seed : Bytes) (nonce : Nat) : Poly :=
  collect takeShort 1000 (shake256 (seed ++ Bytes.littleEndian 2 nonce)) (Array.mkEmpty 256)

/-- The range of the mask: its coefficients run from `1 - maskRange` to `maskRange`. -/
def maskRange : Nat := 524288

def mask (seed : Bytes) (nonce : Nat) : Poly :=
  ((unpack 20 ((shake256 (seed ++ Bytes.littleEndian 2 nonce)).read 640)).map
    (sub maskRange)).toArray

/-- The matrix that a seed stands for, transformed, with six rows of five polynomials. -/
def matrix (seed : Bytes) : List (List Poly) :=
  (List.range 6).map fun i => (List.range 5).map fun j =>
    uniform (seed ++ [UInt8.ofNat j, UInt8.ofNat i])

/-- Moves the coefficient at each byte that is at most `i` to place `i`, and puts a sign in its
stead, for `i` up to 255. -/
def placeSigns (signs i : Nat) (c : Poly) : Bytes → Poly
  | [] => c
  | b :: r =>
    if 255 < i then c
    else if b.toNat ≤ i then
      let moved := c.getD b.toNat 0
      placeSigns (signs / 2) (i + 1)
        ((c.setIfInBounds i moved).setIfInBounds b.toNat (if signs % 2 = 0 then 1 else q - 1)) r
    else placeSigns signs i c r

/-- A polynomial with 49 coefficients 1 or -1 and zeros elsewhere. -/
def challenge (seed : Bytes) : Poly :=
  let bytes := (shake256 seed).read 500
  placeSigns (Bytes.ofLittleEndian (bytes.take 8)) 207 Poly.zero (bytes.drop 8)

end DelayLedger.Lattice
