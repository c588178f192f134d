import DelayLedger.Lattice.Rounding
import DelayLedger.Lattice.Sampling

/-!
# The lattice signature

Keys and signatures of the draft ML-DSA-65 scheme.  A public key is a seed and the upper parts of
six polynomials; a secret key is the seed, a signing key, the public key's digest and the secret
polynomials; a signature is a commitment's digest, five polynomials and the hints.  Signing is
deterministic: it tries masks in order until one gives a signature that shows nothing of the key.
-/

namespace DelayLedger.Lattice

open Keccak

def publicSize : Nat := 1952

def secretSize : Nat := 4032

def signatureSize : Nat := 3309

/-- The largest norm of the challenge times a short polynomial. -/
def shift : Nat := 196

def attempts : Nat := 13107

def keypair (seed : Bytes) : Bytes × Bytes :=
  let bytes := (shake256 seed).read 128
  let rho := bytes.take 32
  let shortSeed := (bytes.drop 32).take 64
  let key := bytes.drop 96
  let s₁ := (List.range 5).map (short shortSeed)
  let s₂ := (List.range 6).map fun i => short shortSeed (5 + i)
  let transformed := s₁.map Poly.transform
  let t := List.zipWith (fun row s => (Poly.dot row transformed).restore.add s) (matrix rho) s₂
  let publicKey := rho ++ t.flatMap fun p => pack 10 (p.toList.map powerHigh)
  let digest := (shake256 publicKey).read 64
  let secretKey := rho ++ key ++ digest ++
    (s₁ ++ s₂).flatMap (fun p => pack 4 (p.toList.map (sub 4))) ++
    t.flatMap fun p => pack 13 (p.toList.map fun r => sub 4096 (powerLow r))
  (publicKey, secretKey)

/-- What signing needs of a secret key, with the polynomials transformed. -/
structure SecretParts where
  rows : List (List Poly)
  key : Bytes
  digest : Bytes
  s₁ : List Poly
  s₂ : List Poly
  t₀ : List Poly

def SecretParts.ofBytes (secret : Bytes) : SecretParts :=
  let rest := secret.drop 128
  let polys (size count width top : Nat) (bytes : Bytes) : List Poly :=
    (pieces size count bytes).map fun b => Poly.transform ((unpack width b).map (sub top)).toArray
  { rows := matrix (secret.take 32)
    key := (secret.drop 32).take 32
    digest := (secret.drop 64).take 64
    s₁ := polys 128 5 4 4 rest
    s₂ := polys 128 6 4 4 (rest.drop 640)
    t₀ := polys 416 6 13 4096 (rest.drop 1408) }

def commitmentDigest (message : Bytes) (high : List (List Nat)) : Bytes :=
  (shake256 (message ++ high.flatMap (pack 4))).read 48

def hintPositions (low high : Poly) : List Nat :=
  (List.range 256).filter fun i => overflows (low.getD i 0) (high.getD i 0)

/-- A signature from the mask with the given number, unless it would show something of the key or
need too many hints. -/
def attempt (parts : SecretParts) (message maskSeed : Bytes) (number : Nat) : Option Bytes :=
  let y := (List.range 5).map fun i => mask maskSeed (5 * number + i)
  let transformed := y.map Poly.transform
  let w := parts.rows.map fun row => (Poly.dot row transformed).restore
  let high := w.map (·.map highBits)
  let digest := commitmentDigest message (high.map Array.toList)
  let c := (challenge (digest.take 32)).transform
  let times (p : Poly) : Poly := (c.mul p).restore
  let z := List.zipWith (fun y s => y.add (times s)) y parts.s₁
  if !z.all (·.shorterThan (maskRange - shift)) then none
  else
    let low := List.zipWith (fun w s => Poly.sub (w.map lowBits) (times s)) w parts.s₂
    if !low.all (·.shorterThan (step - shift)) then none
    else
      let ct₀ := parts.t₀.map times
      if !ct₀.all (·.shorterThan step) then none
      else
        let hints := List.zipWith hintPositions (List.zipWith Poly.add low ct₀) high
        if hintLimit < hints.flatten.length then none
        else some (digest ++ z.flatMap (fun p => pack 20 (p.toList.map (sub maskRange))) ++
          packHints hints)

/-- The first signature that one of the masks from `number` on gives. -/
def firstSignature (parts : SecretParts) (message maskSeed : Bytes) :
    (left number : Nat) → Option Bytes
  | 0, _ => none
  | left + 1, number =>
    match attempt parts message maskSeed number with
    | some signature => some signature
    | none => firstSignature parts message maskSeed left (number + 1)

/-- The signature of a message under a secret key.  It is empty only if no mask is usable. -/
def sign (secret message : Bytes) : Bytes :=
  let parts := SecretParts.ofBytes secret
  let digest := (shake256 (parts.digest ++ message)).read 64
  let maskSeed := (shake256 (parts.key ++ List.replicate 32 0 ++ digest)).read 64
  (firstSignature parts digest maskSeed attempts 0).getD []

/-- Whether a signature is one of a message under a public key.  The sizes of the key and the
signature are taken as checked. -/
def accepts (publicKey message signature : Bytes) : Bool :=
  match unpackHints (signature.drop 3248) with
  | none => false
  | some hints =>
    let digest := signature.take 48
    let z : List Poly := (pieces 640 5 (signature.drop 48)).map fun b =>
      ((unpack 20 b).map (sub maskRange)).toArray
    if !z.all (·.shorterThan (maskRange - shift)) then false
    else
      let c := (challenge (digest.take 32)).transform
      let t₁ : List Poly := (pieces 320 6 (publicKey.drop 32)).map fun b =>
        Poly.transform ((unpack 10 b).map (· * 8192)).toArray
      let transformed := z.map Poly.transform
      let w := List.zipWith (fun row t => ((Poly.dot row transformed).sub (c.mul t)).restore)
        (matrix (publicKey.take 32)) t₁
      let high := List.zipWith (fun (positions : List Nat) (p : Poly) =>
        let marks := positions.foldl (fun (m : Array Bool) i => m.setIfInBounds i true)
          (Array.replicate 256 false)
        (Array.zipWith useHint marks p).toList) hints w
      let summary := (shake256 ((shake256 publicKey).read 64 ++ message)).read 64
      commitmentDigest summary high == digest

end DelayLedger.Lattice
