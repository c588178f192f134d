import DelayLedger.Delay.Prime
import DelayLedger.Suite

/-!
# Proofs of delay

The delay is `T` squarings, one after the other, in the group modulo `N`: from the group element
`x` of a challenge they lead to `y = x ^ 2 ^ T`.  The witness is `x ^ ⌊2 ^ T / l⌋` for a prime `l`
drawn from `x`, `y` and `T`, so that anyone can check
`witness ^ l * x ^ (2 ^ T mod l) = y` without repeating the squarings.
-/

namespace DelayLedger

/-- The result of a delay and its witness, each in the fewest bytes, most significant first. -/
structure DelayProof where
  output : Bytes
  witness : Bytes
deriving DecidableEq

/-- The two parts, each preceded by its length. -/
def DelayProof.toBytes (p : DelayProof) : Bytes :=
  Bytes.prefixed p.output ++ Bytes.prefixed p.witness

inductive DelayError
  | interrupted
  | zeroDifficulty
deriving DecidableEq, Repr

def DelayError.message : DelayError → String
  | .interrupted => "VDF computation interrupted"
  | .zeroDifficulty => "difficulty must be positive"

namespace Delay

def modulusBytes : Nat := 256

/-- How many steps lie between two looks at the abort signal. -/
def pollInterval : Nat := 1024

def groupDomain : Bytes := Bytes.ofString "vdfchain/vdf/h2g/v1"

def primeDomain : Bytes := Bytes.ofString "vdfchain/vdf/h2p/v1"

variable (s : Suite)

/-- The group element of a challenge: nine digests read as one number, modulo `N`.  Zero and one,
on which squaring would stand still, give way to two. -/
def groupElement (challenge : Bytes) : Nat :=
  let wide := (List.range 9).flatMap fun i =>
    (s.digest (groupDomain ++ Bytes.littleEndian 4 i ++ challenge)).bytes
  let x := Bytes.ofBigEndian wide % s.modulus
  if x ≤ 1 then 2 else x

def statementBytes (x y difficulty : Nat) : Bytes :=
  primeDomain ++ Bytes.littleEndian 8 difficulty ++ Bytes.bigEndian x ++ Bytes.bigEndian y

/-- Where the search for the prime of a statement starts: an odd number of 128 bits. -/
def primeStart (x y difficulty : Nat) : Nat :=
  Bytes.ofBigEndian ((s.digest (statementBytes x y difficulty)).bytes.take 16) ||| 1 <<< 127 ||| 1

/-- The prime of a statement.  A prime lies below twice the start, so as many steps as the start
says are enough. -/
def statementPrime (x y difficulty : Nat) : Nat :=
  let start := primeStart s x y difficulty
  nextProbablePrime start start

/-- Whether the abort signal, looked at every `pollInterval` steps, is up.  `clock` is the number of
steps done in all, `step` the number done in this pass. -/
def aborted (abort : Nat → Bool) (step clock : Nat) : Bool := step % pollInterval == 0 && abort clock

def squarings (modulus : Nat) (abort : Nat → Bool) : (left step y : Nat) → Option Nat
  | 0, _, y => some y
  | left + 1, step, y =>
    if aborted abort step step then none
    else squarings modulus abort left (step + 1) (y * y % modulus)

/-- Divides `2 ^ T` by the prime bit by bit and raises `x` to the quotient on the way: `rest` is the
remainder so far and `power` is `x` to the quotient so far. -/
def division (modulus prime x : Nat) (abort : Nat → Bool) (offset : Nat) :
    (left step rest power : Nat) → Option Nat
  | 0, _, _, power => some power
  | left + 1, step, rest, power =>
    if aborted abort step (offset + step) then none
    else
      let rest := 2 * rest
      let power := power * power % modulus
      if prime ≤ rest then
        division modulus prime x abort offset left (step + 1) (rest - prime) (power * x % modulus)
      else division modulus prime x abort offset left (step + 1) rest power

/-- Computes a delay and its proof.  `abort n` says whether the computation is called off after `n`
steps. -/
def compute (difficulty : UInt64) (challenge : Bytes) (abort : Nat → Bool) :
    Except DelayError DelayProof :=
  let total := difficulty.toNat
  if total = 0 then .error .zeroDifficulty
  else
    let x := groupElement s challenge
    match squarings s.modulus abort total 0 x with
    | none => .error .interrupted
    | some y =>
      match division s.modulus (statementPrime s x y total) x abort total total 0 1 1 with
      | none => .error .interrupted
      | some power => .ok ⟨Bytes.bigEndian y, Bytes.bigEndian power⟩

/-- The number that a part of a proof stands for, if it is below the modulus, not zero, and written
in the one accepted way. -/
def element? (part : Bytes) : Option Nat :=
  let n := Bytes.ofBigEndian part
  if part.length ≤ modulusBytes ∧ n ≠ 0 ∧ n < s.modulus ∧ part = Bytes.bigEndian n then some n
  else none

def verify (difficulty : UInt64) (challenge : Bytes) (proof : DelayProof) : Bool :=
  let total := difficulty.toNat
  if total = 0 then false
  else
    match element? s proof.output, element? s proof.witness with
    | some y, some witness =>
      let x := groupElement s challenge
      let prime := statementPrime s x y total
      powMod s.modulus witness prime * powMod s.modulus x (powMod prime 2 total) % s.modulus == y
    | _, _ => false

end Delay

end DelayLedger
