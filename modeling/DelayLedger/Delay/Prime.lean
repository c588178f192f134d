/-!
# Powers and probable primes

`powMod` is the remainder of a power, by squaring.  `probablePrime` divides by the small primes and
then runs the Miller–Rabin test with the same primes as bases.  `nextProbablePrime` goes up in
steps of two until a number passes.
-/

namespace DelayLedger.Delay

/-- `acc * b ^ e` modulo `m`, for an exponent of at most `bits` bits. -/
def powModFrom (m : Nat) : (bits : Nat) → (b e acc : Nat) → Nat
  | 0, _, _, acc => acc % m
  | bits + 1, b, e, acc =>
    powModFrom m bits (b * b % m) (e / 2) (if e % 2 = 1 then acc * b % m else acc)

def powMod (m b e : Nat) : Nat := powModFrom m (e.log2 + 1) (b % m) e 1

/-- The primes by which candidates are divided, and which are the bases of the test. -/
def smallPrimes : List Nat := [2, 3, 5, 7, 11, 13, 17, 19, 23, 29, 31, 37]

/-- `(k, d)` with `n = 2 ^ k * d` and `d` odd, found within `limit` halvings. -/
def splitTwos : (limit n : Nat) → Nat × Nat
  | 0, n => (0, n)
  | limit + 1, n =>
    if n % 2 = 0 then
      let (k, d) := splitTwos limit (n / 2)
      (k + 1, d)
    else (0, n)

/-- Whether one of the next `count` squares of `a` is `n - 1`. -/
def squaresReach (n : Nat) : (count a : Nat) → Bool
  | 0, _ => false
  | count + 1, a =>
    let a := a * a % n
    a == n - 1 || squaresReach n count a

/-- Whether `n` passes the test with one base, `n - 1` being `2 ^ k * d`. -/
def passes (n k d base : Nat) : Bool :=
  let a := powMod n base d
  a == 1 || a == n - 1 || squaresReach n (k - 1) a

/-- Whether a number is prime as far as the small primes tell.  No prime is refused. -/
def probablePrime (n : Nat) : Bool :=
  if n ≤ 1 then false
  else
    match smallPrimes.find? fun p => n % p == 0 with
    | some p => n == p
    | none =>
      let (k, d) := splitTwos (n.log2 + 1) (n - 1)
      smallPrimes.all (passes n k d)

/-- The first of `n, n + 2, n + 4, …` that is a probable prime, `limit` of them being tried. -/
def nextProbablePrime : (limit n : Nat) → Nat
  | 0, n => n
  | limit + 1, n => if probablePrime n then n else nextProbablePrime limit (n + 2)

end DelayLedger.Delay
