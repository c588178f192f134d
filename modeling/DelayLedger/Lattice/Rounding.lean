import DelayLedger.Lattice.Ring

/-!
# Rounding

A residue is cut in two ways.  For the public key the lowest 13 bits are split off, the rest being
rounded to nearest.  For commitments a residue is written as `highBits · 2γ + lowBits`, where `γ`
is `step` and the low part has norm at most `γ`; the topmost interval wraps round to zero.  A hint
tells whether the high part changes when a short polynomial is added.
-/

namespace DelayLedger.Lattice

/-- The upper part of a residue of a public key, in multiples of `2 ^ 13`. -/
def powerHigh (r : Nat) : Nat := (r + 4095) / 8192

/-- What `powerHigh` leaves, as a residue. -/
def powerLow (r : Nat) : Nat := sub r (powerHigh r * 8192)

/-- Half the width of the intervals of a commitment. -/
def step : Nat := 261888

/-- The number of the interval of a residue, from 0 to 15. -/
def highBits (r : Nat) : Nat := (r + step - 1) / (2 * step) % 16

/-- The place of a residue in its interval, as a residue. -/
def lowBits (r : Nat) : Nat := sub r (highBits r * (2 * step))

/-- Whether a low part left its interval, `high` being the interval's number. -/
def overflows (low high : Nat) : Bool := step < norm low || (low == q - step && high != 0)

/-- The interval's number of a residue, moved to the neighbour when the hint says so. -/
def useHint (hint : Bool) (r : Nat) : Nat :=
  let high := highBits r
  let low := lowBits r
  if hint then (if 0 < low && low ≤ step then high + 1 else high + 15) % 16 else high

end DelayLedger.Lattice
