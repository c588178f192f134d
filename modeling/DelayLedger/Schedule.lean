import DelayLedger.Ticket

/-!
# Schedules

A schedule gives everyone a duty in the round that follows a block: the first of the ordering
produces, the next `committeeSize` form the committee, and all others validate.
-/

namespace DelayLedger

inductive Duty
  | producer
  | committee
  | validator
deriving DecidableEq, Repr

/-- The duties of a round. -/
structure Schedule where
  ordering : List Bytes
  committeeSize : Nat
deriving DecidableEq

namespace Schedule

variable (x : Schedule)

def producer? : Option Bytes := x.ordering.head?

/-- The members of the committee, in order.  They stand at the places from 1 to `committeeSize`, which
is any number here; in words of 64 bits one more than it has to fit, so it is below `2 ^ 64 - 1`. -/
def committee : List Bytes := (x.ordering.drop 1).take x.committeeSize

def rank? (identity : Bytes) : Option Nat := x.ordering.findIdx? (· == identity)

def dutyOf (identity : Bytes) : Duty :=
  match x.rank? identity with
  | some 0 => .producer
  | some rank => if rank ≤ x.committeeSize then .committee else .validator
  | none => .validator

end Schedule

end DelayLedger
