/-!
# Difficulty policies

A policy says which difficulty a child of a block has to carry, given the block's difficulty and the
two timestamps.  Under `fixed` difficulties never change.  Under `slotTarget` they steer rounds
towards one slot: with `e` milliseconds between the timestamps the difficulty is multiplied by
`2 - e / slot`, and from two slots on it falls to `minDifficulty`.
-/

namespace DelayLedger

/-- A span of time in nanoseconds. -/
structure Duration where
  nanoseconds : Nat
deriving DecidableEq, Repr

namespace Duration

def ofMillis (n : Nat) : Duration := ⟨n * 1000000⟩

def millis (d : Duration) : Nat := d.nanoseconds / 1000000

end Duration

def minDifficulty : Nat := 100

def maxWord : Nat := UInt64.size - 1

inductive Policy
  | fixed
  | slotTarget (slotMillis : UInt64)
deriving DecidableEq, Repr

namespace Policy

def text : Policy → String
  | .fixed => "FixedDifficulty"
  | .slotTarget slot => s!"SlotTargetDifficulty \x7b slot_ms: {slot} \x7d"

/-- Retargeting towards a slot.  The slot counts in whole milliseconds of 64 bits and is at least
one. -/
def ofSlot (slot : Duration) : Policy := .slotTarget (max (UInt64.ofNat slot.millis) 1)

/-- The difficulty of a child that is stamped `timestamp`, under a slot of `slot` milliseconds.  The
product is exact whatever the numbers are.  In words of 128 bits it fits for every slot below `2 ^ 63`;
for a longer slot and a difficulty of `2 ^ 63` or more it may not, and then words have no result. -/
def retarget (slot difficulty parentTimestamp timestamp : Nat) : Nat :=
  let elapsed := min ((timestamp - parentTimestamp) * 1000) maxWord
  if 2 * slot ≤ elapsed then minDifficulty
  else max minDifficulty (min maxWord (difficulty * (2 * slot - elapsed) / slot))

def next (policy : Policy) (difficulty parentTimestamp timestamp : UInt64) : UInt64 :=
  match policy with
  | .fixed => difficulty
  | .slotTarget slot => UInt64.ofNat
      (retarget slot.toNat difficulty.toNat parentTimestamp.toNat timestamp.toNat)

end Policy

end DelayLedger
