import DelayLedger.Round

/-!
# Rounds in time

A `Timeline` follows one node through its rounds on a clock that counts milliseconds.  Whatever is
on the feed is heard first; a producer's round then ends when its slot has passed.  With `repeats`
the next round starts when one ends, as long as the node is not stopped; a rejected block would be
rejected again at the same time of day, so it ends the run for the time being.
-/

namespace DelayLedger

structure Timeline where
  node : Participant
  chain : Chain
  progress : Progress
  /-- When the round at hand started. -/
  began : Nat
  clock : Nat

/-- How far to go: to the end of a slot that has not passed yet, on to further rounds, and up to
which height. -/
structure Horizon where
  waits : Bool
  repeats : Bool
  goal : Option UInt64

namespace Timeline

def start (s : Suite) (p : Participant) (c : Chain) (isStopped : Bool) : Timeline :=
  ⟨p, c, Round.startUnlessStopped s p c isStopped, 0, 0⟩

/-- Whether a round with this end is followed by another one at once. -/
def goesOn : RoundOutcome → Bool
  | .produced _ => true
  | .observed _ => true
  | .interrupted _ => true
  | _ => false

def reached (goal : Option UInt64) (x : Timeline) : Bool := goal.any (· ≤ x.chain.tip.height)

/-- When the slot of the round at hand is over.  A round takes at least a millisecond. -/
def slotEnd (x : Timeline) : Nat := x.began + max 1 x.node.slot.millis

def step (s : Suite) (now : UInt64) (h : Horizon) (x : Timeline) : Option Timeline :=
  if reached h.goal x then none
  else
    match x.progress with
    | .done outcome =>
      if h.repeats && goesOn outcome then
        some { x with progress := .going (Round.start s x.node x.chain) }
      else none
    | .going round =>
      match round.hearAll x.chain with
      | .done outcome => some { x with progress := .done outcome, began := x.clock }
      | .going round =>
        match round.phase with
        | .waiting => none
        | _ =>
          if h.waits || x.slotEnd ≤ x.clock then
            let (progress, node, chain) := round.undisturbed s now x.node x.chain
            some { x with node := node, chain := chain, progress := progress, began := x.slotEnd }
          else none

/-- How the round at hand ends if the node is stopped now. -/
def outcomeIfStopped (x : Timeline) : RoundOutcome :=
  match x.progress with
  | .done outcome => outcome
  | .going _ => .stopped

def advance (s : Suite) (now : UInt64) (h : Horizon) : (count : Nat) → Timeline → Timeline
  | 0, x => x
  | count + 1, x =>
    match x.step s now h with
    | none => x
    | some x => advance s now h count x

end Timeline

end DelayLedger
