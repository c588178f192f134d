import DelayLedger.Chain

/-!
# Appending in steps

Several callers may append to one chain at a time.  A call reads the tip, checks its candidate
against what it read while others go on, and then commits at once.  `AppendCall.step` takes a call
one step further.  Nothing comes between the steps of a call that is alone, and then they are
`Chain.append` (`runAlone_eq_append`).
-/

namespace DelayLedger

/-- How far a call has come. -/
inductive AppendCall
  | reading (candidate : Block)
  | checking (snapshot candidate : Block)
  | committing (snapshot candidate : Block)
  | finished (result : Except ValidationError Appended)

namespace AppendCall

/-- The next step of a call on a chain as it stands.  Only committing changes the chain. -/
def step (s : Suite) (now : UInt64) (c : Chain) : AppendCall → Chain × AppendCall
  | reading candidate => (c, checking c.tip candidate)
  | checking snapshot candidate =>
    match validate s c.policy now snapshot candidate with
    | .error e => (c, finished (.error e))
    | .ok () => (c, committing snapshot candidate)
  | committing snapshot candidate =>
    match c.commit snapshot candidate with
    | .error e => (c, finished (.error e))
    | .ok next => (next, finished (.ok candidate.appended))
  | finished result => (c, finished result)

def runAlone (s : Suite) (now : UInt64) (c : Chain) (candidate : Block) : Chain × AppendCall :=
  let (c, call) := step s now c (reading candidate)
  let (c, call) := step s now c call
  step s now c call

theorem runAlone_eq_append (s : Suite) (now : UInt64) (c : Chain) (candidate : Block) :
    runAlone s now c candidate =
      match c.append s now candidate with
      | .error e => (c, finished (.error e))
      | .ok next => (next, finished (.ok candidate.appended)) := by
  simp only [runAlone, step, Chain.append]
  cases validate s c.policy now c.tip candidate with
  | error e => rfl
  | ok u => simp only

end AppendCall

end DelayLedger
