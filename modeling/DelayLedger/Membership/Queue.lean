import DelayLedger.Membership.Change
import DelayLedger.Retarget

/-!
# Pending requests

A node queues signed membership changes for the next block it makes, one for each identity, in the
order of identities.  After a block is appended, the changes that it records leave the queue, and so
do those that can no longer be recorded.
-/

namespace DelayLedger

/-- The pending changes, ascending by identity. -/
abbrev Queue := List Change

namespace Queue

def put (c : Change) : Queue → Queue
  | [] => [c]
  | d :: r =>
    if Bytes.lt c.identity d.identity then c :: d :: r
    else if Bytes.lt d.identity c.identity then d :: put c r
    else c :: r

/-- Queues a signed change.  It replaces an earlier one of the same identity. -/
def request (s : Suite) (q : Queue) (c : Change) : Except MembershipError Queue :=
  if c.isSigned s then .ok (q.put c) else .error .invalidSignature

/-- Whether a change may still be recorded by a block above the given height.  Its last height is at
most the greatest there is. -/
def isUsable (height : UInt64) (c : Change) : Bool :=
  height.toNat ≤ min (c.requestedAt.toNat + Change.lifetime) maxWord

/-- What is left after a block at `height` that records `recorded`. -/
def settle (q : Queue) (recorded : List Change) (height : UInt64) : Queue :=
  (q.filter fun c => c ∉ recorded).filter (isUsable height)

end Queue

end DelayLedger
