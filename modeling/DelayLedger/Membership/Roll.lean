import DelayLedger.Block
import DelayLedger.Ticket

/-!
# The consensus set of a child

The set of a child is the parent's set with the recorded changes applied and the producer added, in
the order of the tickets drawn from the child's proof.  `next` computes it and refuses changes that
may not be recorded; `select` picks, from pending requests, changes that may.  Sets are ascending
lists of identities.
-/

namespace DelayLedger.Membership

def enrol (identity : Bytes) (members : List Bytes) : List Bytes :=
  Ascending.insert Bytes.lt identity members

/-- The consensus set of a block as an ascending list. -/
def members (b : Block) : List Bytes := Ascending.ofList Bytes.lt b.nodes

theorem mem_enrol {x identity : Bytes} {l : List Bytes} :
    x ∈ enrol identity l ↔ x = identity ∨ x ∈ l := Bytes.isLinear_lt.mem_insert

theorem mem_members {x : Bytes} {b : Block} : x ∈ members b ↔ x ∈ b.nodes :=
  Bytes.isLinear_lt.mem_ofList

variable (s : Suite)

/-- Applies one change, in a child of a block at `parentHeight` by `producer`.  A join reserves a
place for a producer who is not a member yet. -/
def apply (parentHeight : UInt64) (producer : Bytes) (members : List Bytes) (c : Change) :
    Except MembershipError (List Bytes) :=
  if !c.isFresh parentHeight then .error (.expired c.requestedAt parentHeight)
  else if !c.isSigned s then .error .invalidSignature
  else
    match c.action with
    | .join =>
      let reserved := if c.identity ≠ producer ∧ producer ∉ members then 1 else 0
      if c.identity ∈ members then .error .alreadyMember
      else if maxNodes < members.length + 1 + reserved then .error .setFull
      else .ok (enrol c.identity members)
    | .leave =>
      if c.identity = producer then .error .producerLeave
      else if c.identity ∈ members then .ok (members.erase c.identity)
      else .error .notMember

/-- Applies changes in order, none of them for an identity in `seen` or for one met before. -/
def applyAll (parentHeight : UInt64) (producer : Bytes) :
    (seen members : List Bytes) → List Change → Except MembershipError (List Bytes)
  | _, members, [] => .ok members
  | seen, members, c :: r =>
    if c.identity ∈ seen then .error .duplicate
    else
      match apply s parentHeight producer members c with
      | .error e => .error e
      | .ok members => applyAll parentHeight producer (c.identity :: seen) members r

/-- The consensus set of a child of `parent` by `producer` that records `changes`, in the order of
the tickets under `seed`. -/
def next (parent : Block) (producer : Bytes) (changes : List Change) (seed : Bytes) :
    Except MembershipError (List Bytes) :=
  if maxChanges < changes.length then .error (.tooMany changes.length)
  else
    match applyAll s parent.height producer [] (members parent) changes with
    | .error e => .error e
    | .ok members =>
      let members := enrol producer members
      if maxNodes < members.length then .error .setFull
      else .ok (Ticket.order s seed members)

/-- Picks changes that still apply after those picked before, which `picked` holds with the last one
first. -/
def selectFrom (parentHeight : UInt64) (producer : Bytes) :
    (members : List Bytes) → (picked pending : List Change) → List Change
  | _, picked, [] => picked.reverse
  | members, picked, c :: r =>
    if picked.length = maxChanges then picked.reverse
    else if picked.any (·.identity == c.identity) then
      selectFrom parentHeight producer members picked r
    else
      match apply s parentHeight producer members c with
      | .error _ => selectFrom parentHeight producer members picked r
      | .ok members => selectFrom parentHeight producer members (c :: picked) r

/-- The pending changes that a child of `parent` by `producer` can record: those that are stale,
unsigned, redundant or beyond the set's capacity are left out. -/
def select (parent : Block) (producer : Bytes) (pending : List Change) : List Change :=
  selectFrom s parent.height producer (members parent) [] pending

end DelayLedger.Membership
