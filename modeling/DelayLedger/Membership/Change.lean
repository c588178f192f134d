import DelayLedger.Suite

/-!
# Membership changes

A change is a request to join or to leave the consensus set, signed by the identity that it names.
It may be recorded by blocks whose parent is at most `lifetime` blocks above the height at which
it was requested.
-/

namespace DelayLedger

inductive Action
  | join
  | leave
deriving DecidableEq, Repr

/-- The byte that stands for an action in signed and hashed bytes. -/
def Action.tag : Action → UInt8
  | .join => 1
  | .leave => 2

theorem Action.tag_injective {a b : Action} (h : a.tag = b.tag) : a = b := by
  cases a <;> cases b <;> trivial

structure Change where
  identity : Bytes
  action : Action
  /-- The height of the tip when the request was made. -/
  requestedAt : UInt64
  signature : Bytes
deriving DecidableEq

namespace Change

def domain : Bytes := Bytes.ofString "vdfchain/membership/v1"

/-- For how many blocks after its request a change may be recorded. -/
def lifetime : Nat := 64

def signingBytes (identity : Bytes) (action : Action) (requestedAt : UInt64) : Bytes :=
  domain ++ [action.tag] ++ Bytes.ofWord requestedAt ++ identity

variable (s : Suite)

def signed (keys : Keypair) (action : Action) (requestedAt : UInt64) : Change :=
  { identity := keys.publicKey
    action := action
    requestedAt := requestedAt
    signature := s.sign keys.secretKey (signingBytes keys.publicKey action requestedAt) }

def verify (c : Change) : Except KeyError Unit :=
  s.verify c.identity (signingBytes c.identity c.action c.requestedAt) c.signature

def isSigned (c : Change) : Bool :=
  s.verifies c.identity (signingBytes c.identity c.action c.requestedAt) c.signature

/-- Whether a child of a block at the given height may record a change. -/
def isFresh (c : Change) (parentHeight : UInt64) : Bool :=
  c.requestedAt.toNat ≤ parentHeight.toNat &&
    parentHeight.toNat - c.requestedAt.toNat ≤ lifetime

def toBytes (c : Change) : Bytes :=
  [c.action.tag] ++ Bytes.ofWord c.requestedAt ++ Bytes.prefixed c.identity ++
    Bytes.prefixed c.signature

end Change

inductive MembershipError
  | invalidSignature
  | expired (requestedAt parentHeight : UInt64)
  | duplicate
  | tooMany (count : Nat)
  | alreadyMember
  | notMember
  | producerLeave
  | setFull
deriving DecidableEq, Repr

def maxNodes : Nat := 1000

def maxChanges : Nat := 64

def MembershipError.message : MembershipError → String
  | .invalidSignature => "membership request signature invalid"
  | .expired requestedAt parentHeight =>
    s!"membership request from height {requestedAt} not usable after height {parentHeight}"
  | .duplicate => "more than one membership change for the same identity"
  | .tooMany count => s!"too many membership changes: {count} (max {maxChanges})"
  | .alreadyMember => "join for a node already in the set"
  | .notMember => "leave for a node not in the set"
  | .producerLeave => "a producer cannot leave in its own block"
  | .setFull => s!"consensus set would exceed {maxNodes} nodes"

end DelayLedger
