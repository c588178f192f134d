import DelayLedger.Membership.Roll
import DelayLedger.Retarget

/-!
# Making blocks

`genesis` makes the first block of a chain and `forge` a child of a block, each sealed with the
keys of the node that makes it.
-/

namespace DelayLedger

/-- The first block.  Its set is `nodes` and the maker in byte order; of more than `maxNodes` the
highest are left out, the maker never. -/
def genesis (s : Suite) (keys : Keypair) (nodes : List Bytes) (difficulty timestamp : UInt64) :
    Block :=
  let others := (Ascending.ofList Bytes.lt (nodes.filter (· != keys.publicKey))).take (maxNodes - 1)
  let unsealed : Block :=
    { previousHash := none
      height := 0
      difficulty := difficulty
      timestamp := timestamp
      proof := none
      producer := keys.publicKey
      changes := []
      nodes := Membership.enrol keys.publicKey others
      hash := Digest.zero
      signature := [] }
  unsealed.sealWith s keys

/-- The set that some changes lead to, whether or not they may be recorded. -/
def replay (members : List Bytes) (changes : List Change) : List Bytes :=
  changes.foldl (fun members c =>
    match c.action with
    | .join => Membership.enrol c.identity members
    | .leave => members.erase c.identity) members

/-- A child of `parent` with the given proof.  It records the pending changes that apply and gets
the difficulty that the policy prescribes. -/
def forge (s : Suite) (policy : Policy) (keys : Keypair) (parent : Block) (proof : DelayProof)
    (pending : List Change) (timestamp : UInt64) : Block :=
  let changes := Membership.select s parent keys.publicKey pending
  let members := Membership.enrol keys.publicKey (replay (Membership.members parent) changes)
  let unsealed : Block :=
    { previousHash := some parent.hash
      height := parent.height + 1
      difficulty := policy.next parent.difficulty parent.timestamp timestamp
      timestamp := timestamp
      proof := some proof
      producer := keys.publicKey
      changes := changes
      nodes := Ticket.order s proof.toBytes members
      hash := Digest.zero
      signature := [] }
  unsealed.sealWith s keys

end DelayLedger
