import DelayLedger.Chain.Feed
import DelayLedger.Chain.Validation
import DelayLedger.Schedule
import DelayLedger.Text.Hex

/-!
# Chains

A chain is a non-empty sequence of blocks that only grows at its tip.  Appending has two parts: the
candidate is checked against a snapshot of the tip, and `commit` adds it if the tip is still that
snapshot.  Every accepted block is published on the chain's feed; a rejected one changes nothing.
`append_eq_ok_iff` says what appending accepts.  `restore` rebuilds a chain from blocks with the same
checks.
-/

namespace DelayLedger

structure Chain where
  policy : Policy
  /-- The blocks below the tip, the highest first. -/
  earlier : List Block
  tip : Block
  /-- The blocks appended since the chain was built. -/
  feed : Feed Block

inductive ChainError
  | invalidGenesis (cause : GenesisError)
  | corrupt (height : UInt64) (cause : ValidationError)
  | emptyStore
deriving DecidableEq, Repr

def ChainError.message : ChainError → String
  | .invalidGenesis cause => s!"invalid genesis block: {cause.message}"
  | .corrupt height cause => s!"stored block at height {height} failed validation: {cause.message}"
  | .emptyStore => "no blocks to restore"

structure Appended where
  height : UInt64
  hash : Digest
deriving DecidableEq

def Appended.text (a : Appended) : String := s!"#{a.height} {Text.fingerprint a.hash.bytes}"

structure BatchReport where
  appended : Nat
  /-- Blocks that were held already, at the same height with the same hash. -/
  known : Nat
  /-- The height of the first block that was rejected, after which none was tried, and the cause. -/
  rejected : Option (UInt64 × ValidationError)
deriving DecidableEq

def Block.schedule (s : Suite) (b : Block) (committeeSize : Nat) : Schedule :=
  ⟨Ticket.order s b.seed b.nodes, committeeSize⟩

def Block.appended (b : Block) : Appended := ⟨b.height, b.hash⟩

namespace Chain

def blocks (c : Chain) : List Block := (c.tip :: c.earlier).reverse

def length (c : Chain) : Nat := c.earlier.length + 1

def blockAt? (c : Chain) (height : UInt64) : Option Block :=
  if height.toNat < c.length then (c.tip :: c.earlier)[c.length - 1 - height.toNat]? else none

def blocksFrom (c : Chain) (height : UInt64) : List Block := c.blocks.drop height.toNat

def ticketOrder (s : Suite) (c : Chain) : List Bytes := Ticket.order s c.tip.seed c.tip.nodes

/-- A short description, which shows the policy only. -/
def text (c : Chain) : String := "Chain \x7b policy: " ++ c.policy.text ++ ", .. \x7d"

def push (c : Chain) (b : Block) : Chain :=
  { c with earlier := c.tip :: c.earlier, tip := b, feed := c.feed.publish b }

/-- A chain that is given up: nothing will be appended to it. -/
def close (c : Chain) : Chain := { c with feed := c.feed.close }

theorem blocks_push (c : Chain) (b : Block) : (c.push b).blocks = c.blocks ++ [b] := by
  simp [blocks, push]

theorem length_blocks (c : Chain) : c.blocks.length = c.length := by simp [blocks, length]

theorem blockAt?_eq (c : Chain) (height : UInt64) : c.blockAt? height = c.blocks[height.toNat]? := by
  have hlength : (c.tip :: c.earlier).length = c.length := rfl
  rw [blockAt?, blocks]
  split
  · next h => rw [List.getElem?_reverse h, hlength]
  · next h =>
    rw [List.getElem?_eq_none]
    rw [List.length_reverse, hlength]
    exact Nat.not_lt.mp h

variable (s : Suite)

def new (policy : Policy) (genesis : Block) : Except ChainError Chain :=
  match checkGenesis s genesis with
  | .error cause => .error (.invalidGenesis cause)
  | .ok () => .ok ⟨policy, [], genesis, .empty⟩

/-- Continues a restored chain, `tip` being its tip and `earlier` what lies below. -/
def restoreFrom (policy : Policy) (now : UInt64) :
    (earlier : List Block) → (tip : Block) → List Block → Except ChainError Chain
  | earlier, tip, [] => .ok ⟨policy, earlier, tip, .empty⟩
  | earlier, tip, b :: r =>
    match validate s policy now tip b with
    | .error cause => .error (.corrupt b.height cause)
    | .ok () => restoreFrom policy now (tip :: earlier) b r

/-- The chain of the given blocks, each checked again. -/
def restore (policy : Policy) (now : UInt64) : List Block → Except ChainError Chain
  | [] => .error .emptyStore
  | genesis :: r =>
    match checkGenesis s genesis with
    | .error cause => .error (.invalidGenesis cause)
    | .ok () => restoreFrom s policy now [] genesis r

/-- Adds a candidate that was checked against a snapshot of the tip, if the tip is still that. -/
def commit (c : Chain) (snapshot candidate : Block) : Except ValidationError Chain :=
  if c.tip.hash ≠ snapshot.hash then .error (.linkMismatch c.tip.height candidate.height)
  else .ok (c.push candidate)

def append (now : UInt64) (c : Chain) (candidate : Block) : Except ValidationError Chain :=
  match validate s c.policy now c.tip candidate with
  | .error e => .error e
  | .ok () => c.commit c.tip candidate

theorem append_eq_ok_iff {now : UInt64} {c next : Chain} {candidate : Block} :
    c.append s now candidate = .ok next ↔
      validate s c.policy now c.tip candidate = .ok () ∧ next = c.push candidate := by
  rw [append]
  cases validate s c.policy now c.tip candidate with
  | error e => simp
  | ok u => simp [commit, eq_comm]

theorem append_eq_error_iff {now : UInt64} {c : Chain} {candidate : Block}
    {e : ValidationError} :
    c.append s now candidate = .error e ↔
      validate s c.policy now c.tip candidate = .error e := by
  rw [append]
  cases validate s c.policy now c.tip candidate with
  | error e => simp
  | ok u => simp [commit]

def holds (c : Chain) (b : Block) : Bool := (c.blockAt? b.height).any (·.hash == b.hash)

/-- Adds blocks in order.  Those that are held already are passed over, and the first rejection ends
the batch. -/
def appendAll (now : UInt64) (c : Chain) (report : BatchReport) : List Block → Chain × BatchReport
  | [] => (c, report)
  | b :: r =>
    if c.holds b then appendAll now c { report with known := report.known + 1 } r
    else
      match c.append s now b with
      | .error e => (c, { report with rejected := some (b.height, e) })
      | .ok c => appendAll now c { report with appended := report.appended + 1 } r

def sync (now : UInt64) (c : Chain) (batch : List Block) : Chain × BatchReport :=
  appendAll s now c ⟨0, 0, none⟩ batch

end Chain

end DelayLedger
