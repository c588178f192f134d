import DelayLedger.Chain.Call
import DelayLedger.Forge
import DelayLedger.Membership.Queue

/-!
# Rounds

A node takes part in one round for each tip of its chain.  The scheduled producer computes the
delay, waits for the slot to end, and forges and appends a block; everyone else waits for a block.
A round is a small machine.  It joins the chain's feed, and `readTip` reads the tip; then `hear`
takes the next item of the feed, `finishDelay` ends the producer's computation, and `proceed` takes
the steps after the slot one by one, so that other callers may come between any two.  A block that
raises the chain above the tip that was read ends the round, and so does `stop` before the node's own
block is on its way.
-/

namespace DelayLedger

structure Participant where
  keys : Keypair
  policy : Policy
  slot : Duration
  committeeSize : Nat
  queue : Queue

inductive RoundError
  | delay (cause : DelayError)
  | feedClosed
deriving DecidableEq

def RoundError.message : RoundError → String
  | .delay cause => s!"VDF: {cause.message}"
  | .feedClosed => "chain event stream closed"

inductive RoundOutcome
  /-- The node's own block was appended. -/
  | produced (block : Appended)
  /-- Another block ended the round of a node that was waiting for it. -/
  | observed (height : UInt64)
  /-- Another block came while the node was at work on its own. -/
  | interrupted (height : UInt64)
  /-- The node's own block was rejected. -/
  | rejected (cause : ValidationError)
  | stopped
  | failed (cause : RoundError)
deriving DecidableEq

inductive Phase
  | computing
  /-- The delay is done and the slot is not over. -/
  | pacing (proof : DelayProof)
  /-- The node's own block is being appended. -/
  | appending (block : Block) (call : AppendCall)
  /-- The node's own block was appended, and the queue still holds what it records. -/
  | settling (block : Block)
  | waiting

/-- A round that has not ended: the tip it started from, its place in the feed, and the phase. -/
structure Round where
  tip : Block
  cursor : Nat
  phase : Phase

inductive Progress
  | going (round : Round)
  | done (outcome : RoundOutcome)

namespace Round

/-- Reads the tip.  The feed was joined at `cursor` before, so that no block comes in between
unheard. -/
def readTip (s : Suite) (p : Participant) (c : Chain) (cursor : Nat) : Round :=
  { tip := c.tip
    cursor := cursor
    phase :=
      match (c.tip.schedule s p.committeeSize).dutyOf p.keys.publicKey with
      | .producer => .computing
      | _ => .waiting }

def start (s : Suite) (p : Participant) (c : Chain) : Round := readTip s p c c.feed.total

def startUnlessStopped (s : Suite) (p : Participant) (c : Chain) (isStopped : Bool) : Progress :=
  if isStopped then .done .stopped else .going (start s p c)

/-- The height at which what was heard supersedes a tip, if it does.  After items were lost the
chain itself tells. -/
def supersededBy? (c : Chain) (tipHeight : UInt64) : Feed.Reception Block → Option UInt64
  | .item b => if tipHeight < b.height then some b.height else none
  | .lagged _ => if tipHeight < c.tip.height then some c.tip.height else none
  | _ => none

def superseded (r : Round) (height : UInt64) : RoundOutcome :=
  match r.phase with
  | .waiting => .observed height
  | _ => .interrupted height

def hear (c : Chain) (r : Round) : Progress :=
  match c.feed.receive r.cursor with
  | (.closed, _) => .done (.failed .feedClosed)
  | (heard, cursor) =>
    match supersededBy? c r.tip.height heard with
    | some height => .done (r.superseded height)
    | none => .going { r with cursor := cursor }

def hearUpTo (c : Chain) : (count : Nat) → Round → Progress
  | 0, r => .going r
  | count + 1, r =>
    match r.hear c with
    | .done outcome => .done outcome
    | .going r => hearUpTo c count r

def hearAll (c : Chain) (r : Round) : Progress := hearUpTo c (c.feed.total - r.cursor) r

/-- Ends the computation of the delay, which `abort` may call off. -/
def finishDelay (s : Suite) (abort : Nat → Bool) (r : Round) : Progress :=
  match r.phase with
  | .computing =>
    match Delay.compute s r.tip.difficulty r.tip.hash.bytes abort with
    | .ok proof => .going { r with phase := .pacing proof }
    | .error .interrupted => .done .stopped
    | .error cause => .done (.failed (.delay cause))
  | _ => .going r

/-- What a stop makes of a round.  A block that is on its way already is seen through. -/
def stop (r : Round) : Progress :=
  match r.phase with
  | .appending .. => .going r
  | .settling _ => .going r
  | _ => .done .stopped

/-- The block that a producer makes of its pending requests.  It is never stamped earlier than its
parent, whatever the clock shows. -/
def forgeOn (s : Suite) (now : UInt64) (p : Participant) (tip : Block) (proof : DelayProof) : Block :=
  forge s p.policy p.keys tip proof p.queue (max now tip.timestamp)

/-- The next step of a producer whose slot is over: it forges a block of the requests that are
pending now, takes the steps of appending it, and lets the requests that it records leave the queue.
They stay when the block is rejected. -/
def proceed (s : Suite) (now : UInt64) (p : Participant) (c : Chain) (r : Round) :
    Progress × Participant × Chain :=
  match r.phase with
  | .pacing proof =>
    let b := forgeOn s now p r.tip proof
    (.going { r with phase := .appending b (.reading b) }, p, c)
  | .appending b call =>
    match call.step s now c with
    | (c, .finished (.error cause)) => (.done (.rejected cause), p, c)
    | (c, .finished (.ok _)) => (.going { r with phase := .settling b }, p, c)
    | (c, call) => (.going { r with phase := .appending b call }, p, c)
  | .settling b =>
    (.done (.produced b.appended), { p with queue := p.queue.settle b.changes b.height }, c)
  | _ => (.going r, p, c)

def proceedUpTo (s : Suite) (now : UInt64) :
    (count : Nat) → Participant → Chain → Round → Progress × Participant × Chain
  | 0, p, c, r => (.going r, p, c)
  | count + 1, p, c, r =>
    match r.proceed s now p c with
    | (.done outcome, p, c) => (.done outcome, p, c)
    | (.going r, p, c) => proceedUpTo s now count p c r

/-- Ends the slot of a producer whose delay is done: forging, the three steps of appending, and the
settling of the queue. -/
def finishSlot (s : Suite) (now : UInt64) (p : Participant) (c : Chain) (r : Round) :
    Progress × Participant × Chain :=
  proceedUpTo s now 5 p c r

/-- A round with nothing from outside: a producer goes through to the end, others keep waiting. -/
def undisturbed (s : Suite) (now : UInt64) (p : Participant) (c : Chain) (r : Round) :
    Progress × Participant × Chain :=
  match r.finishDelay s fun _ => false with
  | .done outcome => (.done outcome, p, c)
  | .going r => r.finishSlot s now p c

end Round

end DelayLedger
