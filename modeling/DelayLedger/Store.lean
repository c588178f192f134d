import DelayLedger.Block.Record
import DelayLedger.Chain
import DelayLedger.Table

/-!
# The block store

A store has two maps from byte strings to byte strings: `records` holds the blocks by height, and
`root` holds the height of the last one under `headKey`.  Putting a block is two writes, first its
record and then the head, so that an interruption between them leaves the blocks up to the old head
intact.  `Store.sync` stores what a chain has above the head, and a `Mirror` does so whenever it hears of
the chain, and once more in the end.
-/

namespace DelayLedger

structure Store where
  root : Table Bytes Bytes
  records : Table Bytes Bytes
deriving DecidableEq

inductive StoreError
  | notFound
  | badHead
  | badRecord (cause : ReadError)
  | outOfOrder (head height : UInt64)
deriving DecidableEq, Repr

def StoreError.message : StoreError → String
  | .notFound => "not found"
  | .badHead => "corrupt record: head is not a u64"
  | .badRecord cause => s!"serialization error: {Record.readErrorText cause}"
  | .outOfOrder head height => s!"out of order write: head is {head}, got height {height}"

inductive StoreWrite
  | record (key value : Bytes)
  | head (value : Bytes)
deriving DecidableEq

namespace Store

def empty : Store := ⟨[], []⟩

def headKey : Bytes := Bytes.ofString "head"

/-- The key of the record at a height: eight bytes, the most significant first. -/
def heightKey (height : UInt64) : Bytes := (Bytes.ofWord height).reverse

def isEmpty (x : Store) : Bool := (x.root.get? headKey).isNone

def head (x : Store) : Except StoreError UInt64 :=
  match x.root.get? headKey with
  | none => .error .notFound
  | some value =>
    if value.length = 8 then .ok (UInt64.ofNat (Bytes.ofBigEndian value)) else .error .badHead

def nextHeight (x : Store) : Except StoreError UInt64 :=
  match x.head with
  | .ok head => .ok (head + 1)
  | .error .notFound => .ok 0
  | .error e => .error e

def apply (x : Store) : StoreWrite → Store
  | .record key value => { x with records := x.records.put key value }
  | .head value => { x with root := x.root.put headKey value }

/-- The writes that put a block, in order. -/
def writesOf (b : Block) : List StoreWrite :=
  [.record (heightKey b.height) (Record.encode b), .head (heightKey b.height)]

def put (x : Store) (b : Block) : Except StoreError Store :=
  match x.nextHeight with
  | .error e => .error e
  | .ok expected =>
    if b.height = expected then .ok ((writesOf b).foldl apply x)
    else .error (.outOfOrder (expected - 1) b.height)

def get (x : Store) (height : UInt64) : Except StoreError Block :=
  match x.records.get? (heightKey height) with
  | none => .error .notFound
  | some record =>
    match Record.decode record with
    | .error cause => .error (.badRecord cause)
    | .ok b => .ok b

/-- The next `count` blocks from a height on, behind those in `done`, which holds the last one
first. -/
def loadFrom (x : Store) : (count height : Nat) → List Block → Except StoreError (List Block)
  | 0, _, done => .ok done.reverse
  | count + 1, height, done =>
    match x.get (UInt64.ofNat height) with
    | .error e => .error e
    | .ok b => loadFrom x count (height + 1) (b :: done)

def load (x : Store) : Except StoreError (List Block) :=
  match x.head with
  | .error .notFound => .ok []
  | .error e => .error e
  | .ok head => x.loadFrom (head.toNat + 1) 0 []

/-- Stores blocks in order, up to the first that is refused.  What was stored before stays. -/
def putAll (x : Store) : List Block → Except StoreError Unit × Store
  | [] => (.ok (), x)
  | b :: r =>
    match x.put b with
    | .error e => (.error e, x)
    | .ok x => putAll x r

/-- Stores the blocks of a chain above the head, and says how many there were. -/
def sync (x : Store) (c : Chain) : Except StoreError Nat × Store :=
  match x.nextHeight with
  | .error e => (.error e, x)
  | .ok next =>
    let missing := c.blocksFrom next
    match x.putAll missing with
    | (.error e, x) => (.error e, x)
    | (.ok (), x) => (.ok missing.length, x)

end Store

/-- A store that mirrors a chain while it grows, and how much of the chain's feed it has passed. -/
structure Mirror where
  store : Store
  cursor : Nat

namespace Mirror

def start (x : Store) (c : Chain) : Mirror := ⟨x, c.feed.total⟩

/-- Takes the next item of the feed, if there is one, and stores what the chain has above the head, so
that items that were lost are made up for.  What could not be stored is left to the next call. -/
def hear (c : Chain) (m : Mirror) : Mirror :=
  match c.feed.receive m.cursor with
  | (.item _, cursor) => ⟨(m.store.sync c).2, cursor⟩
  | (.lagged _, cursor) => ⟨(m.store.sync c).2, cursor⟩
  | (_, cursor) => ⟨m.store, cursor⟩

def hearUpTo (c : Chain) : (count : Nat) → Mirror → Mirror
  | 0, m => m
  | count + 1, m => hearUpTo c count (m.hear c)

def hearAll (c : Chain) (m : Mirror) : Mirror := hearUpTo c (c.feed.total - m.cursor) m

/-- Stores what is left when the node shuts down or the feed is closed. -/
def finish (c : Chain) (m : Mirror) : Store := (m.store.sync c).2

end Mirror

end DelayLedger
