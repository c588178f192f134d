import DelayLedger.Command.Options
import DelayLedger.Keystore
import DelayLedger.Round
import DelayLedger.Settings
import DelayLedger.Store

/-!
# Starting a node

The command that starts a node: it checks the settings, loads or makes the node's keys, opens the
store, and restores the chain from it or starts a new one.
-/

namespace DelayLedger.Command.Node

def isWord (v : String) : Bool := (word? v).isSome

def specs : List OptionSpec :=
  [⟨"data-dir", some 'd', true, false, fun v => !v.isEmpty⟩,
    ⟨"keystore", some 'k', true, false, fun v => !v.isEmpty⟩,
    ⟨"key-name", some 'n', true, false, fun _ => true⟩,
    ⟨"difficulty", none, true, false, isWord⟩,
    ⟨"difficulty-mode", none, true, false, fun v => v == "fixed" || v == "slot-target"⟩,
    ⟨"slot-ms", none, true, false, isWord⟩,
    ⟨"committee-size", none, true, false, isWord⟩,
    ⟨"genesis-node", none, true, true, fun v => !v.isEmpty⟩]

def help : String := lines
  ["Proof-of-delay chain node",
    "",
    "Usage: vdfchain [OPTIONS]",
    "",
    "Options:",
    "  -d, --data-dir <DATA_DIR>                Data directory [default: ./data]",
    "  -k, --keystore <KEYSTORE>                Keystore directory [default: ./keys]",
    "  -n, --key-name <KEY_NAME>                Key name inside the keystore [default: node]",
    "      --difficulty <DIFFICULTY>            VDF difficulty written into a fresh genesis [default: 100000]",
    "      --difficulty-mode <DIFFICULTY_MODE>  Difficulty policy [default: fixed] [possible values: fixed, slot-target]",
    "      --slot-ms <SLOT_MS>                  Slot duration in milliseconds [default: 10000]",
    "      --committee-size <COMMITTEE_SIZE>    Committee members behind the producer [default: 5]",
    "      --genesis-node <GENESIS_NODES>       Public key file of a node to seed into a fresh genesis (repeatable)",
    "  -h, --help                               Print help",
    "  -V, --version                            Print version"]

def settingsOf (options : List (String × String)) : Settings :=
  let base := Settings.standard
  let word (name : String) (other : UInt64) : UInt64 :=
    ((options.lookup name).bind word?).getD other
  { dataFolder := valueOr options "data-dir" base.dataFolder
    keystoreFolder := valueOr options "keystore" base.keystoreFolder
    keyName := valueOr options "key-name" base.keyName
    initialDifficulty := word "difficulty" base.initialDifficulty
    difficultyMode :=
      if options.lookup "difficulty-mode" = some "slot-target" then .slotTarget else .fixed
    slot := .ofMillis (word "slot-ms" (UInt64.ofNat Settings.defaultSlotMillis)).toNat
    committeeSize := (word "committee-size" (UInt64.ofNat base.committeeSize)).toNat
    genesisNodes := (options.filter (·.1 == "genesis-node")).map (·.2) }

inductive StartError
  | settings (cause : SettingsError)
  | keystore (cause : KeystoreError)
  | storeFolder (cause : FileError)
  | store (cause : StoreError)
  | chain (cause : ChainError)

def StartError.message : StartError → String
  | settings cause => cause.message
  | keystore cause => cause.message
  | storeFolder cause => s!"sled error: IO error: {cause.message}"
  | store cause => cause.message
  | chain cause => cause.message

structure Started where
  participant : Participant
  chain : Chain
  store : Store

def storeFolder (c : Settings) : String := Path.join c.dataFolder "heap"

def loadNodes (s : Suite) (t : FileTree) : List String → Except KeystoreError (List Bytes)
  | [] => .ok []
  | path :: r =>
    match Keystore.loadPublic s t path with
    | .error e => .error e
    | .ok key =>
      match loadNodes s t r with
      | .error e => .error e
      | .ok keys => .ok (key :: keys)

/-- The chain to go on with and the store that holds it: the stored one, or a new one whose first
block is stored at once. -/
def openChain (s : Suite) (now : UInt64) (c : Settings) (t : FileTree) (keys : Keypair)
    (store : Store) : Except StartError (Chain × Store) :=
  if store.isEmpty then
    match loadNodes s t c.genesisNodes with
    | .error e => .error (.keystore e)
    | .ok nodes =>
      let first := genesis s keys nodes c.initialDifficulty now
      match store.put first with
      | .error e => .error (.store e)
      | .ok store =>
        match Chain.new s c.policy first with
        | .error e => .error (.chain e)
        | .ok chain => .ok (chain, store)
  else
    match store.load with
    | .error e => .error (.store e)
    | .ok blocks =>
      match Chain.restore s c.policy now blocks with
      | .error e => .error (.chain e)
      | .ok chain => .ok (chain, store)

/-- Starts a node.  `store` is what the data folder holds. -/
def start (s : Suite) (seed : Bytes) (now : UInt64) (c : Settings) (store : Store) (t : FileTree) :
    Except StartError Started × FileTree :=
  match c.check with
  | .error e => (.error (.settings e), t)
  | .ok () =>
    match Keystore.loadOrGenerate s t c.keystoreFolder c.keyName seed with
    | (.error e, t) => (.error (.keystore e), t)
    | (.ok keys, t) =>
      match t.makeFolders (storeFolder c) with
      | (.error e, t) => (.error (.storeFolder e), t)
      | (.ok (), t) =>
        match openChain s now c t keys store with
        | .error e => (.error e, t)
        | .ok (chain, store) =>
          (.ok ⟨⟨keys, c.policy, c.slot, c.committeeSize, []⟩, chain, store⟩, t)

/-- The settings that a command line asks for, if it asks for a start. -/
def settings? (args : List String) : Option Settings :=
  match read specs args with
  | .run options => some (settingsOf options)
  | _ => none

def paths (c : Settings) : List String :=
  storeFolder c :: Keystore.publicPath c.keystoreFolder c.keyName ::
    Keystore.secretPath c.keystoreFolder c.keyName :: c.genesisNodes

/-- What a command line leads to: a report, or a node at work. -/
inductive Outcome
  | report (r : Report)
  | started (node : Started)

def run (s : Suite) (seed : Bytes) (now : UInt64) (args : List String) (store : Store)
    (t : FileTree) : Outcome × FileTree :=
  match read specs args with
  | .fault => (.report .usage, t)
  | .help => (.report ⟨0, help, ""⟩, t)
  | .version => (.report ⟨0, "vdfchain 0.4.0\n", ""⟩, t)
  | .run options =>
    match start s seed now (settingsOf options) store t with
    | (.error e, t) => (.report ⟨1, "", s!"fatal: {e.message}\n"⟩, t)
    | (.ok node, t) => (.started node, t)

end DelayLedger.Command.Node
