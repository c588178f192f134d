import DelayLedger.Membership.Change
import DelayLedger.Retarget
import DelayLedger.Text.Quoted

/-!
# Settings of a node
-/

namespace DelayLedger

inductive DifficultyMode
  | fixed
  | slotTarget
deriving DecidableEq, Repr

structure Settings where
  dataFolder : String
  keystoreFolder : String
  keyName : String
  /-- The difficulty of a fresh first block. -/
  initialDifficulty : UInt64
  difficultyMode : DifficultyMode
  slot : Duration
  committeeSize : Nat
  /-- The public key files of further members of a fresh first block's set. -/
  genesisNodes : List String
deriving DecidableEq, Repr

inductive SettingsError
  | zeroDifficulty
  | zeroSlot
  | committeeTooLarge (size : Nat)
  | badKeyName (name : String)
deriving DecidableEq, Repr

def SettingsError.message : SettingsError → String
  | .zeroDifficulty => "initial difficulty must be positive"
  | .zeroSlot => "slot duration must be positive"
  | .committeeTooLarge size => s!"committee size {size} exceeds the consensus set bound"
  | .badKeyName name => s!"key name must be a plain file stem, got {Text.quoted name}"

namespace Settings

def defaultDifficulty : UInt64 := 100000

def defaultSlotMillis : Nat := 10000

def defaultCommitteeSize : Nat := 5

def standard : Settings where
  dataFolder := "./data"
  keystoreFolder := "./keys"
  keyName := "node"
  initialDifficulty := defaultDifficulty
  difficultyMode := .fixed
  slot := .ofMillis defaultSlotMillis
  committeeSize := defaultCommitteeSize
  genesisNodes := []

/-- Whether a key name is the plain stem of a file name. -/
def isPlainStem (name : String) : Bool :=
  let cs := name.toList
  !cs.isEmpty && !cs.contains '/' && !cs.contains '\\' && cs.head? != some '.'

def check (c : Settings) : Except SettingsError Unit :=
  if c.initialDifficulty = 0 then .error .zeroDifficulty
  else if c.slot.nanoseconds = 0 then .error .zeroSlot
  else if maxNodes ≤ c.committeeSize then .error (.committeeTooLarge c.committeeSize)
  else if isPlainStem c.keyName then .ok ()
  else .error (.badKeyName c.keyName)

def policy (c : Settings) : Policy :=
  match c.difficultyMode with
  | .fixed => .fixed
  | .slotTarget => .ofSlot c.slot

end Settings

end DelayLedger
