import DelayLedger.Command.Keygen
import DelayLedger.Command.Node
import DelayLedger.Suite.Standard
import Std.Time.DateTime.Timestamp

/-!
# The program

`keygen` as the first argument makes keys; all else starts a node, which then runs its rounds.  The
commands work on a `FileTree`.  This module reads the places that the arguments name into such a tree
and carries out on disk what the command changed.
-/

namespace DelayLedger.Program

def bytesOf (b : ByteArray) : Bytes := b.data.toList

def packed (b : Bytes) : ByteArray := ⟨b.toArray⟩

def onDisk (place : List String) : String := "/" ++ "/".intercalate place

def look (place : List String) : IO (Option Entry) := do
  match ← (IO.FS.readBinFile (onDisk place)).toBaseIO with
  | .ok content => pure (some (.file (bytesOf content)))
  | .error _ =>
    match ← (IO.FS.realPath (onDisk place)).toBaseIO with
    | .ok _ => pure (some .folder)
    | .error _ => pure none

def survey (t : FileTree) (place : List String) : List String → IO FileTree
  | [] => pure t
  | "." :: r => survey t place r
  | ".." :: r => survey t place.dropLast r
  | name :: r => do
    let place := place ++ [name]
    match ← look place with
    | some e => survey (t.put place e) place r
    | none => survey t place r

def treeOf (paths : List String) : IO FileTree := do
  let home := Path.names (← IO.currentDir).toString
  paths.foldlM (fun t path => survey t (t.start path) (Path.names path)) (FileTree.ofHome home)

/-- Carries out on disk what changed from one tree to another. -/
def carryOut (old new : FileTree) : IO Unit := do
  for (place, e) in new.entries.reverse do
    if old.find? place ≠ some e then
      match e with
      | .folder => IO.FS.createDirAll (onDisk place)
      | .file content => IO.FS.writeBinFile (onDisk place) (packed content)

def seconds : IO UInt64 := do
  return UInt64.ofNat (← Std.Time.Timestamp.now).toSecondsSinceUnixEpoch.val.toNat

def keygen (args : List String) : IO UInt32 := do
  let tree ← treeOf (Command.Keygen.paths args)
  let (report, after) := Command.Keygen.run .standard (bytesOf (← IO.getRandomBytes 32)) args tree
  carryOut tree after
  IO.print report.output
  IO.eprint report.errors
  return report.exitCode

def storeFile (folder : String) (key : Bytes) : String := Path.join folder (Text.hex key)

def storeBlock (folder : String) (b : Block) : IO Unit :=
  (Store.writesOf b).forM fun
    | .record key value => IO.FS.writeBinFile (storeFile folder key) (packed value)
    | .head value => IO.FS.writeBinFile (storeFile folder Store.headKey) (packed value)

/-- The store of a folder.  A folder without a head holds an empty one. -/
def readStore (folder : String) : IO Store := do
  match ← (IO.FS.readBinFile (storeFile folder Store.headKey)).toBaseIO with
  | .error _ => pure .empty
  | .ok value =>
    let store := Store.empty.apply (.head (bytesOf value))
    match store.head with
    | .error _ => pure store
    | .ok head =>
      (List.range (head.toNat + 1)).foldlM (fun store height => do
        let key := Store.heightKey (UInt64.ofNat height)
        match ← (IO.FS.readBinFile (storeFile folder key)).toBaseIO with
        | .ok value => pure (store.apply (.record key (bytesOf value)))
        | .error _ => pure store) store

/-- Runs rounds without end and stores every block that they append. -/
partial def live (folder : String) (p : Participant) (c : Chain) : IO Unit := do
  let began ← IO.monoMsNow
  match (Round.start .standard p c).finishDelay .standard fun _ => false with
  | .done _ => pure ()
  | .going round =>
    let spent := (← IO.monoMsNow) - began
    IO.sleep (UInt32.ofNat (p.slot.millis - spent))
    let (_, p, next) := round.finishSlot .standard (← seconds) p c
    (next.blocksFrom (c.tip.height + 1)).forM (storeBlock folder)
    live folder p next

def node (args : List String) : IO UInt32 := do
  let settings := (Command.Node.settings? args).getD .standard
  let folder := Command.Node.storeFolder settings
  let tree ← treeOf (Command.Node.paths settings)
  let store ← readStore folder
  let (outcome, after) := Command.Node.run .standard (bytesOf (← IO.getRandomBytes 32)) (← seconds)
    args store tree
  carryOut tree after
  match outcome with
  | .report report =>
    IO.print report.output
    IO.eprint report.errors
    return report.exitCode
  | .started started =>
    if store.isEmpty then started.chain.blocks.forM (storeBlock folder)
    live folder started.participant started.chain
    return 0

end DelayLedger.Program

def main (args : List String) : IO UInt32 :=
  match args with
  | "keygen" :: args => DelayLedger.Program.keygen args
  | args => DelayLedger.Program.node args
