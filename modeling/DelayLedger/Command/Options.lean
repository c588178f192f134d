/-!
# Options of a command line

A command takes options only: `--name value`, `--name=value`, `-n value`, `-nvalue`, `-n=value`, and
flags without a value, which may share one dash.  Arguments are taken from left to right, and what
comes first decides: a fault, or a call for the help or the version.
-/

namespace DelayLedger.Command

structure OptionSpec where
  long : String
  short : Option Char
  takesValue : Bool
  repeatable : Bool
  /-- Whether a text may be the option's value. -/
  accepts : String → Bool

inductive Request
  /-- The options given, with their values, in order. -/
  | run (options : List (String × String))
  | help
  | version
  | fault
deriving DecidableEq

def splitAtEquals (cs : List Char) : List Char × Option (List Char) :=
  match cs.dropWhile (· != '=') with
  | [] => (cs, none)
  | _ :: value => (cs.takeWhile (· != '='), some value)

/-- Where the reading of a command line stands: the options so far, the last one first, and the
option whose value comes next. -/
structure Reading where
  done : List (String × String)
  awaiting : Option OptionSpec

inductive Step
  | next (reading : Reading)
  | stop (request : Request)

def Reading.accept (r : Reading) (spec : OptionSpec) (value : String) : Step :=
  if !spec.repeatable && r.done.any (·.1 == spec.long) then .stop .fault
  else if spec.accepts value then .next ⟨(spec.long, value) :: r.done, none⟩
  else .stop .fault

/-- Takes in an argument that begins with two dashes, which are left out here. -/
def Reading.long (specs : List OptionSpec) (r : Reading) (arg : List Char) : Step :=
  let (name, value?) := splitAtEquals arg
  let name := String.ofList name
  if name = "help" || name = "version" then
    .stop (if value?.isSome then .fault else if name = "help" then .help else .version)
  else
    match specs.find? (·.long == name), value? with
    | none, _ => .stop .fault
    | some spec, none =>
      if spec.takesValue then .next { r with awaiting := some spec } else r.accept spec ""
    | some spec, some value =>
      if spec.takesValue then r.accept spec (String.ofList value) else .stop .fault

/-- Takes in an argument that begins with one dash, which is left out here. -/
def Reading.short (specs : List OptionSpec) (r : Reading) : List Char → Step
  | [] => .next r
  | 'h' :: _ => .stop .help
  | 'V' :: _ => .stop .version
  | c :: rest =>
    match specs.find? (·.short == some c) with
    | none => .stop .fault
    | some spec =>
      if spec.takesValue then
        match rest with
        | [] => .next { r with awaiting := some spec }
        | '=' :: value => r.accept spec (String.ofList value)
        | value => r.accept spec (String.ofList value)
      else
        match r.accept spec "" with
        | .stop request => .stop request
        | .next r => r.short specs rest

def Reading.take (specs : List OptionSpec) (r : Reading) (arg : String) : Step :=
  match r.awaiting, arg.toList with
  | some spec, ['-'] => r.accept spec arg
  | some _, '-' :: _ => .stop .fault
  | some spec, _ => r.accept spec arg
  | none, '-' :: '-' :: rest => r.long specs rest
  | none, '-' :: c :: rest => r.short specs (c :: rest)
  | none, _ => .stop .fault

def readFrom (specs : List OptionSpec) : Reading → List String → Request
  | r, [] => if r.awaiting.isSome then .fault else .run r.done.reverse
  | r, ["--"] => if r.awaiting.isSome then .fault else .run r.done.reverse
  | r, arg :: rest =>
    match r.take specs arg with
    | .stop request => request
    | .next r => readFrom specs r rest

def read (specs : List OptionSpec) (args : List String) : Request := readFrom specs ⟨[], none⟩ args

def valueOr (options : List (String × String)) (name other : String) : String :=
  (options.lookup name).getD other

/-- The number of 64 bits that a text of decimal digits stands for.  A plus sign may precede it. -/
def word? (t : String) : Option UInt64 :=
  let cs := match t.toList with
    | '+' :: rest => rest
    | cs => cs
  if cs.isEmpty || !cs.all Char.isDigit then none
  else
    let n := cs.foldl (fun n c => 10 * n + (c.toNat - 48)) 0
    if n < UInt64.size then some (UInt64.ofNat n) else none

/-- What a command leaves behind. -/
structure Report where
  exitCode : UInt32
  output : String
  errors : String
deriving DecidableEq

def Report.usage : Report := ⟨2, "", "error: invalid arguments\n\nFor more information, try '--help'.\n"⟩

def lines (ls : List String) : String := String.join (ls.map (· ++ "\n"))

end DelayLedger.Command
