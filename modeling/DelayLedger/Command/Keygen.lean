import DelayLedger.Command.Options
import DelayLedger.Keystore

/-!
# Making keys

The command that makes a keypair and stores it.  Keys that are there already are kept unless the
caller asks for their replacement.  The keys are read back and tried before success is reported.
-/

namespace DelayLedger.Command.Keygen

def specs : List OptionSpec :=
  [⟨"name", some 'n', true, false, fun _ => true⟩,
    ⟨"output", some 'o', true, false, fun v => !v.isEmpty⟩,
    ⟨"force", none, false, false, fun _ => true⟩]

def help : String := lines
  ["vdfchain ML-DSA-65 key generator",
    "",
    "Usage: keygen [OPTIONS]",
    "",
    "Options:",
    "  -n, --name <NAME>      Key name, used as the file stem [default: node]",
    "  -o, --output <OUTPUT>  Output directory for keys [default: ./keys]",
    "      --force            Replace an existing keystore with the same name",
    "  -h, --help             Print help",
    "  -V, --version          Print version"]

/-- What new keys sign to show that they work. -/
def selfTest : Bytes := Bytes.ofString "vdfchain keygen self-test"

def rule : String := String.ofList (List.replicate 60 '═')

def banner (name : String) : List String :=
  [rule, s!"  vdfchain ML-DSA-65 keypair: {name}", rule, ""]

def summary (folder name : String) (keys : Keypair) : List String :=
  [s!"Directory:   {folder}",
    s!"Public key:  {Keystore.publicFile name} ({keys.publicKey.length} bytes)",
    s!"Secret key:  {Keystore.secretFile name}",
    s!"Fingerprint: {Text.fingerprint keys.publicKey}",
    "Self-test:   PASSED",
    "",
    "Never commit the secret key to version control."]

def make (s : Suite) (seed : Bytes) (t : FileTree) (folder name : String) (force : Bool) :
    Report × FileTree :=
  let path := Keystore.publicPath folder name
  if t.exists? path && !force then
    (⟨2, "", s!"{path} already exists (use --force to replace)\n"⟩, t)
  else
    let opening := lines (banner name)
    let keys := s.generate seed
    match Keystore.save t folder name keys with
    | (.error e, t) => (⟨1, opening, s!"failed to write keystore: {e.message}\n"⟩, t)
    | (.ok (), t) =>
      match Keystore.load s t folder name with
      | .error e => (⟨1, opening, s!"keystore reload failed: {e.message}\n"⟩, t)
      | .ok stored =>
        if s.verifies keys.publicKey selfTest (s.sign stored.secretKey selfTest) then
          (⟨0, opening ++ lines (summary folder name keys), ""⟩, t)
        else (⟨1, opening, "signature self-test FAILED\n"⟩, t)

def folderOf (options : List (String × String)) : String := valueOr options "output" "./keys"

def nameOf (options : List (String × String)) : String := valueOr options "name" "node"

def paths (args : List String) : List String :=
  match read specs args with
  | .run options =>
    [Keystore.publicPath (folderOf options) (nameOf options),
      Keystore.secretPath (folderOf options) (nameOf options)]
  | _ => []

def run (s : Suite) (seed : Bytes) (args : List String) (t : FileTree) : Report × FileTree :=
  match read specs args with
  | .fault => (.usage, t)
  | .help => (⟨0, help, ""⟩, t)
  | .version => (⟨0, "keygen 0.4.0\n", ""⟩, t)
  | .run options =>
    make s seed t (folderOf options) (nameOf options) (options.any (·.1 == "force"))

end DelayLedger.Command.Keygen
