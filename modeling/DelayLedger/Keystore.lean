import DelayLedger.Files
import DelayLedger.Suite
import DelayLedger.Text.Hex

/-!
# The keystore

A keystore is a folder in which each key name owns two files, one for the public and one for the
secret half.  Saving makes the folder and writes the secret half first; loading reads the public
half first and checks that the halves belong together.
-/

namespace DelayLedger

inductive KeystoreError
  | key (cause : KeyError)
  | file (cause : FileError)
deriving DecidableEq, Repr

def KeystoreError.message : KeystoreError → String
  | .key cause => cause.message
  | .file cause => s!"keystore io: {cause.message}"

/-- A short description, which does not show the secret half. -/
def Keypair.text (keys : Keypair) : String :=
  s!"Keypair({Text.fingerprint keys.publicKey}, [REDACTED])"

namespace Keystore

def publicFile (name : String) : String := name ++ "_public.key"

def secretFile (name : String) : String := name ++ "_secret.key"

def publicPath (folder name : String) : String := Path.join folder (publicFile name)

def secretPath (folder name : String) : String := Path.join folder (secretFile name)

/-- Stores both halves of a keypair.  What was done before a failure stays done. -/
def save (t : FileTree) (folder name : String) (keys : Keypair) :
    Except KeystoreError Unit × FileTree :=
  match t.makeFolders folder with
  | (.error e, t) => (.error (.file e), t)
  | (.ok (), t) =>
    match t.write (secretPath folder name) keys.secretKey with
    | .error e => (.error (.file e), t)
    | .ok t =>
      match t.write (publicPath folder name) keys.publicKey with
      | .error e => (.error (.file e), t)
      | .ok t => (.ok (), t)

variable (s : Suite)

def load (t : FileTree) (folder name : String) : Except KeystoreError Keypair :=
  match t.read (publicPath folder name) with
  | .error e => .error (.file e)
  | .ok publicKey =>
    match t.read (secretPath folder name) with
    | .error e => .error (.file e)
    | .ok secretKey =>
      match s.joinKeys publicKey secretKey with
      | .error e => .error (.key e)
      | .ok keys => .ok keys

/-- The keypair stored under a name.  Unless both files are there, a new keypair is made from `seed`
and stored. -/
def loadOrGenerate (t : FileTree) (folder name : String) (seed : Bytes) :
    Except KeystoreError Keypair × FileTree :=
  if t.exists? (publicPath folder name) && t.exists? (secretPath folder name) then
    (load s t folder name, t)
  else
    let keys := s.generate seed
    match save t folder name keys with
    | (.error e, t) => (.error e, t)
    | (.ok (), t) => (.ok keys, t)

/-- The public key in a file.  Only its size is checked. -/
def loadPublic (t : FileTree) (path : String) : Except KeystoreError Bytes :=
  match t.read path with
  | .error e => .error (.file e)
  | .ok key => if key.length ≠ s.publicSize then .error (.key .invalidPublicKey) else .ok key

end Keystore

end DelayLedger
