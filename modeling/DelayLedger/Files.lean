import DelayLedger.Bytes
import DelayLedger.Table

/-!
# Named files in folders

A `FileTree` holds folders and files by their place, the list of names that leads to them from the
top.  Programs name places by paths, which start at the top if they begin with a slash and at the
tree's `home` otherwise.  `resolve` follows a path; the operations fail with the cause that stops
them and then leave the tree as it is.
-/

namespace DelayLedger

inductive FileError
  | notFound
  | alreadyExists
  | notAFolder
  | isAFolder
  | nameTooLong
  | zeroByteInName
deriving DecidableEq, Repr

def FileError.message : FileError → String
  | .notFound => "No such file or directory (os error 2)"
  | .alreadyExists => "File exists (os error 17)"
  | .notAFolder => "Not a directory (os error 20)"
  | .isAFolder => "Is a directory (os error 21)"
  | .nameTooLong => "File name too long (os error 36)"
  | .zeroByteInName => "file name contained an unexpected NUL byte"

namespace Path

def split : List Char → List (List Char)
  | [] => [[]]
  | c :: r =>
    if c = '/' then [] :: split r
    else
      match split r with
      | [] => [[c]]
      | part :: parts => (c :: part) :: parts

def names (path : String) : List String :=
  ((split path.toList).filter (· ≠ [])).map String.ofList

def isAbsolute (path : String) : Bool := path.toList.head? == some '/'

/-- The path of a file in a folder.  A path from the top stands for itself. -/
def join (folder file : String) : String :=
  if isAbsolute file || folder.isEmpty then file
  else if folder.toList.getLast? == some '/' then folder ++ file
  else folder ++ "/" ++ file

/-- The most bytes in a name, and in a path with its end mark. -/
def maxName : Nat := 255

def maxPath : Nat := 4096

def check (path : String) : Except FileError Unit :=
  if path.toList.contains '\x00' then .error .zeroByteInName
  else if maxPath ≤ path.utf8ByteSize then .error .nameTooLong
  else .ok ()

end Path

inductive Entry
  | folder
  | file (content : Bytes)
deriving DecidableEq

structure FileTree where
  entries : Table (List String) Entry
  /-- Where paths start that do not begin with a slash. -/
  home : List String
deriving DecidableEq

namespace FileTree

/-- The tree of nothing but the folders that lead to `home`. -/
def ofHome (home : List String) : FileTree :=
  ⟨(List.range home.length).map fun n => (home.take (n + 1), .folder), home⟩

/-- What stands at a place.  The top is a folder. -/
def find? (t : FileTree) (place : List String) : Option Entry :=
  if place = [] then some .folder else t.entries.get? place

def put (t : FileTree) (place : List String) (e : Entry) : FileTree :=
  { t with entries := t.entries.put place e }

def erase (t : FileTree) (place : List String) : FileTree :=
  { t with entries := t.entries.erase place }

theorem find?_put {t : FileTree} {place other : List String} {e : Entry} (h : place ≠ []) :
    (t.put place e).find? other = if other = place then some e else t.find? other := by
  rw [find?, find?, put, Table.get?_put]
  by_cases hother : other = place
  · rw [if_pos hother, if_pos hother, if_neg (hother ▸ h)]
  · rw [if_neg hother, if_neg hother]

/-- Goes from a place by one name.  Only a folder can be left by name. -/
def enter (t : FileTree) (place : List String) (name : String) : Except FileError (List String) :=
  match t.find? place with
  | none => .error .notFound
  | some (.file _) => .error .notAFolder
  | some .folder =>
    if name = "." then .ok place
    else if name = ".." then .ok place.dropLast
    else if Path.maxName < name.utf8ByteSize then .error .nameTooLong
    else .ok (place ++ [name])

def follow (t : FileTree) : (place names : List String) → Except FileError (List String)
  | place, [] => .ok place
  | place, name :: r =>
    match t.enter place name with
    | .error e => .error e
    | .ok next => t.follow next r

def start (t : FileTree) (path : String) : List String :=
  if Path.isAbsolute path then [] else t.home

/-- The place that a path leads to.  A path that ends with a slash leads into a folder. -/
def resolve (t : FileTree) (path : String) : Except FileError (List String) :=
  match Path.check path with
  | .error e => .error e
  | .ok () =>
    if path.isEmpty then .error .notFound
    else
      let names := Path.names path
      t.follow (t.start path)
        (if path.toList.getLast? == some '/' then names ++ ["."] else names)

def exists? (t : FileTree) (path : String) : Bool :=
  match t.resolve path with
  | .ok place => (t.find? place).isSome
  | .error _ => false

def read (t : FileTree) (path : String) : Except FileError Bytes :=
  match t.resolve path with
  | .error e => .error e
  | .ok place =>
    match t.find? place with
    | none => .error .notFound
    | some .folder => .error .isAFolder
    | some (.file content) => .ok content

def write (t : FileTree) (path : String) (content : Bytes) : Except FileError FileTree :=
  match t.resolve path with
  | .error e => .error e
  | .ok place =>
    match t.find? place with
    | some .folder => .error .isAFolder
    | _ => .ok (t.put place (.file content))

def remove (t : FileTree) (path : String) : Except FileError FileTree :=
  match t.resolve path with
  | .error e => .error e
  | .ok place =>
    match t.find? place with
    | none => .error .notFound
    | some .folder => .error .isAFolder
    | some (.file _) => .ok (t.erase place)

/-- Makes the folders that the names lead through, as far as they are missing. -/
def makeFoldersFrom (t : FileTree) :
    (place names : List String) → Except FileError Unit × FileTree
  | _, [] => (.ok (), t)
  | place, name :: r =>
    match t.enter place name with
    | .error e => (.error e, t)
    | .ok next =>
      match t.find? next with
      | none => makeFoldersFrom (t.put next .folder) next r
      | some .folder => makeFoldersFrom t next r
      | some (.file _) => (.error (if r = [] then .alreadyExists else .notAFolder), t)

/-- Makes a folder and those above it, as far as they are missing.  Folders made before a failure
stay. -/
def makeFolders (t : FileTree) (path : String) : Except FileError Unit × FileTree :=
  match Path.check path with
  | .error e => (.error e, t)
  | .ok () => t.makeFoldersFrom (t.start path) (Path.names path)

def list (t : FileTree) (place : List String) : List String :=
  (t.entries.filterMap fun e =>
    if e.1.dropLast = place then e.1.getLast? else none).mergeSort fun a b => !(b < a)

/-- The files below the home, by path and content, in the order of their paths. -/
def files (t : FileTree) : List (String × Bytes) :=
  (t.entries.filterMap fun e =>
    match e.2 with
    | .folder => none
    | .file content =>
      if t.home.isPrefixOf e.1 then
        some ("/".intercalate (e.1.drop t.home.length), content)
      else none).mergeSort fun a b => !(b.1 < a.1)

end FileTree

end DelayLedger
