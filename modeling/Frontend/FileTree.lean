import Frontend.Failure
import Frontend.Path

/-!
# File trees

A tree of files and directories with a working directory, as a value. Paths are looked up element
by element, as an operating system does: every element but the last must name a directory, and a
separator at the end asks for a directory as well.
-/

namespace Frontend

/-- A file with its content, or a directory with its entries sorted by name. -/
inductive Entry
  | file (content : Text)
  | directory (entries : List (Text × Entry))
  deriving Repr, Inhabited

namespace Entry

/-- The entry is a directory. -/
def isDirectory : Entry → Bool
  | .file _      => false
  | .directory _ => true

/-- The entries of a directory. -/
def entries : Entry → List (Text × Entry)
  | .file _       => []
  | .directory es => es

/-- An entry of a directory by its name. -/
def child? (e : Entry) (name : Text) : Option Entry := e.entries.lookup name

/-- The entry at the end of a list of names. -/
def find? : Entry → List Text → Option Entry
  | e, []            => some e
  | e, name :: names =>
    match e.child? name with
    | some c => c.find? names
    | none   => none

/-- Sorted entries with one of a name put in or replaced. -/
def insertEntry (name : Text) (e : Entry) : List (Text × Entry) → List (Text × Entry)
  | []            => [(name, e)]
  | (n, f) :: es =>
    if n = name then (name, e) :: es
    else if name < n then (name, e) :: (n, f) :: es
    else (n, f) :: insertEntry name e es

/-- The tree with an entry at the end of a list of names; directories on the way are made. -/
def put : Entry → List Text → Entry → Entry
  | _, [],            new => new
  | e, name :: names, new =>
    let child := (e.child? name).getD (.directory [])
    .directory (insertEntry name (put child names new) e.entries)

/-- The tree without the entry at the end of a list of names. -/
def remove : Entry → List Text → Entry
  | e, []            => e
  | e, [name]        =>
    match e with
    | .file content => .file content
    | .directory es => .directory (es.filter fun c => c.1 != name)
  | e, name :: names =>
    match e.child? name with
    | some c => .directory (insertEntry name (remove c names) e.entries)
    | none   => e

end Entry

/-- A tree of files as seen from a working directory. -/
structure FileTree where
  root : Entry := .directory []
  /-- The absolute, clean path of the working directory. -/
  workingDir : Text := Path.root
  deriving Repr, Inhabited

namespace FileTree

/-- The greatest number of bytes in the name of an entry. -/
def maxNameLength : Nat := 255

/-- Walks along path elements from a directory given by the names that lead to it, last first. -/
def walk (root : Entry) : List Text → List Text → Except FileError (List Text)
  | here, []      => .ok here
  | here, e :: es =>
    match root.find? here.reverse with
    | none                       => .error .notExist
    | some (.file _)             => .error .notDirectory
    | some (.directory children) =>
      if e = [] ∨ e = Path.dot then walk root here es
      else if e = Path.dotDot then walk root here.tail es
      else if maxNameLength < e.length then .error .nameTooLong
      else match children.lookup e with
        | some _ => walk root (e :: here) es
        | none   => .error .notExist

/-- The names that lead from the root to what a path names. -/
def names (t : FileTree) (path : Text) : Except FileError (List Text) :=
  if path = [] then .error .notExist
  else if path.contains 0 then .error .invalidPath
  else
    let start := if Path.isAbsolute path then [] else (Path.cleanElements t.workingDir).reverse
    match walk t.root start (Path.elements path) with
    | .ok here  => .ok here.reverse
    | .error e => .error e

/-- The entry that a path names. -/
def entry (t : FileTree) (path : Text) : Except FileError Entry :=
  match t.names path with
  | .ok ns =>
    match t.root.find? ns with
    | some e => .ok e
    | none   => .error .notExist
  | .error e => .error e

/-- Asks what a path names. -/
def stat (t : FileTree) (path : Text) : Except Failure Entry :=
  match t.entry path with
  | .ok e    => .ok e
  | .error e => .error (.file (Text.ofString "stat") path e)

/-- The content of a file. -/
def read (t : FileTree) (path : Text) : Except Failure Text :=
  match t.entry path with
  | .ok (.file content) => .ok content
  | .ok (.directory _)  => .error (.file (Text.ofString "read") path .isDirectory)
  | .error e            => .error (.file (Text.ofString "open") path e)

/-- The tree with the content of a file replaced, or with a new file. -/
def write (t : FileTree) (path content : Text) : FileTree :=
  let absolute := if Path.isAbsolute path then path else Path.join t.workingDir path
  { t with root := t.root.put (Path.cleanElements absolute) (.file content) }

/-- The tree with a directory made. -/
def makeDirectory (t : FileTree) (path : Text) : FileTree :=
  let absolute := if Path.isAbsolute path then path else Path.join t.workingDir path
  let ns := Path.cleanElements absolute
  match t.root.find? ns with
  | some _ => t
  | none   => { t with root := t.root.put ns (.directory []) }

/-- The tree without a file or directory. -/
def remove (t : FileTree) (path : Text) : FileTree :=
  match t.names path with
  | .ok ns   => { t with root := t.root.remove ns }
  | .error _ => t

end FileTree

end Frontend
