import Frontend.Tree.Printer

/-!
# Finding definitions by name

An index lists what belongs to the definitions of a module under their names, and for those of a
class also under `Class#name`. What is listed is up to the user of the index: the definitions
themselves, or labels for them.
-/

namespace Frontend

/-- What belongs to each name, in the order in which the names first occur. -/
structure Index (α : Type) where
  entries : List (Text × List α) := []

namespace Index

variable {α : Type}

/-- The name of a method together with its class. -/
def qualifiedName (className name : Text) : Text := className ++ 0x23 :: name

/-- What is listed under a key. -/
def get (ix : Index α) (key : Text) : List α := (ix.entries.lookup key).getD []

/-- Entries with one more value behind those of a key. -/
def pushEntry (key : Text) (a : α) : List (Text × List α) → List (Text × List α)
  | []           => [(key, [a])]
  | (k, as) :: es => if k = key then (k, as ++ [a]) :: es else (k, as) :: pushEntry key a es

/-- Puts a value behind those under a key. -/
def push (ix : Index α) (key : Text) (a : α) : Index α := ⟨pushEntry key a ix.entries⟩

/-- Puts a value under the names of a definition. -/
def insert (ix : Index α) (d : Definition) (a : α) : Index α :=
  let named := ix.push d.proto.name a
  if d.className = [] then named
  else named.push (qualifiedName d.className d.proto.name) a

/-- The index of definitions in source order, each with a label. -/
def ofLabelled (ds : List (Definition × α)) : Index α := ds.foldl (fun ix d => ix.insert d.1 d.2) {}

/-- The index of definitions in source order. -/
def ofDefinitions (ds : List Definition) : Index Definition :=
  ofLabelled (ds.map fun d => (d, d))

/-- What is listed under a name in a class, or anywhere if the class is empty. -/
def lookup (ix : Index α) (className name : Text) : List α :=
  if className = [] then ix.get name else ix.get (qualifiedName className name)

end Index

/-- A definition on one line: its signature with its class, and the trait it implements. -/
def Definition.describe (d : Definition) : Text :=
  Text.ofString "def " ++
    (if d.className = [] then [] else Index.qualifiedName d.className []) ++
    d.proto.render ++
    (if d.implName = [] then [] else Text.ofString " in impl " ++ d.implName)

end Frontend
