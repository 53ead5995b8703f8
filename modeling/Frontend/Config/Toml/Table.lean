import Frontend.Config.Toml.Document

/-!
# TOML tables

What the statements of a document define together. A table comes into being by its own header, by
being named on the way to another one, by a key with dots, or by a value between braces. One that
was only named on the way is implied: the next definition under its name is taken for the missing
one, whatever it is, and after that there must be no other.

A key that has been given an array is different: everything else that is defined there takes the
place of what was there. What counts is the key and not the table that it was used in, so this
reaches from one element of an array of tables to the next.
-/

namespace Frontend.Toml

/-- What stands under a name. -/
inductive Item
  | value (value : Value)
  | table (entries : List (Text × Item))
  /-- An array of tables that was built by headers or from values between braces; the last one is
  open. -/
  | tables (done : List (List (Text × Item))) (last : List (Text × Item))
  deriving Repr, Inhabited

/-- The names in a table with what stands under them, in the order of their definition. -/
abbrev Entries := List (Text × Item)

/-- Entries with the item under a name replaced, or put at the end. -/
def setItem (name : Text) (item : Item) : Entries → Entries
  | []           => [(name, item)]
  | (n, i) :: es => if n = name then (n, item) :: es else (n, i) :: setItem name item es

/-- Applies a change to the table at the end of a path. All tables on the way must be there. -/
def change (f : Entries → Option Entries) : Key → Entries → Option Entries
  | [],           es => f es
  | name :: path, es =>
    match es.lookup name with
    | some (.table inner)      =>
      (change f path inner).map fun inner => setItem name (.table inner) es
    | some (.tables done last) =>
      (change f path last).map fun last => setItem name (.tables done last) es
    | some (.value _)          => none
    | none                     => none

/-- The table at the end of a path. -/
def entriesAt? : Key → Entries → Option Entries
  | [],           es => some es
  | name :: path, es =>
    match es.lookup name with
    | some (.table inner)   => entriesAt? path inner
    | some (.tables _ last) => entriesAt? path last
    | some (.value _)       => none
    | none                  => none

/-- Makes the tables on a path that are missing. The keys of those are returned too, each behind
the names of the tables before it. -/
def complete (before : Key) : Key → Entries → Option (Entries × List Key)
  | [],           es => some (es, [])
  | name :: path, es =>
    let here := before ++ [name]
    match es.lookup name with
    | none                     =>
      (complete here path []).map fun (inner, made) =>
        (setItem name (.table inner) es, here :: made)
    | some (.table inner)      =>
      (complete here path inner).map fun (inner, made) => (setItem name (.table inner) es, made)
    | some (.tables done last) =>
      (complete here path last).map fun (last, made) =>
        (setItem name (.tables done last) es, made)
    | some (.value _)          => none

/-- Puts an item under a key with dots, in place of what is there. Tables that are missing on the
way come into being. -/
def put (item : Item) : Key → Entries → Option Entries
  | [],                   es => some es
  | [name],               es => some (setItem name item es)
  | name :: next :: path, es =>
    match es.lookup name with
    | none                => (put item (next :: path) []).map fun inner =>
      setItem name (.table inner) es
    | some (.table inner) => (put item (next :: path) inner).map fun inner =>
      setItem name (.table inner) es
    | some _              => none

/-! ### Definitions -/

/-- What a document has defined so far. -/
structure Defined where
  entries : Entries := []
  /-- The table that keys go into. -/
  context : Key := []
  /-- All keys, the latest first. -/
  keys : List Key := []
  /-- The keys that were last given an array. -/
  arrays : List Key := []
  /-- The keys of the tables that are implied. -/
  implied : List Key := []

namespace Defined

/-- A table is implied from now on. -/
def imply (d : Defined) (key : Key) : Defined := { d with implied := key :: d.implied }

/-- A table is not implied any more. -/
def settle (d : Defined) (key : Key) : Defined :=
  { d with implied := d.implied.filter (· != key) }

/-- The key under which it is remembered whether a name in a table was given an array. The empty
name stands for the table itself, except at the top. -/
def arrayKey (context : Key) (name : Text) : Key :=
  if name ≠ [] ∨ context = [] then context ++ [name] else context

/-- Remembers whether a key was given an array. -/
def markArray (d : Defined) (key : Key) (isArray : Bool) : Defined :=
  let others := d.arrays.filter (· != key)
  { d with arrays := if isArray then key :: others else others }

/-- Puts an item under a name in a table. It takes the place of an array; where there is an implied
table, that one stays and is settled; and elsewhere there must not be anything. -/
def define (d : Defined) (context : Key) (name : Text) (item : Item) : Option Defined :=
  let key := context ++ [name]
  let set := (change (fun es => some (setItem name item es)) context d.entries).map fun es =>
    { d with entries := es }
  match entriesAt? context d.entries with
  | none    => none
  | some es =>
    match es.lookup name with
    | none   => set
    | some _ =>
      if d.arrays.contains key then set.map (settle · key)
      else if d.implied.contains key then some (d.settle key)
      else none

/-- Opens another element of an array of tables. -/
def openElement (name : Text) (es : Entries) : Option Entries :=
  match es.lookup name with
  | none                     => some (setItem name (.tables [] []) es)
  | some (.tables done last) => some (setItem name (.tables (done ++ [last]) []) es)
  | some _                   => none

/-- Opens a table, or another element of an array of tables. -/
def openTable (d : Defined) (key : Key) (element : Bool) : Option Defined :=
  match complete [] key.dropLast d.entries with
  | none            => none
  | some (es, made) =>
    let d := { d with entries := es, implied := made ++ d.implied }
    let name := key.getLastD []
    if element then
      (change (openElement name) key.dropLast d.entries).map fun es => { d with entries := es }
    else d.define key.dropLast name (.table [])

/-- Opens the tables on the way to a key with dots, one after the other. The result comes with the
table that the last name of the key belongs to. -/
def openPath (d : Defined) (context : Key) : Key → Option (Defined × Key)
  | []              => some (d, context)
  | [_]             => some (d, context)
  | name :: n :: ns =>
    let key := context ++ [name]
    match (d.imply key).openTable key false with
    | none   => none
    | some d => d.openPath key (n :: ns)

/-- Notes that a key was written. -/
def note (d : Defined) (key : Key) : Defined := { d with keys := key :: d.keys }

/-- The value is an array. -/
def isArray : Value → Bool
  | .array _ => true
  | _        => false

mutual

/-- What a value under a name in a table defines, and the item that it stands for. An array marks
its key before its values are looked at, and a table between braces is opened as if it had a
header. -/
def value (d : Defined) (context : Key) (name : Text) (inArray : Bool) :
    Value → Option (Defined × Item)
  | .array vs          =>
    ((d.markArray (arrayKey context name) true).values context name vs).map fun d =>
      (d, .value (.array vs))
  | .inlineTable pairs =>
    match (d.imply (context ++ [name])).openTable (context ++ [name]) inArray with
    | none   => none
    | some d => (d.pairs (context ++ [name]) [] pairs).map fun (d, es) => (d, .table es)
  | v                  => some (d, .value v)

/-- What the values of an array under a name define. -/
def values (d : Defined) (context : Key) (name : Text) : List Value → Option Defined
  | []      => some d
  | v :: vs =>
    match d.value context name true v with
    | none        => none
    | some (d, _) => d.values context name vs

/-- What the pairs of a table between braces define, and its entries behind those that are known.
The entries differ from what is defined where an implied table is settled. -/
def pairs (d : Defined) (context : Key) (es : Entries) :
    List (Key × Value) → Option (Defined × Entries)
  | []           => some (d, es)
  | (k, v) :: ps =>
    match d.openPath context k with
    | none            => none
    | some (d, inner) =>
      let name := k.getLastD []
      match (d.note (inner ++ [name])).value inner name false v with
      | none           => none
      | some (d, item) =>
        match d.define inner name item, put item k es with
        | some d, some es => (d.markArray (arrayKey inner name) (isArray v)).pairs context es ps
        | _,      _       => none

end

/-- Adds what a statement defines. -/
def add (d : Defined) : Statement → Option Defined
  | .table key      =>
    (d.openTable key false).map fun d => ({ d with context := key }.markArray key false).note key
  | .element key    =>
    (d.openTable key true).map fun d => ({ d with context := key }.markArray key false).note key
  | .assign key v =>
    (d.pairs d.context [] [(key, v)]).map (·.1)

end Defined

/-- What a text defines: its entries, and its keys in the order in which they are written. -/
def read (text : Text) : Option (Entries × List Key) :=
  match document text with
  | some statements =>
    (statements.foldlM Defined.add {}).map fun d => (d.entries, d.keys.reverse)
  | none            => none

/-! ### Showing keys -/

/-- The form of a character inside a quoted name. -/
def escapeChar (c : Char) : List Char :=
  match c with
  | '"'    => ['\\', '"']
  | '\\'   => ['\\', '\\']
  | '\x08' => ['\\', 'b']
  | '\t'   => ['\\', 't']
  | '\n'   => ['\\', 'n']
  | '\x0c' => ['\\', 'f']
  | '\r'   => ['\\', 'r']
  | _      =>
    if c.toNat < 0x20 ∨ c.toNat = 0x7F then
      '\\' :: 'u' :: '0' :: '0' :: [Nat.digitChar (c.toNat / 16), Nat.digitChar (c.toNat % 16)]
    else [c]

/-- A name as written in a key, in quotes if it needs them. -/
def showName (name : Text) : Text :=
  match Text.chars? name with
  | some cs =>
    if cs != [] && cs.all isBare then name
    else 0x22 :: Text.ofChars (cs.flatMap escapeChar) ++ [0x22]
  | none => name

/-- A key with dots between its names. -/
def showKey (key : Key) : Text := Text.join [0x2E] (key.map showName)

end Frontend.Toml
