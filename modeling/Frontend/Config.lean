import Frontend.Config.Settings
import Frontend.FileTree
import Frontend.Precedence

/-!
# Project configuration

A project is configured by a file in its source directory. The settings of the file are taken
over the built-in ones and then checked: the ending of source files must be a dot and more, every
operator must be one that the lexer knows, and its precedence must not be negative.
-/

namespace Frontend

/-- The configuration of a project. -/
structure Config where
  /-- The ending of source files, with its dot. -/
  ext : Text
  /-- The precedences of operators, sorted by operator. -/
  precedence : List (Text × Int64)
  /-- The file that the configuration comes from, empty for the built-in one. -/
  path : Text := []
  deriving DecidableEq, Repr

namespace Config

/-- Entries sorted by operator with one put in or replaced. -/
def setEntry (op : Text) (level : Int64) : List (Text × Int64) → List (Text × Int64)
  | []           => [(op, level)]
  | (o, l) :: es =>
    if o = op then (op, level) :: es
    else if op < o then (op, level) :: (o, l) :: es
    else (o, l) :: setEntry op level es

/-- The built-in configuration. -/
def builtin : Config where
  ext := Text.ofString ".nla"
  precedence := Precedence.builtin.entries.foldl
    (fun es e => setEntry (Text.ofCodePoint e.1) e.2 es) []

/-- The names that a config file can have, the first one found counts. -/
def fileNames : List Text :=
  [Text.ofString "nilla.toml", Text.ofString "nilla.yaml", Text.ofString "nilla.yml"]

/-! ### Checking -/

/-- The code point of an operator, which must be a single operator character. -/
def operatorCode (op : Text) : Except Failure Int :=
  match op with
  | [b] =>
    if Lexer.isOperator b then .ok b.toNat
    else .error (.plain (Text.quote op ++ Text.ofString " is not an operator"))
  | _ => .error (.plain (Text.quote op ++ Text.ofString " is not an operator"))

/-- The first error in sorted precedence entries. -/
def checkEntries : List (Text × Int64) → Option Failure
  | []           => none
  | (op, l) :: es =>
    match operatorCode op with
    | .error e => some e
    | .ok _    =>
      if l < 0 then
        some (.plain (Text.ofString "precedence of " ++ op ++ Text.ofString " is negative"))
      else checkEntries es

/-- What is wrong with a configuration. -/
def check (c : Config) : Option Failure :=
  if c.ext.length < 2 ∨ c.ext.head? ≠ some 0x2E then
    some (.plain (Text.ofString "bad source extension " ++ Text.quote c.ext))
  else checkEntries c.precedence

/-- The precedence table of sorted entries, or the error of the first bad operator. -/
def tableOf : List (Text × Int64) → Except Failure Precedence
  | []           => .ok ⟨[]⟩
  | (op, l) :: es =>
    match operatorCode op with
    | .error e => .error e
    | .ok code =>
      match tableOf es with
      | .error e => .error e
      | .ok t    => .ok ⟨(code, l) :: t.entries⟩

/-- The precedence table of a configuration. -/
def table (c : Config) : Except Failure Precedence := tableOf c.precedence

/-! ### Loading -/

/-- The built-in configuration with settings taken over it. -/
def ofSettings (path : Text) (s : Settings) : Config where
  ext := if s.ext = [] then builtin.ext else s.ext
  precedence :=
    s.precedence.foldl (fun es e => setEntry e.1 (Int64.ofInt e.2) es) builtin.precedence
  path := path

/-- The settings of a file by the ending of its name. -/
def parseFile (path content : Text) : Except Failure Settings :=
  let ending := Path.extension path
  if ending = Text.ofString ".toml" then Settings.ofToml content
  else if ending = Text.ofString ".yaml" ∨ ending = Text.ofString ".yml" then
    Settings.ofYaml content
  else .error (.plain (Text.ofString "unknown config format " ++ Text.quote ending))

/-- The configuration in a file. -/
def load (t : FileTree) (path : Text) : Except Failure Config :=
  match t.read path with
  | .error e    => .error e
  | .ok content =>
    match parseFile path content with
    | .error e     => .error (.within path e)
    | .ok settings =>
      let c := ofSettings path settings
      match c.check with
      | some e => .error (.within path e)
      | none   => .ok c

/-- The first of some names that is a file in a directory. -/
def findAmong (t : FileTree) (dir : Text) : List Text → Except Failure (Option Text)
  | []            => .ok none
  | name :: names =>
    match t.stat (Path.join dir name) with
    | .ok (.file _)                => .ok (some (Path.join dir name))
    | .ok (.directory _)           => findAmong t dir names
    | .error (.file _ _ .notExist) => findAmong t dir names
    | .error e                     => .error e

/-- The config file in a directory, if there is one. -/
def find (t : FileTree) (dir : Text) : Except Failure (Option Text) := findAmong t dir fileNames

/-- The configuration found in a directory, or the built-in one. -/
def loadDir (t : FileTree) (dir : Text) : Except Failure Config :=
  match find t dir with
  | .error e       => .error e
  | .ok none       => .ok builtin
  | .ok (some path) => load t path

end Config

end Frontend
