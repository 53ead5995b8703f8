import Frontend.Config.Toml.Table
import Frontend.Config.Yaml.Decoder
import Frontend.Failure

/-!
# Settings in config files

The two settings of a config file, as the file gives them: the ending of source files and the
precedences of operators. Both may be missing.

In TOML the names of settings are taken without regard to case, a setting that is not known is an
error, and a `precedence` that is no table is ignored. In YAML names must match exactly, and what
is not known is ignored.
-/

namespace Frontend

/-- The settings that a config file gives. -/
structure Settings where
  /-- The ending of source files, empty if it is not given. -/
  ext : Text := []
  precedence : List (Text × Int) := []
  deriving DecidableEq, Repr

namespace Settings

/-! ### From TOML -/

/-- A name in lower case. -/
def lower (name : Text) : Text :=
  name.map fun b => if 0x41 ≤ b && b ≤ 0x5A then b + 0x20 else b

/-- The setting with the ending of source files. -/
def extName : Text := Text.ofString "ext"

/-- The setting with the precedences of operators. -/
def precedenceName : Text := Text.ofString "precedence"

/-- A precedence in a TOML table, which must be an integer. -/
def tomlLevel : Text × Toml.Item → Option (Text × Int)
  | (op, .value (.integer n)) => some (op, n)
  | _                         => none

/-- Takes over one entry of a TOML table, if it has the right type. -/
def addToml (s : Settings) (entry : Text × Toml.Item) : Option Settings :=
  if lower entry.1 = extName then
    match entry.2 with
    | .value (.string text) => some { s with ext := text }
    | _                     => none
  else if lower entry.1 = precedenceName then
    match entry.2 with
    | .table es =>
      (es.mapM tomlLevel).map fun levels => { s with precedence := s.precedence ++ levels }
    | _ => some s
  else some s

/-- The keys of a TOML table that are settings. -/
def tomlKeys (entry : Text × Toml.Item) : List Toml.Key :=
  if lower entry.1 = extName then [[entry.1]]
  else if lower entry.1 = precedenceName then
    match entry.2 with
    | .table es => [entry.1] :: es.map fun e => [entry.1, e.1]
    | _         => [[entry.1]]
  else []

/-- The settings of a TOML text. -/
def ofToml (text : Text) : Except Failure Settings :=
  match Toml.read text with
  | none => .error (.toml (Text.ofString "not a valid document"))
  | some (entries, keys) =>
    match entries.foldlM addToml {} with
    | none   => .error (.toml (Text.ofString "a setting has the wrong type"))
    | some s =>
      match keys.find? fun k => !(entries.flatMap tomlKeys).contains k with
      | some key => .error (.plain (Text.ofString "unknown setting " ++ Toml.showKey key))
      | none     => .ok s

/-! ### From YAML -/

/-- The settings of a YAML mapping while it is decoded. -/
structure Draft where
  settings : Settings := {}
  /-- The settings that have been given, also by null. -/
  given : List Text := []

/-- Takes over a precedence in a YAML mapping. -/
def addLevel (doc : Yaml.Document) (levels : List (Text × Int)) (op : Text) (value : Yaml.Node) :
    Yaml.Decoder (List (Text × Int)) := do
  let level ← Yaml.Decoder.int doc value
  return levels ++ [(op, level)]

/-- Takes over a setting in a YAML mapping, which must not have been given before. -/
def addYaml (doc : Yaml.Document) (d : Draft) (name : Text) (value : Yaml.Node) :
    Yaml.Decoder Draft := do
  if d.given.contains name then failure
  else if name = extName then do
    let ext ← Yaml.Decoder.text doc value
    return ⟨{ d.settings with ext := ext.getD d.settings.ext }, name :: d.given⟩
  else if name = precedenceName then do
    let levels ← Yaml.Decoder.mapping doc (addLevel doc) [] value
    return ⟨{ d.settings with precedence := levels }, name :: d.given⟩
  else return d

/-- The settings of a YAML document, which counts as a node itself. -/
def ofDocument (doc : Yaml.Document) : Yaml.Decoder Settings := do
  Yaml.Decoder.count
  let d ← Yaml.Decoder.mapping doc (addYaml doc) {} doc.root
  return d.settings

/-- The settings of a YAML text. -/
def ofYaml (text : Text) : Except Failure Settings :=
  match Yaml.document? text with
  | none            => .error (.yaml (Text.ofString "not a valid document"))
  | some none       => .ok {}
  | some (some doc) =>
    match ofDocument doc {} with
    | some (s, _) => .ok s
    | none        => .error (.yaml (Text.ofString "a setting has the wrong type"))

end Settings

end Frontend
