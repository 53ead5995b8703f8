import Frontend.Config.Timestamp
import Frontend.Config.Yaml.Node
import Frontend.Config.Yaml.Number
import Frontend.Text.Base64

/-!
# YAML scalars

What a scalar means. A plain scalar may be a null, a truth value, a number or a date by its
spelling; quotes make it a string. One of the tags for these meanings must agree with the
spelling, except that an integer can be tagged as a floating-point number. A scalar with any other
tag is a string.
-/

namespace Frontend.Yaml

/-- The meaning of a scalar. -/
inductive Meaning
  | null
  | boolean
  | integer (number : Int)
  /-- A floating-point number, as the integer it is converted to, if there is one. -/
  | float (truncated : Option Int)
  | timestamp
  | string
  /-- Bytes in Base64. -/
  | binary
  deriving DecidableEq, Repr

/-- The meanings that a scalar can have by its spelling, by their tags. -/
def Meaning.tag : Meaning → String
  | .null      => "!!null"
  | .boolean   => "!!bool"
  | .integer _ => "!!int"
  | .float _   => "!!float"
  | .timestamp => "!!timestamp"
  | .string    => "!!str"
  | .binary    => "!!binary"

/-- The tags of what a plain scalar can mean other than a string. -/
def spelledTags : List String := ["!!null", "!!bool", "!!int", "!!float", "!!timestamp"]

/-- The spellings that mean something else than their text. -/
def words : List (String × Meaning) :=
  [("true", .boolean), ("True", .boolean), ("TRUE", .boolean),
    ("false", .boolean), ("False", .boolean), ("FALSE", .boolean),
    ("", .null), ("~", .null), ("null", .null), ("Null", .null), ("NULL", .null),
    (".nan", .float none), (".NaN", .float none), (".NAN", .float none),
    (".inf", .float none), (".Inf", .float none), (".INF", .float none),
    ("+.inf", .float none), ("+.Inf", .float none), ("+.INF", .float none),
    ("-.inf", .float (some (-Text.int64Bound))), ("-.Inf", .float (some (-Text.int64Bound))),
    ("-.INF", .float (some (-Text.int64Bound)))]

/-- What a spelling means that starts with a digit or a sign. Underscores do not count. -/
def meaningOfDigits (cs : List Char) : Meaning :=
  let plain := cs.filter (· != '_')
  if Timestamp.isYaml cs then .timestamp
  else match integer? plain with
    | some n => .integer n
    | none   =>
      match float? plain with
      | some f => .float f
      | none   =>
        match innerSigned? plain with
        | some n => .integer n
        | none   => .string

/-- What a spelling means without quotes. -/
def meaningOf (cs : List Char) : Meaning :=
  match words.lookup (String.ofList cs) with
  | some m => m
  | none   =>
    match cs with
    | []     => .null
    | c :: _ =>
      if c == '.' then
        match float? (cs.filter (· != '_')) with
        | some f => if spacedWell false cs then .float f else .string
        | none   => .string
      else if c.isDigit || c == '+' || c == '-' then meaningOfDigits cs
      else .string

/-- A meaning under a tag, if the two agree. -/
def Meaning.tagged? (m : Meaning) (tag : Text) : Option Meaning :=
  if tag = Text.ofString m.tag then some m
  else match m with
    | .integer n =>
      if tag = Text.ofString "!!float" ∧ n < Text.int64Bound then
        some (.float (ofTruncated (n < 0) (truncatedDouble n.natAbs 1)))
      else none
    | _ => none

/-- What a scalar means, if its tag fits. -/
def meaning? (tag : Text) (plain : Bool) (text : List Char) : Option Meaning :=
  if tag = [] then some (if plain then meaningOf text else .string)
  else if tag = Text.ofString "!!binary" then some .binary
  else if spelledTags.any fun t => tag = Text.ofString t then (meaningOf text).tagged? tag
  else some .string

/-- A node is a scalar that means null. -/
def Node.isNull : Node → Bool
  | .scalar tag plain text => meaning? tag plain text == some .null
  | _                      => false

/-- The text of a scalar; nothing inside if it is null, and nothing at all if it has none. -/
def Node.text? : Node → Option (Option Text)
  | .scalar tag plain text =>
    match meaning? tag plain text with
    | none         => none
    | some .null   => some none
    | some .binary => (Text.Base64.decode? (Text.ofChars text)).map some
    | some _       => some (some (Text.ofChars text))
  | _ => none

/-- The integer of 64 bits that a scalar stands for. Null counts as zero. -/
def Node.int? : Node → Option Int
  | .scalar tag plain text =>
    match meaning? tag plain text with
    | some .null             => some 0
    | some (.integer n)      => if Text.fitsInt64 n then some n else none
    | some (.float (some n)) => some n
    | _                      => none
  | _ => none

end Frontend.Yaml
