import Frontend.Config.Yaml.Source

/-!
# YAML tokens

The tokens of a YAML text and the classes of characters by which they are told apart. Indentation
shows up as tokens that open and close blocks, and there are tokens for keys and values.
-/

namespace Frontend.Yaml

/-- A token of a YAML text. -/
inductive Token
  | versionDirective (major minor : Nat)
  | tagDirective (handle start : Text)
  | documentStart
  | documentEnd
  | blockSequenceStart
  | blockMappingStart
  | blockEnd
  | flowSequenceStart
  | flowSequenceEnd
  | flowMappingStart
  | flowMappingEnd
  | blockEntry
  | flowEntry
  | key
  | value
  | alias (name : List Char)
  | anchor (name : List Char)
  /-- A tag that a handle gives the start of; without a handle it is the whole tag. -/
  | tag (handle suffix : Text)
  | scalar (text : List Char) (plain : Bool)
  | streamEnd
  deriving DecidableEq, Repr, Inhabited

/-! ### Characters -/

/-- A line break. -/
def isBreak (c : Char) : Bool :=
  c == '\n' || c == '\r' || c == '\x85' || c == '\u2028' || c == '\u2029'

/-- A space or a tab. -/
def isBlank (c : Char) : Bool := c == ' ' || c == '\t'

/-- A line break or the end of the text. -/
def isLineEnd (c : Char) : Bool := isBreak c || c == nul

/-- A blank, a line break or the end of the text. -/
def isGap (c : Char) : Bool := isBlank c || isLineEnd c

/-- A character of a name. -/
def isNameChar (c : Char) : Bool := c.isAlphanum || c == '_' || c == '-'

/-- A character that stands for itself in a tag. -/
def isTagChar (c : Char) : Bool := isNameChar c || ";/?:@&=+$,.!~*'()[]".toList.contains c

/-- A line break as it counts in a scalar. -/
def breakChar (c : Char) : Char := if c == '\u2028' || c == '\u2029' then c else '\n'

end Frontend.Yaml
