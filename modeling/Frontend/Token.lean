import Frontend.Text.Quoted

/-!
# Tokens

A token is a kind, which carries the payload that belongs to it, and the offset of its first byte.
Token streams come from the lexer or are built by hand; only the latter can hold kinds that no
source text spells.
-/

namespace Frontend

/-- What a token is. -/
inductive Kind
  /-- The end of the input, seen when reading past the last token. -/
  | eof
  | classWord
  | traitWord
  | defWord
  | implWord
  | endWord
  /-- A word that starts with a capital letter: the name of a class, trait or type. -/
  | constant (name : Text)
  /-- Any other word. -/
  | identifier (name : Text)
  | number (value : UInt64)
  /-- A string literal, with its escapes already read. -/
  | string (value : Text)
  /-- A run of blanks. -/
  | space
  | newline
  | leftParen
  | rightParen
  | comma
  | dot
  | assign
  | arrow
  /-- An operator character, given by its code point. -/
  | operator (code : Int)
  | selfWord
  /-- A kind that is not one of the above, given by its number. -/
  | unknown (code : Int)
  deriving DecidableEq, Repr, Inhabited

/-- A token and the offset of its first byte, which is `-1` if it is not known. -/
structure Token where
  kind : Kind
  pos : Int := -1
  deriving DecidableEq, Repr, Inhabited

namespace Kind

/-- The name of a kind, without its payload. -/
def name : Kind → Text
  | .eof          => Text.ofString "EOF"
  | .classWord    => Text.ofString "class"
  | .traitWord    => Text.ofString "trait"
  | .defWord      => Text.ofString "def"
  | .implWord     => Text.ofString "impl"
  | .endWord      => Text.ofString "end"
  | .constant _   => Text.ofString "constant"
  | .identifier _ => Text.ofString "identifier"
  | .number _     => Text.ofString "number"
  | .string _     => Text.ofString "string"
  | .space        => Text.ofString "space"
  | .newline      => Text.ofString "newline"
  | .leftParen    => Text.ofString "("
  | .rightParen   => Text.ofString ")"
  | .comma        => Text.ofString ","
  | .dot          => Text.ofString "."
  | .assign       => Text.ofString "="
  | .arrow        => Text.ofString "->"
  | .operator _   => Text.ofString "operator"
  | .selfWord     => Text.ofString "self"
  | .unknown code => Text.ofString "Kind(" ++ Text.ofInt code ++ Text.ofString ")"

/-- The kind with a number, and with the payload that belongs to it. -/
def ofCode (code : Int) (text : Text) (value : UInt64) (op : Int) : Kind :=
  match code with
  | 0  => .eof
  | 1  => .classWord
  | 2  => .traitWord
  | 3  => .defWord
  | 4  => .implWord
  | 5  => .endWord
  | 6  => .constant text
  | 7  => .identifier text
  | 8  => .number value
  | 9  => .string text
  | 10 => .space
  | 11 => .newline
  | 12 => .leftParen
  | 13 => .rightParen
  | 14 => .comma
  | 15 => .dot
  | 16 => .assign
  | 17 => .arrow
  | 18 => .operator op
  | 19 => .selfWord
  | n  => .unknown n

/-- The words that are kinds of their own. -/
def keywords : List (Text × Kind) :=
  [(Text.ofString "class", .classWord), (Text.ofString "trait", .traitWord),
    (Text.ofString "def", .defWord), (Text.ofString "impl", .implWord),
    (Text.ofString "end", .endWord), (Text.ofString "self", .selfWord)]

/-- The kind of a keyword. -/
def ofKeyword? (word : Text) : Option Kind := keywords.lookup word

/-- Blanks and line ends separate tokens and mean nothing else to most of the grammar. -/
def isWhitespace : Kind → Bool
  | .space | .newline => true
  | _                 => false

/-- The text that shows a token: its spelling where it has one of its own, else its name. -/
def text : Kind → Text
  | .constant name   => name
  | .identifier name => name
  | .number value    => Text.ofNat value.toNat
  | .string value    => value.quote
  | .operator code   => Text.ofCodePoint code
  | .space           => Text.ofString "' '"
  | .newline         => Text.ofString "'\\n'"
  | kind             => kind.name

end Kind

namespace Token

/-- What is seen when reading past the last token. -/
def eof : Token := ⟨.eof, -1⟩

/-- The token is a blank run or a line end. -/
def isWhitespace (t : Token) : Bool := t.kind.isWhitespace

end Token

end Frontend
