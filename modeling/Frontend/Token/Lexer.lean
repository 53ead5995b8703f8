import Frontend.Token

/-!
# Lexing

A text is cut into pieces from left to right. Each piece is a comment or the spelling of one
token, and its first byte alone decides which of the rules below applies; the one exception is
the minus sign, which a greater-than sign right behind it turns into an arrow.

`Lexer.tokens` gives the tokens of the pieces, or the error at the first place where no piece can
be cut.
-/

namespace Frontend

/-- Why no piece can be cut at some place. -/
inductive LexCause
  /-- A run of digits whose value does not fit into 64 bits. -/
  | outOfRange (digits : Text)
  /-- A string literal without its closing quote on the same line. -/
  | unterminated
  /-- A string literal with a bad escape. -/
  | badLiteral (literal : Text)
  /-- A character that starts no piece. -/
  | unexpected (code : Nat)
  deriving DecidableEq, Repr

/-- A lexical error and the offset of the first byte that could not be cut off. -/
structure LexError where
  cause : LexCause
  pos : Int
  deriving DecidableEq, Repr

/-- The text of a lexical error. -/
def LexCause.message : LexCause → Text
  | .outOfRange digits  =>
    Text.ofString "integer literal " ++ digits ++ Text.ofString " out of range"
  | .unterminated       => Text.ofString "unterminated string literal"
  | .badLiteral literal => Text.ofString "bad string literal " ++ literal
  | .unexpected code    => Text.ofString "unexpected character " ++ Text.quoteChar code

namespace Lexer

/-! ### Classes of bytes -/

/-- Blanks, which form one token together. -/
def isBlank (b : UInt8) : Bool := b == 0x20 || b == 0x09 || b == 0x0D

/-- A decimal digit. -/
def isDigit (b : UInt8) : Bool := 0x30 ≤ b && b ≤ 0x39

/-- A capital letter. -/
def isCapital (b : UInt8) : Bool := 0x41 ≤ b && b ≤ 0x5A

/-- A byte that can start a word. -/
def isLetter (b : UInt8) : Bool := (0x61 ≤ b && b ≤ 0x7A) || isCapital b || b == 0x5F

/-- A byte that can go on with a word. -/
def isWordByte (b : UInt8) : Bool := isLetter b || isDigit b

/-- The operator characters. Punctuation with a token kind of its own is not among them, nor are
the double quote and the comment character. -/
def operators : Text := Text.ofString "+-*/%<>!&|^~?@$:;[]\x7b\x7d\\'`"

/-- A byte is an operator character. -/
def isOperator (b : UInt8) : Bool := operators.contains b

/-- The rule that the first byte of a piece selects. -/
inductive ByteClass
  | newline
  | blank
  | hash
  | letter
  | digit
  | quote
  | punctuation (kind : Kind)
  | operator
  | other
  deriving DecidableEq, Repr

/-- The class of a byte. -/
def classOf (b : UInt8) : ByteClass :=
  if b = 0x0A then .newline
  else if isBlank b then .blank
  else if b = 0x23 then .hash
  else if isLetter b then .letter
  else if isDigit b then .digit
  else if b = 0x22 then .quote
  else if b = 0x28 then .punctuation .leftParen
  else if b = 0x29 then .punctuation .rightParen
  else if b = 0x2C then .punctuation .comma
  else if b = 0x2E then .punctuation .dot
  else if b = 0x3D then .punctuation .assign
  else if isOperator b then .operator
  else .other

/-! ### Pieces -/

/-- A piece of text: how many bytes follow its first one, and the token it spells, if it is not a
comment. -/
structure Piece where
  kind : Option Kind
  more : Nat
  deriving DecidableEq, Repr

/-- The kind of a word: a keyword, or a constant or identifier by its first letter. -/
def wordKind (b : UInt8) (word : Text) : Kind :=
  match Kind.ofKeyword? word with
  | some kind => kind
  | none      => if isCapital b then .constant word else .identifier word

/-- The bytes of a string literal after its opening quote and before its closing one. A backslash
takes the byte behind it along, whatever it is; otherwise a line feed ends the search. -/
def literalBody? : Text → Option Text
  | []             => none
  | 0x0A :: _      => none
  | 0x22 :: _      => some []
  | [0x5C]         => none
  | 0x5C :: b :: t => (literalBody? t).map (0x5C :: b :: ·)
  | b :: t         => (literalBody? t).map (b :: ·)

/-- The piece at the start of a text that consists of a byte and a rest. -/
def piece (b : UInt8) (rest : Text) : Except LexCause Piece :=
  match classOf b with
  | .newline          => .ok ⟨some .newline, 0⟩
  | .blank            => .ok ⟨some .space, (rest.takeWhile isBlank).length⟩
  | .hash             => .ok ⟨none, (rest.takeWhile (· != 0x0A)).length⟩
  | .letter           =>
    let more := rest.takeWhile isWordByte
    .ok ⟨some (wordKind b (b :: more)), more.length⟩
  | .digit            =>
    let more := rest.takeWhile isDigit
    let value := Text.value (b :: more)
    if value < UInt64.size then .ok ⟨some (.number (.ofNat value)), more.length⟩
    else .error (.outOfRange (b :: more))
  | .quote            =>
    match literalBody? rest with
    | none      => .error .unterminated
    | some body =>
      match Text.Quoted.decode body with
      | some value => .ok ⟨some (.string value), body.length + 1⟩
      | none       => .error (.badLiteral (0x22 :: body ++ [0x22]))
  | .punctuation kind => .ok ⟨some kind, 0⟩
  | .operator         =>
    if b = 0x2D ∧ rest.head? = some 0x3E then .ok ⟨some .arrow, 1⟩
    else .ok ⟨some (.operator b.toNat), 0⟩
  | .other            =>
    match Text.decode? (b :: rest) with
    | some (code, _) => .error (.unexpected code)
    | none           => .error (.unexpected Text.replacement)

/-- The tokens of a text whose first byte has the given offset. -/
def tokens (text : Text) (pos : Int) : Except LexError (List Token) :=
  match text with
  | []        => .ok []
  | b :: rest =>
    match piece b rest with
    | .error cause => .error ⟨cause, pos⟩
    | .ok p        =>
      match tokens (rest.drop p.more) (pos + 1 + p.more) with
      | .error e => .error e
      | .ok ts   =>
        match p.kind with
        | some kind => .ok (⟨kind, pos⟩ :: ts)
        | none      => .ok ts
termination_by text.length
decreasing_by
  simp only [List.length_cons, List.length_drop]
  omega

end Lexer

end Frontend
