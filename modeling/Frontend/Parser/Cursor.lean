import Frontend.Token
import Frontend.Precedence

/-!
# The cursor of the parser

The parser walks over a fixed token stream. Its `Cursor` keeps the tokens on both sides, so that
looking at the current token, stepping over it and asking for the token before it are all local.

A `Parser` is a step on cursors that either finishes or fails. It shows the cursor in both cases,
so that one can tell how far the input was read when it was found to be wrong.
-/

namespace Frontend

/-! ### Errors -/

/-- What an error of the parser is about. -/
inductive ErrorKind
  /-- The input ends too early. -/
  | endOfInput
  /-- A keyword, terminator or line end is missing or misplaced. -/
  | structural
  /-- A token is of the wrong kind. -/
  | token
  /-- The type of a local variable cannot be found. -/
  | inference
  /-- A kind that is not one of the above. -/
  | unknown
  deriving DecidableEq, Repr

/-- The word for a kind of error. -/
def ErrorKind.name : ErrorKind → Text
  | .endOfInput => Text.ofString "end of input"
  | .structural => Text.ofString "structure"
  | .token      => Text.ofString "token"
  | .inference  => Text.ofString "inference"
  | .unknown    => Text.ofString "unknown"

/-- The kind of error with a number. -/
def ErrorKind.ofCode : Int → ErrorKind
  | 0 => .endOfInput
  | 1 => .structural
  | 2 => .token
  | 3 => .inference
  | _ => .unknown

/-- Why a token stream is not a module. -/
inductive Cause
  | pastLastToken
  | peekedAtEnd
  | unexpectedEnd
  | expectedItem
  | expectedClassName
  | expectedTraitName
  | expectedImplName
  | newlineAfterClassName
  | newlineAfterTraitName
  | newlineAfterImplName
  | expectedClassMember
  | expectedTraitMember
  | expectedImplMember
  | spaceAfterDef
  | expectedDefName
  | afterDefName
  | expectedParamName
  | expectedParamType
  | afterParam
  | expectedArrow
  | afterParams
  | expectedResultType
  | unknownExpression
  | expectedMessage
  | expectedIdentifier
  | afterArgument
  | unsupportedAssignment
  | notAssigned
  | expectedOpenParen
  | expectedCloseParen
  | invalidOperator
  /-- The recursion budget is used up, which the budget of `Parser` rules out. -/
  | outOfBudget
  deriving DecidableEq, Repr

namespace Cause

/-- What an error is about. -/
def kind : Cause → ErrorKind
  | .pastLastToken         => .endOfInput
  | .peekedAtEnd           => .endOfInput
  | .unexpectedEnd         => .endOfInput
  | .expectedItem          => .structural
  | .expectedClassName     => .token
  | .expectedTraitName     => .token
  | .expectedImplName      => .token
  | .newlineAfterClassName => .structural
  | .newlineAfterTraitName => .structural
  | .newlineAfterImplName  => .structural
  | .expectedClassMember   => .structural
  | .expectedTraitMember   => .structural
  | .expectedImplMember    => .structural
  | .spaceAfterDef         => .structural
  | .expectedDefName       => .token
  | .afterDefName          => .token
  | .expectedParamName     => .token
  | .expectedParamType     => .token
  | .afterParam            => .token
  | .expectedArrow         => .structural
  | .afterParams           => .structural
  | .expectedResultType    => .token
  | .unknownExpression     => .token
  | .expectedMessage       => .token
  | .expectedIdentifier    => .token
  | .afterArgument         => .token
  | .unsupportedAssignment => .inference
  | .notAssigned           => .inference
  | .expectedOpenParen     => .token
  | .expectedCloseParen    => .token
  | .invalidOperator       => .token
  | .outOfBudget           => .unknown

/-- The text of an error. -/
def message : Cause → Text
  | .pastLastToken         => Text.ofString "position is past the last token"
  | .peekedAtEnd           => Text.ofString "peeked at end of file"
  | .unexpectedEnd         => Text.ofString "unexpected end of file"
  | .expectedItem          => Text.ofString "expected class, def, or trait"
  | .expectedClassName     => Text.ofString "expected class name"
  | .expectedTraitName     => Text.ofString "expected trait name"
  | .expectedImplName      => Text.ofString "expected trait name in impl"
  | .newlineAfterClassName => Text.ofString "expected a newline after the class name"
  | .newlineAfterTraitName => Text.ofString "expected a newline after the trait name"
  | .newlineAfterImplName  => Text.ofString "expected a newline after the impl name"
  | .expectedClassMember   => Text.ofString "expected def, impl, or end in class"
  | .expectedTraitMember   => Text.ofString "expected only def within a trait"
  | .expectedImplMember    => Text.ofString "expected only def within an impl"
  | .spaceAfterDef         => Text.ofString "expected a space after def"
  | .expectedDefName       => Text.ofString "expected identifier in prototype"
  | .afterDefName          => Text.ofString "expected ( or a newline after the def name"
  | .expectedParamName     => Text.ofString "expected identifier in parameter list"
  | .expectedParamType     => Text.ofString "expected type name for parameter"
  | .afterParam            => Text.ofString "expected , or ) in parameter list"
  | .expectedArrow         => Text.ofString "expected -> before the return type"
  | .afterParams           => Text.ofString "expected a newline or return type after the parameters"
  | .expectedResultType    => Text.ofString "expected a return type after ->"
  | .unknownExpression     => Text.ofString "unknown expression"
  | .expectedMessage       => Text.ofString "expected an identifier after ."
  | .expectedIdentifier    => Text.ofString "expected identifier"
  | .afterArgument         => Text.ofString "expected , or ) in call"
  | .unsupportedAssignment => Text.ofString "local variable is assigned an unsupported expression"
  | .notAssigned           => Text.ofString "local variable is not assigned anywhere"
  | .expectedOpenParen     =>
    Text.ofString "expected ( at the start of a parenthesized expression"
  | .expectedCloseParen    => Text.ofString "expected ) at the end of a parenthesized expression"
  | .invalidOperator       => Text.ofString "invalid operator"
  | .outOfBudget           => Text.ofString "recursion budget used up"

end Cause

/-- A parse error and the offset of the token it is about, which is `-1` if it is not known. -/
structure SyntaxError where
  cause : Cause
  pos : Int
  deriving DecidableEq, Repr

/-! ### Cursors -/

/-- A place in a token stream. -/
structure Cursor where
  /-- The tokens before the cursor, the nearest first. -/
  past : List Token
  /-- The tokens from the cursor on. -/
  rest : List Token
  /-- How many steps the cursor has been moved beyond the end of the stream. -/
  beyond : Nat := 0
  deriving DecidableEq, Repr

namespace Cursor

/-- The cursor at the start of a token stream. -/
def ofTokens (tokens : List Token) : Cursor := ⟨[], tokens, 0⟩

/-- The stream that the cursor walks over. -/
def stream (c : Cursor) : List Token := c.past.reverse ++ c.rest

/-- The number of steps from the start of the stream. -/
def index (c : Cursor) : Nat := c.past.length + c.beyond

/-- The cursor has passed the last token. -/
def atEnd (c : Cursor) : Bool := c.rest.isEmpty

/-- The current token, or the end-of-input token past the end. -/
def token (c : Cursor) : Token := c.rest.headD Token.eof

/-- The cursor one step on. -/
def next (c : Cursor) : Cursor :=
  match c.rest with
  | t :: rest => ⟨t :: c.past, rest, c.beyond⟩
  | []        => ⟨c.past, [], c.beyond + 1⟩

/-- The cursor moved to a number of steps from the start of its stream. -/
def seek (c : Cursor) (index : Nat) : Cursor :=
  ⟨(c.stream.take index).reverse, c.stream.drop index, index - c.stream.length⟩

/-- The tokens that a run of whitespace at the cursor moves into the past. -/
def skipOver (past : List Token) : List Token → List Token × List Token
  | []        => (past, [])
  | t :: rest => if t.isWhitespace then skipOver (t :: past) rest else (past, t :: rest)

/-- The cursor behind all whitespace that starts at it. -/
def skipWhitespace (c : Cursor) : Cursor :=
  let moved := skipOver c.past c.rest
  ⟨moved.1, moved.2, c.beyond⟩

/-- The cursor behind the blank run at it, if there is one. -/
def skipSpace (c : Cursor) : Cursor :=
  match c.rest with
  | ⟨.space, _⟩ :: _ => c.next
  | _                => c

/-- The offset of the last token before the cursor that is not whitespace, `-1` if there is
none. -/
def lastPos (c : Cursor) : Int :=
  match c.past.find? (fun t => !t.isWhitespace) with
  | some t => t.pos
  | none   => -1

/-- The offset an error at the cursor is reported at: that of the current token, or past the end
that of the last one. -/
def errorPos (c : Cursor) : Int :=
  match c.rest, c.past with
  | t :: _, _    => t.pos
  | [],     t :: _ => t.pos
  | [],     []     => -1

/-- An error at the cursor. -/
def error (c : Cursor) (cause : Cause) : SyntaxError := ⟨cause, c.errorPos⟩

/-- The precedence of the current token if it is an operator, else `-1`. -/
def level (prec : Precedence) (c : Cursor) : Int :=
  match c.rest with
  | ⟨.operator op, _⟩ :: _ => prec.of op
  | _                      => -1

end Cursor

/-! ### Parsers -/

/-- A step of parsing: it moves the cursor and yields a value, or fails at some cursor. -/
abbrev Parser (α : Type) := EStateM SyntaxError Cursor α

/-- The functions of the parser that are named after what they read. -/
inductive Routine
  | classBlock
  | traitBlock
  | implBlock
  | definition
  | prototype
  | expr
  | unary
  | primary
  /-- Messages, of which there is at least one. -/
  | sends
  | named
  /-- The arguments of a call, with their parentheses. -/
  | call
  | paren
  /-- Operators that have at least some precedence. -/
  | binary (least : Int)
  deriving DecidableEq, Repr

/-- What a parser can carry along: a cursor, and perhaps a record of what is done with it. The
functions of the parser are written for all of these, and do not see the record. -/
class ParserState (σ : Type) where
  cursor : σ → Cursor
  /-- A step of the cursor. -/
  step {α : Type} : Parser α → EStateM SyntaxError σ α
  /-- The call of a function. -/
  routine {α : Type} : Routine → EStateM SyntaxError σ α → EStateM SyntaxError σ α
  /-- What is done after one has been added to a precedence. -/
  raising {α : Type} : Int → EStateM SyntaxError σ α → EStateM SyntaxError σ α

/-- A cursor alone has no record. -/
instance : ParserState Cursor where
  cursor c := c
  step p := p
  routine _ p := p
  raising _ p := p

/-- A step of parsing that carries a state along. -/
abbrev ParserOver (σ α : Type) := EStateM SyntaxError σ α

namespace Parser

open ParserState (step)

variable {σ α : Type} [ParserState σ]

/-- Fails at the cursor. -/
def fail (cause : Cause) : ParserOver σ α := step fun c => .error (c.error cause) c

/-- Fails at the cursor, about a token at another offset. -/
def failAt (cause : Cause) (pos : Int) : ParserOver σ α := step fun c => .error ⟨cause, pos⟩ c

/-- The current token, which must exist. -/
def current : ParserOver σ Token := step fun c =>
  match c.rest with
  | t :: _ => .ok t c
  | []     => .error (c.error .pastLastToken) c

/-- The token behind the current one, which must exist. -/
def peek : ParserOver σ Token := step fun c =>
  match c.rest with
  | _ :: t :: _ => .ok t c
  | _           => .error (c.error .peekedAtEnd) c

/-- The current token, or the end-of-input token past the end. -/
def token : ParserOver σ Token := step fun c => .ok c.token c

/-- Moves one step on, where there must be a token. The cursor moves even if there is none. -/
def advance : ParserOver σ Unit := step fun c =>
  match c.next.rest with
  | _ :: _ => .ok () c.next
  | []     => .error (c.next.error .unexpectedEnd) c.next

/-- Moves one step on. -/
def next : ParserOver σ Unit := step fun c => .ok () c.next

/-- Moves behind all whitespace at the cursor. -/
def skipWhitespace : ParserOver σ Unit := step fun c => .ok () c.skipWhitespace

/-- Moves behind one blank run at the cursor. -/
def skipSpace : ParserOver σ Unit := step fun c => .ok () c.skipSpace

/-- Whether the cursor has passed the last token. -/
def atEnd : ParserOver σ Bool := step fun c => .ok c.atEnd c

/-- The precedence of the current token. -/
def level (prec : Precedence) : ParserOver σ Int := step fun c => .ok (c.level prec) c

/-- The offset of the last token before the cursor that is not whitespace. -/
def lastPos : ParserOver σ Int := step fun c => .ok c.lastPos c

/-- Runs a recursive parser with a budget that is linear in the number of tokens ahead. -/
def withBudget (p : Nat → ParserOver σ α) : ParserOver σ α := fun s =>
  p (6 * (ParserState.cursor s).rest.length + 6) s

end Parser

end Frontend
