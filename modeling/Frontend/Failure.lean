import Frontend.Location
import Frontend.Parser.Cursor
import Frontend.Token.Lexer

/-!
# Failures

Everything that can go wrong, from a bad character to a missing file, ends as a `Failure`: a root
cause under the contexts and locations that the layers above have added.
-/

namespace Frontend

/-- What the file system refuses. -/
inductive FileError
  | notExist
  | notDirectory
  | isDirectory
  /-- A name on the path has more bytes than a name can have. -/
  | nameTooLong
  /-- The path holds a byte that no path can have. -/
  | invalidPath
  deriving DecidableEq, Repr

/-- The text of a file error. -/
def FileError.message : FileError → Text
  | .notExist     => Text.ofString "no such file or directory"
  | .notDirectory => Text.ofString "not a directory"
  | .isDirectory  => Text.ofString "is a directory"
  | .nameTooLong  => Text.ofString "file name too long"
  | .invalidPath  => Text.ofString "invalid argument"

/-- A failure as it reaches the user. -/
inductive Failure
  /-- An error of the parser at an offset. -/
  | parse (kind : ErrorKind) (pos : Int) (message : Text)
  /-- An error of the lexer at an offset. -/
  | lex (pos : Int) (message : Text)
  /-- A file operation that failed on a path. -/
  | file (operation path : Text) (error : FileError)
  /-- A config file that is not in its format, or not of the right shape. -/
  | toml (message : Text)
  | yaml (message : Text)
  /-- Any other message. -/
  | plain (message : Text)
  /-- A failure in some context. -/
  | within (context : Text) (inner : Failure)
  /-- A failure with the location it is about, if that is known. -/
  | located (location : Option Location) (inner : Failure)
  deriving DecidableEq, Repr

namespace Failure

/-- The text of a failure. -/
def message : Failure → Text
  | .parse _ _ message            => message
  | .lex _ message                => message
  | .file operation path error    =>
    operation ++ 0x20 :: path ++ Text.ofString ": " ++ error.message
  | .toml message                 => Text.ofString "toml: " ++ message
  | .yaml message                 => Text.ofString "yaml: " ++ message
  | .plain message                => message
  | .within context inner         => context ++ Text.ofString ": " ++ inner.message
  | .located none inner           => inner.message
  | .located (some l) inner       => l.render ++ Text.ofString ": " ++ inner.message

/-- What is left of a failure without its contexts and locations. -/
def root : Failure → Failure
  | .within _ inner  => inner.root
  | .located _ inner => inner.root
  | failure          => failure

/-- A location has been attached to the failure. -/
def isLocated : Failure → Bool
  | .within _ inner => inner.isLocated
  | .located _ _    => true
  | _               => false

/-- The offset that a failure is about, if it is about one. -/
def offset? (failure : Failure) : Option Int :=
  match failure.root with
  | .parse _ pos _ => some pos
  | .lex pos _     => some pos
  | _              => none

/-- The failure is that the input ends too early. -/
def isEndOfInput (failure : Failure) : Bool :=
  match failure.root with
  | .parse kind _ _ => kind == .endOfInput
  | _               => false

end Failure

/-- A parse error as a failure. -/
def SyntaxError.toFailure (e : SyntaxError) : Failure := .parse e.cause.kind e.pos e.cause.message

/-- A lexical error as a failure. -/
def LexError.toFailure (e : LexError) : Failure := .lex e.pos e.cause.message

/-- Attaches its location to a failure that is about an offset within the files. -/
def SourceFiles.locate (fs : SourceFiles) (failure : Failure) : Failure :=
  match failure.offset? with
  | none   => failure
  | some p =>
    if p < 0 then failure
    else match fs.at? p with
      | some l => .located (some l) failure
      | none   => failure

end Frontend
