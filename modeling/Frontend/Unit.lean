import Frontend.FileTree
import Frontend.Parser.Module

/-!
# Compilation units

The files of a unit are lexed as they are added and parsed together as one token stream. A file
with a lexical error takes up its offsets but adds no tokens.
-/

namespace Frontend

/-- A file that is to be added: its path, and its content or the failure of reading it. -/
structure Input where
  path : Text
  content : Except Failure Text

/-- The files and tokens gathered for one parse. -/
structure CompilationUnit where
  files : SourceFiles := {}
  tokens : List Token := []
  deriving Repr

namespace CompilationUnit

/-- Adds a file. The unit afterwards is given in both cases; on a lexical error it holds the file
without its tokens. -/
def add (u : CompilationUnit) (path text : Text) : CompilationUnit × Option Failure :=
  let files := u.files.add path text
  match Lexer.tokens text u.files.length with
  | .ok tokens => (⟨files, u.tokens ++ tokens⟩, none)
  | .error e   => (⟨files, u.tokens⟩, some (files.locate e.toFailure))

/-- Adds a file if it could be read. If not, the unit stays as it is. -/
def addInput (u : CompilationUnit) (input : Input) : CompilationUnit × Option Failure :=
  match input.content with
  | .ok text => u.add input.path text
  | .error e => (u, some e)

/-- Adds the files at some paths until one fails. -/
def addFiles (t : FileTree) : List Text → CompilationUnit → CompilationUnit × Option Failure
  | [],            u => (u, none)
  | path :: paths, u =>
    match u.addInput ⟨path, t.read path⟩ with
    | (u, none)   => addFiles t paths u
    | (u, some e) => (u, some e)

/-- Parses the tokens added so far. -/
def parse (u : CompilationUnit) (prec : Precedence) : Except Failure Module :=
  match Frontend.parse prec u.tokens with
  | .ok m    => .ok m
  | .error e => .error (u.files.locate e.toFailure)

end CompilationUnit

end Frontend
