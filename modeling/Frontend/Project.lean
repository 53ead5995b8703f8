import Frontend.Config
import Frontend.Console
import Frontend.SourceModule

/-!
# Projects

A project is a source module together with the operator precedences that its configuration gives.
Loading and parsing one says in the notes what is being done.
-/

namespace Frontend

/-- How commands are to work on projects. -/
structure Options where
  /-- The config file to use, empty for the one found beside the source. -/
  config : Text := []
  /-- Notes about the progress are asked for. -/
  verbose : Bool := false
  deriving DecidableEq, Repr, Inhabited

/-- The configuration for the source at a path. -/
def Options.configFor (o : Options) (t : FileTree) (path : Text) : Except Failure Config :=
  if o.config ≠ [] then Config.load t o.config
  else
    match t.stat path with
    | .ok (.file _) => Config.loadDir t (Path.dir path)
    | _             => Config.loadDir t path

/-- A loaded module with its operator precedences. -/
structure Project where
  precedence : Precedence
  source : SourceModule
  deriving Repr

namespace Project

open Frontend.Action

/-- The project at a path. -/
def load (o : Options) (t : FileTree) (path : Text) : Action Project := do
  let config ← ofExceptWithin "failed to load config" (o.configFor t path)
  note (o.verbose && !config.path.isEmpty) (Text.ofString "using config " ++ config.path)
  let precedence ← ofExceptWithin "bad config" config.table
  let source ← ofExceptWithin "failed to load module" (SourceModule.load t path config.ext)
  note o.verbose (Text.ofString "module " ++ source.name ++ Text.ofString ": " ++
    Text.ofNat source.files.length ++ Text.ofString " source files")
  return { precedence, source }

/-- Parses the files of a project. -/
def parse (o : Options) (t : FileTree) (p : Project) : Action (SourceFiles × Module) := do
  note o.verbose (Text.ofString "parsing " ++ p.source.path)
  let (files, result) := p.source.parse t p.precedence
  let m ← ofExcept result
  note o.verbose (Text.ofString "parsed " ++ Text.ofNat m.defs.length ++ Text.ofString " defs")
  return (files, m)

/-- The line that says that something is in order. -/
def okLine (name : Text) : Text := Text.ofString "ok " ++ name

end Project

end Frontend
