import Frontend.Index
import Frontend.Listing
import Frontend.Watch

/-!
# Commands

The commands that a user gives for a module: showing its syntax trees, checking it, formatting
it, finding its definitions, watching it, and listing the modules beneath a directory.

Commands see the file tree but do not change it. Formatting in place answers with an `Edit`, which
is made after the command has succeeded.
-/

namespace Frontend

/-- A command with its arguments. -/
inductive Command
  /-- Shows the syntax tree of each definition. -/
  | parse (path : Text)
  /-- Reports the first error, if there is one. -/
  | check (path : Text)
  /-- Shows the module in its canonical form, or puts it in place of the source. -/
  | format (inPlace : Bool) (path : Text)
  /-- Shows the location of each definition with a name. -/
  | find (query path : Text)
  /-- Checks the module now, and later whenever one of its files changes. -/
  | watch (path : Text)
  /-- Checks each module beneath a directory. -/
  | list (path : Text)
  deriving DecidableEq, Repr

/-- A file to be written. -/
structure Edit where
  path : Text
  content : Text
  deriving DecidableEq, Repr

/-- The tree after an edit, if there is one. -/
def FileTree.edit (t : FileTree) : Option Edit → FileTree
  | none   => t
  | some e => t.write e.path e.content

namespace Command

open Frontend.Action

/-! ### Single modules -/

/-- Shows the syntax trees of a module, with an empty line below each. -/
def showTrees (o : Options) (t : FileTree) (path : Text) : Action Unit := do
  let project ← Project.load o t path
  let (files, m) ← project.parse o t
  print (m.defs.flatMap fun d => files.listing d ++ [0x0A])

/-- Checks a module. -/
def checkModule (o : Options) (t : FileTree) (path : Text) : Action Unit := do
  let project ← Project.load o t path
  let _ ← project.parse o t
  note o.verbose (Project.okLine project.source.name)

/-- The only source file of a module. -/
def onlyFile (source : SourceModule) : Except Failure Text :=
  match source.files with
  | [path] => .ok path
  | paths  => .error (.plain (Text.ofString "fmt -w needs a module with one source file, " ++
      source.path ++ Text.ofString " has " ++ Text.ofNat paths.length))

/-- Shows a module in its canonical form. -/
def formatModule (o : Options) (t : FileTree) (path : Text) : Action Unit := do
  let project ← Project.load o t path
  let (_, m) ← project.parse o t
  print m.render

/-- Puts the canonical form of a module in the place of its only source file. -/
def formatInPlace (o : Options) (t : FileTree) (path : Text) : Action Edit := do
  let project ← Project.load o t path
  let file ← ofExcept (onlyFile project.source)
  let (_, m) ← project.parse o t
  note o.verbose (Text.ofString "writing " ++ file)
  return { path := file, content := m.render }

/-- The class and the name that a query asks for; the class is empty if any will do. -/
def splitQuery (query : Text) : Text × Text := (Text.cut? 0x23 query).getD ([], query)

/-- Shows the locations of the definitions that match a query. -/
def findDefinitions (o : Options) (t : FileTree) (query path : Text) : Action Unit := do
  let project ← Project.load o t path
  let (files, m) ← project.parse o t
  let (className, name) := splitQuery query
  match (Index.ofDefinitions m.defs).lookup className name with
  | []    => throw (.plain (project.source.path ++ Text.ofString ": no def " ++ query))
  | found =>
    print (found.flatMap fun d => files.startOf d ++ Text.ofString ": " ++ d.describe ++ [0x0A])

/-! ### Many modules -/

/-- What is wrong with the source of a project. -/
def failureOf (t : FileTree) (p : Project) : Option Failure :=
  match (p.source.parse t p.precedence).2 with
  | .ok _    => none
  | .error e => some e

/-- The line about a project in a list of modules. -/
def entryOf (p : Project) : Option Failure → Text
  | none   => Project.okLine p.source.dir
  | some e => e.message

/-- Loads the modules beneath a directory. -/
def loadModules (o : Options) (t : FileTree) (path : Text) : Action (List Project) := do
  let config ← ofExceptWithin "failed to load config" (o.configFor t path)
  let dirs ← ofExcept (SourceModule.dirs t path config.ext)
  dirs.mapM (Project.load o t)

/-- Says what was found in each project, and fails if there is something wrong with any. -/
def reportOn (results : List (Project × Option Failure)) : Action Unit := do
  print (results.flatMap fun r => entryOf r.1 r.2 ++ [0x0A])
  let failed := results.filter fun r => r.2.isSome
  unless failed.isEmpty do
    throw (.plain (Text.ofNat failed.length ++ Text.ofString " of " ++
      Text.ofNat results.length ++ Text.ofString " modules failed"))

/-- Checks each module beneath a directory in a given way. All of them are loaded before the first
is parsed. -/
def listWith (o : Options) (t : FileTree) (path : Text)
    (failures : List Project → List (Option Failure)) : Action Unit := do
  let projects ← loadModules o t path
  reportOn (projects.zip (failures projects))

/-- Checks each module beneath a directory, one after the other. -/
def listModules (o : Options) (t : FileTree) (path : Text) : Action Unit :=
  listWith o t path fun projects => projects.map (failureOf t)

/-! ### Running -/

/-- Watches a module for as long as the signals go. -/
def watchModule (o : Options) (t : FileTree) (path : Text) (signals : List (FileTree × Signal)) :
    Action Unit := do
  let project ← Project.load o t path
  note o.verbose (Text.ofString "watching " ++ project.source.dir)
  project.watch o t signals

/-- Runs a command; the signals are for watching. -/
def run (o : Options) (t : FileTree) (signals : List (FileTree × Signal)) :
    Command → Action (Option Edit)
  | .parse path        => do showTrees o t path; return none
  | .check path        => do checkModule o t path; return none
  | .format false path => do formatModule o t path; return none
  | .format true path  => some <$> formatInPlace o t path
  | .find query path   => do findDefinitions o t query path; return none
  | .watch path        => do watchModule o t path signals; return none
  | .list path         => do listModules o t path; return none

end Command

end Frontend
