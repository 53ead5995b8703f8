import Frontend.Project

/-!
# Watching a module

A module that is watched is checked at first and then after each change to one of its source
files. Every check starts from the file tree as it is then, so its answer does not depend on the
changes before. The operator precedences are those of the first load.
-/

namespace Frontend

/-- What can happen to a file. -/
inductive Change
  | create
  | remove
  | write
  | rename
  | attributes
  deriving DecidableEq, Repr

namespace Change

/-- All changes in the order in which they are named. -/
def all : List Change := [.create, .remove, .write, .rename, .attributes]

/-- The word for a change. -/
def name : Change → Text
  | .create     => Text.ofString "CREATE"
  | .remove     => Text.ofString "REMOVE"
  | .write      => Text.ofString "WRITE"
  | .rename     => Text.ofString "RENAME"
  | .attributes => Text.ofString "CHMOD"

/-- The change can make a difference to the content of source files. -/
def mattersToSource : Change → Bool
  | .attributes => false
  | _           => true

end Change

/-- Changes to the file at a path that are reported together. -/
structure Event where
  path : Text
  changes : List Change
  deriving DecidableEq, Repr

/-- An event on one line: the changes in a column of its own, then the path. -/
def Event.render (e : Event) : Text :=
  let names := Text.join [0x7C] ((Change.all.filter (· ∈ e.changes)).map Change.name)
  names ++ List.replicate (13 - names.length) 0x20 ++ 0x20 :: Text.quote e.path

/-- What the one who watches is told. -/
inductive Signal
  /-- Something happened to a file. -/
  | event (e : Event)
  /-- There is nothing more to watch for. -/
  | stop
  /-- Watching has failed. -/
  | broken (why : Failure)
  deriving DecidableEq, Repr

namespace Project

open Frontend.Action

/-- Checks a project and says whether it is in order. -/
def recheck (o : Options) (t : FileTree) (p : Project) : Action Unit := do
  try
    let _ ← p.parse o t
    printLine (okLine p.source.name)
  catch e =>
    printLine e.message

/-- The event concerns the project: a source file was made, written, removed or renamed. -/
def concerns (p : Project) (e : Event) : Bool :=
  p.source.isSource e.path && e.changes.any Change.mattersToSource

/-- Answers an event with a check, if it concerns the project. The source is loaded again, since
its set of files may have changed; if that fails the project stays as it was. -/
def onEvent (o : Options) (t : FileTree) (p : Project) (e : Event) : Action Project := do
  if p.concerns e then
    note o.verbose e.render
    match SourceModule.load t p.source.path p.source.ext with
    | .error failure =>
      printLine failure.message
      return p
    | .ok source =>
      let p := { p with source }
      p.recheck o t
      return p
  else return p

/-- Answers a signal. There is no project to go on with once watching is over. -/
def onSignal (o : Options) (t : FileTree) (p : Project) : Signal → Action (Option Project)
  | .event e     => some <$> p.onEvent o t e
  | .stop        => return none
  | .broken why  => throw why

/-- Answers signals, each of them with the tree as it is then, until watching is over. -/
def answer (o : Options) : Project → List (FileTree × Signal) → Action Unit
  | _, []           => return
  | p, (t, s) :: ss => do
    match ← p.onSignal o t s with
    | some p => p.answer o ss
    | none   => return

/-- Watches a project: checks it in the first tree and then answers signals. -/
def watch (o : Options) (t : FileTree) (p : Project) (ss : List (FileTree × Signal)) :
    Action Unit := do
  p.recheck o t
  p.answer o ss

end Project

end Frontend
