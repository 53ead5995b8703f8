import Frontend.CommandLine

/-!
# The program

Reads the files that a command is about into a file tree, runs the command on it, and does to the
outside what the command asks for. Under the name `listingName` the program lists the syntax trees
of the files that are its arguments, or of its input; under any other name it reads a command line.
-/

namespace Frontend.Program

/-! ### Files -/

/-- A path as the file system takes it. -/
def nameOf (path : Text) : String := (String.fromUTF8? ⟨path.toArray⟩).getD ""

/-- Takes what is at a path into a tree, with as many levels of directories as are asked for. -/
def take : Nat → FileTree → Text → IO FileTree
  | levels, t, path => do
    let place := (← IO.currentDir) / nameOf path
    if ← place.isDir then
      let t := t.makeDirectory path
      match levels with
      | 0          => return t
      | levels + 1 =>
        let names := (← place.readDir).toList.map fun e => Text.ofString e.fileName
        names.foldlM (fun t name => take levels t (Path.join path name)) t
    else if ← place.pathExists then
      return t.write path (← IO.FS.readBinFile place).toList
    else return t

/-- The levels of directories beneath which modules are listed. -/
def allLevels : Nat := 200

/-- The path that a command is about, and the levels of directories that it looks into. -/
def scope : Command → Text × Nat
  | .parse path    => (path, 1)
  | .check path    => (path, 1)
  | .format _ path => (path, 1)
  | .find _ path   => (path, 1)
  | .watch path    => (path, 1)
  | .list path     => (path, allLevels)

/-- The part of the file system that a command can see. -/
def treeFor (o : Options) (c : Command) : IO FileTree := do
  let t : FileTree := { workingDir := Text.ofString (← IO.currentDir).toString }
  let t ← take 0 (t.makeDirectory t.workingDir) o.config
  let t ← take 1 t (Path.dir (scope c).1)
  take (scope c).2 t (scope c).1

/-! ### Output -/

/-- Writes what is on a console. -/
def flush (c : Console) : IO Unit := do
  (← IO.getStdout).write ⟨c.out.toArray⟩
  (← IO.getStderr).write ⟨c.notes.toArray⟩

/-- Writes a text and a line end to a stream. -/
def writeLine (stream : IO.FS.Stream) (t : Text) : IO Unit := stream.write ⟨(t ++ [0x0A]).toArray⟩

/-- What is shown on a request for help. -/
def help : String :=
  "Usage:
  nillac [flags] parse <module dir or file>
  nillac [flags] check <module dir or file>
  nillac [flags] fmt [-w] <module dir or file>
  nillac [flags] find <name or Class#name> <module dir or file>
  nillac [flags] watch <module dir or file>
  nillac [flags] list <directory>

Flags:
      --config string   config file (default: the one in the module directory)
  -h, --help            help for nillac
  -v, --verbose         enable verbose output"

/-! ### Watching -/

/-- The content of the file under a name. -/
def contentOf (t : FileTree) (path : Text) : Option Text := (t.read path).toOption

/-- What has happened to the files in a directory from one tree to another. -/
def eventsBetween (old new : FileTree) (dir : Text) : List Event :=
  let names (t : FileTree) := ((t.entry dir).toOption.map Entry.entries).getD [] |>.map (·.1)
  (names old ++ (names new).filter fun n => !(names old).contains n).filterMap fun name =>
    let path := Path.join dir name
    match contentOf old path, contentOf new path with
    | none,   some _ => some ⟨path, [.create]⟩
    | some _, none   => some ⟨path, [.remove]⟩
    | some a, some b => if a = b then none else some ⟨path, [.write]⟩
    | none,   none   => none

/-- Looks for changes from time to time and answers them. -/
partial def keepWatching (o : Options) (c : Command) (old : FileTree) (p : Project) : IO Unit := do
  IO.sleep 500
  let new ← treeFor o c
  let mut current := p
  for e in eventsBetween old new p.source.dir do
    let (result, console) := (current.onEvent o new e).runOn {}
    flush console
    current := result.toOption.getD current
  keepWatching o c new current

/-! ### The two programs -/

/-- The name under which the program only lists syntax trees. -/
def listingName : String := "nilla"

/-- Runs a command and says whether it has succeeded. -/
def runCommand (o : Options) (c : Command) : IO UInt32 := do
  let t ← treeFor o c
  let (result, console) := (c.run o t []).runOn {}
  flush console
  match result with
  | .error e =>
    writeLine (← IO.getStderr) e.message
    return 1
  | .ok edit =>
    if let some e := edit then
      IO.FS.writeBinFile (nameOf e.path) ⟨e.content.toArray⟩
    if let .watch path := c then
      if let (.ok p, _) := (Project.load o t path).runOn {} then keepWatching o c t p
    return 0

/-- Reads a command line and runs the command. -/
def runCommandLine (args : List Text) : IO UInt32 := do
  match CommandLine.read args with
  | .error e =>
    writeLine (← IO.getStderr) e.message
    return 1
  | .ok .help =>
    IO.println help
    return 0
  | .ok (.command o c) => runCommand o c

/-- Lists the syntax trees of files, or of the input if there are none. -/
def runListing (paths : List Text) : IO UInt32 := do
  let cwd := Text.ofString (← IO.currentDir).toString
  let t ← paths.foldlM (take 0) ({ workingDir := cwd } : FileTree)
  let input ← if paths.isEmpty then (← IO.getStdin).readBinToEnd else pure ByteArray.empty
  match CompilationUnit.listingOf t paths input.toList with
  | .ok listing =>
    (← IO.getStdout).write ⟨listing.toArray⟩
    return 0
  | .error e =>
    writeLine (← IO.getStdout) e.message
    return 1

end Frontend.Program

/-- Runs the program that is called. -/
def main (args : List String) : IO UInt32 := do
  let words := args.map Frontend.Text.ofString
  if (← IO.appPath).fileName == some Frontend.Program.listingName then
    Frontend.Program.runListing words
  else Frontend.Program.runCommandLine words
