import Frontend.Unit

/-!
# Source modules

A module is a source file, or a directory with the source files directly in it. All of its files
are parsed together as one compilation unit.
-/

namespace Frontend

/-- The source of a module. -/
structure SourceModule where
  /-- The last element of the path, without the ending of source files. -/
  name : Text
  /-- The absolute path of the source file or directory. -/
  path : Text
  /-- The directory of the source files. -/
  dir : Text
  /-- The paths of the source files, sorted. -/
  files : List Text
  /-- The ending of source files, with its dot. -/
  ext : Text
  deriving DecidableEq, Repr

namespace SourceModule

/-- The paths of the files directly in a directory whose names end in the given way. -/
def sourcesIn (dir ext : Text) (entries : List (Text × Entry)) : List Text :=
  Text.sorted ((entries.filter fun e => !e.2.isDirectory && ext.isSuffixOf e.1).map fun e =>
    Path.join dir e.1)

/-- The module at a path. -/
def load (t : FileTree) (path ext : Text) : Except Failure SourceModule :=
  let full := Path.resolve t.workingDir path
  let name := Text.stripEnding ext (Path.base full)
  match t.stat full with
  | .error e            => .error e
  | .ok (.file _)       => .ok ⟨name, full, Path.dir full, [full], ext⟩
  | .ok (.directory es) => .ok ⟨name, full, full, sourcesIn full ext es, ext⟩

/-- A file at a path would be a source file of the module, whether it exists or not. -/
def isSource (m : SourceModule) (path : Text) : Bool :=
  if m.path = m.dir then Path.dir (Path.clean path) = m.dir && m.ext.isSuffixOf path
  else Path.clean path = m.path

/-! ### Parsing -/

/-- Parses the files of a module. The files that were read are given in both cases. -/
def parse (t : FileTree) (m : SourceModule) (prec : Precedence) :
    SourceFiles × Except Failure Module :=
  match CompilationUnit.addFiles t m.files {} with
  | (u, some e) => (u.files, .error e)
  | (u, none)   => (u.files, u.parse prec)

/-! ### Module directories -/

mutual

/-- The directories at or beneath a directory of some path that hold source files, sorted. -/
def dirsBeneath (ext : Text) (path : Text) : Entry → List Text
  | .file _       => []
  | .directory es =>
    let own := es.any fun e => !e.2.isDirectory && ext.isSuffixOf (Path.join path e.1)
    Text.sorted (dirsAmong ext path es ++ if own then [path] else [])

/-- The directories with source files at or beneath the entries of a directory. -/
def dirsAmong (ext : Text) (path : Text) : List (Text × Entry) → List Text
  | []             => []
  | (name, e) :: es => dirsBeneath ext (Path.join path name) e ++ dirsAmong ext path es

end

/-- The directories at or beneath a path that hold source files, sorted. -/
def dirs (t : FileTree) (path ext : Text) : Except Failure (List Text) :=
  match t.stat path with
  | .error e => .error e
  | .ok e    => .ok (dirsBeneath ext path e)

end SourceModule

end Frontend
