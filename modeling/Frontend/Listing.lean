import Frontend.Tree.Dump
import Frontend.Unit

/-!
# Listings

A listing shows the syntax trees of definitions, each below a line with the location where the
definition starts.
-/

namespace Frontend

/-- The location where a definition starts, as text. -/
def SourceFiles.startOf (files : SourceFiles) (d : Definition) : Text :=
  match files.at? d.start with
  | some l => l.render
  | none   => []

/-- The location line and the syntax tree of a definition. -/
def SourceFiles.listing (files : SourceFiles) (d : Definition) : Text :=
  files.startOf d ++ 0x0A :: d.dump ++ [0x0A]

namespace CompilationUnit

/-- The listing of the definitions of a unit, with an empty line at its end. -/
def listing (u : CompilationUnit) : Except Failure Text :=
  match u.parse Precedence.builtin with
  | .error e => .error e
  | .ok m    => .ok (m.defs.flatMap u.files.listing ++ [0x0A])

/-- The listing of the definitions in the files at some paths, or in a text of no path if there
are none. -/
def listingOf (t : FileTree) (paths : List Text) (input : Text) : Except Failure Text :=
  match if paths.isEmpty then ({} : CompilationUnit).add [] input else addFiles t paths {} with
  | (_, some e) => .error e
  | (u, none)   => u.listing

end CompilationUnit

end Frontend
