import Frontend.Text

/-!
# Source files and locations

The files of a compilation unit share one range of offsets: each file starts where the one before
it ends, so that a single number stands for a file and a place in it. `SourceFiles` turns offsets
back into paths, lines and columns. Lines and columns count from one, and columns count bytes.
-/

namespace Frontend

/-- A place or a range of places in a file, as lines and columns. -/
structure Location where
  path : Text
  startLine : Int
  startColumn : Int
  stopLine : Int
  stopColumn : Int
  deriving DecidableEq, Repr

/-- A location as shown in front of messages; a single place is shown once. -/
def Location.render (l : Location) : Text :=
  let start := l.path ++ 0x3A :: Text.ofInt l.startLine ++ 0x2E :: Text.ofInt l.startColumn
  if l.startLine = l.stopLine ∧ l.startColumn = l.stopColumn then start
  else start ++ 0x2D :: Text.ofInt l.stopLine ++ 0x2E :: Text.ofInt l.stopColumn

/-- A file within a set of files. -/
structure SourceFile where
  path : Text
  /-- The offset of the first byte of the file. -/
  offset : Nat
  length : Nat
  /-- The offsets of the line feeds of the file in increasing order. -/
  newlines : List Nat
  deriving DecidableEq, Repr

/-- The files of a compilation unit in the order they were added. -/
structure SourceFiles where
  files : List SourceFile := []
  deriving DecidableEq, Repr

namespace SourceFiles

/-- The total length of the files, which is the offset of the next one. -/
def length (fs : SourceFiles) : Nat :=
  match fs.files.getLast? with
  | some file => file.offset + file.length
  | none      => 0

/-- The offsets of the line feeds of a text that starts at the given offset. -/
def newlinesFrom (offset : Nat) : Text → List Nat
  | []     => []
  | b :: t =>
    if b = 0x0A then offset :: newlinesFrom (offset + 1) t else newlinesFrom (offset + 1) t

/-- Adds a file behind the others. -/
def add (fs : SourceFiles) (path text : Text) : SourceFiles :=
  ⟨fs.files ++ [⟨path, fs.length, text.length, newlinesFrom fs.length text⟩]⟩

/-- The last file that starts at or before an offset, or the first file if there is none. -/
def fileAt? (fs : SourceFiles) (p : Int) : Option SourceFile :=
  match fs.files.reverse.find? (fun file => (file.offset : Int) ≤ p) with
  | some file => some file
  | none      => fs.files.head?

end SourceFiles

namespace SourceFile

/-- The line and column of an offset in a file: the line feeds before it are counted, and the
column is the distance from the last of them or from the start of the file. -/
def lineColumn (file : SourceFile) (p : Int) : Int × Int :=
  let before := file.newlines.takeWhile fun (n : Nat) => (n : Int) < p
  match before.getLast? with
  | some n => (before.length + 1, p - n)
  | none   => (1, p - file.offset + 1)

end SourceFile

namespace SourceFiles

/-- The location of a range of offsets, if it lies within the files. The offset behind the last
byte still belongs to the last file. A range that ends in a file of another path is shown at its
start. -/
def locate? (fs : SourceFiles) (start stop : Int) : Option Location :=
  if start < 0 ∨ stop < start ∨ (fs.length : Int) < stop then none
  else
    match fs.fileAt? start, fs.fileAt? stop with
    | some first, some last =>
      let a := first.lineColumn start
      let b := if first.path = last.path then last.lineColumn stop else a
      some ⟨first.path, a.1, a.2, b.1, b.2⟩
    | _, _ => none

/-- The location of a single offset. -/
def at? (fs : SourceFiles) (p : Int) : Option Location := fs.locate? p p

end SourceFiles

end Frontend
