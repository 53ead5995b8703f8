import Frontend.Text

/-!
# Paths

Slash-separated paths and the lexical operations on them. A path is cleaned by walking over its
elements with a stack: empty elements and dots are dropped, and two dots take back the element
before them.
-/

namespace Frontend.Path

/-- The separator of path elements. -/
def slash : UInt8 := 0x2F

/-- The element that stands for the directory itself. -/
def dot : Text := [0x2E]

/-- The element that stands for the parent directory. -/
def dotDot : Text := [0x2E, 0x2E]

/-- The path of the root directory. -/
def root : Text := [slash]

/-- A path is absolute if it starts with the separator. -/
def isAbsolute (p : Text) : Bool := p.head? == some slash

/-- The elements of a path between separators. -/
def elements (p : Text) : List Text := Text.split slash p

/-- Puts an element on the stack of the elements so far, the last of them on top. -/
def push (absolute : Bool) (stack : List Text) (element : Text) : List Text :=
  if element = [] ∨ element = dot then stack
  else if element = dotDot then
    match stack with
    | []          => if absolute then [] else [dotDot]
    | top :: rest => if top = dotDot then dotDot :: top :: rest else rest
  else element :: stack

/-- The elements of a cleaned path. -/
def cleanElements (p : Text) : List Text :=
  ((elements p).foldl (push (isAbsolute p)) []).reverse

/-- The shortest path with the same meaning. -/
def clean (p : Text) : Text :=
  match isAbsolute p, cleanElements p with
  | true,  es => slash :: Text.join root es
  | false, [] => dot
  | false, es => Text.join root es

/-- The part of a path behind its last separator. -/
def afterSlash (p : Text) : Text := (p.reverse.takeWhile (· != slash)).reverse

/-- The part of a path up to its last separator, which is included. -/
def throughSlash (p : Text) : Text := (p.reverse.dropWhile (· != slash)).reverse

/-- The last element of a path; separators at the end do not count. -/
def base (p : Text) : Text :=
  if p = [] then dot
  else
    match (p.reverse.dropWhile (· == slash)).reverse with
    | []      => root
    | trimmed => afterSlash trimmed

/-- All but the last element of a path, cleaned. What follows the last separator is the last
element here, even if it is empty. -/
def dir (p : Text) : Text := clean (throughSlash p)

/-- Two paths one behind the other, cleaned. Empty ones are left out. -/
def join (a b : Text) : Text :=
  match a, b with
  | [], [] => []
  | [], _  => clean b
  | _,  [] => clean a
  | _,  _  => clean (a ++ slash :: b)

/-- The ending of the last element of a path, from its last dot on. -/
def extension (p : Text) : Text :=
  let name := afterSlash p
  if name.contains 0x2E then 0x2E :: (name.reverse.takeWhile (· != 0x2E)).reverse else []

/-- An absolute path for a path that is meant from a working directory. The parent of the path is
cleaned, and its last element is then attached to it. -/
def resolve (workingDir p : Text) : Text :=
  if p = root then root
  else if p = dot then workingDir
  else
    let parent := if isAbsolute (dir p) then dir p else join workingDir (dir p)
    if base p = dot then parent
    else if base p = dotDot then dir parent
    else join parent (base p)

end Frontend.Path
