import Frontend.Config.Yaml.Token

/-!
# Scanning a YAML text

The state in which the tokens of a text are found, and the steps that change it. That something
is the key of a mapping is only known at the colon behind it. So the places where a key may have
started are remembered, the tokens from there on are held back, and the tokens for the key are
put in before them later.
-/

namespace Frontend.Yaml

/-- A place in a text. -/
structure Mark where
  index : Nat := 0
  line : Nat := 0
  column : Nat := 0
  deriving DecidableEq, Repr

/-- A place where a key may have started. -/
structure KeyPlace where
  /-- The number of the token that starts there. -/
  token : Nat := 0
  mark : Mark := {}
  /-- Nothing but a key can stand there. -/
  required : Bool := false
  /-- It has not turned out that there is no key, or that the place has served its purpose. -/
  possible : Bool := false
  deriving DecidableEq, Repr

/-- How many characters behind its start the colon of a key may be at most. -/
def maxKey : Nat := 1024

/-- No key that started at a place can end at another one: it must be on one line and short. -/
def KeyPlace.isStale (p : KeyPlace) (m : Mark) : Bool :=
  p.mark.line < m.line || p.mark.index + maxKey < m.index

/-- The state of a scan. -/
structure Scan where
  source : Source
  mark : Mark := {}
  /-- How many line breaks were passed since the last character that is not a blank. -/
  breaks : Nat := 0
  /-- The column of the innermost block, `-1` outside of all blocks. -/
  indent : Int := -1
  /-- The columns of the blocks around it. -/
  outer : List Int := []
  /-- How many brackets and braces are open. -/
  flow : Nat := 0
  /-- A key may start here. -/
  keyAllowed : Bool := true
  /-- Where a key may have started, for each open bracket and for what is outside of all of them,
  the innermost first. -/
  keys : List KeyPlace := [{}]
  /-- For the numbers of tokens with which a key may start, how many brackets are around them. -/
  depths : List (Nat × Nat) := []
  /-- The tokens that were found and not taken. -/
  queue : List Token := []
  /-- The number of tokens that were taken. -/
  taken : Nat := 0
  /-- The next token can be taken. -/
  ready : Bool := false
  /-- More than the number of steps that can be done in a row. -/
  budget : Nat
  deriving Repr

/-- The start of a text. -/
def Scan.ofText (t : Text) : Scan :=
  let source := Source.ofText t
  { source := source, budget := source.size + 16 }

/-- A step of a scan, which fails where the text makes no sense. -/
abbrev Scanner := StateT Scan Option

namespace Scanner

/-! ### Characters -/

/-- Makes sure that so many characters are at hand. -/
def need (n : Nat) : Scanner Unit := fun s =>
  (s.source.need n).map fun source => ((), { s with source := source })

/-- The character at some distance, which must be at hand. -/
def charAt (i : Nat) : Scanner Char := fun s => some (s.source.get i, s)

/-- The next character, which must be at hand. -/
def char : Scanner Char := charAt 0

/-- Steps over a character within a line. -/
def skip : Scanner Unit := modify fun s =>
  { s with
    source := s.source.drop 1
    mark := { s.mark with index := s.mark.index + 1, column := s.mark.column + 1 }
    breaks := if isBlank (s.source.get 0) then s.breaks else 0 }

/-- Steps over so many characters within a line. -/
def skipBy : Nat → Scanner Unit
  | 0     => return ()
  | n + 1 => do
    skip
    skipBy n

/-- Steps over a line break. It may take two characters. -/
def skipBreak : Scanner Unit := modify fun s =>
  let width := if s.source.get 0 == '\r' && s.source.get 1 == '\n' then 2 else 1
  if isBreak (s.source.get 0) then
    { s with
      source := s.source.drop width
      mark := ⟨s.mark.index + width, s.mark.line + 1, 0⟩
      breaks := s.breaks + 1 }
  else s

/-- Steps over a line break, if there is one, and returns it as it counts in a scalar. -/
def takeBreak : Scanner (List Char) := do
  need 2
  let c ← char
  skipBreak
  return if isBreak c then [breakChar c] else []

/-- Reads characters of a class, in reverse behind those found so far. -/
def takeOnto (p : Char → Bool) : Nat → List Char → Scanner (List Char)
  | 0,     _    => failure
  | n + 1, done => do
    need 1
    let c ← char
    if p c then do
      skip
      takeOnto p n (c :: done)
    else return done

/-- Reads characters of a class. The next character is at hand then. -/
def takeWhile (p : Char → Bool) : Scanner (List Char) := do
  let s ← get
  let cs ← takeOnto p s.budget []
  return cs.reverse

/-- Steps over characters of a class. The next character is at hand then. -/
def skipWhile (p : Char → Bool) : Scanner Unit := do
  let _ ← takeWhile p

/-- The line starts with a mark between documents. Four characters must be at hand. -/
def atDocumentMark : Scanner Bool := fun s =>
  let c := s.source.get 0
  some (s.mark.column == 0 && (c == '-' || c == '.') && s.source.get 1 == c &&
    s.source.get 2 == c && isGap (s.source.get 3), s)

/-! ### Tokens -/

/-- Adds a token. -/
def push (t : Token) : Scanner Unit := modify fun s => { s with queue := s.queue ++ [t] }

/-- Puts a token before the one with a given number. If that one was taken, it is added. -/
def insert (number : Nat) (t : Token) : Scanner Unit := modify fun s =>
  if number < s.taken then { s with queue := s.queue ++ [t] }
  else
    let before := number - s.taken
    { s with queue := s.queue.take before ++ t :: s.queue.drop before }

/-- How many blocks can be inside each other. -/
def maxBlocks : Nat := 10000

/-- How many brackets and braces can be inside each other. -/
def maxFlow : Nat := 10000

/-- Opens a block at a column if that is deeper than the current block. The token for it goes to
the end, or before the one with a given number. -/
def openBlock (column : Nat) (before : Option Nat) (t : Token) : Scanner Unit := do
  let s ← get
  if s.flow = 0 ∧ s.indent < column then
    if maxBlocks ≤ s.outer.length then failure
    else do
      set { s with indent := column, outer := s.indent :: s.outer }
      match before with
      | some number => insert number t
      | none        => push t

/-- Closes the blocks of a stack that are deeper than a column, and counts them. -/
def closeFrom (column : Int) : Int → List Int → Nat → Int × List Int × Nat
  | indent, [],            closed => (indent, [], closed)
  | indent, next :: outer, closed =>
    if column < indent then closeFrom column next outer (closed + 1)
    else (indent, next :: outer, closed)

/-- Closes the blocks that are deeper than a column. -/
def closeBlocks (column : Int) : Scanner Unit := modify fun s =>
  if s.flow = 0 then
    let (indent, outer, closed) := closeFrom column s.indent s.outer 0
    { s with
      indent := indent
      outer := outer
      queue := s.queue ++ List.replicate closed .blockEnd }
  else s

/-! ### Keys -/

/-- Says whether a key may start here. -/
def allowKey (allowed : Bool) : Scanner Unit := modify fun s => { s with keyAllowed := allowed }

/-- Whether a key can end here that started with so many brackets around it. If it cannot, its
place is given up. -/
def keyEndsHere (depth : Nat) : Scanner Bool := do
  let s ← get
  let i := s.flow - depth
  match s.keys[i]? with
  | none   => failure
  | some p =>
    if !p.possible then return false
    else if !p.isStale s.mark then return true
    else if p.required then failure
    else do
      set { s with keys := s.keys.set i { p with possible := false } }
      return false

/-- The place where a key may have started, inside the brackets that are open. -/
def keyPlace : Scanner KeyPlace := fun s => some (s.keys.headD {}, s)

/-- Sets the place where a key may have started, inside the brackets that are open. -/
def setKeyPlace (p : KeyPlace) : Scanner Unit := modify fun s =>
  { s with keys := p :: s.keys.tail }

/-- The number of the token that is found next. -/
def nextNumber : Scanner Nat := fun s => some (s.taken + s.queue.length, s)

/-- Forgets that a key may start with a token. -/
def forget (number : Nat) : Scanner Unit := modify fun s =>
  { s with depths := s.depths.filter fun d => d.1 != number }

/-- Gives up the place where a key may have started, if a key was not required there. -/
def dropKey : Scanner Unit := do
  let p ← keyPlace
  if p.possible then
    if p.required then failure
    else do
      setKeyPlace { p with possible := false }
      forget p.token

/-- Remembers this place as one where a key may start, if it may. -/
def saveKey : Scanner Unit := do
  let s ← get
  if s.keyAllowed then do
    let number ← nextNumber
    dropKey
    setKeyPlace ⟨number, s.mark, s.flow = 0 && s.indent = s.mark.column, true⟩
    modify fun s => { s with depths := (number, s.flow) :: s.depths }

end Scanner

end Frontend.Yaml
