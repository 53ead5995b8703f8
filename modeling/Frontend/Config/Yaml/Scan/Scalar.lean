import Frontend.Config.Yaml.Scan.Gap

/-!
# Scalars in a YAML text

Plain scalars, scalars in quotes, and block scalars. Inside of the first two, line breaks are
folded: a single one counts as a blank, and of several ones the first does not count.
-/

namespace Frontend.Yaml.Scanner

/-! ### Gaps in a scalar -/

/-- Blanks and line breaks inside a scalar, of which it is not known yet whether they count. The
lists are in reverse. -/
structure Gap where
  /-- The blanks, as long as there is no line break. -/
  blanks : List Char := []
  /-- The first line break. -/
  first : List Char := []
  /-- The line breaks behind the first. -/
  more : List Char := []
  /-- There is a line break. -/
  broken : Bool := false

/-- Puts what a gap comes to behind characters in reverse. -/
def Gap.onto (g : Gap) (done : List Char) : List Char :=
  if g.broken then
    if g.first = ['\n'] then if g.more = [] then ' ' :: done else g.more ++ done
    else g.more ++ g.first ++ done
  else g.blanks ++ done

/-- Reads a gap. Tabs are refused at the start of a line before a given column. -/
def gap (least : Int) : Nat → Gap → Scanner Gap
  | 0,     _ => failure
  | n + 1, g => do
    need 1
    let c ← char
    let s ← get
    if isBlank c then
      if g.broken && s.mark.column < least && c == '\t' then failure
      else do
        skip
        gap least n (if g.broken then g else { g with blanks := c :: g.blanks })
    else if isBreak c then do
      let text ← takeBreak
      gap least n
        (if g.broken then { g with more := text ++ g.more } else { first := text, broken := true })
    else return g

/-! ### Plain scalars -/

/-- A character that ends a plain scalar, together with the one behind it. -/
def endsPlain (flow : Nat) (c d : Char) : Bool :=
  (c == ':' && isGap d) || (0 < flow && ",?[]\x7b\x7d".toList.contains c)

/-- Reads characters of a plain scalar up to a gap or to its end, in reverse behind others. -/
def plainWord : Nat → List Char → Scanner (List Char)
  | 0,     _    => failure
  | n + 1, done => do
    let c ← char
    let d ← charAt 1
    let s ← get
    if isGap c || endsPlain s.flow c d then return done
    else do
      skip
      need 2
      plainWord n (c :: done)

/-- Ends a plain scalar behind a gap. A key may follow if it is on another line. -/
def endPlain (done : List Char) (g : Gap) : Scanner (List Char) := do
  if g.broken then allowKey true
  return done.reverse

/-- Reads a plain scalar behind characters in reverse and a gap. -/
def plainFrom : Nat → List Char → Gap → Scanner (List Char)
  | 0,     _,    _ => failure
  | n + 1, done, g => do
    need 4
    let s ← get
    let mark ← atDocumentMark
    let c ← char
    if mark || c == '#' then endPlain done g
    else do
      let word ← plainWord s.budget []
      let (done, g) : List Char × Gap := if word = [] then (done, g) else (word ++ g.onto done, {})
      let c ← char
      if isBlank c || isBreak c then do
        let g ← gap (s.indent + 1) s.budget g
        let s ← get
        if s.flow = 0 && s.mark.column < s.indent + 1 then endPlain done g else plainFrom n done g
      else endPlain done g

/-- Reads a plain scalar. -/
def plainScalar : Scanner Token := do
  let s ← get
  let text ← plainFrom s.budget [] {}
  return .scalar text true

/-! ### Scalars in quotes -/

/-- What the letter behind a backslash stands for: a character, or the number of digits that
give one. -/
def escapeChar? (c : Char) : Option (Sum Char Nat) :=
  match c with
  | '0'  => some (.inl '\x00')
  | 'a'  => some (.inl '\x07')
  | 'b'  => some (.inl '\x08')
  | 't'  => some (.inl '\t')
  | '\t' => some (.inl '\t')
  | 'n'  => some (.inl '\n')
  | 'v'  => some (.inl '\x0b')
  | 'f'  => some (.inl '\x0c')
  | 'r'  => some (.inl '\r')
  | 'e'  => some (.inl '\x1b')
  | ' '  => some (.inl ' ')
  | '"'  => some (.inl '"')
  | '\'' => some (.inl '\'')
  | '\\' => some (.inl '\\')
  | 'N'  => some (.inl '\x85')
  | '_'  => some (.inl '\xa0')
  | 'L'  => some (.inl '\u2028')
  | 'P'  => some (.inl '\u2029')
  | 'x'  => some (.inr 2)
  | 'u'  => some (.inr 4)
  | 'U'  => some (.inr 8)
  | _    => none

/-- Reads so many hexadecimal digits as a character. -/
def codePoint (width : Nat) : Scanner Char := do
  need width
  let cs ← (List.range width).mapM charAt
  match Text.natOfDigits? 16 cs with
  | none      => failure
  | some code =>
    if Text.isScalar code then do
      skipBy width
      return Char.ofNat code
    else failure

/-- Reads the character for which a backslash and what follows it stand. -/
def escape : Scanner Char := do
  let d ← charAt 1
  skipBy 2
  match escapeChar? d with
  | some (.inl e)     => return e
  | some (.inr width) => codePoint width
  | none              => failure

/-- Reads characters in quotes up to a gap or to the closing quote, in reverse behind others. A
line break behind a backslash counts as a gap that has been started. -/
def quotedWord (quote : Char) : Nat → List Char → Scanner (List Char × Gap)
  | 0,     _    => failure
  | n + 1, done => do
    let c ← char
    let d ← charAt 1
    if isGap c then return (done, {})
    else if c == quote then
      if quote == '\'' && d == '\'' then do
        skipBy 2
        need 2
        quotedWord quote n (c :: done)
      else return (done, {})
    else if c == '\\' && quote == '"' then
      if isBreak d then do
        need 3
        skip
        skipBreak
        return (done, { broken := true })
      else do
        let e ← escape
        need 2
        quotedWord quote n (e :: done)
    else do
      skip
      need 2
      quotedWord quote n (c :: done)

/-- Reads a scalar in quotes to its end, behind characters in reverse. -/
def quotedFrom (quote : Char) : Nat → List Char → Scanner (List Char)
  | 0,     _    => failure
  | n + 1, done => do
    need 4
    let s ← get
    let mark ← atDocumentMark
    let c ← char
    if mark || c == nul then failure
    else do
      let (done, g) ← quotedWord quote s.budget done
      need 1
      let c ← char
      if c == quote then do
        skip
        return done.reverse
      else do
        let g ← gap (-1) s.budget g
        quotedFrom quote n (g.onto done)

/-- Reads a scalar in quotes. -/
def quotedScalar (quote : Char) : Scanner Token := do
  let s ← get
  skip
  let text ← quotedFrom quote s.budget []
  return .scalar text false

/-! ### Block scalars -/

/-- What happens to the line breaks at the end of a block scalar. -/
inductive Chomp
  | strip
  | clip
  | keep
  deriving DecidableEq, Repr

/-- The indicator for what happens to the line breaks at the end. -/
def Chomp.ofChar? (c : Char) : Option Chomp :=
  if c == '+' then some .keep else if c == '-' then some .strip else none

/-- Reads the indicator for what happens to the line breaks at the end, if there is one. -/
def chomp? : Scanner (Option Chomp) := do
  need 1
  let c ← char
  match Chomp.ofChar? c with
  | some chomp => do
    skip
    return some chomp
  | none => return none

/-- Reads a digit other than zero, if there is a digit. -/
def depth? : Scanner (Option Nat) := do
  need 1
  let c ← char
  if c.isDigit then
    if c == '0' then failure
    else do
      skip
      return some (c.toNat - 0x30)
  else return none

/-- Reads the header of a block scalar: how its end is treated and how deep it is indented, in
either order. -/
def blockHeader : Scanner (Chomp × Option Nat) := do
  let first ← chomp?
  let depth ← depth?
  let second ← if first.isNone && depth.isSome then chomp? else pure none
  return ((first <|> second).getD .clip, depth)

/-- Reads empty lines and the indentation of the next line of a block scalar, whose column is given
unless it is zero. The result are the line breaks in reverse behind others, and the greatest column
that was reached. -/
def blockBreaks (indent : Nat) : Nat → List Char → Nat → Scanner (List Char × Nat)
  | 0,     _,    _       => failure
  | n + 1, done, deepest => do
    need 1
    let c ← char
    let s ← get
    let outside : Bool := indent = 0 || s.mark.column < indent
    if outside && c == ' ' then do
      skip
      blockBreaks indent n done deepest
    else
      let deepest := max deepest s.mark.column
      if outside && c == '\t' then failure
      else if isBreak c then do
        let text ← takeBreak
        blockBreaks indent n (text ++ done) deepest
      else return (done, deepest)

/-- The text of a block scalar while it is read. The lists are in reverse. -/
structure BlockText where
  done : List Char := []
  /-- The line break behind the last line. -/
  first : List Char := []
  /-- The line breaks behind that one. -/
  more : List Char := []
  /-- The last line started with a blank. -/
  blank : Bool := false

/-- Puts the line breaks behind the last line, before a line that starts with a character. In a
folded scalar a single line break between lines without a blank at their start is a blank. -/
def BlockText.join (b : BlockText) (literal : Bool) (c : Char) : List Char :=
  if !literal && !b.blank && !isBlank c && b.first == ['\n'] then
    if b.more = [] then ' ' :: b.done else b.more ++ b.done
  else b.more ++ b.first ++ b.done

/-- Reads the lines of a block scalar at a column. -/
def blockLines (literal : Bool) (indent : Nat) : Nat → BlockText → Scanner BlockText
  | 0,     _ => failure
  | n + 1, b => do
    need 1
    let c ← char
    let s ← get
    if s.mark.column = indent ∧ c ≠ nul then do
      let done ← takeOnto (fun c => !isLineEnd c) s.budget (b.join literal c)
      let first ← takeBreak
      let (more, _) ← blockBreaks indent s.budget [] 0
      blockLines literal indent n ⟨done, first, more, isBlank c⟩
    else return b

/-- The text of a block scalar with its end treated. -/
def BlockText.chomped (b : BlockText) : Chomp → List Char
  | .strip => b.done.reverse
  | .clip  => (b.first ++ b.done).reverse
  | .keep  => (b.more ++ b.first ++ b.done).reverse

/-- Reads a block scalar. -/
def blockScalar (literal : Bool) : Scanner Token := do
  skip
  let (chomp, depth) ← blockHeader
  skipWhile isBlank
  let c ← char
  if c == '#' then skipWhile fun c => !isLineEnd c
  let c ← char
  if isLineEnd c then do
    if isBreak c then do
      need 2
      skipBreak
    let s ← get
    let given := match depth with
      | some d => if 0 ≤ s.indent then s.indent.toNat + d else d
      | none   => 0
    let (more, deepest) ← blockBreaks given s.budget [] 0
    let indent := if given = 0 then max deepest (max (s.indent + 1).toNat 1) else given
    let b ← blockLines literal indent s.budget { more := more }
    return .scalar (b.chomped chomp) false
  else failure

end Frontend.Yaml.Scanner
