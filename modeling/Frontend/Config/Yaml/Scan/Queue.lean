import Frontend.Config.Yaml.Scan.Scalar
import Frontend.Config.Yaml.Scan.Tag

/-!
# The tokens of a YAML text in order

A token is only given out when the two behind it have been found, and when it is settled that no
key starts with it. So an error shows as soon as it is two tokens ahead, and not before that.
-/

namespace Frontend.Yaml.Scanner

/-- Closes all blocks. -/
def closeAll : Scanner Unit := do
  closeBlocks (-1)
  dropKey
  allowKey false

/-- Ends the text. It can be ended more than once. -/
def endStream : Scanner Unit := do
  modify fun s =>
    if s.mark.column = 0 then s
    else { s with mark := { s.mark with line := s.mark.line + 1, column := 0 } }
  closeAll
  push .streamEnd

/-- Reads a directive, which closes all blocks. -/
def takeDirective : Scanner Unit := do
  closeAll
  let t ← directive
  push t

/-- Reads a mark between documents, which closes all blocks. -/
def takeMark (t : Token) : Scanner Unit := do
  closeAll
  skipBy 3
  push t

/-- Reads an indicator of one character. -/
def indicator (t : Token) : Scanner Unit := do
  skip
  push t

/-- Opens a bracket or brace. -/
def openFlow (t : Token) : Scanner Unit := do
  saveKey
  let number ← nextNumber
  let s ← get
  if maxFlow ≤ s.flow then failure
  else do
    set { s with keys := { token := number, mark := s.mark } :: s.keys, flow := s.flow + 1 }
    allowKey true
    indicator t

/-- Closes a bracket or brace. -/
def closeFlow (t : Token) : Scanner Unit := do
  dropKey
  let p ← keyPlace
  let s ← get
  if 0 < s.flow then do
    set { s with keys := s.keys.tail, flow := s.flow - 1 }
    forget p.token
  allowKey false
  indicator t

/-- Reads a mark that opens an entry of a block, if one may start here. -/
def takeEntry (block entry : Token) (keyFollows : Bool) : Scanner Unit := do
  let s ← get
  if s.flow = 0 ∧ !s.keyAllowed then failure
  else do
    openBlock s.mark.column none block
    dropKey
    allowKey keyFollows
    indicator entry

/-- Reads the colon behind a key. The tokens for the key go before what it starts with. -/
def takeValue : Scanner Unit := do
  let s ← get
  let ends ← keyEndsHere s.flow
  let p ← keyPlace
  if ends then do
    insert p.token .key
    openBlock p.mark.column (some p.token) .blockMappingStart
    setKeyPlace { p with possible := false }
    forget p.token
    allowKey false
    indicator .value
  else if s.flow = 0 ∧ !s.keyAllowed then failure
  else do
    openBlock s.mark.column none .blockMappingStart
    allowKey (s.flow = 0)
    indicator .value

/-- Reads something that may be a key. -/
def takeKeyable (read : Scanner Token) : Scanner Unit := do
  saveKey
  allowKey false
  let t ← read
  push t

/-- Reads a block scalar, behind which a key may start. -/
def takeBlockScalar (literal : Bool) : Scanner Unit := do
  dropKey
  allowKey true
  let t ← blockScalar literal
  push t

/-- A plain scalar may start with a character, together with the one behind it. -/
def startsPlain (flow : Nat) (c d : Char) : Bool :=
  if c == '-' then !isBlank d
  else if c == '?' || c == ':' then flow = 0 && !isGap d
  else !(isGap c || ",[]\x7b\x7d#&*!|>'\"%@`".toList.contains c)

/-- Reads the token that starts with a character. -/
def takeToken (flow : Nat) (c d : Char) : Scanner Unit :=
  if c == '[' then openFlow .flowSequenceStart
  else if c == '\x7b' then openFlow .flowMappingStart
  else if c == ']' then closeFlow .flowSequenceEnd
  else if c == '\x7d' then closeFlow .flowMappingEnd
  else if c == ',' then do
    dropKey
    allowKey true
    indicator .flowEntry
  else if c == '-' && isGap d then takeEntry .blockSequenceStart .blockEntry true
  else if c == '?' && (0 < flow || isGap d) then takeEntry .blockMappingStart .key (flow = 0)
  else if c == ':' && (0 < flow || isGap d) then takeValue
  else if c == '*' then takeKeyable (Token.alias <$> name)
  else if c == '&' then takeKeyable (Token.anchor <$> name)
  else if c == '!' then takeKeyable tag
  else if (c == '|' || c == '>') && flow = 0 then takeBlockScalar (c == '|')
  else if c == '\'' || c == '"' then takeKeyable (quotedScalar c)
  else if startsPlain flow c d then takeKeyable plainScalar
  else failure

/-- Finds the next token, which may bring others with it. -/
def fetch : Scanner Unit := do
  need 1
  let s ← get
  skipGap s.budget
  let s ← get
  closeBlocks s.mark.column
  need 4
  let mark ← atDocumentMark
  let c ← char
  let d ← charAt 1
  if c == nul then endStream
  else if s.mark.column = 0 && c == '%' then takeDirective
  else if mark then takeMark (if c == '-' then .documentStart else .documentEnd)
  else do
    takeToken s.flow c d
    let s ← get
    if s.queue.getLast? != some .blockEntry then skipLineComment

/-- A key may still turn out to start with the next token. -/
def isHeld : Scanner Bool := do
  let s ← get
  match s.depths.lookup s.taken with
  | some depth => keyEndsHere depth
  | none       => return false

/-- Finds tokens until the next one can be given out. -/
def fetchMore : Nat → Scanner Unit
  | 0     => failure
  | n + 1 => do
    let s ← get
    let held ← match s.queue with
      | _ :: _ :: _ :: _ => isHeld
      | _                => pure true
    if held then do
      fetch
      fetchMore n

/-- The next token. -/
def peek : Scanner Token := do
  let s ← get
  if !s.ready then fetchMore s.budget
  modify fun s => { s with ready := true }
  let s ← get
  return s.queue.headD .streamEnd

/-- Takes the next token, which must have been looked at. -/
def advance : Scanner Unit := modify fun s =>
  { s with
    queue := s.queue.tail
    taken := s.taken + 1
    ready := false
    depths := s.depths.filter fun d => s.taken < d.1 }

end Frontend.Yaml.Scanner
