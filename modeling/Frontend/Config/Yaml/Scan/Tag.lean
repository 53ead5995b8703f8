import Frontend.Config.Yaml.Scan

/-!
# Names, tags and directives of YAML

A tag is a text of bytes: beside the characters that stand for themselves there are bytes in
hexadecimal behind a percent sign, which must come in whole UTF-8 sequences.
-/

namespace Frontend.Yaml.Scanner

/-- The value of two hexadecimal digits. -/
def hexByte? (a b : Char) : Option UInt8 := (Text.natOfDigits? 16 [a, b]).map Nat.toUInt8

/-- Reads a name behind its indicator. It ends at a gap or at one of some indicators. -/
def name : Scanner (List Char) := do
  skip
  let cs ← takeWhile isNameChar
  let c ← char
  if cs ≠ [] ∧ (isGap c || "?:,]\x7d%@`".toList.contains c) then return cs else failure

/-- Reads a byte behind a percent sign. -/
def escapedByte : Scanner UInt8 := do
  need 3
  let c ← char
  let a ← charAt 1
  let b ← charAt 2
  match hexByte? a b with
  | none      => failure
  | some byte =>
    if c == '%' then do
      skipBy 3
      return byte
    else failure

/-- Reads so many bytes that each continue a UTF-8 sequence, in reverse behind others. -/
def escapedTail : Nat → Text → Scanner Text
  | 0,     done => return done
  | n + 1, done => do
    let b ← escapedByte
    if Text.isTail b then escapedTail n (b :: done) else failure

/-- Reads the bytes of a UTF-8 sequence, in reverse behind others. -/
def escapedSequence (done : Text) : Scanner Text := do
  let b ← escapedByte
  match Start.utf8Width? b with
  | some width => escapedTail (width - 1) (b :: done)
  | none       => failure

/-- Reads what can stand in a tag, in reverse behind other bytes. -/
def tagBytes : Nat → Text → Scanner Text
  | 0,     _    => failure
  | n + 1, done => do
    need 1
    let c ← char
    if c == '%' then do
      let done ← escapedSequence done
      tagBytes n done
    else if isTagChar c then do
      skip
      tagBytes n (c.toNat.toUInt8 :: done)
    else return done

/-- Reads the rest of a tag behind its first bytes. -/
def tagRest (start : Text) : Scanner Text := do
  let s ← get
  let bytes ← tagBytes s.budget start.reverse
  return bytes.reverse

/-- Reads a part of a tag that must not be empty. -/
def tagPart : Scanner Text := do
  let bytes ← tagRest []
  if bytes = [] then failure else return bytes

/-- Reads an exclamation mark, a name behind it, and another exclamation mark if there is one. -/
def tagHandle : Scanner (List Char) := do
  need 1
  let c ← char
  if c == '!' then do
    skip
    let cs ← takeWhile isNameChar
    let d ← char
    if d == '!' then do
      skip
      return '!' :: cs ++ ['!']
    else return '!' :: cs
  else failure

/-- A handle that ends with an exclamation mark of its own. -/
def isClosed (handle : List Char) : Bool := 1 < handle.length && handle.getLast? == some '!'

/-- Reads a tag. -/
def tag : Scanner Token := do
  need 2
  let d ← charAt 1
  let t ← if d == '<' then do
      skipBy 2
      let bytes ← tagPart
      let c ← char
      if c == '>' then do
        skip
        pure (Token.tag [] bytes)
      else failure
    else do
      let handle ← tagHandle
      if isClosed handle then do
        let bytes ← tagPart
        pure (Token.tag (Text.ofChars handle) bytes)
      else do
        let bytes ← tagRest (Text.ofChars (handle.drop 1))
        pure (if bytes = [] then .tag [] (Text.ofString "!") else .tag (Text.ofString "!") bytes)
  need 1
  let c ← char
  if isGap c then return t else failure

/-! ### Directives -/

/-- Reads a number of one or two digits. -/
def versionNumber : Scanner Nat := do
  let cs ← takeWhile Char.isDigit
  match Text.natOfDigits? 10 cs with
  | some n => if cs.length ≤ 2 then return n else failure
  | none   => failure

/-- Reads the version in a directive. -/
def version : Scanner Token := do
  skipWhile isBlank
  let major ← versionNumber
  let c ← char
  if c == '.' then do
    skip
    let minor ← versionNumber
    return .versionDirective major minor
  else failure

/-- Reads what a handle stands for in a directive. -/
def tagDefinition : Scanner Token := do
  skipWhile isBlank
  let handle ← tagHandle
  need 1
  let c ← char
  if isBlank c ∧ (isClosed handle || handle = ['!']) then do
    skipWhile isBlank
    let start ← tagPart
    let c ← char
    if isGap c then return .tagDirective (Text.ofChars handle) start else failure
  else failure

/-- Reads a directive, which must be one that is known, to the end of its line. -/
def directive : Scanner Token := do
  skip
  let cs ← takeWhile isNameChar
  let c ← char
  if isGap c then do
    let t ← if cs = "YAML".toList then version
      else if cs = "TAG".toList then tagDefinition
      else failure
    skipWhile isBlank
    let c ← char
    if c == '#' then skipWhile fun c => !isLineEnd c
    let c ← char
    if isLineEnd c then do
      if isBreak c then do
        need 2
        skipBreak
      return t
    else failure
  else failure

end Frontend.Yaml.Scanner
