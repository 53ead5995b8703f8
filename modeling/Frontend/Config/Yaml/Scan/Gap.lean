import Frontend.Config.Yaml.Scan

/-!
# Between YAML tokens

Blanks, comments and line breaks. A comment right behind a token is stepped over together with it.
Comments on lines of their own are stepped over together as well, up to the last one, if the next
one starts within 512 characters; inside of that stretch tabs may stand anywhere.
-/

namespace Frontend.Yaml.Scanner

/-- How far ahead a comment is looked for. -/
def commentReach : Nat := 512

/-- Steps over everything up to a given index and from there to the end of the line. -/
def skipComment (start : Nat) : Nat → Scanner Unit
  | 0     => failure
  | n + 1 => do
    need 1
    let c ← char
    let s ← get
    if isLineEnd c then
      if start ≤ s.mark.index then return ()
      else do
        need 2
        skipBreak
        skipComment start n
    else do
      skip
      skipComment start n

/-- Steps over comments, the first of which is looked for at some distance. The line break behind
the last one is left. A line break of more than one byte ends the search for another comment, but
the character behind it must be valid. -/
def skipComments : Nat → (distance : Nat) → Scanner Unit
  | 0,     _        => failure
  | n + 1, distance =>
    if commentReach ≤ distance then return ()
    else do
      need (distance + 1)
      let c ← charAt distance
      if isBlank c || c == '\n' || c == '\r' then skipComments n (distance + 1)
      else if c == '#' then do
        let s ← get
        skipComment (s.mark.index + distance) s.budget
        let c ← char
        if c.toNat < 0x80 then skipComments n 1 else need 2
      else if isBreak c && distance + 1 < commentReach then need (distance + 2)
      else return ()

/-- Steps over a comment behind blanks, the first of which is looked at at some distance. -/
def skipCommentOnLine : Nat → (distance : Nat) → Scanner Unit
  | 0,     _        => failure
  | n + 1, distance =>
    if commentReach ≤ distance then return ()
    else do
      need (distance + 1)
      let c ← charAt distance
      let s ← get
      if isBlank c then skipCommentOnLine n (distance + 1)
      else if c == '#' then skipComment (s.mark.index + distance) s.budget
      else return ()

/-- Steps over a comment that follows a token on its line. -/
def skipLineComment : Scanner Unit := do
  let s ← get
  if s.breaks = 0 then skipCommentOnLine s.budget 0

/-- Steps over blanks, comments and line breaks. Tabs only count as blanks where no key may start.
At the start of a line one more character is stepped over if the characters that are at hand
started with a byte order mark when they were taken. -/
def skipGap : Nat → Scanner Unit
  | 0     => failure
  | n + 1 => do
    need 1
    let s ← get
    if s.mark.column = 0 && s.source.anchor == byteOrderMark then skip
    skipWhile fun c => c == ' ' || (c == '\t' && (0 < s.flow || !s.keyAllowed))
    let c ← char
    if c == '#' then skipComments s.budget 0
    let c ← char
    if isBreak c then do
      need 2
      skipBreak
      if s.flow = 0 then allowKey true
      skipGap n

end Frontend.Yaml.Scanner
