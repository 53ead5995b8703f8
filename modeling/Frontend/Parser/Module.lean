import Frontend.Parser.Prototype
import Frontend.Parser.Expression

/-!
# Parsing modules

A module is a sequence of definitions, classes and traits. The members of a class are definitions
and impl blocks, those of a trait and of an impl block are definitions. Blocks leave no nodes of
their own: their names are stamped on the definitions inside.

An `end` closes a definition only if that has statements. Directly behind a signature it is left
to the block around it, so that a trait can declare a method without defining it.
-/

namespace Frontend

namespace Parser

open ParserState (routine)

variable {σ : Type} [ParserState σ] (prec : Precedence)

/-- The statements of a definition, behind those found so far in reverse, up to the `end`. -/
def statements : Nat → Prototype → List Node → ParserOver σ (List Node)
  | 0,     _,     _    => fail .outOfBudget
  | n + 1, proto, done => do
    skipWhitespace
    let t ← current
    match t.kind with
    | .endWord =>
      match done with
      | []     => return []
      | _ :: _ => do
        next
        return done.reverse
    | _ => do
      let x ← expression prec ⟨proto.params, done⟩
      statements n proto (x :: done)

/-- The name of the definition where a program starts. -/
def mainName : Text := Text.ofString "main"

/-- A definition in the blocks of the given names. -/
def definition (className implName : Text) : ParserOver σ Definition := routine .definition do
  let t ← token
  next
  let proto ← prototype
  skipWhitespace
  let body ← withBudget fun n => statements prec n proto []
  let stop ← lastPos
  return ⟨⟨t.pos, stop⟩, proto.name = mainName, proto, body, className, implName⟩

/-- The name of a block and the line end behind it. -/
def blockName (noName noNewline : Cause) : ParserOver σ Text := do
  skipSpace
  let t ← current
  match t.kind with
  | .constant name => do
    advance
    skipSpace
    let u ← token
    match u.kind with
    | .newline => do
      next
      return name
    | _ => fail noNewline
  | _ => fail noName

/-- The members of a block that holds only definitions, behind those found so far in reverse, up
to its `end`. -/
def members (className implName : Text) (stray : Cause) :
    Nat → List Definition → ParserOver σ (List Definition)
  | 0,     _    => fail .outOfBudget
  | n + 1, done => do
    skipWhitespace
    let t ← current
    match t.kind with
    | .defWord => do
      let d ← definition prec className implName
      members className implName stray n (d :: done)
    | .endWord => do
      next
      return done.reverse
    | _ => fail stray

/-- An impl block in a class. -/
def implBlock (className : Text) : ParserOver σ (List Definition) := routine .implBlock do
  next
  let name ← blockName .expectedImplName .newlineAfterImplName
  withBudget fun n => members prec className name .expectedImplMember n []

/-- The members of a class, behind those found so far in reverse, up to its `end`. -/
def classMembers (className : Text) : Nat → List Definition → ParserOver σ (List Definition)
  | 0,     _    => fail .outOfBudget
  | n + 1, done => do
    skipWhitespace
    let t ← current
    match t.kind with
    | .defWord => do
      let d ← definition prec className []
      classMembers className n (d :: done)
    | .implWord => do
      let ds ← implBlock prec className
      classMembers className n (ds.reverse ++ done)
    | .endWord => do
      next
      return done.reverse
    | _ => fail .expectedClassMember

/-- A class, as the definitions inside it. -/
def classBlock : ParserOver σ (List Definition) := routine .classBlock do
  next
  let name ← blockName .expectedClassName .newlineAfterClassName
  withBudget fun n => classMembers prec name n []

/-- A trait, as the definitions inside it, which carry its name as that of their class. -/
def traitBlock : ParserOver σ (List Definition) := routine .traitBlock do
  next
  let name ← blockName .expectedTraitName .newlineAfterTraitName
  withBudget fun n => members prec name [] .expectedTraitMember n []

/-- The items of a module up to the end of the input, behind the definitions found so far in
reverse. -/
def items : Nat → List Definition → ParserOver σ (List Definition)
  | 0,     _    => fail .outOfBudget
  | n + 1, done => do
    skipWhitespace
    let finished ← atEnd
    if finished then return done.reverse
    else do
      let t ← current
      match t.kind with
      | .classWord => do
        let ds ← classBlock prec
        items n (ds.reverse ++ done)
      | .traitWord => do
        let ds ← traitBlock prec
        items n (ds.reverse ++ done)
      | .defWord => do
        let d ← definition prec [] []
        items n (d :: done)
      | _ => fail .expectedItem

/-- All definitions of a token stream. -/
def definitions : ParserOver σ (List Definition) := withBudget fun n => items prec n []

end Parser

/-- The span from the first to the last token of a stream. -/
def Span.ofTokens (tokens : List Token) : Span :=
  match tokens.head?, tokens.getLast? with
  | some first, some last => ⟨first.pos, last.pos⟩
  | _,          _         => ⟨-1, -1⟩

/-- The module that a token stream spells, or the first error. -/
def parse (prec : Precedence) (tokens : List Token) : Except SyntaxError Module :=
  match Parser.definitions prec (Cursor.ofTokens tokens) with
  | .ok defs _   => .ok ⟨.ofTokens tokens, defs⟩
  | .error e _ => .error e

end Frontend
