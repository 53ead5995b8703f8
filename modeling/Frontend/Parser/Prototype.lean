import Frontend.Parser.Cursor
import Frontend.Tree

/-!
# Parsing signatures

A signature starts behind the word `def` with a blank run and the name. A line end may follow
directly; otherwise there are parameters in parentheses and, perhaps, a result type behind an
arrow. Whitespace inside the parentheses is free except between a name and its type.
-/

namespace Frontend.Parser

open ParserState (routine)

variable {σ : Type} [ParserState σ]

/-- The type name behind an arrow. -/
def resultTypeName : ParserOver σ (Option BaseType) := do
  let t ← token
  match t.kind with
  | .constant name => do
    next
    return some (.named name)
  | _ => fail .expectedResultType

/-- What follows the parameters: a line end, or an arrow and the result type. -/
def resultType : ParserOver σ (Option BaseType) := do
  let t ← current
  match t.kind with
  | .newline => do
    next
    return none
  | .arrow => do
    next
    resultTypeName
  | .space => do
    next
    let t ← token
    match t.kind with
    | .arrow => do
      next
      skipSpace
      resultTypeName
    | .newline => do
      next
      return none
    | _ => fail .expectedArrow
  | _ => fail .afterParams

/-- A name and its type. -/
def param : ParserOver σ Param := do
  let t ← token
  match t.kind with
  | .identifier name => do
    advance
    skipSpace
    let u ← token
    match u.kind with
    | .constant type => do
      advance
      return ⟨name, some (.named type)⟩
    | _ => fail .expectedParamType
  | _ => fail .expectedParamName

/-- The parameters up to the closing parenthesis, behind those found so far in reverse. -/
def params : Nat → List Param → ParserOver σ (List Param)
  | 0,     _    => fail .outOfBudget
  | n + 1, done => do
    skipWhitespace
    let p ← param
    skipWhitespace
    let t ← token
    match t.kind with
    | .rightParen => do
      next
      return (p :: done).reverse
    | .comma => do
      next
      params n (p :: done)
    | _ => fail .afterParam

/-- The parameters behind an opening parenthesis, of which there may be none. -/
def paramList : ParserOver σ (List Param) := do
  skipWhitespace
  let t ← token
  match t.kind with
  | .rightParen => do
    next
    return []
  | _ => withBudget fun n => params n []

/-- The signature behind the word `def`. -/
def prototype : ParserOver σ Prototype := routine .prototype do
  let t ← current
  match t.kind with
  | .space => do
    next
    let t ← token
    match t.kind with
    | .identifier name => do
      advance
      skipSpace
      let t ← token
      match t.kind with
      | .leftParen => do
        next
        let ps ← paramList
        let r ← resultType
        return { name := name, params := ps, result := r }
      | .newline => do
        next
        return { name := name }
      | _ => fail .afterDefName
    | _ => fail .expectedDefName
  | _ => fail .spaceAfterDef

end Frontend.Parser
