import Frontend.Parser.Scope

/-!
# Parsing expressions

Operators are parsed by precedence climbing: an operator takes the operands to its right that
bind tighter, and operators of equal precedence group to the left. A name is a call if an opening
parenthesis follows, an assignment if an equals sign does, and else a local variable, whose type
must be known. Messages group to the left.

The functions call each other, so they share a budget that goes down with every call. A call
that does not step over a token is followed by one that does within a fixed number of steps,
which is why `Parser.withBudget` gives enough.
-/

namespace Frontend.Parser

/-- The operand that a single token is. -/
def literal? (pos : Int) : Kind → Option Node
  | .number value => some (.int ⟨pos, pos⟩ value)
  | .string value => some (.string ⟨pos, pos⟩ value)
  | .selfWord     => some (.selfRef ⟨pos, pos⟩)
  | _             => none

open ParserState (routine raising)

variable {σ : Type} [ParserState σ] (prec : Precedence)

mutual

/-- An expression. -/
def expr : Nat → Scope → ParserOver σ Node
  | 0,     _ => fail .outOfBudget
  | n + 1, s => routine .expr do
    let left ← unary n s
    skipWhitespace
    routine (.binary 0) (binary n s 0 left)

/-- An operand with the operators in front of it. -/
def unary : Nat → Scope → ParserOver σ Node
  | 0,     _ => fail .outOfBudget
  | n + 1, s => routine .unary do
    let t ← current
    match t.kind with
    | .operator op => do
      advance
      let x ← unary n s
      return .call ⟨t.pos, x.stop⟩ (unaryWord ++ Text.ofCodePoint op) [x]
    | _ => primary n s

/-- An operand: an atom with the messages sent to it. -/
def primary : Nat → Scope → ParserOver σ Node
  | 0,     _ => fail .outOfBudget
  | n + 1, s => routine .primary do
    let x ← atom n s
    skipWhitespace
    let t ← token
    match t.kind with
    | .dot => routine .sends (sends n s x)
    | _ => return x

/-- An operand without messages. -/
def atom : Nat → Scope → ParserOver σ Node
  | 0,     _ => fail .outOfBudget
  | n + 1, s => do
    let t ← token
    match t.kind with
    | .identifier _ => named n s
    | .leftParen => paren n s
    | kind =>
      match literal? t.pos kind with
      | some x => do
        next
        return x
      | none => fail .unknownExpression

/-- The messages sent to a receiver. -/
def sends : Nat → Scope → Node → ParserOver σ Node
  | 0,     _, _    => fail .outOfBudget
  | n + 1, s, recv => do
    let t ← token
    match t.kind with
    | .dot => do
      next
      let u ← token
      match u.kind with
      | .identifier _ => do
        let msg ← named n s
        skipWhitespace
        sends n s (.send ⟨recv.start, msg.stop⟩ recv msg)
      | _ => fail .expectedMessage
    | _ => return recv

/-- A call, an assignment or a local variable. -/
def named : Nat → Scope → ParserOver σ Node
  | 0,     _ => fail .outOfBudget
  | n + 1, s => routine .named do
    let id ← token
    match id.kind with
    | .identifier name => do
      next
      skipWhitespace
      let t ← token
      match t.kind with
      | .leftParen => routine .call do
        advance
        let (args, stop) ← argList n s
        return .call ⟨id.pos, stop⟩ name args
      | .assign => do
        advance
        skipWhitespace
        let value ← expr n s
        return .assign ⟨id.pos, value.stop⟩ name value
      | _ =>
        match s.classOf name with
        | .ok className  => return .localVar ⟨id.pos, id.pos⟩ name (some (.undef className))
        | .error cause   => failAt cause id.pos
    | _ => fail .expectedIdentifier

/-- The arguments behind an opening parenthesis, of which there may be none, and the offset of
the closing one. -/
def argList : Nat → Scope → ParserOver σ (List Node × Int)
  | 0,     _ => fail .outOfBudget
  | n + 1, s => do
    skipWhitespace
    let t ← token
    match t.kind with
    | .rightParen => do
      next
      return ([], t.pos)
    | _ => args n s []

/-- The arguments up to the closing parenthesis, behind those found so far in reverse. -/
def args : Nat → Scope → List Node → ParserOver σ (List Node × Int)
  | 0,     _, _    => fail .outOfBudget
  | n + 1, s, done => do
    skipWhitespace
    let x ← expr n s
    skipWhitespace
    let t ← token
    match t.kind with
    | .rightParen => do
      next
      return ((x :: done).reverse, t.pos)
    | .comma => do
      next
      args n s (x :: done)
    | _ => fail .afterArgument

/-- An expression in parentheses, which leave no trace in the tree. A token must follow it. -/
def paren : Nat → Scope → ParserOver σ Node
  | 0,     _ => fail .outOfBudget
  | n + 1, s => routine .paren do
    let t ← current
    match t.kind with
    | .leftParen => do
      advance
      let x ← expr n s
      skipWhitespace
      let u ← current
      match u.kind with
      | .rightParen => do
        advance
        return x
      | _ => fail .expectedCloseParen
    | _ => fail .expectedOpenParen

/-- The operators behind a left operand whose precedence is at least the given one. The word `end`
stops them. Going on behind one of them is no call of its own. -/
def binary : Nat → Scope → Int → Node → ParserOver σ Node
  | 0,     _, _,     _    => fail .outOfBudget
  | n + 1, s, least, left => do
    let t ← token
    if t.kind = .endWord then return left
    else do
      let cur ← level prec
      let done ← atEnd
      if cur < least ∨ done then return left
      else do
        let t ← token
        match t.kind with
        | .operator op => do
          advance
          skipWhitespace
          let x ← unary n s
          let ahead ← level prec
          skipWhitespace
          let right ← tighter n s cur ahead x
          binary n s least (.binary ⟨left.start, right.stop⟩ op left right)
        | _ => fail .invalidOperator

/-- The right operand of an operator, extended by the operators ahead if they bind tighter. -/
def tighter : Nat → Scope → Int → Int → Node → ParserOver σ Node
  | 0,     _, _,   _,     _ => fail .outOfBudget
  | n + 1, s, cur, ahead, x =>
    if cur < ahead then raising cur (routine (.binary (cur + 1)) (binary n s (cur + 1) x))
    else return x

end

/-- An expression, with a budget of its own. -/
def expression (s : Scope) : ParserOver σ Node := withBudget fun n => expr prec n s

end Frontend.Parser
