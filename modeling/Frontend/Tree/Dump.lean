import Frontend.Tree
import Frontend.Text.Quoted

/-!
# Dumping trees

A dump shows every field of a tree on a line of its own, with four blanks per level. What is
missing or an empty list is left out, and a record with a single scalar field stands on one line.

Quoted strings in a dump pass through directive expansion without arguments: a percent sign opens
a directive, and a directive that asks for an argument shows that it is missing.
-/

namespace Frontend

/-! ### Directives -/

namespace Directive

/-- The marks that may follow a percent sign. -/
def isFlag (b : UInt8) : Bool := b == 0x2B || b == 0x2D || b == 0x23 || b == 0x20 || b == 0x30

/-- Drops a width or precision. A number beyond a million takes everything behind it along. -/
def dropNumber : Nat → Text → Text
  | _, []     => []
  | n, b :: t =>
    if 0x30 ≤ b && b ≤ 0x39 then
      if 1000000 < n then [] else dropNumber (10 * n + (b.toNat - 0x30)) t
    else b :: t

/-- The directive so far, while its parts are read. -/
structure State where
  /-- What it has put out already. -/
  out : Text := []
  /-- It names an argument by its number, and there are none. -/
  badIndex : Bool := false
  /-- The number of an argument came last. -/
  afterIndex : Bool := false

/-- Reads the number of an argument in brackets, if there is one. -/
def argumentNumber (s : State) (t : Text) : State × Text :=
  match t with
  | 0x5B :: rest =>
    let inside := rest.takeWhile (· != 0x5D)
    if t.length < 3 ∨ inside.length = rest.length then
      ({ s with badIndex := true, afterIndex := false }, rest)
    else
      let proper := inside != [] && dropNumber 0 inside == []
      ({ s with badIndex := true, afterIndex := proper }, rest.drop (inside.length + 1))
  | _ => ({ s with afterIndex := false }, t)

/-- Reads the width. -/
def width (s : State) (t : Text) : State × Text :=
  match t with
  | 0x2A :: rest =>
    ({ s with out := s.out ++ Text.ofString "%!(BADWIDTH)", afterIndex := false }, rest)
  | _ => (s, dropNumber 0 t)

/-- Reads the precision. -/
def precision (s : State) (t : Text) : State × Text :=
  match t with
  | 0x2E :: rest =>
    match argumentNumber s rest with
    | (s, 0x2A :: rest) =>
      ({ s with out := s.out ++ Text.ofString "%!(BADPREC)", afterIndex := false }, rest)
    | (s, rest) => (s, dropNumber 0 rest)
  | _ => (s, t)

/-- Puts out a directive, given what follows its percent sign, and gives what follows it. -/
def expandOne (t : Text) : Text × Text :=
  let (s, t) := argumentNumber {} (t.dropWhile isFlag)
  let (s, t) := width s t
  let (s, t) := precision s t
  let (s, t) := if s.afterIndex then (s, t) else argumentNumber s t
  match t with
  | []        => (s.out ++ Text.ofString "%!(NOVERB)", [])
  | b :: rest =>
    let (code, rest) := (Text.decode? (b :: rest)).getD (Text.replacement, rest)
    if b = 0x25 then (s.out ++ [0x25], rest)
    else
      let fault := if s.badIndex then Text.ofString "(BADINDEX)" else Text.ofString "(MISSING)"
      (s.out ++ 0x25 :: 0x21 :: Text.ofCodePoint code ++ fault, rest)

/-- A text with its directives expanded; a step may not consume more than the text holds. -/
def expandAll : Nat → Text → Text
  | 0,     _ => []
  | n + 1, t =>
    let plain := t.takeWhile (· != 0x25)
    match t.dropWhile (· != 0x25) with
    | []        => plain
    | _ :: rest =>
      let (out, rest) := expandOne rest
      plain ++ out ++ expandAll n rest

/-- A text with its directives expanded. -/
def expand (t : Text) : Text := expandAll (t.length + 1) t

end Directive

/-! ### Layout -/

/-- What a dump shows. -/
inductive Dump
  | scalar (text : Text)
  | record (type : String) (fields : List (String × Dump))
  | list (items : List Dump)
  deriving Repr, Inhabited

namespace Dump

/-- The value is a scalar. -/
def isScalar : Dump → Bool
  | .scalar _ => true
  | _         => false

/-- The value is an empty list, which is not shown. -/
def isEmpty : Dump → Bool
  | .list [] => true
  | _        => false

/-- The start of a line at some level. -/
def lineStart (level : Nat) : Text := 0x0A :: List.replicate (4 * level) 0x20

mutual

/-- A value at some level. -/
def render (level : Nat) : Dump → Text
  | .scalar text        => text
  | .record type fields =>
    Text.ofString type ++ 0x7B ::
      (match fields with
        | []                     => []
        | [(name, .scalar text)] => Text.ofString name ++ Text.ofString ": " ++ text
        | _                      => renderFields (level + 1) fields ++ lineStart level) ++ [0x7D]
  | .list items         => 0x5B :: renderItems (level + 1) items ++ lineStart level ++ [0x5D]

/-- The fields of a record, each on a line of its own. -/
def renderFields (level : Nat) : List (String × Dump) → Text
  | []                 => []
  | (name, value) :: fs =>
    lineStart level ++ Text.ofString name ++ Text.ofString ": " ++ render level value ++
      renderFields level fs

/-- The items of a list, each on a line of its own. -/
def renderItems (level : Nat) : List Dump → Text
  | []      => []
  | d :: ds => lineStart level ++ render level d ++ renderItems level ds

end

/-! ### Trees as dumps -/

/-- A record without the fields that are not shown. -/
def ofFields (type : String) (fields : List (String × Option Dump)) : Dump :=
  .record type (fields.filterMap fun (name, value) =>
    match value with
    | some d => if d.isEmpty then none else some (name, d)
    | none   => none)

/-- A string, quoted and with its directives expanded. -/
def ofText (t : Text) : Dump := .scalar (Directive.expand t.quote)

/-- A truth value. -/
def ofBool (b : Bool) : Dump := .scalar (Text.ofString (if b then "true" else "false"))

/-- A type. -/
def ofType : BaseType → Dump
  | .int        => ofFields "IntType" []
  | .string     => ofFields "StringType" []
  | .void       => ofFields "VoidType" []
  | .undef name => ofFields "Undef" [("Name", some (ofText name))]

/-- A parameter. -/
def ofParam (p : Param) : Dump :=
  ofFields "Arg" [("Name", some (ofText p.name)), ("Type", p.type.map ofType)]

/-- A signature. -/
def ofPrototype (p : Prototype) : Dump :=
  ofFields "Prototype" [("Name", some (ofText p.name)),
    ("Args", some (.list (p.params.map ofParam))), ("Ret", p.result.map ofType),
    ("IsOp", some (ofBool p.isOperator)), ("Prec", some (.scalar (Text.ofInt p.precedence)))]

mutual

/-- A node. -/
def ofNode : Node → Dump
  | .module _ body => ofFields "Module" [("Body", some (.list (ofNodes body)))]
  | .classBlock _ name body =>
    ofFields "Class" [("Name", some (ofText name)), ("Body", some (.list (ofNodes body)))]
  | .traitBlock _ name body =>
    ofFields "Trait" [("Name", some (ofText name)), ("Body", some (.list (ofNodes body)))]
  | .implBlock _ name body =>
    ofFields "Impl" [("Name", some (ofText name)), ("Body", some (.list (ofNodes body)))]
  | .definition _ isMain proto body className implName =>
    ofFields "Def" [("MainFn", some (ofBool isMain)), ("Proto", some (ofPrototype proto)),
      ("Body", some (.list (ofNodes body))), ("ClassName", some (ofText className)),
      ("ImplName", some (ofText implName))]
  | .assign _ name value =>
    ofFields "AssignLocalVar" [("Name", some (ofText name)), ("Value", some (ofNode value))]
  | .localVar _ name type =>
    ofFields "LocalVar" [("Name", some (ofText name)), ("Type", type.map ofType)]
  | .binary _ op left right =>
    ofFields "Binary" [("Op", some (.scalar (Text.ofInt op))), ("Left", some (ofNode left)),
      ("Right", some (ofNode right))]
  | .call _ fn args =>
    ofFields "Call" [("Fn", some (ofText fn)), ("Args", some (.list (ofNodes args)))]
  | .send _ recv msg =>
    ofFields "Send" [("Recv", some (ofNode recv)), ("Msg", some (ofNode msg))]
  | .int _ value => ofFields "Int" [("Value", some (.scalar (Text.ofNat value.toNat)))]
  | .string _ value => ofFields "InterpolableString" [("Value", some (ofText value))]
  | .selfRef _ => ofFields "SelfRef" []

/-- The nodes of a body. -/
def ofNodes : List Node → List Dump
  | []      => []
  | n :: ns => ofNode n :: ofNodes ns

end

end Dump

/-- The dump of a definition. -/
def Definition.dump (d : Definition) : Text := (Dump.ofNode d.toNode).render 0

end Frontend
