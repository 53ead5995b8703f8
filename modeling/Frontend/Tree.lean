import Frontend.Text

/-!
# Syntax trees

`Node` is the type of everything that can be written as source. The parser only produces
`Definition`s, whose bodies hold expressions: it flattens classes, traits and impl blocks into
the names that are stamped on the definitions inside them. Trees built by hand may nest the
nodes in any way.
-/

namespace Frontend

/-- The offsets of the first and of the last token of a node, `-1` where they are not known. -/
structure Span where
  start : Int
  stop : Int
  deriving DecidableEq, Repr, Inhabited

/-- The type of a parameter, a result or a local variable. -/
inductive BaseType
  | int
  | string
  /-- The type of no value. -/
  | void
  /-- A type given by its name, which nothing has resolved yet. -/
  | undef (name : Text)
  deriving DecidableEq, Repr, Inhabited

namespace BaseType

/-- The name of a type as written in source. -/
def className : BaseType → Text
  | .int        => Text.ofString "Int"
  | .string     => Text.ofString "Str"
  | .void       => []
  | .undef name => name

/-- The type that a name in source stands for. -/
def named (name : Text) : BaseType :=
  if name = Text.ofString "Str" then .string
  else if name = Text.ofString "Int" then .int
  else .undef name

end BaseType

/-- The name of a type that may be missing, which then has an empty name. -/
def classNameOf : Option BaseType → Text
  | some type => type.className
  | none      => []

/-- A named parameter with its type. -/
structure Param where
  name : Text
  type : Option BaseType
  deriving DecidableEq, Repr, Inhabited

/-- The signature of a definition. -/
structure Prototype where
  name : Text
  params : List Param := []
  /-- The result type, if one is given. -/
  result : Option BaseType := none
  isOperator : Bool := false
  /-- The precedence of an operator definition. -/
  precedence : Int := 0
  deriving DecidableEq, Repr, Inhabited

/-- A piece of source. -/
inductive Node
  | module (span : Span) (body : List Node)
  | classBlock (span : Span) (name : Text) (body : List Node)
  | traitBlock (span : Span) (name : Text) (body : List Node)
  /-- The implementation of a trait by the class around it. -/
  | implBlock (span : Span) (name : Text) (body : List Node)
  | definition (span : Span) (isMain : Bool) (proto : Prototype) (body : List Node)
      (className implName : Text)
  | assign (span : Span) (name : Text) (value : Node)
  | localVar (span : Span) (name : Text) (type : Option BaseType)
  | binary (span : Span) (op : Int) (left right : Node)
  /-- A call of a named function. An operator in front of its operand is a call of the function
  named `unary` with the operator behind it. -/
  | call (span : Span) (fn : Text) (args : List Node)
  /-- A message sent to a receiver. -/
  | send (span : Span) (recv msg : Node)
  | int (span : Span) (value : UInt64)
  | string (span : Span) (value : Text)
  | selfRef (span : Span)
  deriving Repr, Inhabited

namespace Node

/-- The span of a node. -/
def span : Node → Span
  | .module s _                 => s
  | .classBlock s _ _           => s
  | .traitBlock s _ _           => s
  | .implBlock s _ _            => s
  | .definition s _ _ _ _ _     => s
  | .assign s _ _               => s
  | .localVar s _ _             => s
  | .binary s _ _ _             => s
  | .call s _ _                 => s
  | .send s _ _                 => s
  | .int s _                    => s
  | .string s _                 => s
  | .selfRef s                  => s

/-- The offset of the first token of a node. -/
def start (n : Node) : Int := n.span.start

/-- The offset of the last token of a node. -/
def stop (n : Node) : Int := n.span.stop

end Node

/-- The word in front of an operator in the name of the function that it calls. -/
def unaryWord : Text := Text.ofString "unary"

/-- A letter, digit or underscore. -/
def isNameByte (b : UInt8) : Bool :=
  (0x61 ≤ b && b ≤ 0x7A) || (0x41 ≤ b && b ≤ 0x5A) || (0x30 ≤ b && b ≤ 0x39) || b == 0x5F

/-- The operator of a call that stands for an operator in front of its operand: the call has one
argument, and its name is `unary` and a single byte that cannot belong to a name. -/
def prefixOperator? (fn : Text) (args : List Node) : Option UInt8 :=
  match args with
  | [_] =>
    match fn.drop unaryWord.length with
    | [op] => if unaryWord.isPrefixOf fn && !isNameByte op then some op else none
    | _    => none
  | _ => none

/-- A function or method definition. -/
structure Definition where
  span : Span
  /-- The definition is the entry point of a program. -/
  isMain : Bool
  proto : Prototype
  body : List Node
  /-- The class or trait around the definition, empty at the top level. -/
  className : Text
  /-- The trait of the impl block around the definition, empty outside of one. -/
  implName : Text
  deriving Repr, Inhabited

namespace Definition

/-- A definition as a node. -/
def toNode (d : Definition) : Node :=
  .definition d.span d.isMain d.proto d.body d.className d.implName

/-- The offset of the first token of a definition. -/
def start (d : Definition) : Int := d.span.start

end Definition

/-- The definition that a node is. -/
def Node.toDefinition? : Node → Option Definition
  | .definition span isMain proto body className implName =>
    some ⟨span, isMain, proto, body, className, implName⟩
  | _ => none

@[simp] theorem Definition.toDefinition?_toNode (d : Definition) :
    d.toNode.toDefinition? = some d := rfl

/-- A parsed compilation unit. -/
structure Module where
  span : Span
  defs : List Definition
  deriving Repr, Inhabited

/-- A compilation unit as a node. -/
def Module.toNode (m : Module) : Node := .module m.span (m.defs.map Definition.toNode)

end Frontend
