import Frontend.Tree
import Frontend.Text.Quoted

/-!
# Writing trees as source

Operators are written with parentheses around them and their operands, so that no precedence
table matters to a reader. Two more kinds of parentheses keep neighbours apart: around an operand
that ends in an assignment, which would take what follows for its value, and around a statement
that ends in a name, which an opening parenthesis on the next line would turn into a call.

Consecutive definitions with the same class stand together in one class block, and within it
those with the same trait in one impl block.
-/

namespace Frontend

/-! ### Signatures -/

/-- A parameter as written in source. -/
def Param.render (p : Param) : Text := p.name ++ 0x20 :: classNameOf p.type

/-- A signature as written behind the word `def`. -/
def Prototype.render (p : Prototype) : Text :=
  p.name ++ 0x28 :: Text.join (Text.ofString ", ") (p.params.map Param.render) ++ 0x29 ::
    match p.result with
    | some type => Text.ofString " -> " ++ type.className
    | none      => []

/-! ### Endings -/

namespace Node

/-- The source of the node ends in a name. -/
def endsInName : Node → Bool
  | .localVar _ _ _   => true
  | .assign _ _ value => value.endsInName
  | .send _ _ msg     => msg.endsInName
  | _                 => false

/-- The source of the node ends in an assignment. -/
def endsInAssign : Node → Bool
  | .assign _ _ _ => true
  | .send _ _ msg => msg.endsInAssign
  | _             => false

/-- A text in parentheses if a condition holds. -/
def parenthesized (condition : Bool) (t : Text) : Text :=
  if condition then 0x28 :: t ++ [0x29] else t

end Node

/-! ### Definitions and blocks -/

/-- A node as it takes its place in the body of a block: a definition, whose indentation depends on
that place, or the text of any other node. -/
inductive Member
  | plain (text : Text)
  | definition (proto : Prototype) (statements : List Text) (className implName : Text)
  deriving DecidableEq, Repr

/-- The blanks at the start of a line. -/
def indentation (depth : Nat) : Text := List.replicate (2 * depth) 0x20

/-- The lines of a definition. One without statements has no `end` of its own. -/
def definitionLines (depth : Nat) (proto : Prototype) (statements : List Text) : Text :=
  indentation depth ++ Text.ofString "def " ++ proto.render ++ 0x0A ::
    match statements with
    | []     => []
    | _ :: _ =>
      statements.flatMap (fun s => indentation (depth + 1) ++ s ++ [0x0A]) ++
        indentation depth ++ Text.ofString "end\n"

namespace Member

/-- The text of a member that stands alone. -/
def render : Member → Text
  | .plain text                       => text
  | .definition proto statements _ _ => (definitionLines 0 proto statements).dropLast

/-- A member inside a block. -/
def blockLines : Member → Text
  | .plain text                       => indentation 1 ++ text ++ [0x0A]
  | .definition proto statements _ _ => definitionLines 1 proto statements

end Member

/-- A block of members from its keyword to its `end`. -/
def renderBlock (keyword : String) (name : Text) (members : List Member) : Text :=
  Text.ofString keyword ++ 0x20 :: name ++ 0x0A :: members.flatMap Member.blockLines ++
    Text.ofString "end"

/-! ### Modules -/

/-- Where the members of a module written so far have led. -/
inductive Place
  /-- Nothing has been written. -/
  | start
  /-- Between top-level items. -/
  | top
  /-- In the block of a class. -/
  | inClass (className : Text)
  /-- In an impl block in the block of a class. -/
  | inImpl (className implName : Text)
  deriving DecidableEq, Repr

/-- The lines that lead back from a place to the top level. -/
def Place.close : Place → Text
  | .start      => []
  | .top        => []
  | .inClass _  => Text.ofString "end\n"
  | .inImpl _ _ => Text.ofString "  end\nend\n"

/-- The empty line between top-level items. -/
def Place.gap : Place → Text
  | .start => []
  | _      => [0x0A]

/-- A definition as the next member of a class block. One without statements must be the last
member of its block, so it closes the block. -/
def renderMethod (proto : Prototype) (statements : List Text) (className implName : Text) :
    Text × Place :=
  if implName = [] then
    if statements = [] then (definitionLines 1 proto statements ++ Text.ofString "end\n", .top)
    else (definitionLines 1 proto statements, .inClass className)
  else
    let opening := Text.ofString "  impl " ++ implName ++ [0x0A]
    if statements = [] then
      (opening ++ definitionLines 2 proto statements ++ Text.ofString "  end\n", .inClass className)
    else (opening ++ definitionLines 2 proto statements, .inImpl className implName)

/-- A definition as the first member of a class block. -/
def renderClass (place : Place) (proto : Prototype) (statements : List Text)
    (className implName : Text) : Text × Place :=
  let method := renderMethod proto statements className implName
  (place.close ++ place.gap ++ Text.ofString "class " ++ className ++ 0x0A :: method.1, method.2)

/-- A definition of a class: its text at some place and the place it leads to. -/
def renderClassMember (place : Place) (proto : Prototype) (statements : List Text)
    (className implName : Text) : Text × Place :=
  match place with
  | .inClass c  =>
    if c = className then renderMethod proto statements className implName
    else renderClass place proto statements className implName
  | .inImpl c i =>
    if c = className then
      if i = implName then
        if statements = [] then
          (definitionLines 2 proto statements ++ Text.ofString "  end\n", .inClass className)
        else (definitionLines 2 proto statements, place)
      else
        let method := renderMethod proto statements className implName
        (Text.ofString "  end\n" ++ method.1, method.2)
    else renderClass place proto statements className implName
  | _           => renderClass place proto statements className implName

/-- One member of a module: its text at some place and the place it leads to. -/
def renderMember (place : Place) (m : Member) : Text × Place :=
  match m with
  | .plain text => (place.close ++ place.gap ++ text ++ [0x0A], .top)
  | .definition proto statements className implName =>
    if className = [] then (place.close ++ place.gap ++ m.render ++ [0x0A], .top)
    else renderClassMember place proto statements className implName

/-- The members of a module written from some place on. -/
def renderMembers (place : Place) : List Member → Text
  | []      => place.close
  | m :: ms =>
    (renderMember place m).1 ++ renderMembers (renderMember place m).2 ms

/-! ### Nodes -/

namespace Node

mutual

/-- A node as a member of a body. -/
def toMember : Node → Member
  | .module _ body => .plain (renderMembers .start (toMembers body))
  | .classBlock _ name body => .plain (renderBlock "class" name (toMembers body))
  | .traitBlock _ name body => .plain (renderBlock "trait" name (toMembers body))
  | .implBlock _ name body => .plain (renderBlock "impl" name (toMembers body))
  | .definition _ _ proto body className implName =>
    .definition proto (statements body) className implName
  | .assign _ name value => .plain (name ++ Text.ofString " = " ++ value.toMember.render)
  | .localVar _ name _ => .plain name
  | .binary _ op left right =>
    .plain (0x28 :: parenthesized left.endsInAssign left.toMember.render ++
      0x20 :: Text.ofCodePoint op ++
      0x20 :: parenthesized right.endsInAssign right.toMember.render ++ [0x29])
  | .call _ fn args =>
    match prefixOperator? fn args with
    | some op => .plain (0x28 :: Text.ofCodePoint op.toNat ++ (operands args).flatten ++ [0x29])
    | none =>
      .plain (fn ++ 0x28 :: Text.join (Text.ofString ", ") ((toMembers args).map Member.render) ++
        [0x29])
  | .send _ recv msg =>
    .plain (parenthesized recv.endsInAssign recv.toMember.render ++ 0x2E :: msg.toMember.render)
  | .int _ value => .plain (Text.ofNat value.toNat)
  | .string _ value => .plain value.quote
  | .selfRef _ => .plain (Text.ofString "self")

/-- The nodes of a body as members. -/
def toMembers : List Node → List Member
  | []      => []
  | n :: ns => n.toMember :: toMembers ns

/-- The nodes of a definition's body as statements. -/
def statements : List Node → List Text
  | []      => []
  | n :: ns => parenthesized n.endsInName n.toMember.render :: statements ns

/-- Nodes as operands of an operator. -/
def operands : List Node → List Text
  | []      => []
  | n :: ns => parenthesized n.endsInAssign n.toMember.render :: operands ns

end

/-- The source of a node. -/
def render (n : Node) : Text := n.toMember.render

end Node

/-- The source of a definition, without a line end behind it. -/
def Definition.render (d : Definition) : Text := d.toNode.render

/-- The source of a module. -/
def Module.render (m : Module) : Text := m.toNode.render

end Frontend
