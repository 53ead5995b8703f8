import Frontend.Parser.Cursor
import Frontend.Tree

/-!
# Types of local variables

While the body of a definition is parsed, its parameters and the statements before the current
one give the local variables their types. The closest assignment to a variable decides, and a
parameter if there is none. An assignment counts only as a statement of its own, and only if its
value is a literal or another variable.
-/

namespace Frontend

/-- What is known about local variables at some statement of a definition. -/
structure Scope where
  params : List Param
  /-- The statements parsed so far, the latest first. -/
  done : List Node

namespace Scope

/-- The class name that an assigned value gives to its variable. -/
def classOfValue : Node → Except Cause Text
  | .int _ _           => .ok BaseType.int.className
  | .string _ _        => .ok BaseType.string.className
  | .localVar _ _ type => .ok (classNameOf type)
  | _                  => .error .unsupportedAssignment

/-- The value that a statement assigns to a variable. -/
def assigned? (name : Text) : Node → Option Node
  | .assign _ x value => if x = name then some value else none
  | _                 => none

/-- The class name of the type of a local variable. -/
def classOf (s : Scope) (name : Text) : Except Cause Text :=
  match s.done.findSome? (assigned? name) with
  | some value => classOfValue value
  | none =>
    match s.params.find? (fun p => p.name = name) with
    | some p => .ok (classNameOf p.type)
    | none   => .error .notAssigned

end Scope

end Frontend
