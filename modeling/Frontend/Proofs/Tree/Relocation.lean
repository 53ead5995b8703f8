import Frontend.Parser.Scope
import Mathlib

/-!
# Moving trees

A function on offsets moves tokens, trees and everything else that holds offsets. Nothing that the
parser decides depends on offsets: kinds stay as they are, and local variables keep their types.
-/

namespace Frontend

variable (f : Int → Int)

/-! ### Tokens and errors -/

/-- A token at another offset. -/
def Token.relocate (t : Token) : Token := ⟨t.kind, f t.pos⟩

@[simp] lemma Token.kind_relocate (t : Token) : (t.relocate f).kind = t.kind := rfl

@[simp] lemma Token.pos_relocate (t : Token) : (t.relocate f).pos = f t.pos := rfl

@[simp] lemma Token.isWhitespace_relocate (t : Token) :
    (t.relocate f).isWhitespace = t.isWhitespace := rfl

/-- An error at another offset. -/
def SyntaxError.relocate (e : SyntaxError) : SyntaxError := ⟨e.cause, f e.pos⟩

/-! ### Trees -/

/-- A span between other offsets. -/
def Span.relocate (s : Span) : Span := ⟨f s.start, f s.stop⟩

namespace Node

mutual

/-- A tree with all its offsets moved. -/
def relocate : Node → Node
  | .module s body                      => .module (s.relocate f) (relocateAll body)
  | .classBlock s name body             => .classBlock (s.relocate f) name (relocateAll body)
  | .traitBlock s name body             => .traitBlock (s.relocate f) name (relocateAll body)
  | .implBlock s name body              => .implBlock (s.relocate f) name (relocateAll body)
  | .definition s isMain proto body c i =>
    .definition (s.relocate f) isMain proto (relocateAll body) c i
  | .assign s name value                => .assign (s.relocate f) name value.relocate
  | .localVar s name type               => .localVar (s.relocate f) name type
  | .binary s op left right             => .binary (s.relocate f) op left.relocate right.relocate
  | .call s fn args                     => .call (s.relocate f) fn (relocateAll args)
  | .send s recv msg                    => .send (s.relocate f) recv.relocate msg.relocate
  | .int s value                        => .int (s.relocate f) value
  | .string s value                     => .string (s.relocate f) value
  | .selfRef s                          => .selfRef (s.relocate f)

/-- Trees with all their offsets moved. -/
def relocateAll : List Node → List Node
  | []      => []
  | n :: ns => n.relocate :: relocateAll ns

end

@[simp] lemma relocateAll_eq_map (ns : List Node) : relocateAll f ns = ns.map (relocate f) := by
  induction ns with
  | nil => rfl
  | cons n ns ih => rw [relocateAll, ih, List.map_cons]

@[simp] lemma span_relocate (n : Node) : (n.relocate f).span = n.span.relocate f := by
  cases n <;> rfl

@[simp] lemma start_relocate (n : Node) : (n.relocate f).start = f n.start := by
  rw [start, span_relocate]
  rfl

@[simp] lemma stop_relocate (n : Node) : (n.relocate f).stop = f n.stop := by
  rw [stop, span_relocate]
  rfl

mutual

/-- Offsets can be moved twice. -/
lemma relocate_relocate (g : Int → Int) (n : Node) :
    (n.relocate f).relocate g = n.relocate (g ∘ f) := by
  cases n with
  | module _ body | classBlock _ _ body | traitBlock _ _ body | implBlock _ _ body
  | definition _ _ _ body | call _ _ body =>
    rw [relocate, relocate, relocate, relocateAll_relocateAll g body]
    rfl
  | assign _ _ value =>
    rw [relocate, relocate, relocate, relocate_relocate g value]
    rfl
  | binary _ _ left right | send _ left right =>
    rw [relocate, relocate, relocate, relocate_relocate g left, relocate_relocate g right]
    rfl
  | localVar | int | string | selfRef => rfl

lemma relocateAll_relocateAll (g : Int → Int) (ns : List Node) :
    relocateAll g (relocateAll f ns) = relocateAll (g ∘ f) ns := by
  cases ns with
  | nil => rfl
  | cons n ns =>
    rw [relocateAll, relocateAll, relocateAll, relocate_relocate g n, relocateAll_relocateAll g ns]

end

end Node

/-- A definition with all its offsets moved. -/
def Definition.relocate (d : Definition) : Definition :=
  { d with span := d.span.relocate f, body := d.body.map (Node.relocate f) }

@[simp] lemma Definition.start_relocate (d : Definition) : (d.relocate f).start = f d.start := rfl

/-! ### Scopes -/

namespace Scope

/-- What is known about local variables, with all offsets moved. -/
def relocate (s : Scope) : Scope := ⟨s.params, s.done.map (Node.relocate f)⟩

lemma assigned?_relocate (name : Text) (n : Node) :
    assigned? name (n.relocate f) = (assigned? name n).map (Node.relocate f) := by
  cases n with
  | assign _ x value =>
    simp only [Node.relocate, assigned?]
    split <;> rfl
  | _ => rfl

lemma classOfValue_relocate (n : Node) : classOfValue (n.relocate f) = classOfValue n := by
  cases n <;> rfl

/-- Types do not depend on offsets. -/
@[simp] lemma classOf_relocate (s : Scope) : (s.relocate f).classOf = s.classOf := by
  funext name
  have hf : (s.done.map (Node.relocate f)).findSome? (assigned? name) =
      (s.done.findSome? (assigned? name)).map (Node.relocate f) := by
    induction s.done with
    | nil => rfl
    | cons n done ih =>
      rw [List.map_cons, List.findSome?_cons, List.findSome?_cons, assigned?_relocate, ih]
      cases assigned? name n <;> rfl
  simp only [classOf, relocate, hf]
  cases s.done.findSome? (assigned? name) with
  | none => rfl
  | some value => exact classOfValue_relocate f value

end Scope

end Frontend
