import Frontend.Proofs.Tree.RoundTrip

/-!
# Canonical source

The source that a tree is written as does not depend on the offsets in the tree. A parsed module and
the module that its source is parsed as differ in nothing else, so both are written alike: writing a
module is the canonical form of its source, and what has this form is kept by parsing and writing
it.
-/

namespace Frontend

namespace Node

lemma endsInName_erase (n : Node) : n.erase.endsInName = n.endsInName := by
  match n with
  | .assign _ _ value => simp only [erase, endsInName, endsInName_erase value]
  | .send _ _ msg => simp only [erase, endsInName, endsInName_erase msg]
  | .module .. | .classBlock .. | .traitBlock .. | .implBlock .. | .definition .. | .localVar ..
  | .binary .. | .call .. | .int .. | .string .. | .selfRef .. => rfl

lemma endsInAssign_erase (n : Node) : n.erase.endsInAssign = n.endsInAssign := by
  match n with
  | .send _ _ msg => simp only [erase, endsInAssign, endsInAssign_erase msg]
  | .module .. | .classBlock .. | .traitBlock .. | .implBlock .. | .definition .. | .localVar ..
  | .assign .. | .binary .. | .call .. | .int .. | .string .. | .selfRef .. => rfl

lemma prefixOperator?_eraseAll (fn : Text) (args : List Node) :
    prefixOperator? fn (eraseAll args) = prefixOperator? fn args := by
  match args with
  | []          => rfl
  | [_]         => rfl
  | _ :: _ :: _ => rfl

mutual

/-- A tree is written as its offsets were not there. -/
lemma toMember_erase (n : Node) : n.erase.toMember = n.toMember := by
  match n with
  | .module _ body | .classBlock _ _ body | .traitBlock _ _ body | .implBlock _ _ body =>
    simp only [erase, toMember, toMembers_eraseAll body]
  | .definition _ _ _ body _ _ => simp only [erase, toMember, statements_eraseAll body]
  | .assign _ _ value => simp only [erase, toMember, toMember_erase value]
  | .binary _ _ left right =>
    simp only [erase, toMember, toMember_erase left, toMember_erase right, endsInAssign_erase]
  | .call _ _ args =>
    simp only [erase, toMember, prefixOperator?_eraseAll, toMembers_eraseAll args,
      operands_eraseAll args]
  | .send _ recv msg =>
    simp only [erase, toMember, toMember_erase recv, toMember_erase msg, endsInAssign_erase]
  | .localVar .. | .int .. | .string .. | .selfRef .. => rfl

lemma toMembers_eraseAll (ns : List Node) : toMembers (eraseAll ns) = toMembers ns := by
  match ns with
  | []      => rfl
  | n :: ns => simp only [eraseAll, toMembers, toMember_erase n, toMembers_eraseAll ns]

lemma statements_eraseAll (ns : List Node) : statements (eraseAll ns) = statements ns := by
  match ns with
  | []      => rfl
  | n :: ns =>
    simp only [eraseAll, statements, toMember_erase n, endsInName_erase, statements_eraseAll ns]

lemma operands_eraseAll (ns : List Node) : operands (eraseAll ns) = operands ns := by
  match ns with
  | []      => rfl
  | n :: ns =>
    simp only [eraseAll, operands, toMember_erase n, endsInAssign_erase, operands_eraseAll ns]

end

end Node

lemma Definition.toMember_erase (d : Definition) : d.erase.toNode.toMember = d.toNode.toMember := by
  rw [← Node.toMember_erase d.toNode, toNode, toNode, erase, Node.erase, Node.eraseAll_eq_map]

/-- Modules with the same definitions are written alike, wherever these stand. -/
lemma Module.render_congr {m m' : Module}
    (h : m'.defs.map Definition.erase = m.defs.map Definition.erase) : m'.render = m.render := by
  have key : ∀ m : Module, m.render = renderMembers .start
      ((m.defs.map Definition.erase).map fun d => d.toNode.toMember) := by
    intro m
    simp only [render, Module.toNode, Node.render, Node.toMember, Member.render,
      Node.toMembers_eq_map, List.map_map, Function.comp_def, Definition.toMember_erase]
  rw [key m', key m, h]

/-- The source of a module that was parsed from a text is parsed as the same module, and is the
source of this one too. -/
theorem Grammar.exists_parse_of_parse {prec : Precedence} {text : Text} {ts : List Token}
    {m : Module} (ht : Lexer.tokens text 0 = .ok ts) (hm : parse prec ts = .ok m) :
    ∃ ts' m', Lexer.tokens m.render 0 = .ok ts' ∧ parse prec ts' = .ok m' ∧
      m'.defs.map Definition.erase = m.defs.map Definition.erase ∧ m'.render = m.render := by
  have hs : Lexer.stream [(text, 0)] = .ok (ts ++ []) := by
    simp only [Lexer.stream, ht]
    rfl
  rw [List.append_nil] at hs
  obtain ⟨ts', m', ht', hm', he⟩ := exists_parse_render (parsed_of_parse hs hm)
  exact ⟨ts', m', ht', hm', he, Module.render_congr he⟩

end Frontend
