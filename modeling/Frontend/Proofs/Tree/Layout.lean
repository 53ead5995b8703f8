import Frontend.Tree.Printer
import Frontend.Proofs.Token.Layout
import Frontend.Proofs.Tree.Shape

/-!
# The tokens of written trees

`Node.layout` gives the kinds of the tokens that an expression is written with, and `Fits.lays` says
that the lexer finds them in its source. Neighbours in a source never run together: an expression
starts with a letter, a digit, a quote or a parenthesis and ends in a token that only a letter or
digit could go on with, and what is put between two expressions is neither.
-/

namespace Frontend

open Lexer (isIdentifier isConstant isOperator isLetter isDigit isBlank isWordByte Lays Stops)

/-! ### Layouts -/

namespace Node

/-- Kinds of tokens in parentheses if a condition holds. -/
def enclosed (condition : Bool) (ks : List Kind) : List Kind :=
  if condition then .leftParen :: ks ++ [.rightParen] else ks

/-- Lists of tokens with a comma and a blank between neighbours. -/
def joined : List (List Kind) → List Kind
  | []              => []
  | [ks]            => ks
  | ks :: ls :: kss => ks ++ .comma :: .space :: joined (ls :: kss)

mutual

/-- The tokens that an expression is written with. -/
def layout : Node → List Kind
  | .assign _ name value    => .identifier name :: .space :: .assign :: .space :: value.layout
  | .localVar _ name _      => [.identifier name]
  | .binary _ op left right =>
    .leftParen :: enclosed left.endsInAssign left.layout ++ .space :: .operator op :: .space ::
      enclosed right.endsInAssign right.layout ++ [.rightParen]
  | .call _ fn args         =>
    match prefixOperator? fn args with
    | some op => .leftParen :: .operator op.toNat :: operandLayouts args ++ [.rightParen]
    | none    => .identifier fn :: .leftParen :: joined (layouts args) ++ [.rightParen]
  | .send _ recv msg        => enclosed recv.endsInAssign recv.layout ++ .dot :: msg.layout
  | .int _ value            => [.number value]
  | .string _ value         => [.string value]
  | .selfRef _              => [.selfWord]
  | _                       => []

/-- The tokens of expressions. -/
def layouts : List Node → List (List Kind)
  | []      => []
  | n :: ns => n.layout :: layouts ns

/-- The tokens of operands of an operator. -/
def operandLayouts : List Node → List Kind
  | []      => []
  | n :: ns => enclosed n.endsInAssign n.layout ++ operandLayouts ns

end

lemma layouts_eq_map (ns : List Node) : layouts ns = ns.map layout := by
  induction ns with
  | nil => rfl
  | cons n ns ih => rw [layouts, ih, List.map_cons]

/-! ### Sources -/

lemma toMembers_eq_map (ns : List Node) : toMembers ns = ns.map toMember := by
  induction ns with
  | nil => rfl
  | cons n ns ih => rw [toMembers, ih, List.map_cons]

lemma statements_eq_map (ns : List Node) :
    statements ns = ns.map fun n => parenthesized n.endsInName n.render := by
  induction ns with
  | nil => rfl
  | cons n ns ih => rw [statements, ih, List.map_cons]; rfl

lemma render_assign (span : Span) (name : Text) (value : Node) :
    (assign span name value).render = name ++ 0x20 :: 0x3D :: 0x20 :: value.render := by
  simp only [render, toMember, Member.render]
  exact List.append_assoc _ _ _

lemma render_binary (span : Span) (op : Int) (left right : Node) :
    (binary span op left right).render =
      0x28 :: (parenthesized left.endsInAssign left.render ++ 0x20 :: (Text.ofCodePoint op ++
        0x20 :: (parenthesized right.endsInAssign right.render ++ [0x29]))) := by
  simp [render, toMember, Member.render]

lemma render_unary (span : Span) {fn : Text} {x : Node} {b : UInt8}
    (h : prefixOperator? fn [x] = some b) :
    (call span fn [x]).render = 0x28 :: (Text.ofCodePoint b.toNat ++
      (parenthesized x.endsInAssign x.render ++ [0x29])) := by
  simp [render, toMember, h, Member.render, operands]

lemma render_call (span : Span) {fn : Text} {args : List Node}
    (h : prefixOperator? fn args = none) :
    (call span fn args).render =
      fn ++ 0x28 :: (Text.join [0x2C, 0x20] (args.map render) ++ [0x29]) := by
  have hr : (toMembers args).map Member.render = args.map render := by
    rw [toMembers_eq_map, List.map_map]
    rfl
  simp only [render, toMember, h, Member.render, hr]
  simp only [List.append_assoc, List.cons_append]
  rfl

lemma render_send (span : Span) (recv msg : Node) :
    (send span recv msg).render =
      parenthesized recv.endsInAssign recv.render ++ 0x2E :: msg.render := by
  simp [render, toMember, Member.render]

end Node

/-! ### Expressions -/

/-- A text starts like an expression. -/
def Begins (t : Text) : Prop :=
  ∃ b u, t = b :: u ∧ (isLetter b || isDigit b || b == 0x22 || b == 0x28) = true

lemma Begins.ne_nil {t : Text} (h : Begins t) : t ≠ [] := by
  obtain ⟨b, u, rfl, -⟩ := h
  simp

lemma Begins.stops {t : Text} {p : UInt8 → Bool} (h : Begins t)
    (hp : ∀ b, p b = true → (isLetter b || isDigit b || b == 0x22 || b == 0x28) = false) :
    Stops p t := by
  obtain ⟨b, u, rfl, hb⟩ := h
  rintro c hc
  obtain rfl : b = c := by simpa using hc
  by_contra hn
  rw [hp b (by simpa using hn)] at hb
  cases hb

lemma Begins.stops_blank {t : Text} (h : Begins t) : Stops isBlank t := by
  refine h.stops fun b hb => ?_
  obtain rfl | rfl | rfl := Lexer.isBlank_cases hb <;> decide

lemma Begins.stops_greater {t : Text} (h : Begins t) : Stops (· == 0x3E) t := by
  refine h.stops fun b hb => ?_
  obtain rfl := beq_iff_eq.1 hb
  decide

lemma Begins.append {t : Text} (h : Begins t) (u : Text) : Begins (t ++ u) := by
  obtain ⟨b, v, rfl, hb⟩ := h
  exact ⟨b, v ++ u, rfl, hb⟩

lemma begins_of_isWord {t : Text} (h : Lexer.isWord t = true) : Begins t := by
  match t with
  | []     => simp [Lexer.isWord] at h
  | b :: t => exact ⟨b, t, rfl, by simp [(Lexer.isWord_cons.1 h).1]⟩

lemma isWord_of_isIdentifier {t : Text} (h : isIdentifier t = true) : Lexer.isWord t = true := by
  simp only [isIdentifier, Bool.and_eq_true] at h
  exact h.1.1

/-- The source of an expression and the tokens it is written with. -/
structure Written (t : Text) (ks : List Kind) : Prop where
  lays : Lays isWordByte t ks
  begins : Begins t

lemma stops_cons {p : UInt8 → Bool} {b : UInt8} (h : p b = false) (t : Text) :
    Stops p (b :: t) := by
  intro c hc
  obtain rfl : b = c := by simpa using hc
  exact h

lemma lays_free_mono {p : UInt8 → Bool} {t : Text} {ks : List Kind}
    (h : Lays (fun _ => false) t ks) : Lays p t ks :=
  h.mono fun _ hb => by cases hb

lemma lays_blank : Lays isBlank [0x20] [.space] :=
  Lexer.lays_space (by simp) (List.forall_mem_singleton.2 rfl)

lemma lays_leftParen : Lays (fun _ => false) [0x28] [.leftParen] :=
  Lexer.lays_punctuation (by decide)

lemma lays_assignSign : Lays (fun _ => false) [0x3D] [.assign] :=
  Lexer.lays_punctuation (by decide)

lemma lays_dot : Lays (fun _ => false) [0x2E] [.dot] :=
  Lexer.lays_punctuation (by decide)

lemma lays_comma : Lays (fun _ => false) [0x2C] [.comma] :=
  Lexer.lays_punctuation (by decide)

/-- A closing parenthesis can stand behind every expression and in front of everything. -/
lemma lays_closed {t : Text} {ks : List Kind} (h : Lays isWordByte t ks) :
    Lays (fun _ => false) (t ++ [0x29]) (ks ++ [.rightParen]) :=
  h.append (Lexer.lays_punctuation (by decide)) (stops_cons (by decide) []) (by simp)

lemma Written.parenthesized {t : Text} {ks : List Kind} (h : Written t ks) (condition : Bool) :
    Written (Node.parenthesized condition t) (Node.enclosed condition ks) := by
  cases condition with
  | false => exact h
  | true =>
    exact ⟨lays_free_mono (lays_leftParen.append_free (lays_closed h.lays)), 0x28, _, rfl, rfl⟩

lemma written_assign {name t : Text} {ks : List Kind} (hn : isIdentifier name = true)
    (h : Written t ks) : Written (name ++ 0x20 :: 0x3D :: 0x20 :: t)
      (.identifier name :: .space :: .assign :: .space :: ks) := by
  have h₁ := lays_blank.append h.lays h.begins.stops_blank h.begins.ne_nil
  have h₂ := lays_blank.append (lays_assignSign.append_free h₁) (stops_cons (by decide) _) (by simp)
  refine ⟨(Lexer.lays_identifier hn).append h₂ (stops_cons (by decide) _) (by simp), ?_⟩
  exact (begins_of_isWord (isWord_of_isIdentifier hn)).append _

lemma written_unary {b : UInt8} {t : Text} {ks : List Kind} (hb : isOperator b = true)
    (h : Written t ks) : Written (0x28 :: b :: (t ++ [0x29]))
      (.leftParen :: .operator b.toNat :: (ks ++ [.rightParen])) := by
  have h₁ := (Lexer.lays_operator hb).append (lays_closed h.lays) (h.begins.append _).stops_greater
    (by simp)
  exact ⟨lays_free_mono (lays_leftParen.append_free h₁), 0x28, _, rfl, rfl⟩

lemma written_binary {b : UInt8} {t u : Text} {ks ls : List Kind} (hb : isOperator b = true)
    (h : Written t ks) (h' : Written u ls) :
    Written (0x28 :: (t ++ 0x20 :: b :: 0x20 :: (u ++ [0x29])))
      (Kind.leftParen :: (ks ++ Kind.space :: Kind.operator b.toNat :: Kind.space ::
        (ls ++ [Kind.rightParen]))) := by
  have h₁ := lays_blank.append (lays_closed h'.lays) (h'.begins.append _).stops_blank (by simp)
  have h₂ := (Lexer.lays_operator hb).append h₁ (stops_cons (by decide) _) (by simp)
  have h₃ := lays_blank.append h₂ (stops_cons (isBlank_of_isOperator hb) _) (by simp)
  have h₄ := h.lays.append h₃ (stops_cons (by decide) _) (by simp)
  exact ⟨lays_free_mono (lays_leftParen.append_free h₄), 0x28, _, rfl, rfl⟩

lemma written_send {t u : Text} {ks ls : List Kind} (h : Written t ks) (h' : Written u ls) :
    Written (t ++ 0x2E :: u) (ks ++ .dot :: ls) :=
  ⟨h.lays.append (lays_dot.append_free h'.lays) (stops_cons (by decide) _) (by simp),
    h.begins.append _⟩

/-- Texts with a comma and a blank between neighbours. -/
lemma lays_join {α : Type} {f : α → Text} {g : α → List Kind} {xs : List α}
    (h : ∀ x ∈ xs, Written (f x) (g x)) :
    Lays isWordByte (Text.join [0x2C, 0x20] (xs.map f)) (Node.joined (xs.map g)) := by
  match xs with
  | [] => exact .nil _
  | [x] => exact (h x (by simp)).lays
  | x :: y :: xs =>
    obtain ⟨hx, hxs⟩ := List.forall_mem_cons.1 h
    have ih := lays_join hxs
    have hb : Begins (Text.join [0x2C, 0x20] ((y :: xs).map f)) := by
      have hy := (hxs y List.mem_cons_self).begins
      cases xs with
      | nil => exact hy
      | cons z zs => exact (hy.append _).append _
    have h₁ := lays_comma.append_free (lays_blank.append ih hb.stops_blank hb.ne_nil)
    have h₂ := hx.lays.append h₁ (stops_cons (by decide) _) (by simp)
    rw [List.map_cons, List.map_cons, Text.join, List.append_assoc]
    exact h₂

/-- A name and what stands in parentheses behind it. -/
lemma lays_named {name t : Text} {ks : List Kind} (hn : isIdentifier name = true)
    (h : Lays isWordByte t ks) :
    Lays (fun _ => false) (name ++ 0x28 :: (t ++ [0x29]))
      (.identifier name :: .leftParen :: (ks ++ [.rightParen])) :=
  (Lexer.lays_identifier hn).append (lays_leftParen.append_free (lays_closed h))
    (stops_cons (by decide) _) (by simp)

lemma begins_ofNat (n : Nat) : Begins (Text.ofNat n) := by
  obtain ⟨-, hne, hd⟩ := Lexer.value_ofNat n
  obtain ⟨b, t, ht⟩ := List.exists_cons_of_ne_nil hne
  exact ⟨b, t, ht, by simp [hd b (ht ▸ List.mem_cons_self)]⟩

/-- The source of an expression that can be read is lexed as its layout. -/
theorem Node.Fits.written {ok : Int → Prop} {classOf : Text → Except Cause Text} {x : Node}
    (h : x.Fits ok classOf) : Written x.render x.layout := by
  induction h with
  | int _ value =>
    exact ⟨(Lexer.lays_number value).mono fun b hb => by simp [isWordByte, hb], begins_ofNat _⟩
  | string _ value => exact ⟨lays_free_mono (Lexer.lays_quote value), 0x22, _, rfl, rfl⟩
  | selfRef =>
    exact ⟨Lexer.lays_keyword (t := Text.ofString "self") (by decide), 0x73, _, rfl, rfl⟩
  | localVar _ hn _ =>
    exact ⟨Lexer.lays_identifier hn, begins_of_isWord (isWord_of_isIdentifier hn)⟩
  -- operands are parenthesised if they end in an assignment
  | assign span hn _ ih =>
    rw [Node.render_assign]
    exact written_assign hn ih
  | call span hn _ ih =>
    have hp := prefixOperator?_of_isIdentifier hn
    rw [Node.render_call span (hp _), Node.layout, hp, Node.layouts_eq_map]
    exact ⟨lays_free_mono (lays_named hn (lays_join ih)),
      (begins_of_isWord (isWord_of_isIdentifier hn)).append _⟩
  | @unary span b x hb _ ih =>
    have hp := prefixOperator?_unary hb x
    rw [Node.render_unary span hp, ofCodePoint_of_isOperator hb, Node.layout, hp]
    simpa only [Node.operandLayouts, List.append_nil, List.cons_append, List.nil_append] using
      written_unary hb (ih.parenthesized x.endsInAssign)
  | @binary span b left right hb _ _ _ ihl ihr =>
    rw [Node.render_binary, ofCodePoint_of_isOperator hb, Node.layout]
    simpa only [List.append_assoc, List.cons_append, List.nil_append] using written_binary hb
      (ihl.parenthesized left.endsInAssign) (ihr.parenthesized right.endsInAssign)
  | @send span recv msg _ _ _ ihr ihm =>
    rw [Node.render_send]
    exact written_send (ihr.parenthesized recv.endsInAssign) ihm

/-! ### Definitions -/

/-- The blanks at the start of a line, of which there are none at the top level. -/
def indent (depth : Nat) : List Kind := if depth = 0 then [] else [.space]

/-- The tokens of a parameter. -/
def Param.layout (p : Param) : List Kind :=
  [.identifier p.name, .space, .constant (classNameOf p.type)]

/-- The tokens of a result type. -/
def resultLayout : Option BaseType → List Kind
  | some type => [.space, .arrow, .space, .constant type.className]
  | none      => []

/-- The tokens of a signature behind the word `def`. -/
def Prototype.layout (p : Prototype) : List Kind :=
  (.identifier p.name :: .leftParen ::
    (Node.joined (p.params.map Param.layout) ++ [.rightParen])) ++ resultLayout p.result

/-- The tokens of a statement, which stands in parentheses if it ends in a name. -/
def Node.statementLayout (n : Node) : List Kind := enclosed n.endsInName n.layout

/-- The tokens of a statement on a line of its own. -/
def Node.lineLayout (n : Node) : List Kind := Kind.space :: (n.statementLayout ++ [Kind.newline])

/-- The tokens of the statements of a definition and of its `end`. -/
def bodyLayout (depth : Nat) : List Node → List Kind
  | []      => []
  | n :: ns => (n :: ns).flatMap Node.lineLayout ++ (indent depth ++ [Kind.endWord, Kind.newline])

/-- The tokens of a definition. -/
def definitionLayout (depth : Nat) (proto : Prototype) (body : List Node) : List Kind :=
  indent depth ++ Kind.defWord :: Kind.space :: (proto.layout ++
    Kind.newline :: bodyLayout depth body)

lemma lays_indentation {q : UInt8 → Bool} {t : Text} {ks : List Kind} (depth : Nat)
    (h : Lays q t ks) (hs : Stops isBlank t) (hne : t ≠ []) :
    Lays q (indentation depth ++ t) (indent depth ++ ks) := by
  match depth with
  | 0 => exact h
  | depth + 1 =>
    refine (Lexer.lays_space ?_ ?_).append h hs hne
    · simp [indentation]
    · intro b hb
      rw [List.eq_of_mem_replicate hb]
      rfl

lemma Param.written {q : Param} (hn : isIdentifier q.name = true)
    (ht : ∃ type, q.type = some type ∧ type.Fits) : Written q.render q.layout := by
  obtain ⟨type, ht, name, hc, rfl⟩ := ht
  have hb := begins_of_isWord (Bool.and_eq_true_iff.1 hc).1
  rw [Param.render, Param.layout, ht, classNameOf, className_named]
  refine ⟨?_, (begins_of_isWord (isWord_of_isIdentifier hn)).append _⟩
  exact (Lexer.lays_identifier hn).append (lays_blank.append (Lexer.lays_constant hc)
    hb.stops_blank hb.ne_nil) (stops_cons (by decide) _) (by simp)

lemma Prototype.Fits.written {p : Prototype} (h : p.Fits) : Written p.render p.layout := by
  have hl := lays_named h.name
    (lays_join fun q hq => Param.written (h.params q hq).1 (h.params q hq).2)
  have hb : Begins p.render := by
    rw [Prototype.render, List.append_assoc]
    exact (begins_of_isWord (isWord_of_isIdentifier h.name)).append _
  refine ⟨?_, hb⟩
  have hr : p.render = (p.name ++ 0x28 :: (Text.join [0x2C, 0x20] (p.params.map Param.render) ++
      [0x29])) ++ match p.result with
        | some type => Text.ofString " -> " ++ type.className
        | none      => [] := by
    simp only [Prototype.render, List.append_assoc, List.cons_append, List.nil_append]
    rfl
  rw [hr, Prototype.layout]
  refine hl.append_free ?_
  cases hres : p.result with
  | none => exact .nil _
  | some type =>
    obtain ⟨name, hc, rfl⟩ := h.result type hres
    have hn := begins_of_isWord (Bool.and_eq_true_iff.1 hc).1
    have h₁ := lays_blank.append (Lexer.lays_constant hc) hn.stops_blank hn.ne_nil
    have h₂ := lays_blank.append (Lexer.lays_arrow.append_free h₁) (stops_cons (by decide) _)
      (by simp)
    simp only [resultLayout, className_named]
    exact h₂

/-- A word and a line end behind it. -/
lemma lays_line {t : Text} {ks : List Kind} (h : Lays isWordByte t ks) :
    Lays (fun _ => false) (t ++ [0x0A]) (ks ++ [Kind.newline]) :=
  h.append Lexer.lays_newline (stops_cons (by decide) []) (by simp)

lemma lays_end : Lays isWordByte (Text.ofString "end") [.endWord] :=
  Lexer.lays_keyword (by decide)

/-- An `end` on a line of its own. -/
lemma lays_endLine (depth : Nat) :
    Lays (fun _ => false) (indentation depth ++ Text.ofString "end\n")
      (indent depth ++ [Kind.endWord, Kind.newline]) :=
  lays_indentation depth (lays_line lays_end) (stops_cons (by decide) _) (by decide)

lemma lays_lines {body : List Node} (h : ∀ n ∈ body, Written n.render n.layout) (depth : Nat) :
    Lays (fun _ => false)
      ((Node.statements body).flatMap fun s => indentation (depth + 1) ++ s ++ [0x0A])
      (body.flatMap Node.lineLayout) := by
  induction body with
  | nil => exact .nil _
  | cons n ns ih =>
    obtain ⟨hn, hns⟩ := List.forall_mem_cons.1 h
    have hw := hn.parenthesized n.endsInName
    have hl := lays_indentation (depth + 1) (lays_line hw.lays) (hw.begins.append _).stops_blank
      (by simp)
    rw [Node.statements, List.flatMap_cons, List.flatMap_cons, List.append_assoc (indentation _)]
    exact hl.append_free (ih hns)

/-- The lines of a definition are lexed as its layout. -/
lemma lays_definition {proto : Prototype} {body : List Node} (hp : proto.Fits)
    (hb : ∀ n ∈ body, Written n.render n.layout) (depth : Nat) :
    Lays (fun _ => false) (definitionLines depth proto (Node.statements body))
      (definitionLayout depth proto body) := by
  have hw := hp.written
  have hdef : Lays isWordByte (Text.ofString "def") [.defWord] := Lexer.lays_keyword (by decide)
  have h₁ := lays_blank.append (lays_line hw.lays) (hw.begins.append _).stops_blank (by simp)
  have h₂ := lays_indentation depth (hdef.append h₁ (stops_cons (by decide) _) (by simp))
    (stops_cons (by decide) _) (by simp)
  cases body with
  | nil =>
    simp only [List.cons_append, List.nil_append] at h₂
    simp only [definitionLines, definitionLayout, Node.statements, bodyLayout, List.append_assoc]
    exact h₂
  | cons n ns =>
    have h := h₂.append_free ((lays_lines hb depth).append_free (lays_endLine depth))
    simp only [List.append_assoc, List.cons_append, List.nil_append] at h
    simp only [definitionLines, definitionLayout, bodyLayout, List.append_assoc]
    exact h

end Frontend
