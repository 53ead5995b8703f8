import Frontend.Proofs.Parser.Append
import Frontend.Proofs.Tree.Layout
import Frontend.Proofs.Tree.Relocation

/-!
# Reading layouts back

Tokens with the kinds of a layout are read as the tree that they were laid out from, up to offsets.
Every expression is read as an operand without operators, since operators are written with
parentheses around them; so no precedence matters, except that no operator may be forbidden.

What follows an expression can still change how it is read: behind a name an opening parenthesis
would make it a call, and behind an assignment a message or an operator would become part of the
value. `Follows` excludes this, and the parentheses of the layout make it hold everywhere.
-/

namespace Frontend.Grammar

open Lexer (isIdentifier isConstant isOperator)

/-! ### Tokens of given kinds -/

section

variable {ts : List Token} {k : Kind} {ks ls : List Kind}

lemma exists_cons_of_kinds (h : ts.map Token.kind = k :: ks) :
    ∃ pos us, ts = ⟨k, pos⟩ :: us ∧ us.map Token.kind = ks := by
  obtain ⟨t, us, rfl, rfl, hus⟩ := List.map_eq_cons_iff.1 h
  exact ⟨t.pos, us, rfl, hus⟩

lemma exists_append_of_kinds (h : ts.map Token.kind = ks ++ ls) :
    ∃ us vs, ts = us ++ vs ∧ us.map Token.kind = ks ∧ vs.map Token.kind = ls :=
  List.map_eq_append_iff.1 h

lemma exists_singleton_of_kinds (h : ts.map Token.kind = [k]) : ∃ pos, ts = [⟨k, pos⟩] := by
  obtain ⟨pos, us, rfl, hus⟩ := exists_cons_of_kinds h
  exact ⟨pos, by rw [List.map_eq_nil_iff.1 hus]⟩

end

/-! ### What follows an expression -/

/-- Neither a message nor an operator follows. -/
def Ends (rest : List Token) : Prop :=
  front (skip rest) ≠ .dot ∧ ∀ op, front (skip rest) ≠ .operator op

/-- What follows an expression leaves it as it is. -/
structure Follows (x : Node) (rest : List Token) : Prop where
  ne_nil : rest ≠ []
  name : x.endsInName = true → front (skip rest) ≠ .leftParen ∧ front (skip rest) ≠ .assign
  assign : x.endsInAssign = true → Ends rest

variable {prec : Precedence} {s : Scope} {x : Node} {ts rest : List Token}

lemma levelOf_of_ends (h : Ends rest) : levelOf prec (skip rest) = -1 := by
  unfold levelOf
  split
  case h_1 op hop => exact absurd hop (h.2 op)
  case h_2 => rfl

/-- A token that closes or separates lets every expression in front of it alone. -/
def Separates (k : Kind) : Prop := k = .rightParen ∨ k = .comma

lemma Separates.ends {k : Kind} (h : Separates k) (pos : Int) (ts : List Token) :
    skip (⟨k, pos⟩ :: ts) = ⟨k, pos⟩ :: ts ∧ Ends (⟨k, pos⟩ :: ts) ∧
      ∀ x : Node, Follows x (⟨k, pos⟩ :: ts) := by
  have hs : skip (⟨k, pos⟩ :: ts) = ⟨k, pos⟩ :: ts := by
    obtain rfl | rfl := h
    · exact skip_cons_of_not_whitespace rfl ts
    · exact skip_cons_of_not_whitespace rfl ts
  have he : Ends (⟨k, pos⟩ :: ts) := by
    rw [Ends, hs, front_cons]
    obtain rfl | rfl := h <;> simp
  refine ⟨hs, he, fun x => ⟨by simp, fun _ => ?_, fun _ => he⟩⟩
  rw [hs, front_cons]
  obtain rfl | rfl := h <;> simp

/-! ### Operands -/

/-- Tokens with the layout of a tree are read as an operand, in front of the messages that may
follow it. -/
def ReadsBack (prec : Precedence) (s : Scope) (x : Node) : Prop :=
  ∀ ts rest : List Token, ts.map Token.kind = x.layout → Follows x rest →
    ∃ x', x'.erase = x.erase ∧ ∀ y r, Reads prec s (.sends x') (skip rest) y r →
      Reads prec s .primary (ts ++ rest) y r

/-- Tokens with the layout of a tree are read as a name with what belongs to it. -/
def NamesBack (prec : Precedence) (s : Scope) (x : Node) : Prop :=
  ∀ ts rest : List Token, ts.map Token.kind = x.layout → Follows x rest →
    ∃ x' r, x'.erase = x.erase ∧ skip r = skip rest ∧ Reads prec s .named (ts ++ rest) x' r

lemma NamesBack.readsBack (h : NamesBack prec s x) : ReadsBack prec s x := by
  intro ts rest hk hf
  obtain ⟨x', r, he, hr, hx⟩ := h ts rest hk hf
  exact ⟨x', he, fun y r' hy => .name hx (hr ▸ hy)⟩

lemma reads_unary_of_primary (he : front (skip rest) ≠ .dot)
    (h : ∀ y r, Reads prec s (.sends x) (skip rest) y r → Reads prec s .primary ts y r) :
    Reads prec s .unary ts x (skip rest) :=
  .operand (h x _ (.sent he))

lemma reads_expr_of_primary (he : Ends rest)
    (h : ∀ y r, Reads prec s (.sends x) (skip rest) y r → Reads prec s .primary ts y r) :
    Reads prec s .expr ts x (skip rest) := by
  refine .expr (reads_unary_of_primary he.1 h) ?_
  rw [skip_skip]
  refine .combined (.inr (.inl ?_))
  rw [levelOf_of_ends he]
  omega

lemma ReadsBack.exists_expr (h : ReadsBack prec s x) (hk : ts.map Token.kind = x.layout)
    (hf : Follows x rest) (he : Ends rest) :
    ∃ x', x'.erase = x.erase ∧ Reads prec s .expr (ts ++ rest) x' (skip rest) := by
  obtain ⟨x', hx, hp⟩ := h ts rest hk hf
  exact ⟨x', hx, reads_expr_of_primary he hp⟩

/-- An expression in parentheses, from what is read between them. -/
lemma reads_paren {y z : Node} (pos : Int) {pos' : Int} {us r : List Token} (hne : rest ≠ [])
    (hx : Reads prec s .expr (us ++ ⟨.rightParen, pos'⟩ :: rest) y (⟨.rightParen, pos'⟩ :: rest))
    (hz : Reads prec s (.sends y) (skip rest) z r) :
    Reads prec s .primary (⟨.leftParen, pos⟩ :: (us ++ ⟨.rightParen, pos'⟩ :: rest)) z r :=
  .paren hx (skip_cons_of_not_whitespace rfl rest) hne hz

/-- In parentheses, an expression can stand in front of everything. -/
lemma ReadsBack.exists_enclosed (h : ReadsBack prec s x) {condition : Bool}
    (hk : ts.map Token.kind = Node.enclosed condition x.layout) (hne : rest ≠ [])
    (hf : condition = false → Follows x rest) :
    ∃ x', x'.erase = x.erase ∧ ∀ y r, Reads prec s (.sends x') (skip rest) y r →
      Reads prec s .primary (ts ++ rest) y r := by
  cases condition with
  | false => exact h ts rest hk (hf rfl)
  | true =>
    obtain ⟨pos, ws, rfl, hws⟩ := exists_cons_of_kinds hk
    obtain ⟨us, vs, rfl, hus, hvs⟩ := exists_append_of_kinds hws
    obtain ⟨pos', rfl⟩ := exists_singleton_of_kinds hvs
    obtain ⟨hs, he, hf⟩ := Separates.ends (.inl rfl) pos' rest
    obtain ⟨x', hx, hr⟩ := h.exists_expr hus (hf x) he
    rw [hs] at hr
    refine ⟨x', hx, fun y r hy => ?_⟩
    simpa using reads_paren pos hne hr hy

/-- An operand that is enclosed if it ends in an assignment can stand in front of everything that
does not turn a name into something else. -/
lemma ReadsBack.exists_operand (h : ReadsBack prec s x)
    (hk : ts.map Token.kind = Node.enclosed x.endsInAssign x.layout) (hne : rest ≠ [])
    (hn : front (skip rest) ≠ .leftParen ∧ front (skip rest) ≠ .assign) :
    ∃ x', x'.erase = x.erase ∧ ∀ y r, Reads prec s (.sends x') (skip rest) y r →
      Reads prec s .primary (ts ++ rest) y r :=
  h.exists_enclosed hk hne fun ha => ⟨hne, fun _ => hn, fun hx => by simp [ha] at hx⟩

/-- The same for the operand of an operator, in front of a closing parenthesis or an operator. -/
lemma ReadsBack.exists_unary_operand (h : ReadsBack prec s x)
    (hk : ts.map Token.kind = Node.enclosed x.endsInAssign x.layout) {k : Kind} {pos : Int}
    {us : List Token} (hr : skip rest = ⟨k, pos⟩ :: us)
    (hop : k = .rightParen ∨ ∃ op, k = .operator op) :
    ∃ x', x'.erase = x.erase ∧ Reads prec s .unary (ts ++ rest) x' (⟨k, pos⟩ :: us) := by
  have hn : front (skip rest) ≠ .leftParen ∧ front (skip rest) ≠ .assign := by
    rw [hr, front_cons]
    obtain rfl | ⟨op, rfl⟩ := hop <;> simp
  obtain ⟨x', hx, hp⟩ := h.exists_operand hk (ne_nil_of_skip hr) hn
  refine ⟨x', hx, hr ▸ reads_unary_of_primary ?_ hp⟩
  rw [hr, front_cons]
  obtain rfl | ⟨op, rfl⟩ := hop <;> simp

/-! ### Arguments -/

/-- Arguments are read back, behind those read so far. -/
lemma exists_args {args : List Node} (hne : args ≠ []) (h : ∀ x ∈ args, ReadsBack prec s x)
    (pos stop : Int) (fn : Text) (done : List Node) {ts : List Token}
    (hk : ts.map Token.kind = Node.joined (args.map Node.layout)) (rest : List Token) :
    ∃ args', args'.map Node.erase = args.map Node.erase ∧
      Reads prec s (.args pos fn done) (ts ++ ⟨.rightParen, stop⟩ :: rest)
        (.call ⟨pos, stop⟩ fn (done.reverse ++ args')) rest := by
  match args with
  | [] => exact absurd rfl hne
  -- the last argument ends at the parenthesis, …
  | [x] =>
    obtain ⟨hs, he, hf⟩ := Separates.ends (.inl rfl) stop rest
    obtain ⟨x', hx, hr⟩ := (h x (by simp)).exists_expr hk (hf x) he
    refine ⟨[x'], by simp [hx], ?_⟩
    rw [← List.reverse_cons]
    exact .lastArg ((hr.skip_eq (.inl rfl)).symm ▸ hr) ((skip_skip _).trans hs)
  -- … the others at a comma
  | x :: y :: xs =>
    obtain ⟨hx, hxs⟩ := List.forall_mem_cons.1 h
    obtain ⟨us, ws, rfl, hus, hws⟩ := exists_append_of_kinds hk
    obtain ⟨posc, vs, rfl, hvs⟩ := exists_cons_of_kinds hws
    obtain ⟨poss, zs, rfl, hzs⟩ := exists_cons_of_kinds hvs
    obtain ⟨hs, he, hf⟩ := Separates.ends (.inr rfl) posc
      (⟨.space, poss⟩ :: (zs ++ ⟨.rightParen, stop⟩ :: rest))
    obtain ⟨x', hx', hr⟩ := hx.exists_expr hus (hf x) he
    obtain ⟨args', ha, hy⟩ := exists_args (List.cons_ne_nil y xs) hxs pos stop fn (x' :: done) hzs
      rest
    refine ⟨x' :: args', by simp [hx', ha], ?_⟩
    rw [List.reverse_cons, List.append_assoc] at hy
    rw [List.append_assoc]
    refine .arg ((hr.skip_eq (.inl rfl)).symm ▸ hr) ((skip_skip _).trans hs) ?_
    rw [← reads_args_skip, skip_cons_of_whitespace rfl, reads_args_skip]
    exact hy

/-! ### Expressions -/

lemma namesBack_call (span : Span) {fn : Text} {args : List Node} (hn : isIdentifier fn = true)
    (h : ∀ x ∈ args, ReadsBack prec s x) : NamesBack prec s (.call span fn args) := by
  intro ts rest hk _
  rw [Node.layout, prefixOperator?_of_isIdentifier hn, Node.layouts_eq_map] at hk
  obtain ⟨pos, us, rfl, hus⟩ := exists_cons_of_kinds hk
  obtain ⟨posl, vs, rfl, hvs⟩ := exists_cons_of_kinds hus
  obtain ⟨as, ws, rfl, has, hws⟩ := exists_append_of_kinds hvs
  obtain ⟨posr, rfl⟩ := exists_singleton_of_kinds hws
  have hl (us : List Token) : skip (⟨.leftParen, posl⟩ :: us) = ⟨.leftParen, posl⟩ :: us :=
    skip_cons_of_not_whitespace rfl us
  have hr : skip (⟨.rightParen, posr⟩ :: rest) = ⟨.rightParen, posr⟩ :: rest :=
    skip_cons_of_not_whitespace rfl rest
  by_cases hne : args = []
  · subst hne
    obtain rfl : as = [] := List.map_eq_nil_iff.1 has
    exact ⟨.call ⟨pos, posr⟩ fn [], rest, rfl, rfl, .callNone (hl _) hr⟩
  · obtain ⟨args', ha, hx⟩ := exists_args hne h pos posr fn [] has rest
    refine ⟨.call ⟨pos, posr⟩ fn args', rest, ?_, rfl, ?_⟩
    · simp [Node.erase, ha]
    · rw [List.cons_append, List.cons_append, List.append_assoc]
      exact .call (hl _) (reads_args_skip.2 hx)

lemma namesBack_assign (span : Span) (name : Text) {value : Node}
    (h : ReadsBack prec s value) : NamesBack prec s (.assign span name value) := by
  intro ts rest hk hf
  rw [Node.layout] at hk
  obtain ⟨pos, us, rfl, hus⟩ := exists_cons_of_kinds hk
  obtain ⟨pos₁, vs, rfl, hvs⟩ := exists_cons_of_kinds hus
  obtain ⟨pos₂, ws, rfl, hws⟩ := exists_cons_of_kinds hvs
  obtain ⟨pos₃, zs, rfl, hzs⟩ := exists_cons_of_kinds hws
  have he := hf.assign rfl
  obtain ⟨v', hv, hr⟩ := h.exists_expr hzs ⟨hf.ne_nil, hf.name, fun _ => he⟩ he
  refine ⟨.assign ⟨pos, v'.stop⟩ name v', skip rest, by simp [Node.erase, hv], skip_skip rest, ?_⟩
  have ha : skip (⟨.space, pos₁⟩ :: ⟨.assign, pos₂⟩ :: ⟨.space, pos₃⟩ :: (zs ++ rest)) =
      ⟨.assign, pos₂⟩ :: ⟨.space, pos₃⟩ :: (zs ++ rest) := by
    rw [skip_cons_of_whitespace rfl, skip_cons_of_not_whitespace rfl]
  refine .assign ha ?_
  rw [skip_cons_of_whitespace rfl, hr.skip_eq (.inl rfl)]
  exact hr

lemma namesBack_localVar (span : Span) {name className : Text}
    (h : s.classOf name = .ok className) :
    NamesBack prec s (.localVar span name (some (.undef className))) := by
  intro ts rest hk hf
  obtain ⟨pos, rfl⟩ := exists_singleton_of_kinds hk
  obtain ⟨hl, ha⟩ := hf.name rfl
  exact ⟨.localVar ⟨pos, pos⟩ name (some (.undef className)), skip rest, rfl, skip_skip rest,
    .localVar hl ha h⟩

lemma readsBack_literal {k : Kind} (hl : x.layout = [k])
    (h : ∀ pos, ∃ x', Parser.literal? pos k = some x' ∧ x'.erase = x.erase) :
    ReadsBack prec s x := by
  intro ts rest hk _
  rw [hl] at hk
  obtain ⟨pos, rfl⟩ := exists_singleton_of_kinds hk
  obtain ⟨x', hx, he⟩ := h pos
  exact ⟨x', he, fun y r hy => .literal hx hy⟩

lemma readsBack_unary {span : Span} {b : UInt8} (hb : isOperator b = true)
    (h : ReadsBack prec s x) : ReadsBack prec s (.call span (unaryWord ++ [b]) [x]) := by
  intro ts rest hk hf
  rw [Node.layout, prefixOperator?_unary hb] at hk
  simp only [Node.operandLayouts, List.append_nil, List.cons_append] at hk
  obtain ⟨pos, us, rfl, hus⟩ := exists_cons_of_kinds hk
  obtain ⟨posb, vs, rfl, hvs⟩ := exists_cons_of_kinds hus
  obtain ⟨zs, ws, rfl, hzs, hws⟩ := exists_append_of_kinds hvs
  obtain ⟨posr, rfl⟩ := exists_singleton_of_kinds hws
  obtain ⟨hs, he, -⟩ := Separates.ends (.inl rfl) posr rest
  obtain ⟨x', hx, hu⟩ := h.exists_unary_operand hzs hs (.inl rfl)
  refine ⟨.call ⟨posb, x'.stop⟩ (unaryWord ++ [b]) [x'], by simp [Node.erase, hx], fun y r hy => ?_⟩
  have hexpr : Reads prec s .expr (⟨.operator b.toNat, posb⟩ :: zs ++ ⟨.rightParen, posr⟩ :: rest)
      (.call ⟨posb, x'.stop⟩ (unaryWord ++ [b]) [x']) (⟨.rightParen, posr⟩ :: rest) := by
    rw [← ofCodePoint_of_isOperator hb]
    refine .expr (.operator hu) ?_
    rw [hs]
    exact .combined (.inr (.inl (by rw [← hs, levelOf_of_ends he]; omega)))
  simpa using reads_paren pos hf.ne_nil hexpr hy

lemma readsBack_binary {span : Span} {b : UInt8} {left right : Node} (hop : 0 ≤ prec.of b.toNat)
    (hl : ReadsBack prec s left) (hr : ReadsBack prec s right) :
    ReadsBack prec s (.binary span b.toNat left right) := by
  intro ts rest hk hf
  rw [Node.layout] at hk
  simp only [List.append_assoc, List.cons_append] at hk
  obtain ⟨pos, us, rfl, hus⟩ := exists_cons_of_kinds hk
  obtain ⟨ls, vs, rfl, hls, hvs⟩ := exists_append_of_kinds hus
  obtain ⟨pos₁, vs₁, rfl, hvs₁⟩ := exists_cons_of_kinds hvs
  obtain ⟨posb, vs₂, rfl, hvs₂⟩ := exists_cons_of_kinds hvs₁
  obtain ⟨pos₂, vs₃, rfl, hvs₃⟩ := exists_cons_of_kinds hvs₂
  obtain ⟨rs, ws, rfl, hrs, hws⟩ := exists_append_of_kinds hvs₃
  obtain ⟨posr, rfl⟩ := exists_singleton_of_kinds hws
  -- the right operand ends at the closing parenthesis, the left one at the operator
  obtain ⟨hs, he, -⟩ := Separates.ends (.inl rfl) posr rest
  have hlevel : levelOf prec (⟨.rightParen, posr⟩ :: rest) = -1 := by rw [← hs, levelOf_of_ends he]
  obtain ⟨r', hr', hur⟩ := hr.exists_unary_operand hrs hs (.inl rfl)
  have hskip : skip (⟨.space, pos₁⟩ :: ⟨.operator b.toNat, posb⟩ :: ⟨.space, pos₂⟩ ::
      (rs ++ ⟨.rightParen, posr⟩ :: rest)) = ⟨.operator b.toNat, posb⟩ :: ⟨.space, pos₂⟩ ::
      (rs ++ ⟨.rightParen, posr⟩ :: rest) := by
    rw [skip_cons_of_whitespace rfl, skip_cons_of_not_whitespace rfl]
  obtain ⟨l', hl', hul⟩ := hl.exists_unary_operand hls hskip (.inr ⟨_, rfl⟩)
  refine ⟨.binary ⟨l'.start, r'.stop⟩ b.toNat l' r', by simp [Node.erase, hl', hr'],
    fun y r hy => ?_⟩
  -- the two of them and the operator are the expression between the parentheses
  have hexpr : Reads prec s .expr (ls ++ ⟨.space, pos₁⟩ :: ⟨.operator b.toNat, posb⟩ ::
      ⟨.space, pos₂⟩ :: rs ++ ⟨.rightParen, posr⟩ :: rest)
      (.binary ⟨l'.start, r'.stop⟩ b.toNat l' r') (⟨.rightParen, posr⟩ :: rest) := by
    have hur' : Reads prec s .unary
        (skip (⟨.space, pos₂⟩ :: (rs ++ ⟨.rightParen, posr⟩ :: rest))) r'
        (⟨.rightParen, posr⟩ :: rest) := by
      rwa [skip_cons_of_whitespace rfl, hur.skip_eq (.inr (.inl rfl))]
    simp only [List.append_assoc, List.cons_append]
    refine .expr hul ?_
    rw [skip_cons_of_not_whitespace rfl]
    refine .looser hop hur' (by omega) ?_
    rw [hs]
    exact .combined (.inr (.inl (by omega)))
  simpa using reads_paren pos hf.ne_nil hexpr hy

lemma readsBack_send {span : Span} {recv msg : Node} (hr : ReadsBack prec s recv)
    (hm : NamesBack prec s msg) : ReadsBack prec s (.send span recv msg) := by
  intro ts rest hk hf
  rw [Node.layout] at hk
  obtain ⟨rs, us, rfl, hrs, hus⟩ := exists_append_of_kinds hk
  obtain ⟨pos, ms, rfl, hms⟩ := exists_cons_of_kinds hus
  obtain ⟨msg', r₁, hmsg, hr₁, hread⟩ := hm ms rest hms ⟨hf.ne_nil, hf.name, hf.assign⟩
  have hs : skip (⟨.dot, pos⟩ :: (ms ++ rest)) = ⟨.dot, pos⟩ :: (ms ++ rest) :=
    skip_cons_of_not_whitespace rfl _
  obtain ⟨recv', hrecv, hp⟩ := hr.exists_operand hrs (List.cons_ne_nil ⟨.dot, pos⟩ (ms ++ rest))
    (by rw [hs, front_cons]; simp)
  refine ⟨.send ⟨recv'.start, msg'.stop⟩ recv' msg', by simp [Node.erase, hrecv, hmsg],
    fun y r hy => ?_⟩
  rw [List.append_assoc]
  refine hp y r ?_
  rw [hs]
  exact .send hread (hr₁ ▸ hy)

/-- An expression that can be read is read back from its layout. -/
theorem readsBack_of_fits (h : x.Fits (0 ≤ prec.of ·) s.classOf) :
    ReadsBack prec s x ∧ (x.isMessage = true → NamesBack prec s x) := by
  induction h with
  | int span value =>
    exact ⟨readsBack_literal rfl fun pos => ⟨_, rfl, rfl⟩, fun hm => by cases hm⟩
  | string span value =>
    exact ⟨readsBack_literal rfl fun pos => ⟨_, rfl, rfl⟩, fun hm => by cases hm⟩
  | selfRef span =>
    exact ⟨readsBack_literal rfl fun pos => ⟨_, rfl, rfl⟩, fun hm => by cases hm⟩
  | localVar span hn hc =>
    have h : NamesBack prec s _ := namesBack_localVar span hc
    exact ⟨h.readsBack, fun _ => h⟩
  | @assign span name value hn _ ih =>
    have h := namesBack_assign span name ih.1
    exact ⟨h.readsBack, fun _ => h⟩
  | call span hn _ ih =>
    have h := namesBack_call span hn fun y hy => (ih y hy).1
    exact ⟨h.readsBack, fun _ => h⟩
  | @unary span b y hb _ ih =>
    refine ⟨readsBack_unary hb ih.1, fun hm => ?_⟩
    simp [Node.isMessage, prefixOperator?_unary hb] at hm
  | binary span hb ho _ _ ihl ihr =>
    exact ⟨readsBack_binary ho ihl.1 ihr.1, fun hm => by cases hm⟩
  | send span _ _ hn ihr ihm =>
    exact ⟨readsBack_send ihr.1 (ihm.2 hn), fun hm => by cases hm⟩

/-! ### Statements -/

/-- A statement that is enclosed if it ends in a name can stand in front of everything that is
neither a message nor an operator. -/
lemma ReadsBack.exists_statement (h : ReadsBack prec s x)
    (hk : ts.map Token.kind = x.statementLayout) (hne : rest ≠ []) (he : Ends rest) :
    ∃ x', x'.erase = x.erase ∧ Reads prec s .expr (ts ++ rest) x' (skip rest) := by
  obtain ⟨x', hx, hp⟩ := h.exists_enclosed hk hne fun hn =>
    ⟨hne, fun hx => by simp [hn] at hx, fun _ => he⟩
  exact ⟨x', hx, reads_expr_of_primary he hp⟩

/-- Some tokens start with one that begins a new expression rather than going on with one. -/
def Heads (ks : List Kind) : Prop :=
  ∃ k ls, ks = k :: ls ∧ k.isWhitespace = false ∧ k ≠ .dot ∧ ∀ op, k ≠ .operator op

lemma Heads.enclosed {ks : List Kind} (h : Heads ks) (condition : Bool) :
    Heads (Node.enclosed condition ks) := by
  cases condition with
  | false => exact h
  | true => exact ⟨.leftParen, _, rfl, rfl, by simp, by simp⟩

lemma Heads.append {ks : List Kind} (h : Heads ks) (ls : List Kind) : Heads (ks ++ ls) := by
  obtain ⟨k, ks, rfl, hk⟩ := h
  exact ⟨k, ks ++ ls, rfl, hk⟩

lemma heads_of_fits {ok : Int → Prop} {classOf : Text → Except Cause Text}
    (h : x.Fits ok classOf) : Heads x.layout := by
  induction h with
  | int | string | selfRef | localVar | assign | binary =>
    exact ⟨_, _, rfl, rfl, by simp, by simp⟩
  | call _ hn =>
    rw [Node.layout, prefixOperator?_of_isIdentifier hn]
    exact ⟨_, _, rfl, rfl, by simp, by simp⟩
  | unary _ hb =>
    rw [Node.layout, prefixOperator?_unary hb]
    exact ⟨_, _, rfl, rfl, by simp, by simp⟩
  | @send _ recv _ _ _ _ ihr => exact (ihr.enclosed recv.endsInAssign).append _

lemma ends_of_heads {k : Kind} {pos : Int} {us : List Token} (hs : skip ts = ⟨k, pos⟩ :: us)
    (hk : k ≠ .dot ∧ ∀ op, k ≠ .operator op) : Ends ts := by
  rw [Ends, hs]
  exact hk

lemma isWhitespace_of_indent {depth : Nat} (h : ts.map Token.kind = indent depth) :
    ∀ t ∈ ts, t.isWhitespace = true := by
  intro t ht
  have hm : t.kind ∈ indent depth := h ▸ List.mem_map_of_mem ht
  match depth with
  | 0     => simp [indent] at hm
  | _ + 1 =>
    have hs : t.kind = .space := by simpa [indent] using hm
    simp [Token.isWhitespace, hs, Kind.isWhitespace]

/-- An `end` on a line of its own. -/
lemma exists_endLine {depth : Nat}
    (hk : ts.map Token.kind = indent depth ++ [Kind.endWord, Kind.newline]) (rest : List Token) :
    ∃ pos pos', skip (ts ++ rest) = ⟨.endWord, pos⟩ :: ⟨.newline, pos'⟩ :: rest := by
  obtain ⟨us, vs, rfl, hus, hvs⟩ := exists_append_of_kinds hk
  obtain ⟨pos, ws, rfl, hws⟩ := exists_cons_of_kinds hvs
  obtain ⟨pos', rfl⟩ := exists_singleton_of_kinds hws
  refine ⟨pos, pos', ?_⟩
  rw [List.append_assoc, skip_append_of_whitespace (isWhitespace_of_indent hus)]
  exact skip_cons_of_not_whitespace rfl _

/-- The lines of further statements, or the `end` behind the last one, let a statement alone. -/
lemma ends_of_lines {ok : Int → Prop} {params : List Param} {done body : List Node} {depth : Nat}
    (hb : BodyFits ok params done body)
    (hk : ts.map Token.kind =
      body.flatMap Node.lineLayout ++ (indent depth ++ [Kind.endWord, Kind.newline]))
    (pos : Int) (rest : List Token) : Ends (⟨.newline, pos⟩ :: (ts ++ rest)) := by
  have hnl : skip (⟨.newline, pos⟩ :: (ts ++ rest)) = skip (ts ++ rest) :=
    skip_cons_of_whitespace rfl _
  match body with
  | [] =>
    obtain ⟨pos₁, pos₂, hs⟩ := exists_endLine hk rest
    exact ends_of_heads (hnl.trans hs) (by simp)
  | n :: ns =>
    obtain ⟨k, ks, hl, hw, hd⟩ := (heads_of_fits hb.1).enclosed n.endsInName
    rw [List.flatMap_cons, Node.lineLayout, Node.statementLayout, hl] at hk
    obtain ⟨pos₁, us, rfl, hus⟩ := exists_cons_of_kinds hk
    obtain ⟨pos₂, vs, rfl, -⟩ := exists_cons_of_kinds hus
    have hs : skip (⟨.space, pos₁⟩ :: ⟨k, pos₂⟩ :: vs ++ rest) = ⟨k, pos₂⟩ :: (vs ++ rest) := by
      rw [List.cons_append, skip_cons_of_whitespace rfl]
      exact skip_cons_of_not_whitespace (t := ⟨k, pos₂⟩) hw _
    exact ends_of_heads (hnl.trans hs) hd

/-! ### Scopes -/

mutual

/-- Offsets are forgotten by moving all of them to one place. -/
lemma erase_eq_relocate (n : Node) : n.erase = n.relocate fun _ => -1 := by
  cases n with
  | module _ body | classBlock _ _ body | traitBlock _ _ body | implBlock _ _ body
  | definition _ _ _ body | call _ _ body =>
    simp only [Node.erase, Node.relocate, Span.relocate, eraseAll_eq_relocateAll body]
  | assign _ _ value =>
    simp only [Node.erase, Node.relocate, Span.relocate, erase_eq_relocate value]
  | binary _ _ left right | send _ left right =>
    simp only [Node.erase, Node.relocate, Span.relocate, erase_eq_relocate left,
      erase_eq_relocate right]
  | localVar | int | string | selfRef => rfl

lemma eraseAll_eq_relocateAll (ns : List Node) :
    Node.eraseAll ns = Node.relocateAll (fun _ => -1) ns := by
  cases ns with
  | nil => rfl
  | cons n ns =>
    rw [Node.eraseAll, Node.relocateAll, erase_eq_relocate n, eraseAll_eq_relocateAll ns]

end

/-- Types do not depend on offsets. -/
lemma classOf_erase (params : List Param) (done : List Node) :
    Scope.classOf ⟨params, done.map Node.erase⟩ = Scope.classOf ⟨params, done⟩ := by
  rw [List.map_congr_left fun n _ => erase_eq_relocate n]
  exact Scope.classOf_relocate _ ⟨params, done⟩

/-! ### Definitions -/

/-- The statements of a definition that has some are read back, up to its `end`. -/
lemma exists_body {params : List Param} {done : List Node} (done' : List Node) {body : List Node}
    {depth : Nat} (hb : BodyFits (0 ≤ prec.of ·) params done body)
    (hd : done'.map Node.erase = done.map Node.erase) (hne : body = [] → done ≠ [])
    (hk : ts.map Token.kind =
      body.flatMap Node.lineLayout ++ (indent depth ++ [Kind.endWord, Kind.newline]))
    (rest : List Token) :
    ∃ body' r, body'.map Node.erase = body.map Node.erase ∧ skip r = skip rest ∧
      ReadsBody prec params done' (ts ++ rest) body' r := by
  induction body generalizing ts done done' with
  -- the `end` of the definition
  | nil =>
    obtain ⟨pos, pos', hs⟩ := exists_endLine hk rest
    have hne' : done' ≠ [] := by
      rintro rfl
      exact hne rfl (List.map_eq_nil_iff.1 hd.symm)
    obtain ⟨y, ys, rfl⟩ := List.exists_cons_of_ne_nil hne'
    exact ⟨[], ⟨.newline, pos'⟩ :: rest, rfl, skip_cons_of_whitespace rfl rest, .closed hs⟩
  | cons n ns ih =>
    obtain ⟨hn, hns⟩ := hb
    rw [List.flatMap_cons, List.append_assoc] at hk
    obtain ⟨us, ws, rfl, hus, hws⟩ := exists_append_of_kinds hk
    obtain ⟨pos, vs, rfl, hvs⟩ := exists_cons_of_kinds hus
    obtain ⟨zs, ls, rfl, hzs, hls⟩ := exists_append_of_kinds hvs
    obtain ⟨posn, rfl⟩ := exists_singleton_of_kinds hls
    -- what was read before differs from the body in its offsets only, which no type depends on
    have hscope : Scope.classOf ⟨params, done⟩ = Scope.classOf ⟨params, done'⟩ := by
      rw [← classOf_erase params done, ← classOf_erase params done', hd]
    rw [hscope] at hn
    obtain ⟨n', hn', hr⟩ := (readsBack_of_fits hn).1.exists_statement hzs
      (List.cons_ne_nil ⟨.newline, posn⟩ (ws ++ rest)) (ends_of_lines hns hws posn rest)
    obtain ⟨ns', r, hns', hr', hbody⟩ := ih (n' :: done') hns (by simp [hn', hd])
      (by simp) hws
    refine ⟨n' :: ns', r, by simp [hn', hns'], hr', ?_⟩
    have hts : skip (⟨.space, pos⟩ :: (zs ++ [⟨.newline, posn⟩]) ++ ws ++ rest) =
        zs ++ ⟨.newline, posn⟩ :: (ws ++ rest) := by
      simp only [List.append_assoc, List.cons_append, List.nil_append]
      rw [skip_cons_of_whitespace rfl, hr.skip_eq (.inl rfl)]
    refine .statement (hts ▸ hr) ?_
    rwa [skip_cons_of_whitespace rfl, readsBody_skip]

/-- Parameters are read back, up to the closing parenthesis. -/
lemma exists_params_back {ps : List Param} (hne : ps ≠ [])
    (h : ∀ p ∈ ps, ∃ type : BaseType, p.type = some type ∧ type.Fits) {ts : List Token}
    (hk : ts.map Token.kind = Node.joined (ps.map Param.layout)) (pos : Int) (rest : List Token) :
    ReadsParams (ts ++ ⟨.rightParen, pos⟩ :: rest) ps rest := by
  have hr : skip (⟨.rightParen, pos⟩ :: rest) = ⟨.rightParen, pos⟩ :: rest :=
    skip_cons_of_not_whitespace rfl rest
  match ps with
  | [] => exact absurd rfl hne
  | [⟨name, type⟩] =>
    obtain ⟨_, rfl, c, -, rfl⟩ := h _ List.mem_cons_self
    obtain ⟨pos₁, us, rfl, hus⟩ := exists_cons_of_kinds hk
    obtain ⟨pos₂, vs, rfl, hvs⟩ := exists_cons_of_kinds hus
    obtain ⟨pos₃, rfl⟩ := exists_singleton_of_kinds hvs
    rw [classNameOf, className_named]
    exact .last (skip_cons_of_not_whitespace rfl _) rfl hr
  | ⟨name, type⟩ :: q :: qs =>
    obtain ⟨hp, hqs⟩ := List.forall_mem_cons.1 h
    obtain ⟨_, rfl, c, -, rfl⟩ := hp
    obtain ⟨pos₁, us, rfl, hus⟩ := exists_cons_of_kinds hk
    obtain ⟨pos₂, vs, rfl, hvs⟩ := exists_cons_of_kinds hus
    obtain ⟨pos₃, ws, rfl, hws⟩ := exists_cons_of_kinds hvs
    obtain ⟨pos₄, zs, rfl, hzs⟩ := exists_cons_of_kinds hws
    obtain ⟨pos₅, ys, rfl, hys⟩ := exists_cons_of_kinds hzs
    have hrest : ReadsParams (⟨.space, pos₅⟩ :: (ys ++ ⟨.rightParen, pos⟩ :: rest)) (q :: qs)
        rest := by
      rw [← readsParams_skip, skip_cons_of_whitespace rfl, readsParams_skip]
      exact exists_params_back (List.cons_ne_nil q qs) hqs hys pos rest
    rw [classNameOf, className_named]
    exact .cons (skip_cons_of_not_whitespace rfl _) rfl (skip_cons_of_not_whitespace rfl _) hrest

/-- What stands behind the parameters is read back, with the line end or up to it. -/
lemma exists_result_back {r : Option BaseType} (h : ∀ type ∈ r, type.Fits) {ts : List Token}
    (hk : ts.map Token.kind = resultLayout r) (pos : Int) (rest : List Token) :
    ∃ us, skip us = skip rest ∧ ReadsResult (ts ++ ⟨.newline, pos⟩ :: rest) r us := by
  cases r with
  | none =>
    obtain rfl := List.map_eq_nil_iff.1 hk
    exact ⟨rest, rfl, .none rfl⟩
  | some type =>
    obtain ⟨name, -, rfl⟩ := h type rfl
    rw [resultLayout, className_named] at hk
    obtain ⟨pos₁, us, rfl, hus⟩ := exists_cons_of_kinds hk
    obtain ⟨pos₂, vs, rfl, hvs⟩ := exists_cons_of_kinds hus
    obtain ⟨pos₃, ws, rfl, hws⟩ := exists_cons_of_kinds hvs
    obtain ⟨pos₄, rfl⟩ := exists_singleton_of_kinds hws
    exact ⟨⟨.newline, pos⟩ :: rest, skip_cons_of_whitespace rfl rest, .spaced rfl⟩

/-- A signature is read back. -/
lemma exists_prototype_back {p : Prototype} (h : p.Fits) {ts : List Token}
    (hk : ts.map Token.kind = p.layout) (pos pos' : Int) (rest : List Token) :
    ∃ us, skip us = skip rest ∧
      ReadsPrototype (⟨.space, pos⟩ :: (ts ++ ⟨.newline, pos'⟩ :: rest)) p us := by
  obtain ⟨us, vs, rfl, hus, hvs⟩ := exists_append_of_kinds hk
  obtain ⟨posn, us, rfl, hus'⟩ := exists_cons_of_kinds hus
  obtain ⟨posl, us, rfl, hus''⟩ := exists_cons_of_kinds hus'
  obtain ⟨ps, us, rfl, hps, hr⟩ := exists_append_of_kinds hus''
  obtain ⟨posr, rfl⟩ := exists_singleton_of_kinds hr
  obtain ⟨us, hs, hres⟩ := exists_result_back h.result hvs pos' rest
  refine ⟨us, hs, ?_⟩
  have hp := h.params
  obtain ⟨name, params, result, isOperator, precedence⟩ := p
  obtain rfl := h.isOperator
  obtain rfl := h.precedence
  simp only [List.append_assoc, List.cons_append, List.nil_append]
  by_cases hne : params = []
  · subst hne
    obtain rfl := List.map_eq_nil_iff.1 hps
    exact .empty rfl (skip_cons_of_not_whitespace rfl _) hres
  · exact .full rfl (exists_params_back hne (fun q hq => (hp q hq).2) hps posr _) hres

lemma readsBlock_skip {b : Block} {ds : List Definition} :
    ReadsBlock prec b (skip ts) ds rest ↔ ReadsBlock prec b ts ds rest := by
  constructor
  · intro h
    cases h with
    | finished he => exact .finished (skip_skip ts ▸ he)
    | closed hb he => exact .closed hb (skip_skip ts ▸ he)
    | definition hd hds => exact .definition (skip_skip ts ▸ hd) hds
    | nested hw ho hn hds hes => exact .nested (skip_skip ts ▸ hw) ho hn hds hes
  · intro h
    cases h with
    | finished he => exact .finished ((skip_skip ts).trans he)
    | closed hb he => exact .closed hb ((skip_skip ts).trans he)
    | definition hd hds => exact .definition ((skip_skip ts).symm ▸ hd) hds
    | nested hw ho hn hds hes => exact .nested ((skip_skip ts).trans hw) ho hn hds hes

/-- A definition as a member of a block, without offsets. -/
def Block.stamp (b : Block) (d : Definition) : Definition :=
  Definition.remade { d with className := b.className, implName := b.implName }

/-- A definition is read back as the next member of a block. Without statements it must be the last
one, since the `end` behind it is that of the block. -/
theorem exists_definition_back {d : Definition} (hd : d.Fits (0 ≤ prec.of ·)) {b : Block}
    {depth : Nat} {ts out : List Token} {ds : List Definition}
    (hk : ts.map Token.kind = definitionLayout depth d.proto d.body) (rest : List Token)
    (he : d.body = [] → front (skip rest) = .endWord) (h : ReadsBlock prec b rest ds out) :
    ∃ d', d'.erase = b.stamp d ∧ ReadsBlock prec b (ts ++ rest) (d' :: ds) out := by
  obtain ⟨is, us, rfl, his, hus⟩ := exists_append_of_kinds hk
  obtain ⟨pos, vs, rfl, hvs⟩ := exists_cons_of_kinds hus
  obtain ⟨poss, ws, rfl, hws⟩ := exists_cons_of_kinds hvs
  obtain ⟨ps, zs, rfl, hps, hzs⟩ := exists_append_of_kinds hws
  obtain ⟨posn, ls, rfl, hls⟩ := exists_cons_of_kinds hzs
  obtain ⟨us, hs, hp⟩ := exists_prototype_back hd.proto hps poss posn (ls ++ rest)
  -- without statements, the `end` that follows is left to the block
  obtain ⟨body, r, hbody, hr, hb⟩ : ∃ body r, body.map Node.erase = d.body.map Node.erase ∧
      skip r = skip rest ∧ ReadsBody prec d.proto.params [] (ls ++ rest) body r := by
    by_cases hne : d.body = []
    · rw [hne] at hls ⊢
      obtain rfl := List.map_eq_nil_iff.1 hls
      obtain ⟨pos', v, hv⟩ := exists_cons_of_front (he hne) (by simp)
      refine ⟨[], skip rest, rfl, skip_skip rest, ?_⟩
      rw [hv]
      exact .bodyless hv
    · obtain ⟨n, ns, hbody⟩ := List.exists_cons_of_ne_nil hne
      have hls' : ls.map Token.kind =
          d.body.flatMap Node.lineLayout ++ (indent depth ++ [Kind.endWord, Kind.newline]) := by
        rw [hbody] at hls ⊢
        exact hls
      exact exists_body [] hd.body rfl (fun h => absurd h hne) hls' rest
  rw [← readsBody_skip, ← hs, readsBody_skip] at hb
  obtain ⟨used, hu⟩ := hb.suffix.trans hp.suffix
  have hdef : ReadsDefinition prec b.className b.implName
      (⟨.defWord, pos⟩ :: ⟨.space, poss⟩ :: (ps ++ ⟨.newline, posn⟩ :: (ls ++ rest)))
      ⟨⟨pos, lastPos (⟨.defWord, pos⟩ :: used)⟩, d.proto.name = Parser.mainName, d.proto, body,
        b.className, b.implName⟩ r :=
    .mk hp hb (by rw [← hu, List.cons_append])
  -- the blanks in front of the definition are skipped
  have hskip : skip (is ++ ⟨.defWord, pos⟩ :: ⟨.space, poss⟩ :: (ps ++ ⟨.newline, posn⟩ :: ls) ++
      rest) = ⟨.defWord, pos⟩ :: ⟨.space, poss⟩ :: (ps ++ ⟨.newline, posn⟩ :: (ls ++ rest)) := by
    simp only [List.append_assoc, List.cons_append]
    rw [skip_append_of_whitespace (isWhitespace_of_indent his)]
    exact skip_cons_of_not_whitespace rfl _
  rw [← readsBlock_skip, ← hr, readsBlock_skip] at h
  refine ⟨_, ?_, .definition (hskip ▸ hdef) h⟩
  simp only [Definition.erase, Block.stamp, Definition.remade, hbody]

end Frontend.Grammar
