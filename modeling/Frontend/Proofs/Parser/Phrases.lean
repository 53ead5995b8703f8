import Frontend.Parser.Expression
import Frontend.Proofs.Parser.Cursor

/-!
# The grammar of expressions

`Reads prec s g ts x rest` says that a phrase `g` of the expression grammar stands at the start of
the tokens `ts`, that it is read as the node `x`, and that `rest` is what is left. It has no budget
and no cursor, and its rules only speak of runs that succeed.

The parser computes this relation: `reads_of_run` turns a run into a derivation, and
`exists_run_of_reads` finds a run for every derivation as soon as the budget is linear in the
number of tokens.
-/

namespace Frontend.Grammar

/-- What the parser can be in the middle of. -/
inductive Phrase
  | expr
  /-- An operand with the operators in front of it. -/
  | unary
  /-- An operand without operators. -/
  | primary
  /-- The messages behind a receiver. -/
  | sends (recv : Node)
  /-- A call, an assignment or a variable. -/
  | named
  /-- The arguments of a call of a function at some offset, behind those read so far in
  reverse. -/
  | args (pos : Int) (fn : Text) (done : List Node)
  /-- The operators behind a left operand whose precedence is at least the given one. -/
  | binary (least : Int) (left : Node)

/-- A phrase at the start of a token list, the node it is read as, and what follows it. -/
inductive Reads (prec : Precedence) (s : Scope) :
    Phrase → List Token → Node → List Token → Prop
  | expr {ts ts₁ ts₂ : List Token} {x y : Node} (hx : Reads prec s .unary ts x ts₁)
      (hy : Reads prec s (.binary 0 x) (skip ts₁) y ts₂) : Reads prec s .expr ts y ts₂
  /-- An operator in front of its operand is a call. -/
  | operator {ts ts₁ : List Token} {x : Node} {op pos : Int} (hx : Reads prec s .unary ts x ts₁) :
      Reads prec s .unary (⟨.operator op, pos⟩ :: ts)
        (.call ⟨pos, x.stop⟩ (unaryWord ++ Text.ofCodePoint op) [x]) ts₁
  | operand {ts ts₁ : List Token} {x : Node} (hx : Reads prec s .primary ts x ts₁) :
      Reads prec s .unary ts x ts₁
  | literal {ts ts₁ : List Token} {x y : Node} {t : Token}
      (hx : Parser.literal? t.pos t.kind = some x)
      (hy : Reads prec s (.sends x) (skip ts) y ts₁) : Reads prec s .primary (t :: ts) y ts₁
  | name {ts ts₁ ts₂ : List Token} {x y : Node} (hx : Reads prec s .named ts x ts₁)
      (hy : Reads prec s (.sends x) (skip ts₁) y ts₂) : Reads prec s .primary ts y ts₂
  /-- A token must follow the closing parenthesis. -/
  | paren {ts ts₁ ts₂ ts₃ : List Token} {x y : Node} {pos pos' : Int}
      (hx : Reads prec s .expr ts x ts₁) (hr : skip ts₁ = ⟨.rightParen, pos'⟩ :: ts₂)
      (hne : ts₂ ≠ []) (hy : Reads prec s (.sends x) (skip ts₂) y ts₃) :
      Reads prec s .primary (⟨.leftParen, pos⟩ :: ts) y ts₃
  | sent {ts : List Token} {recv : Node} (h : front ts ≠ .dot) :
      Reads prec s (.sends recv) ts recv ts
  | send {ts ts₁ ts₂ : List Token} {recv msg y : Node} {pos : Int}
      (hm : Reads prec s .named ts msg ts₁)
      (hy : Reads prec s (.sends (.send ⟨recv.start, msg.stop⟩ recv msg)) (skip ts₁) y ts₂) :
      Reads prec s (.sends recv) (⟨.dot, pos⟩ :: ts) y ts₂
  | callNone {ts ts₁ ts₂ : List Token} {fn : Text} {pos pos' stop : Int}
      (hl : skip ts = ⟨.leftParen, pos'⟩ :: ts₁) (hr : skip ts₁ = ⟨.rightParen, stop⟩ :: ts₂) :
      Reads prec s .named (⟨.identifier fn, pos⟩ :: ts) (.call ⟨pos, stop⟩ fn []) ts₂
  | call {ts ts₁ ts₂ : List Token} {x : Node} {fn : Text} {pos pos' : Int}
      (hl : skip ts = ⟨.leftParen, pos'⟩ :: ts₁)
      (hx : Reads prec s (.args pos fn []) (skip ts₁) x ts₂) :
      Reads prec s .named (⟨.identifier fn, pos⟩ :: ts) x ts₂
  | assign {ts ts₁ ts₂ : List Token} {v : Node} {name : Text} {pos pos' : Int}
      (ha : skip ts = ⟨.assign, pos'⟩ :: ts₁) (hv : Reads prec s .expr (skip ts₁) v ts₂) :
      Reads prec s .named (⟨.identifier name, pos⟩ :: ts) (.assign ⟨pos, v.stop⟩ name v) ts₂
  | localVar {ts : List Token} {name className : Text} {pos : Int}
      (hl : front (skip ts) ≠ .leftParen) (ha : front (skip ts) ≠ .assign)
      (hc : s.classOf name = .ok className) :
      Reads prec s .named (⟨.identifier name, pos⟩ :: ts)
        (.localVar ⟨pos, pos⟩ name (some (.undef className))) (skip ts)
  | lastArg {ts ts₁ ts₂ : List Token} {x : Node} {done : List Node} {fn : Text} {pos stop : Int}
      (hx : Reads prec s .expr (skip ts) x ts₁) (hr : skip ts₁ = ⟨.rightParen, stop⟩ :: ts₂) :
      Reads prec s (.args pos fn done) ts (.call ⟨pos, stop⟩ fn (x :: done).reverse) ts₂
  | arg {ts ts₁ ts₂ ts₃ : List Token} {x y : Node} {done : List Node} {fn : Text} {pos pos' : Int}
      (hx : Reads prec s .expr (skip ts) x ts₁) (hr : skip ts₁ = ⟨.comma, pos'⟩ :: ts₂)
      (hy : Reads prec s (.args pos fn (x :: done)) ts₂ y ts₃) :
      Reads prec s (.args pos fn done) ts y ts₃
  | combined {ts : List Token} {least : Int} {left : Node}
      (h : front ts = .endWord ∨ levelOf prec ts < least ∨ ts = []) :
      Reads prec s (.binary least left) ts left ts
  /-- The operator behind the right operand does not bind tighter. -/
  | looser {ts ts₁ ts₂ : List Token} {x left y : Node} {least op pos : Int}
      (hl : least ≤ prec.of op) (hx : Reads prec s .unary (skip ts) x ts₁)
      (ht : levelOf prec ts₁ ≤ prec.of op)
      (hy : Reads prec s (.binary least (.binary ⟨left.start, x.stop⟩ op left x)) (skip ts₁) y
        ts₂) :
      Reads prec s (.binary least left) (⟨.operator op, pos⟩ :: ts) y ts₂
  /-- The operator behind the right operand binds tighter and belongs to that operand. -/
  | tighter {ts ts₁ ts₂ ts₃ : List Token} {x right left y : Node} {least op pos : Int}
      (hl : least ≤ prec.of op) (hx : Reads prec s .unary (skip ts) x ts₁)
      (ht : prec.of op < levelOf prec ts₁)
      (hr : Reads prec s (.binary (prec.of op + 1) x) (skip ts₁) right ts₂)
      (hy : Reads prec s (.binary least (.binary ⟨left.start, right.stop⟩ op left right)) ts₂ y
        ts₃) :
      Reads prec s (.binary least left) (⟨.operator op, pos⟩ :: ts) y ts₃

lemma literal?_cases {pos : Int} {kind : Kind} {x : Node}
    (h : Parser.literal? pos kind = some x) :
    (∃ value, kind = .number value ∧ x = .int ⟨pos, pos⟩ value) ∨
      (∃ value, kind = .string value ∧ x = .string ⟨pos, pos⟩ value) ∨
      kind = .selfWord ∧ x = .selfRef ⟨pos, pos⟩ := by
  cases kind with
  | number value => exact .inl ⟨value, rfl, (Option.some.inj h).symm⟩
  | string value => exact .inr (.inl ⟨value, rfl, (Option.some.inj h).symm⟩)
  | selfWord => exact .inr (.inr ⟨rfl, (Option.some.inj h).symm⟩)
  | _ => cases h

lemma kind_of_classOf {s : Scope} {name : Text} {cause : Cause}
    (h : s.classOf name = .error cause) : cause.kind = .inference := by
  unfold Scope.classOf at h
  split at h
  case h_1 value _ =>
    cases value with
    | int | string | localVar => cases h
    | _ => obtain rfl := Except.error.inj h; rfl
  case h_2 =>
    split at h
    case h_1 => cases h
    case h_2 => obtain rfl := Except.error.inj h; rfl

/-! ### Progress -/

/-- The phrase cannot be empty. -/
def Phrase.Consumes : Phrase → Prop
  | .sends _ | .binary _ _ => False
  | _                      => True

variable {prec : Precedence} {s : Scope} {g : Phrase} {ts rest : List Token} {x : Node}

/-- Nothing but tokens at the start is read. -/
lemma Reads.suffix (h : Reads prec s g ts x rest) : rest <:+ ts := by
  induction h with
  | expr _ _ ihx ihy => exact (ihy.trans (skip_suffix _)).trans ihx
  | operator _ ihx => exact ihx.trans (List.suffix_cons _ _)
  | operand _ ihx => exact ihx
  | literal _ _ ihy => exact (ihy.trans (skip_suffix _)).trans (List.suffix_cons _ _)
  | name _ _ ihx ihy => exact (ihy.trans (skip_suffix _)).trans ihx
  | paren _ hr _ _ ihx ihy =>
    exact (((ihy.trans (skip_suffix _)).trans (suffix_of_skip hr)).trans ihx).trans
      (List.suffix_cons _ _)
  | sent => exact List.suffix_rfl
  | send _ _ ihm ihy =>
    exact ((ihy.trans (skip_suffix _)).trans ihm).trans (List.suffix_cons _ _)
  | callNone hl hr =>
    exact ((suffix_of_skip hr).trans (suffix_of_skip hl)).trans (List.suffix_cons _ _)
  | call hl _ ihx =>
    exact ((ihx.trans (skip_suffix _)).trans (suffix_of_skip hl)).trans (List.suffix_cons _ _)
  | assign ha _ ihv =>
    exact ((ihv.trans (skip_suffix _)).trans (suffix_of_skip ha)).trans (List.suffix_cons _ _)
  | localVar => exact (skip_suffix _).trans (List.suffix_cons _ _)
  | lastArg _ hr ihx => exact ((suffix_of_skip hr).trans ihx).trans (skip_suffix _)
  | arg _ hr _ ihx ihy =>
    exact ((ihy.trans (suffix_of_skip hr)).trans ihx).trans (skip_suffix _)
  | combined => exact List.suffix_rfl
  | looser _ _ _ _ ihx ihy =>
    exact (((ihy.trans (skip_suffix _)).trans ihx).trans (skip_suffix _)).trans
      (List.suffix_cons _ _)
  | tighter _ _ _ _ _ ihx ihr ihy =>
    exact ((((ihy.trans ihr).trans (skip_suffix _)).trans ihx).trans (skip_suffix _)).trans
      (List.suffix_cons _ _)

lemma Reads.length_le (h : Reads prec s g ts x rest) : rest.length ≤ ts.length :=
  h.suffix.length_le

/-- Reading does not stand still on a phrase that cannot be empty. -/
lemma Reads.length_lt (h : Reads prec s g ts x rest) (hg : g.Consumes) :
    rest.length < ts.length := by
  induction h with
  | @expr ts ts₁ _ _ _ hx hy ihx _ =>
    have := ihx trivial
    have := hy.length_le
    have := length_skip_le ts₁
    omega
  | operator hx _ =>
    have := hx.length_le
    simp only [List.length_cons]
    omega
  | operand _ ihx => exact ihx trivial
  | @literal ts _ _ _ _ _ hy _ =>
    have := hy.length_le
    have := length_skip_le ts
    simp only [List.length_cons]
    omega
  | @name ts ts₁ _ _ _ hx hy ihx _ =>
    have := ihx trivial
    have := hy.length_le
    have := length_skip_le ts₁
    omega
  | @paren ts _ ts₂ _ _ _ _ _ hx hr _ hy _ _ =>
    have := hx.length_le
    have := length_of_skip hr
    have := hy.length_le
    have := length_skip_le ts₂
    simp only [List.length_cons]
    omega
  | callNone hl hr =>
    have := length_of_skip hl
    have := length_of_skip hr
    simp only [List.length_cons]
    omega
  | @call _ ts₁ _ _ _ _ _ hl hx _ =>
    have := length_of_skip hl
    have := hx.length_le
    have := length_skip_le ts₁
    simp only [List.length_cons]
    omega
  | @assign _ ts₁ _ _ _ _ _ ha hv _ =>
    have := length_of_skip ha
    have := hv.length_le
    have := length_skip_le ts₁
    simp only [List.length_cons]
    omega
  | @localVar ts =>
    have := length_skip_le ts
    simp only [List.length_cons]
    omega
  | @lastArg ts _ _ _ _ _ _ _ hx hr _ =>
    have := hx.length_le
    have := length_of_skip hr
    have := length_skip_le ts
    omega
  | @arg ts _ _ _ _ _ _ _ _ _ hx hr hy _ _ =>
    have := hx.length_le
    have := length_of_skip hr
    have := hy.length_le
    have := length_skip_le ts
    omega
  -- the two phrases that can be empty
  | _ => cases hg

/-! ### Atoms -/

/-- What an operand starts with, in front of the messages that are sent to it. -/
inductive ReadsAtom (prec : Precedence) (s : Scope) : List Token → Node → List Token → Prop
  | named {ts rest : List Token} {x : Node} (hx : Reads prec s .named ts x rest) :
      ReadsAtom prec s ts x rest
  | paren {ts ts₁ rest : List Token} {x : Node} {pos pos' : Int}
      (hx : Reads prec s .expr ts x ts₁) (hr : skip ts₁ = ⟨.rightParen, pos'⟩ :: rest)
      (hne : rest ≠ []) : ReadsAtom prec s (⟨.leftParen, pos⟩ :: ts) x rest
  | literal {t : Token} {ts : List Token} {x : Node}
      (hx : Parser.literal? t.pos t.kind = some x) : ReadsAtom prec s (t :: ts) x ts

lemma ReadsAtom.primary {y : Node} {us : List Token} (h : ReadsAtom prec s ts x us)
    (hy : Reads prec s (.sends x) (skip us) y rest) : Reads prec s .primary ts y rest := by
  cases h with
  | named hx => exact .name hx hy
  | paren hx hr hne => exact .paren hx hr hne hy
  | literal hx => exact .literal hx hy

/-! ### Runs -/

/-- The parser of a phrase. -/
def Phrase.run (prec : Precedence) (s : Scope) (n : Nat) : Phrase → Parser Node
  | .expr              => Parser.expr prec n s
  | .unary             => Parser.unary prec n s
  | .primary           => Parser.primary prec n s
  | .sends recv        => Parser.sends prec n s recv
  | .named             => Parser.named prec n s
  | .args pos fn done  => do
    let (xs, stop) ← Parser.args prec n s done
    return .call ⟨pos, stop⟩ fn xs
  | .binary least left => Parser.binary prec n s least left

/-- Whether there are messages behind an atom is found out by the function that reads them. -/
lemma primary_succ (prec : Precedence) (n : Nat) (s : Scope) :
    (Parser.primary prec (n + 1) s : Parser Node) = (do
      let x ← Parser.atom prec n s
      Parser.skipWhitespace
      Parser.sends prec n s x) := by
  cases n with
  | zero => rfl
  | succ n =>
    rw [Parser.primary, Parser.routine_eq]
    refine bind_congr fun x => bind_congr fun _ => funext fun c => ?_
    rw [Parser.bind_of_ok Parser.token_apply]
    cases hk : c.token.kind with
    | dot => rfl
    | _ => rw [Parser.sends, Parser.bind_of_ok Parser.token_apply, hk]

/-- Without a budget there is no result. -/
lemma run_zero (g : Phrase) {c c' : Cursor} : g.run prec s 0 c ≠ .ok x c' := by
  intro h
  cases g with
  | expr => simp only [Phrase.run, Parser.expr, Parser.fail_eq_ok] at h
  | unary => simp only [Phrase.run, Parser.unary, Parser.fail_eq_ok] at h
  | primary => simp only [Phrase.run, Parser.primary, Parser.fail_eq_ok] at h
  | sends recv => simp only [Phrase.run, Parser.sends, Parser.fail_eq_ok] at h
  | named => simp only [Phrase.run, Parser.named, Parser.fail_eq_ok] at h
  | args pos fn done =>
    simp only [Phrase.run, Parser.args, Parser.bind_eq_ok, Parser.fail_eq_ok, false_and,
      exists_false] at h
  | binary least left => simp only [Phrase.run, Parser.binary, Parser.fail_eq_ok] at h

/-- Every run with a budget that succeeds is described by the grammar. -/
def Sound (prec : Precedence) (s : Scope) (n : Nat) : Prop :=
  ∀ (g : Phrase) (c : Cursor) (x : Node) (c' : Cursor), g.run prec s n c = .ok x c' →
    Reads prec s g c.rest x c'.rest ∧ c.Reaches c'

section Soundness

variable {n : Nat} {c c' : Cursor}

open Frontend.Parser

lemma sound_expr (ih : ∀ m ≤ n, Sound prec s m) (h : Parser.expr prec (n + 1) s c = .ok x c') :
    Reads prec s .expr c.rest x c'.rest ∧ c.Reaches c' := by
  simp only [Parser.expr, routine_eq, bind_eq_ok, skipWhitespace_eq_ok] at h
  obtain ⟨y, c₁, hy, -, c₂, rfl, hx⟩ := h
  obtain ⟨hy, r₁⟩ := ih n le_rfl .unary _ _ _ hy
  obtain ⟨hx, r₂⟩ := ih n le_rfl (.binary 0 y) _ _ _ hx
  rw [Cursor.rest_skipWhitespace] at hx
  exact ⟨.expr hy hx, (r₁.trans c₁.reaches_skipWhitespace).trans r₂⟩

lemma sound_unary (ih : ∀ m ≤ n, Sound prec s m) (h : Parser.unary prec (n + 1) s c = .ok x c') :
    Reads prec s .unary c.rest x c'.rest ∧ c.Reaches c' := by
  simp only [Parser.unary, routine_eq, bind_eq_ok, current_eq_ok] at h
  obtain ⟨⟨kind, pos⟩, c₁, ⟨⟨ts, hr⟩, rfl⟩, h⟩ := h
  dsimp only at h
  split at h
  case h_1 op =>
    simp only [bind_eq_ok, advance_eq_ok, pure_eq_ok] at h
    obtain ⟨-, c₁, ⟨-, rfl⟩, y, c₂, hy, rfl, rfl⟩ := h
    obtain ⟨hy, r⟩ := ih n le_rfl .unary _ _ _ hy
    rw [Cursor.rest_next hr] at hy
    rw [hr]
    exact ⟨.operator hy, (Cursor.reaches_next hr).trans r⟩
  case h_2 =>
    obtain ⟨hx, r⟩ := ih n le_rfl .primary _ _ _ h
    exact ⟨.operand hx, r⟩

/-- The expression in parentheses at the cursor. -/
lemma sound_paren (ih : ∀ m ≤ n, Sound prec s m) (h : Parser.paren prec (n + 1) s c = .ok x c') :
    ∃ ts ts₁ pos pos', c.rest = ⟨.leftParen, pos⟩ :: ts ∧ Reads prec s .expr ts x ts₁ ∧
      skip ts₁ = ⟨.rightParen, pos'⟩ :: c'.rest ∧ c'.rest ≠ [] ∧ c.Reaches c' := by
  simp only [Parser.paren, routine_eq, bind_eq_ok, current_eq_ok] at h
  obtain ⟨⟨kind, pos⟩, c₁, ⟨⟨ts, hr⟩, rfl⟩, h⟩ := h
  dsimp only at h
  split at h
  case h_2 => exact (fail_eq_ok.1 h).elim
  simp only [bind_eq_ok, advance_eq_ok, skipWhitespace_eq_ok, current_eq_ok] at h
  obtain ⟨-, c₁, ⟨-, rfl⟩, y, c₂, hy, -, c₃, rfl, ⟨kind', pos'⟩, c₄, ⟨⟨ts', hr'⟩, rfl⟩, h⟩ := h
  obtain ⟨hy, r⟩ := ih n le_rfl .expr _ _ _ hy
  rw [Cursor.rest_next hr] at hy
  dsimp only at h
  split at h
  case h_2 => exact (fail_eq_ok.1 h).elim
  simp only [bind_eq_ok, advance_eq_ok, pure_eq_ok] at h
  obtain ⟨-, c₅, ⟨hne, rfl⟩, rfl, rfl⟩ := h
  have hn := Cursor.rest_next hr'
  rw [hn] at hne
  refine ⟨ts, c₂.rest, pos, pos', hr, hy, ?_, by rwa [hn], ?_⟩
  · rw [hn, ← hr', Cursor.rest_skipWhitespace]
  · exact (((Cursor.reaches_next hr).trans r).trans c₂.reaches_skipWhitespace).trans
      (Cursor.reaches_next hr')

lemma sound_atom (ih : ∀ m ≤ n, Sound prec s m) (h : Parser.atom prec (n + 1) s c = .ok x c') :
    ReadsAtom prec s c.rest x c'.rest ∧ c.Reaches c' := by
  simp only [Parser.atom, bind_eq_ok, token_eq_ok] at h
  obtain ⟨t, c₁, ⟨rfl, rfl⟩, h⟩ := h
  generalize hk : c.token.kind = kind at h
  split at h
  case h_1 name =>
    obtain ⟨hx, r⟩ := ih n le_rfl .named _ _ _ h
    exact ⟨.named hx, r⟩
  case h_2 =>
    cases n with
    | zero => simp only [Parser.paren, fail_eq_ok] at h
    | succ n =>
      obtain ⟨ts, ts₁, pos, pos', hr, hx, hc, hne, r⟩ :=
        sound_paren (fun m hm => ih m (by omega)) h
      rw [hr]
      exact ⟨.paren hx hc hne, r⟩
  case h_3 =>
    cases hl : literal? c.token.pos kind with
    | none => simp only [hl, fail_eq_ok] at h
    | some y =>
      simp only [hl, bind_eq_ok, next_eq_ok, pure_eq_ok] at h
      obtain ⟨-, c₁, rfl, rfl, rfl⟩ := h
      have hne : kind ≠ .eof := by
        rcases literal?_cases hl with ⟨v, rfl, -⟩ | ⟨v, rfl, -⟩ | ⟨rfl, -⟩ <;> simp
      obtain ⟨pos, ts, hr⟩ := exists_cons_of_front hk hne
      rw [Cursor.token_of_rest hr] at hl
      rw [hr, Cursor.rest_next hr]
      exact ⟨.literal hl, Cursor.reaches_next hr⟩

lemma sound_primary (ih : ∀ m ≤ n, Sound prec s m)
    (h : Parser.primary prec (n + 1) s c = .ok x c') :
    Reads prec s .primary c.rest x c'.rest ∧ c.Reaches c' := by
  simp only [primary_succ, bind_eq_ok, skipWhitespace_eq_ok] at h
  obtain ⟨y, c₁, hy, -, c₂, rfl, hs⟩ := h
  obtain ⟨hx, r₂⟩ := ih n le_rfl (.sends y) _ _ _ hs
  rw [Cursor.rest_skipWhitespace] at hx
  cases n with
  | zero => simp only [Parser.atom, fail_eq_ok] at hy
  | succ n =>
    obtain ⟨hy, r₁⟩ := sound_atom (fun m hm => ih m (by omega)) hy
    exact ⟨hy.primary hx, (r₁.trans c₁.reaches_skipWhitespace).trans r₂⟩

lemma sound_sends {recv : Node} (ih : ∀ m ≤ n, Sound prec s m)
    (h : Parser.sends prec (n + 1) s recv c = .ok x c') :
    Reads prec s (.sends recv) c.rest x c'.rest ∧ c.Reaches c' := by
  simp only [Parser.sends, bind_eq_ok, token_eq_ok] at h
  obtain ⟨t, c₁, ⟨rfl, rfl⟩, h⟩ := h
  generalize hk : c.token.kind = kind at h
  split at h
  -- a dot: a message has to follow it
  case h_1 =>
    obtain ⟨pos, ts, hr⟩ := exists_cons_of_front hk (by simp)
    simp only [bind_eq_ok, next_eq_ok, token_eq_ok] at h
    obtain ⟨-, c₁, rfl, t, c₂, ⟨rfl, rfl⟩, h⟩ := h
    generalize c.next.token.kind = kind' at h
    split at h
    case h_2 => exact (fail_eq_ok.1 h).elim
    simp only [bind_eq_ok, skipWhitespace_eq_ok] at h
    obtain ⟨msg, c₃, hm, -, c₄, rfl, hx⟩ := h
    obtain ⟨hm, r₁⟩ := ih n le_rfl .named _ _ _ hm
    obtain ⟨hx, r₂⟩ := ih n le_rfl (.sends _) _ _ _ hx
    rw [Cursor.rest_next hr] at hm
    rw [Cursor.rest_skipWhitespace] at hx
    rw [hr]
    exact ⟨.send hm hx,
      (((Cursor.reaches_next hr).trans r₁).trans c₃.reaches_skipWhitespace).trans r₂⟩
  -- anything else ends the messages
  case h_2 hd =>
    obtain ⟨rfl, rfl⟩ := pure_eq_ok.1 h
    exact ⟨.sent fun he => hd (hk.symm.trans he), .refl c⟩

/-- The arguments of a call, behind its opening parenthesis. -/
lemma sound_argList (pos : Int) (fn : Text) {xs : List Node} {stop : Int}
    (ih : ∀ m ≤ n, Sound prec s m) (h : Parser.argList prec (n + 1) s c = .ok (xs, stop) c') :
    ((xs = [] ∧ skip c.rest = ⟨.rightParen, stop⟩ :: c'.rest) ∨
      Reads prec s (.args pos fn []) (skip c.rest) (.call ⟨pos, stop⟩ fn xs) c'.rest) ∧
      c.Reaches c' := by
  simp only [Parser.argList, bind_eq_ok, skipWhitespace_eq_ok, token_eq_ok] at h
  obtain ⟨-, c₁, rfl, t, c₂, ⟨rfl, rfl⟩, h⟩ := h
  generalize hk : c.skipWhitespace.token.kind = kind at h
  split at h
  -- an empty list
  case h_1 =>
    obtain ⟨pos, ts, hr⟩ := exists_cons_of_front hk (by simp)
    simp only [bind_eq_ok, next_eq_ok, pure_eq_ok] at h
    obtain ⟨-, c₁, rfl, he, rfl⟩ := h
    obtain ⟨rfl, rfl⟩ := Prod.mk.inj he
    refine ⟨.inl ⟨rfl, ?_⟩, c.reaches_skipWhitespace.trans (Cursor.reaches_next hr)⟩
    rw [Cursor.rest_next hr, ← Cursor.rest_skipWhitespace, hr, Cursor.token_of_rest hr]
  -- at least one argument
  case h_2 =>
    obtain ⟨hx, r⟩ := ih n le_rfl (.args pos fn []) _ (.call ⟨pos, stop⟩ fn xs) c' (by
      simp only [Phrase.run, bind_eq_ok, pure_eq_ok]
      exact ⟨(xs, stop), c', h, rfl, rfl⟩)
    rw [Cursor.rest_skipWhitespace] at hx
    exact ⟨.inr hx, c.reaches_skipWhitespace.trans r⟩

lemma sound_named (ih : ∀ m ≤ n, Sound prec s m) (h : Parser.named prec (n + 1) s c = .ok x c') :
    Reads prec s .named c.rest x c'.rest ∧ c.Reaches c' := by
  simp only [Parser.named, routine_eq, bind_eq_ok, token_eq_ok] at h
  obtain ⟨t, c₁, ⟨rfl, rfl⟩, h⟩ := h
  generalize hk : c.token.kind = kind at h
  split at h
  case h_2 => exact (fail_eq_ok.1 h).elim
  case h_1 name =>
  obtain ⟨pos, ts, hr⟩ := exists_cons_of_front hk (by simp)
  simp only [bind_eq_ok, next_eq_ok, skipWhitespace_eq_ok, token_eq_ok] at h
  obtain ⟨-, c₁, rfl, -, c₂, rfl, t, c₃, ⟨rfl, rfl⟩, h⟩ := h
  have hn : c.next.skipWhitespace.rest = skip ts := by
    rw [Cursor.rest_skipWhitespace, Cursor.rest_next hr]
  have reach := (Cursor.reaches_next hr).trans c.next.reaches_skipWhitespace
  rw [Cursor.token_of_rest hr] at h
  rw [hr]
  generalize hk' : c.next.skipWhitespace.token.kind = kind' at h
  rw [Cursor.kind_token, hn] at hk'
  split at h
  -- a parenthesis: the arguments of a call
  case h_1 =>
    obtain ⟨pos', ts', hl⟩ := exists_cons_of_front hk' (by simp)
    simp only [bind_eq_ok, advance_eq_ok, pure_eq_ok] at h
    obtain ⟨-, c₁, ⟨-, rfl⟩, ⟨xs, stop⟩, c₂, ha, rfl, rfl⟩ := h
    have hl' := hn.trans hl
    cases n with
    | zero => simp only [Parser.argList, fail_eq_ok] at ha
    | succ n =>
      obtain ⟨hx, r⟩ := sound_argList pos name (fun m hm => ih m (by omega)) ha
      rw [Cursor.rest_next hl'] at hx
      refine ⟨?_, (reach.trans (Cursor.reaches_next hl')).trans r⟩
      rcases hx with ⟨rfl, hx⟩ | hx
      · exact .callNone hl hx
      · exact .call hl hx
  -- the assignment operator
  case h_2 =>
    obtain ⟨pos', ts', ha⟩ := exists_cons_of_front hk' (by simp)
    simp only [bind_eq_ok, advance_eq_ok, skipWhitespace_eq_ok, pure_eq_ok] at h
    obtain ⟨-, c₁, ⟨-, rfl⟩, -, c₂, rfl, v, c₃, hv, rfl, rfl⟩ := h
    have ha' := hn.trans ha
    obtain ⟨hv, r⟩ := ih n le_rfl .expr _ _ _ hv
    rw [Cursor.rest_skipWhitespace, Cursor.rest_next ha'] at hv
    exact ⟨.assign ha hv, ((reach.trans (Cursor.reaches_next ha')).trans
      (Cursor.reaches_skipWhitespace _)).trans r⟩
  -- neither: a variable, which has to be in scope
  case h_3 hl ha =>
    cases hc : s.classOf name with
    | error cause => simp only [hc, failAt_eq_ok] at h
    | ok className =>
      simp only [hc, pure_eq_ok] at h
      obtain ⟨rfl, rfl⟩ := h
      rw [hn]
      exact ⟨.localVar (fun he => hl (hk'.symm.trans he)) (fun he => ha (hk'.symm.trans he)) hc,
        reach⟩

lemma sound_args {pos : Int} {fn : Text} {done xs : List Node} {stop : Int}
    (ih : ∀ m ≤ n, Sound prec s m) (h : Parser.args prec (n + 1) s done c = .ok (xs, stop) c') :
    Reads prec s (.args pos fn done) c.rest (.call ⟨pos, stop⟩ fn xs) c'.rest ∧ c.Reaches c' := by
  simp only [Parser.args, bind_eq_ok, skipWhitespace_eq_ok, token_eq_ok] at h
  obtain ⟨-, c₁, rfl, y, c₂, hy, -, c₃, rfl, t, c₄, ⟨rfl, rfl⟩, h⟩ := h
  obtain ⟨hy, r⟩ := ih n le_rfl .expr _ _ _ hy
  rw [Cursor.rest_skipWhitespace] at hy
  have reach := (c.reaches_skipWhitespace.trans r).trans c₂.reaches_skipWhitespace
  generalize hk : c₂.skipWhitespace.token.kind = kind at h
  split at h
  -- the list ends
  case h_1 =>
    obtain ⟨pos', ts, hr⟩ := exists_cons_of_front hk (by simp)
    simp only [bind_eq_ok, next_eq_ok, pure_eq_ok] at h
    obtain ⟨-, c₁, rfl, he, rfl⟩ := h
    obtain ⟨rfl, rfl⟩ := Prod.mk.inj he
    rw [Cursor.rest_next hr, Cursor.token_of_rest hr]
    rw [Cursor.rest_skipWhitespace] at hr
    exact ⟨.lastArg hy hr, reach.trans (Cursor.reaches_next (by rwa [Cursor.rest_skipWhitespace]))⟩
  -- a comma: another argument
  case h_2 =>
    obtain ⟨pos', ts, hr⟩ := exists_cons_of_front hk (by simp)
    simp only [bind_eq_ok, next_eq_ok] at h
    obtain ⟨-, c₁, rfl, h⟩ := h
    obtain ⟨hx, r'⟩ := ih n le_rfl (.args pos fn (y :: done)) _ (.call ⟨pos, stop⟩ fn xs) c' (by
      simp only [Phrase.run, bind_eq_ok, pure_eq_ok]
      exact ⟨(xs, stop), c', h, rfl, rfl⟩)
    rw [Cursor.rest_next hr] at hx
    have reach' := (reach.trans (Cursor.reaches_next hr)).trans r'
    rw [Cursor.rest_skipWhitespace] at hr
    exact ⟨.arg hy hr hx, reach'⟩
  case h_3 => exact (fail_eq_ok.1 h).elim

lemma sound_binary {least : Int} {left : Node} (ih : ∀ m ≤ n, Sound prec s m)
    (h : Parser.binary prec (n + 1) s least left c = .ok x c') :
    Reads prec s (.binary least left) c.rest x c'.rest ∧ c.Reaches c' := by
  simp only [Parser.binary, bind_eq_ok, token_eq_ok] at h
  obtain ⟨t, c₁, ⟨rfl, rfl⟩, h⟩ := h
  split_ifs at h with hend
  · -- the chain stops at `end`, …
    obtain ⟨rfl, rfl⟩ := pure_eq_ok.1 h
    exact ⟨.combined (.inl hend), .refl c⟩
  simp only [bind_eq_ok, level_eq_ok, atEnd_eq_ok] at h
  obtain ⟨cur, c₁, ⟨rfl, rfl⟩, done, c₂, ⟨rfl, rfl⟩, h⟩ := h
  split_ifs at h with hd
  · -- … at an operator that is too loose, and behind the last token
    obtain ⟨rfl, rfl⟩ := pure_eq_ok.1 h
    exact ⟨.combined (.inr (by simpa [Cursor.atEnd] using hd)), .refl c⟩
  obtain ⟨hl, -⟩ := not_or.1 hd
  simp only [bind_eq_ok, token_eq_ok] at h
  obtain ⟨t, c₁, ⟨rfl, rfl⟩, h⟩ := h
  generalize hk : c.token.kind = kind at h
  split at h
  case h_2 => exact (fail_eq_ok.1 h).elim
  case h_1 op =>
  obtain ⟨pos, ts, hr⟩ := exists_cons_of_front hk (by simp)
  have hlevel : levelOf prec c.rest = prec.of op := by rw [hr]; rfl
  simp only [bind_eq_ok, advance_eq_ok, skipWhitespace_eq_ok, level_eq_ok] at h
  obtain ⟨-, c₁, ⟨-, rfl⟩, -, c₂, rfl, y, c₃, hu, ahead, c₄, ⟨rfl, rfl⟩, -, c₅, rfl, right, c₆,
    hright, hb⟩ := h
  obtain ⟨hy, r₁⟩ := ih n le_rfl .unary _ _ _ hu
  obtain ⟨hx, r₃⟩ := ih n le_rfl (.binary least _) _ _ _ hb
  clear hu hb
  rw [Cursor.rest_skipWhitespace, Cursor.rest_next hr] at hy
  rw [hlevel] at hl hright
  have reach := (((Cursor.reaches_next hr).trans c.next.reaches_skipWhitespace).trans r₁).trans
    c₃.reaches_skipWhitespace
  rw [hr]
  -- a tighter operator on the right takes the right operand first
  cases n with
  | zero => simp only [Parser.tighter, fail_eq_ok] at hright
  | succ n =>
    simp only [Parser.tighter, raising_eq, routine_eq] at hright
    split_ifs at hright with ht
    · obtain ⟨hright, r₂⟩ := ih n (by omega) (.binary (prec.of op + 1) y) _ _ _ hright
      rw [Cursor.rest_skipWhitespace] at hright
      exact ⟨.tighter (by omega) hy ht hright hx, (reach.trans r₂).trans r₃⟩
    · obtain ⟨rfl, rfl⟩ := pure_eq_ok.1 hright
      rw [Cursor.rest_skipWhitespace] at hx
      exact ⟨.looser (by omega) hy (by omega) hx, reach.trans r₃⟩

end Soundness

/-- A run that succeeds is described by the grammar, and only goes forward. -/
theorem reads_of_run {n : Nat} {c c' : Cursor} (h : g.run prec s n c = .ok x c') :
    Reads prec s g c.rest x c'.rest ∧ c.Reaches c' := by
  have key : ∀ n, Sound prec s n := by
    intro n
    induction n using Nat.strong_induction_on with
    | _ n ih =>
      intro g c x c' h
      cases n with
      | zero => exact absurd h (run_zero g)
      | succ n =>
        have ih' : ∀ m ≤ n, Sound prec s m := fun m hm => ih m (by omega)
        cases g with
        | expr => exact sound_expr ih' h
        | unary => exact sound_unary ih' h
        | primary => exact sound_primary ih' h
        | sends recv => exact sound_sends ih' h
        | named => exact sound_named ih' h
        | args pos fn done =>
          simp only [Phrase.run, Parser.bind_eq_ok, Parser.pure_eq_ok] at h
          obtain ⟨⟨xs, stop⟩, c₁, ha, rfl, rfl⟩ := h
          exact sound_args ih' ha
        | binary least left => exact sound_binary ih' h
  exact key n g c x c' h

/-- An atom that is read, in front of what is left. -/
lemma readsAtom_of_run {n : Nat} {c c' : Cursor} (h : Parser.atom prec n s c = .ok x c') :
    ReadsAtom prec s c.rest x c'.rest ∧ c.Reaches c' := by
  cases n with
  | zero => simp only [Parser.atom, Parser.fail_eq_ok] at h
  | succ n => exact sound_atom (fun _ _ _ _ _ _ hrun => reads_of_run hrun) h

/-! ### Budgets -/

/-- What a phrase needs beyond six steps for each token ahead: the calls that it makes before the
first token is stepped over. -/
def Phrase.slack : Phrase → Nat
  | .sends _ | .named | .binary _ _ => 1
  | .primary                        => 3
  | .unary                          => 4
  | .expr                           => 5
  | .args _ _ _                     => 6

/-- A phrase is found by every run with a budget that is linear in the tokens ahead. -/
def Complete (prec : Precedence) (s : Scope) (g : Phrase) (ts : List Token) (x : Node)
    (rest : List Token) : Prop :=
  ∀ (n : Nat) (c : Cursor), c.rest = ts → 6 * ts.length + g.slack ≤ n →
    ∃ c', g.run prec s n c = .ok x c' ∧ c'.rest = rest

section Completeness

variable {ts₁ ts₂ ts₃ : List Token} {y left right recv : Node} {t : Token} {done : List Node}
  {fn name : Text} {pos pos' stop least op : Int}

open Frontend.Parser

lemma complete_expr (hx : Complete prec s .unary ts x ts₁)
    (hy : Complete prec s (.binary 0 x) (skip ts₁) y ts₂) (hlen : ts₁.length < ts.length) :
    Complete prec s .expr ts y ts₂ := by
  intro n c hc hn
  have hs := length_skip_le ts₁
  simp only [Phrase.slack] at hn
  obtain ⟨n, rfl⟩ : ∃ m, n = m + 1 := ⟨n - 1, by omega⟩
  obtain ⟨c₁, h₁, rfl⟩ := hx n c hc (by simp only [Phrase.slack]; omega)
  obtain ⟨c₂, h₂, rfl⟩ := hy n c₁.skipWhitespace c₁.rest_skipWhitespace
    (by simp only [Phrase.slack]; omega)
  refine ⟨c₂, ?_, rfl⟩
  simp only [Phrase.run, Parser.expr, routine_eq, bind_eq_ok, skipWhitespace_eq_ok]
  exact ⟨x, c₁, h₁, (), _, rfl, h₂⟩

lemma complete_operator (hx : Complete prec s .unary ts x ts₁) (hne : ts ≠ []) :
    Complete prec s .unary (⟨.operator op, pos⟩ :: ts)
      (.call ⟨pos, x.stop⟩ (unaryWord ++ Text.ofCodePoint op) [x]) ts₁ := by
  intro n c hc hn
  simp only [Phrase.slack, List.length_cons] at hn
  obtain ⟨n, rfl⟩ : ∃ m, n = m + 1 := ⟨n - 1, by omega⟩
  have hr := Cursor.rest_next hc
  obtain ⟨c₁, h₁, rfl⟩ := hx n c.next hr (by simp only [Phrase.slack]; omega)
  refine ⟨c₁, ?_, rfl⟩
  simp only [Phrase.run, Parser.unary, routine_eq, bind_eq_ok, current_eq_ok]
  refine ⟨_, c, ⟨⟨ts, hc⟩, rfl⟩, ?_⟩
  simp only [bind_eq_ok, advance_eq_ok, pure_eq_ok]
  exact ⟨(), _, ⟨by rwa [hr], rfl⟩, x, c₁, h₁, rfl, rfl⟩

lemma Reads.front_named (h : Reads prec s .named ts x rest) :
    ∃ name pos ts', ts = ⟨.identifier name, pos⟩ :: ts' := by
  cases h with
  | callNone | call | assign | localVar => exact ⟨_, _, _, rfl⟩

/-- An operand without operators starts with no operator. -/
lemma Reads.front_primary (h : Reads prec s .primary ts x rest) :
    ∃ t ts', ts = t :: ts' ∧ ∀ op, t.kind ≠ .operator op := by
  cases h with
  | @literal ts' _ _ _ t hl =>
    refine ⟨t, ts', rfl, ?_⟩
    rcases literal?_cases hl with ⟨v, hk, -⟩ | ⟨v, hk, -⟩ | ⟨hk, -⟩ <;> simp [hk]
  | name hx =>
    obtain ⟨name, pos, ts', rfl⟩ := hx.front_named
    exact ⟨_, _, rfl, by simp⟩
  | paren => exact ⟨_, _, rfl, by simp⟩

lemma complete_operand (h : Reads prec s .primary ts x ts₁)
    (hx : Complete prec s .primary ts x ts₁) : Complete prec s .unary ts x ts₁ := by
  intro n c hc hn
  simp only [Phrase.slack] at hn
  obtain ⟨n, rfl⟩ : ∃ m, n = m + 1 := ⟨n - 1, by omega⟩
  obtain ⟨c₁, h₁, rfl⟩ := hx n c hc (by simp only [Phrase.slack]; omega)
  obtain ⟨t, ts', rfl, ht⟩ := h.front_primary
  refine ⟨c₁, ?_, rfl⟩
  simp only [Phrase.run, Parser.unary, routine_eq, bind_eq_ok, current_eq_ok]
  refine ⟨t, c, ⟨⟨ts', hc⟩, rfl⟩, ?_⟩
  generalize t.kind = kind at ht ⊢
  split
  case h_1 op => exact absurd rfl (ht op)
  case h_2 => exact h₁

/-- An atom, together with the messages behind it. -/
lemma complete_primary {n : Nat} {c c₁ : Cursor} (ha : atom prec n s c = .ok x c₁)
    (hy : Complete prec s (.sends x) (skip c₁.rest) y ts₂) (hlen : 6 * c₁.rest.length + 1 ≤ n) :
    ∃ c', Phrase.run prec s (n + 1) .primary c = .ok y c' ∧ c'.rest = ts₂ := by
  have hs := length_skip_le c₁.rest
  obtain ⟨c₂, h₂, rfl⟩ := hy n c₁.skipWhitespace c₁.rest_skipWhitespace
    (by simp only [Phrase.slack]; omega)
  refine ⟨c₂, ?_, rfl⟩
  simp only [Phrase.run, primary_succ, bind_eq_ok, skipWhitespace_eq_ok]
  exact ⟨x, c₁, ha, (), _, rfl, h₂⟩

lemma atom_literal {n : Nat} {c : Cursor} (hc : c.rest = t :: ts)
    (hx : literal? t.pos t.kind = some x) : atom prec (n + 1) s c = .ok x c.next := by
  simp only [Parser.atom, bind_eq_ok, token_eq_ok]
  refine ⟨t, c, ⟨Cursor.token_of_rest hc, rfl⟩, ?_⟩
  have hk := literal?_cases hx
  generalize t.kind = kind at hx hk ⊢
  split
  case h_1 => simp at hk
  case h_2 => simp at hk
  case h_3 =>
    simp only [hx, bind_eq_ok, next_eq_ok, pure_eq_ok]
    exact ⟨(), _, rfl, trivial, rfl⟩

lemma complete_literal (hx : literal? t.pos t.kind = some x)
    (hy : Complete prec s (.sends x) (skip ts) y ts₁) :
    Complete prec s .primary (t :: ts) y ts₁ := by
  intro n c hc hn
  simp only [Phrase.slack, List.length_cons] at hn
  obtain ⟨n, rfl⟩ : ∃ m, n = m + 2 := ⟨n - 2, by omega⟩
  have hr := Cursor.rest_next hc
  rw [← hr] at hy hn
  exact complete_primary (atom_literal hc hx) hy (by omega)

lemma atom_named {n : Nat} {c c₁ : Cursor} (hc : c.rest = ⟨.identifier name, pos⟩ :: ts)
    (h : Parser.named prec n s c = .ok x c₁) : atom prec (n + 1) s c = .ok x c₁ := by
  simp only [Parser.atom, bind_eq_ok, token_eq_ok]
  exact ⟨_, c, ⟨Cursor.token_of_rest hc, rfl⟩, h⟩

lemma complete_name (h : Reads prec s .named ts x ts₁) (hx : Complete prec s .named ts x ts₁)
    (hy : Complete prec s (.sends x) (skip ts₁) y ts₂) : Complete prec s .primary ts y ts₂ := by
  intro n c hc hn
  have hlen := h.length_lt trivial
  simp only [Phrase.slack] at hn
  obtain ⟨n, rfl⟩ : ∃ m, n = m + 2 := ⟨n - 2, by omega⟩
  obtain ⟨c₁, h₁, rfl⟩ := hx n c hc (by simp only [Phrase.slack]; omega)
  obtain ⟨name, pos', ts', rfl⟩ := h.front_named
  exact complete_primary (atom_named hc h₁) hy (by omega)

lemma atom_paren {n : Nat} {c c₁ : Cursor} (hc : c.rest = ⟨.leftParen, pos⟩ :: ts) (hts : ts ≠ [])
    (h : Parser.expr prec n s c.next = .ok x c₁) (hr : skip c₁.rest = ⟨.rightParen, pos'⟩ :: ts₂)
    (hne : ts₂ ≠ []) : atom prec (n + 2) s c = .ok x c₁.skipWhitespace.next := by
  have hr' : c₁.skipWhitespace.rest = _ := c₁.rest_skipWhitespace.trans hr
  have hp : paren prec (n + 1) s c = .ok x c₁.skipWhitespace.next := by
    simp only [Parser.paren, routine_eq, bind_eq_ok, current_eq_ok]
    refine ⟨_, c, ⟨⟨ts, hc⟩, rfl⟩, ?_⟩
    simp only [bind_eq_ok, advance_eq_ok, skipWhitespace_eq_ok, current_eq_ok]
    refine ⟨(), _, ⟨by rwa [Cursor.rest_next hc], rfl⟩, x, c₁, h, (), _, rfl, _, _,
      ⟨⟨ts₂, hr'⟩, rfl⟩, ?_⟩
    simp only [bind_eq_ok, advance_eq_ok, pure_eq_ok]
    exact ⟨(), _, ⟨by rwa [Cursor.rest_next hr'], rfl⟩, trivial, rfl⟩
  simp only [Parser.atom, bind_eq_ok, token_eq_ok]
  refine ⟨_, c, ⟨Cursor.token_of_rest hc, rfl⟩, ?_⟩
  exact hp

lemma complete_paren (h : Reads prec s .expr ts x ts₁) (hx : Complete prec s .expr ts x ts₁)
    (hr : skip ts₁ = ⟨.rightParen, pos'⟩ :: ts₂) (hne : ts₂ ≠ [])
    (hy : Complete prec s (.sends x) (skip ts₂) y ts₃) :
    Complete prec s .primary (⟨.leftParen, pos⟩ :: ts) y ts₃ := by
  intro n c hc hn
  have hlen := h.length_lt trivial
  have hlen₂ := length_of_skip hr
  simp only [Phrase.slack, List.length_cons] at hn
  obtain ⟨n, rfl⟩ : ∃ m, n = m + 3 := ⟨n - 3, by omega⟩
  obtain ⟨c₁, h₁, rfl⟩ := hx n c.next (Cursor.rest_next hc) (by simp only [Phrase.slack]; omega)
  have hn' : c₁.skipWhitespace.next.rest = ts₂ :=
    Cursor.rest_next (c₁.rest_skipWhitespace.trans hr)
  have hatom := atom_paren hc (List.ne_nil_of_length_pos (by omega)) h₁ hr hne
  exact complete_primary hatom (hn'.symm ▸ hy) (by rw [hn']; omega)

lemma complete_sent (h : front ts ≠ .dot) : Complete prec s (.sends recv) ts recv ts := by
  intro n c hc hn
  simp only [Phrase.slack] at hn
  obtain ⟨n, rfl⟩ : ∃ m, n = m + 1 := ⟨n - 1, by omega⟩
  refine ⟨c, ?_, hc⟩
  simp only [Phrase.run, Parser.sends, bind_eq_ok, token_eq_ok]
  refine ⟨_, c, ⟨rfl, rfl⟩, ?_⟩
  rw [← hc, ← Cursor.kind_token] at h
  generalize c.token.kind = kind at h ⊢
  split
  case h_1 => exact absurd rfl h
  case h_2 => rfl

lemma complete_send (h : Reads prec s .named ts x ts₁) (hx : Complete prec s .named ts x ts₁)
    (hy : Complete prec s (.sends (.send ⟨recv.start, x.stop⟩ recv x)) (skip ts₁) y ts₂) :
    Complete prec s (.sends recv) (⟨.dot, pos⟩ :: ts) y ts₂ := by
  intro n c hc hn
  have hlen := h.length_lt trivial
  have hs := length_skip_le ts₁
  simp only [Phrase.slack, List.length_cons] at hn
  obtain ⟨n, rfl⟩ : ∃ m, n = m + 1 := ⟨n - 1, by omega⟩
  have hnext := Cursor.rest_next hc
  obtain ⟨c₁, h₁, rfl⟩ := hx n c.next hnext (by simp only [Phrase.slack]; omega)
  obtain ⟨c₂, h₂, rfl⟩ := hy n c₁.skipWhitespace c₁.rest_skipWhitespace
    (by simp only [Phrase.slack]; omega)
  obtain ⟨name, pos', ts', rfl⟩ := h.front_named
  refine ⟨c₂, ?_, rfl⟩
  simp only [Phrase.run, Parser.sends, bind_eq_ok, token_eq_ok]
  refine ⟨_, c, ⟨Cursor.token_of_rest hc, rfl⟩, ?_⟩
  simp only [bind_eq_ok, next_eq_ok, token_eq_ok]
  refine ⟨(), _, rfl, _, _, ⟨Cursor.token_of_rest hnext, rfl⟩, ?_⟩
  simp only [bind_eq_ok, skipWhitespace_eq_ok]
  exact ⟨x, c₁, h₁, (), _, rfl, h₂⟩

/-- A call whose arguments are found is found itself. -/
lemma run_call {n : Nat} {c c' : Cursor} {xs : List Node}
    (hc : c.rest = ⟨.identifier fn, pos⟩ :: ts) (hl : skip ts = ⟨.leftParen, pos'⟩ :: ts₁)
    (hne : ts₁ ≠ [])
    (ha : argList prec n s c.next.skipWhitespace.next = .ok (xs, stop) c') :
    Phrase.run prec s (n + 1) .named c = .ok (.call ⟨pos, stop⟩ fn xs) c' := by
  have hl' : c.next.skipWhitespace.rest = ⟨.leftParen, pos'⟩ :: ts₁ := by
    rw [Cursor.rest_skipWhitespace, Cursor.rest_next hc, hl]
  simp only [Phrase.run, Parser.named, routine_eq, bind_eq_ok, token_eq_ok]
  refine ⟨_, c, ⟨Cursor.token_of_rest hc, rfl⟩, ?_⟩
  simp only [bind_eq_ok, next_eq_ok, skipWhitespace_eq_ok, token_eq_ok]
  refine ⟨(), _, rfl, (), _, rfl, _, _, ⟨Cursor.token_of_rest hl', rfl⟩, ?_⟩
  simp only [bind_eq_ok, advance_eq_ok, pure_eq_ok]
  exact ⟨(), _, ⟨by rwa [Cursor.rest_next hl'], rfl⟩, (xs, stop), c', ha, rfl, rfl⟩

lemma complete_callNone (hl : skip ts = ⟨.leftParen, pos'⟩ :: ts₁)
    (hr : skip ts₁ = ⟨.rightParen, stop⟩ :: ts₂) :
    Complete prec s .named (⟨.identifier fn, pos⟩ :: ts) (.call ⟨pos, stop⟩ fn []) ts₂ := by
  intro n c hc hn
  have hlen := length_of_skip hl
  have hlen₁ := length_of_skip hr
  simp only [Phrase.slack, List.length_cons] at hn
  obtain ⟨n, rfl⟩ : ∃ m, n = m + 2 := ⟨n - 2, by omega⟩
  have hl' : c.next.skipWhitespace.next.rest = ts₁ :=
    Cursor.rest_next (by rw [Cursor.rest_skipWhitespace, Cursor.rest_next hc, hl])
  have hr' : c.next.skipWhitespace.next.skipWhitespace.rest = ⟨.rightParen, stop⟩ :: ts₂ := by
    rw [Cursor.rest_skipWhitespace, hl', hr]
  refine ⟨_, run_call hc hl (List.ne_nil_of_length_pos (by omega)) ?_, Cursor.rest_next hr'⟩
  simp only [Parser.argList, bind_eq_ok, skipWhitespace_eq_ok, token_eq_ok]
  refine ⟨(), _, rfl, _, _, ⟨Cursor.token_of_rest hr', rfl⟩, ?_⟩
  rfl

/-- The arguments of a call start with no closing parenthesis. -/
lemma Reads.front_args (h : Reads prec s (.args pos fn done) ts x rest) :
    front (skip ts) ≠ .rightParen ∧ ts ≠ [] := by
  have key : ∀ {x rest}, Reads prec s .expr (skip ts) x rest →
      front (skip ts) ≠ .rightParen ∧ ts ≠ [] := by
    intro x rest h
    have hne : ts ≠ [] := by
      rintro rfl
      exact absurd (h.length_lt trivial) (Nat.not_lt_zero _)
    refine ⟨?_, hne⟩
    generalize skip ts = u at h
    cases h with
    | expr hx =>
      cases hx with
      | operator => simp
      | operand hp =>
        cases hp with
        | literal hl =>
          rcases literal?_cases hl with ⟨v, hk, -⟩ | ⟨v, hk, -⟩ | ⟨hk, -⟩ <;> simp [hk]
        | name hn =>
          obtain ⟨name, pos, ts', rfl⟩ := hn.front_named
          simp
        | paren => simp
  cases h with
  | lastArg hx => exact key hx
  | arg hx => exact key hx

lemma complete_call (hl : skip ts = ⟨.leftParen, pos'⟩ :: ts₁)
    (h : Reads prec s (.args pos fn []) (skip ts₁) x ts₂)
    (hx : Complete prec s (.args pos fn []) (skip ts₁) x ts₂) :
    Complete prec s .named (⟨.identifier fn, pos⟩ :: ts) x ts₂ := by
  intro n c hc hn
  have hlen := length_of_skip hl
  have hlen₁ := length_skip_le ts₁
  simp only [Phrase.slack, List.length_cons] at hn
  obtain ⟨n, rfl⟩ : ∃ m, n = m + 2 := ⟨n - 2, by omega⟩
  have hl' : c.next.skipWhitespace.next.rest = ts₁ :=
    Cursor.rest_next (by rw [Cursor.rest_skipWhitespace, Cursor.rest_next hc, hl])
  have hs : c.next.skipWhitespace.next.skipWhitespace.rest = skip ts₁ := by
    rw [Cursor.rest_skipWhitespace, hl']
  obtain ⟨c₁, h₁, rfl⟩ := hx n _ hs (by simp only [Phrase.slack]; omega)
  simp only [Phrase.run, bind_eq_ok, pure_eq_ok] at h₁
  obtain ⟨⟨xs, stop⟩, c₂, ha, rfl, rfl⟩ := h₁
  obtain ⟨hfront, hne⟩ := h.front_args
  refine ⟨c₂, run_call hc hl (by rintro rfl; exact hne rfl) ?_, rfl⟩
  simp only [Parser.argList, bind_eq_ok, skipWhitespace_eq_ok, token_eq_ok]
  refine ⟨(), _, rfl, _, _, ⟨rfl, rfl⟩, ?_⟩
  rw [skip_skip, ← hs, ← Cursor.kind_token] at hfront
  generalize c.next.skipWhitespace.next.skipWhitespace.token.kind = kind at hfront ⊢
  split
  case h_1 => exact absurd rfl hfront
  case h_2 => exact ha

lemma complete_assign (ha : skip ts = ⟨.assign, pos'⟩ :: ts₁)
    (h : Reads prec s .expr (skip ts₁) x ts₂) (hx : Complete prec s .expr (skip ts₁) x ts₂) :
    Complete prec s .named (⟨.identifier name, pos⟩ :: ts) (.assign ⟨pos, x.stop⟩ name x) ts₂ := by
  intro n c hc hn
  have hlen := length_of_skip ha
  have hlen₁ := length_skip_le ts₁
  have hpos := h.length_lt trivial
  simp only [Phrase.slack, List.length_cons] at hn
  obtain ⟨n, rfl⟩ : ∃ m, n = m + 1 := ⟨n - 1, by omega⟩
  have ha' : c.next.skipWhitespace.rest = ⟨.assign, pos'⟩ :: ts₁ := by
    rw [Cursor.rest_skipWhitespace, Cursor.rest_next hc, ha]
  have hn' := Cursor.rest_next ha'
  obtain ⟨c₁, h₁, rfl⟩ := hx n c.next.skipWhitespace.next.skipWhitespace
    (by rw [Cursor.rest_skipWhitespace, hn']) (by simp only [Phrase.slack]; omega)
  refine ⟨c₁, ?_, rfl⟩
  simp only [Phrase.run, Parser.named, routine_eq, bind_eq_ok, token_eq_ok]
  refine ⟨_, c, ⟨Cursor.token_of_rest hc, rfl⟩, ?_⟩
  simp only [bind_eq_ok, next_eq_ok, skipWhitespace_eq_ok, token_eq_ok]
  refine ⟨(), _, rfl, (), _, rfl, _, _, ⟨Cursor.token_of_rest ha', rfl⟩, ?_⟩
  simp only [bind_eq_ok, advance_eq_ok, skipWhitespace_eq_ok, pure_eq_ok]
  refine ⟨(), _, ⟨?_, rfl⟩, (), _, rfl, x, c₁, h₁, rfl, rfl⟩
  rw [hn']
  exact List.ne_nil_of_length_pos (by omega)

lemma complete_localVar {className : Text} (hl : front (skip ts) ≠ .leftParen)
    (ha : front (skip ts) ≠ .assign) (hc : s.classOf name = .ok className) :
    Complete prec s .named (⟨.identifier name, pos⟩ :: ts)
      (.localVar ⟨pos, pos⟩ name (some (.undef className))) (skip ts) := by
  intro n c hr hn
  simp only [Phrase.slack, List.length_cons] at hn
  obtain ⟨n, rfl⟩ : ∃ m, n = m + 1 := ⟨n - 1, by omega⟩
  have hs : c.next.skipWhitespace.rest = skip ts := by
    rw [Cursor.rest_skipWhitespace, Cursor.rest_next hr]
  refine ⟨c.next.skipWhitespace, ?_, hs⟩
  simp only [Phrase.run, Parser.named, routine_eq, bind_eq_ok, token_eq_ok]
  refine ⟨_, c, ⟨Cursor.token_of_rest hr, rfl⟩, ?_⟩
  simp only [bind_eq_ok, next_eq_ok, skipWhitespace_eq_ok, token_eq_ok]
  refine ⟨(), _, rfl, (), _, rfl, _, _, ⟨rfl, rfl⟩, ?_⟩
  rw [← hs, ← Cursor.kind_token] at hl ha
  generalize c.next.skipWhitespace.token.kind = kind at hl ha ⊢
  split
  case h_1 => exact absurd rfl hl
  case h_2 => exact absurd rfl ha
  case h_3 =>
    simp only [hc]
    rfl

/-- One argument, and what the token behind it makes of it. -/
lemma run_args {n : Nat} {c c₁ : Cursor} (hx : expr prec n s c.skipWhitespace = .ok x c₁)
    {xs : List Node} {c' : Cursor}
    (h : (c₁.skipWhitespace.token.kind = .rightParen ∧ xs = (x :: done).reverse ∧
        stop = c₁.skipWhitespace.token.pos ∧ c' = c₁.skipWhitespace.next) ∨
      c₁.skipWhitespace.token.kind = .comma ∧
        args prec n s (x :: done) c₁.skipWhitespace.next = .ok (xs, stop) c') :
    args prec (n + 1) s done c = .ok (xs, stop) c' := by
  simp only [Parser.args, bind_eq_ok, skipWhitespace_eq_ok, token_eq_ok]
  refine ⟨(), _, rfl, x, c₁, hx, (), _, rfl, _, _, ⟨rfl, rfl⟩, ?_⟩
  rcases h with ⟨hk, rfl, rfl, rfl⟩ | ⟨hk, h⟩
  · rw [hk]
    rfl
  · rw [hk]
    exact h

lemma complete_lastArg (h : Reads prec s .expr (skip ts) x ts₁)
    (hx : Complete prec s .expr (skip ts) x ts₁) (hr : skip ts₁ = ⟨.rightParen, stop⟩ :: ts₂) :
    Complete prec s (.args pos fn done) ts (.call ⟨pos, stop⟩ fn (x :: done).reverse) ts₂ := by
  intro n c hc hn
  have hs := length_skip_le ts
  simp only [Phrase.slack] at hn
  obtain ⟨n, rfl⟩ : ∃ m, n = m + 1 := ⟨n - 1, by omega⟩
  obtain ⟨c₁, h₁, rfl⟩ := hx n c.skipWhitespace (by rw [Cursor.rest_skipWhitespace, hc])
    (by simp only [Phrase.slack]; omega)
  have hr' : c₁.skipWhitespace.rest = _ := c₁.rest_skipWhitespace.trans hr
  refine ⟨c₁.skipWhitespace.next, ?_, Cursor.rest_next hr'⟩
  simp only [Phrase.run, bind_eq_ok, pure_eq_ok]
  refine ⟨((x :: done).reverse, stop), _, run_args h₁ (.inl ⟨?_, rfl, ?_, rfl⟩), rfl, rfl⟩
  · rw [Cursor.token_of_rest hr']
  · rw [Cursor.token_of_rest hr']

lemma complete_arg (h : Reads prec s .expr (skip ts) x ts₁)
    (hx : Complete prec s .expr (skip ts) x ts₁) (hr : skip ts₁ = ⟨.comma, pos'⟩ :: ts₂)
    (hy : Complete prec s (.args pos fn (x :: done)) ts₂ y ts₃) :
    Complete prec s (.args pos fn done) ts y ts₃ := by
  intro n c hc hn
  have hs := length_skip_le ts
  have hlen := h.length_le
  have hlen₁ := length_of_skip hr
  simp only [Phrase.slack] at hn
  obtain ⟨n, rfl⟩ : ∃ m, n = m + 1 := ⟨n - 1, by omega⟩
  obtain ⟨c₁, h₁, rfl⟩ := hx n c.skipWhitespace (by rw [Cursor.rest_skipWhitespace, hc])
    (by simp only [Phrase.slack]; omega)
  have hr' : c₁.skipWhitespace.rest = _ := c₁.rest_skipWhitespace.trans hr
  obtain ⟨c₂, h₂, rfl⟩ := hy n c₁.skipWhitespace.next (Cursor.rest_next hr')
    (by simp only [Phrase.slack]; omega)
  simp only [Phrase.run, bind_eq_ok, pure_eq_ok] at h₂
  obtain ⟨⟨xs, stop⟩, c₃, ha, rfl, rfl⟩ := h₂
  refine ⟨c₃, ?_, rfl⟩
  simp only [Phrase.run, bind_eq_ok, pure_eq_ok]
  refine ⟨(xs, stop), c₃, run_args h₁ (.inr ⟨?_, ha⟩), rfl, rfl⟩
  rw [Cursor.token_of_rest hr']

lemma complete_combined (h : front ts = .endWord ∨ levelOf prec ts < least ∨ ts = []) :
    Complete prec s (.binary least left) ts left ts := by
  intro n c hc hn
  simp only [Phrase.slack] at hn
  obtain ⟨n, rfl⟩ : ∃ m, n = m + 1 := ⟨n - 1, by omega⟩
  refine ⟨c, ?_, hc⟩
  simp only [Phrase.run, Parser.binary, bind_eq_ok, token_eq_ok]
  refine ⟨_, c, ⟨rfl, rfl⟩, ?_⟩
  rw [Cursor.kind_token, hc]
  split_ifs with hend
  · rfl
  · simp only [bind_eq_ok, level_eq_ok, atEnd_eq_ok]
    refine ⟨_, c, ⟨rfl, rfl⟩, _, c, ⟨rfl, rfl⟩, ?_⟩
    rw [if_pos (by simpa [Cursor.atEnd, hc] using h.resolve_left hend)]
    rfl

/-- An operator and its right operand, in front of the operators that follow. -/
lemma run_binary {n : Nat} {c c₁ c₂ c' : Cursor} (hc : c.rest = ⟨.operator op, pos⟩ :: ts)
    (hne : ts ≠ []) (hl : least ≤ prec.of op)
    (hx : unary prec n s c.next.skipWhitespace = .ok x c₁)
    (hr : tighter prec n s (prec.of op) (levelOf prec c₁.rest) x c₁.skipWhitespace = .ok right c₂)
    (hy : binary prec n s least (.binary ⟨left.start, right.stop⟩ op left right) c₂ = .ok y c') :
    Phrase.run prec s (n + 1) (.binary least left) c = .ok y c' := by
  have hlevel : levelOf prec c.rest = prec.of op := by rw [hc]; rfl
  simp only [Phrase.run, Parser.binary, bind_eq_ok, token_eq_ok]
  refine ⟨_, c, ⟨Cursor.token_of_rest hc, rfl⟩, ?_⟩
  rw [if_neg (by simp)]
  simp only [bind_eq_ok, level_eq_ok, atEnd_eq_ok]
  refine ⟨_, c, ⟨rfl, rfl⟩, _, c, ⟨rfl, rfl⟩, ?_⟩
  rw [if_neg (by rw [hlevel]; simp [Cursor.atEnd, hc, hl])]
  simp only [bind_eq_ok, token_eq_ok]
  refine ⟨_, c, ⟨Cursor.token_of_rest hc, rfl⟩, ?_⟩
  simp only [bind_eq_ok, advance_eq_ok, skipWhitespace_eq_ok, level_eq_ok]
  rw [hlevel]
  exact ⟨(), _, ⟨by rwa [Cursor.rest_next hc], rfl⟩, (), _, rfl, x, c₁, hx, _, _, ⟨rfl, rfl⟩, (), _,
    rfl, right, c₂, hr, hy⟩

lemma complete_looser (hl : least ≤ prec.of op) (h : Reads prec s .unary (skip ts) x ts₁)
    (hx : Complete prec s .unary (skip ts) x ts₁) (ht : levelOf prec ts₁ ≤ prec.of op)
    (hy : Complete prec s (.binary least (.binary ⟨left.start, x.stop⟩ op left x)) (skip ts₁) y
      ts₂) :
    Complete prec s (.binary least left) (⟨.operator op, pos⟩ :: ts) y ts₂ := by
  intro n c hc hn
  have hs := length_skip_le ts
  have hs₁ := length_skip_le ts₁
  have hlen := h.length_lt trivial
  simp only [Phrase.slack, List.length_cons] at hn
  obtain ⟨n, rfl⟩ : ∃ m, n = m + 2 := ⟨n - 2, by omega⟩
  obtain ⟨c₁, h₁, rfl⟩ := hx (n + 1) c.next.skipWhitespace
    (by rw [Cursor.rest_skipWhitespace, Cursor.rest_next hc]) (by simp only [Phrase.slack]; omega)
  obtain ⟨c₂, h₂, rfl⟩ := hy (n + 1) c₁.skipWhitespace c₁.rest_skipWhitespace
    (by simp only [Phrase.slack]; omega)
  refine ⟨c₂, run_binary hc (List.ne_nil_of_length_pos (by omega)) hl h₁ ?_ h₂, rfl⟩
  simp only [Parser.tighter, raising_eq, routine_eq]
  rw [if_neg (by omega)]
  rfl

lemma complete_tighter (hl : least ≤ prec.of op) (h : Reads prec s .unary (skip ts) x ts₁)
    (hx : Complete prec s .unary (skip ts) x ts₁) (ht : prec.of op < levelOf prec ts₁)
    (h' : Reads prec s (.binary (prec.of op + 1) x) (skip ts₁) right ts₂)
    (hr : Complete prec s (.binary (prec.of op + 1) x) (skip ts₁) right ts₂)
    (hy : Complete prec s (.binary least (.binary ⟨left.start, right.stop⟩ op left right)) ts₂ y
      ts₃) :
    Complete prec s (.binary least left) (⟨.operator op, pos⟩ :: ts) y ts₃ := by
  intro n c hc hn
  have hs := length_skip_le ts
  have hs₁ := length_skip_le ts₁
  have hlen := h.length_lt trivial
  have hlen₂ := h'.length_le
  simp only [Phrase.slack, List.length_cons] at hn
  obtain ⟨n, rfl⟩ : ∃ m, n = m + 2 := ⟨n - 2, by omega⟩
  obtain ⟨c₁, h₁, rfl⟩ := hx (n + 1) c.next.skipWhitespace
    (by rw [Cursor.rest_skipWhitespace, Cursor.rest_next hc]) (by simp only [Phrase.slack]; omega)
  obtain ⟨c₂, h₂, rfl⟩ := hr n c₁.skipWhitespace c₁.rest_skipWhitespace
    (by simp only [Phrase.slack]; omega)
  obtain ⟨c₃, h₃, rfl⟩ := hy (n + 1) c₂ rfl (by simp only [Phrase.slack]; omega)
  refine ⟨c₃, run_binary hc (List.ne_nil_of_length_pos (by omega)) hl h₁ ?_ h₃, rfl⟩
  simp only [Parser.tighter, raising_eq, routine_eq]
  rw [if_pos ht]
  exact h₂

end Completeness

/-- Every phrase of the grammar is found by a run, as soon as the budget is linear in the tokens
ahead. -/
theorem exists_run_of_reads (h : Reads prec s g ts x rest) : Complete prec s g ts x rest := by
  induction h with
  | expr hx _ ihx ihy => exact complete_expr ihx ihy (hx.length_lt trivial)
  | operator hx ihx =>
    refine complete_operator ihx ?_
    rintro rfl
    exact absurd (hx.length_lt trivial) (Nat.not_lt_zero _)
  | operand hx ihx => exact complete_operand hx ihx
  | literal hx _ ihy => exact complete_literal hx ihy
  | name hx _ ihx ihy => exact complete_name hx ihx ihy
  | paren hx hr hne _ ihx ihy => exact complete_paren hx ihx hr hne ihy
  | sent h => exact complete_sent h
  | send hm _ ihm ihy => exact complete_send hm ihm ihy
  | callNone hl hr => exact complete_callNone hl hr
  | call hl hx ihx => exact complete_call hl hx ihx
  | assign ha hv ihv => exact complete_assign ha hv ihv
  | localVar hl ha hc => exact complete_localVar hl ha hc
  | lastArg hx hr ihx => exact complete_lastArg hx ihx hr
  | arg hx hr _ ihx ihy => exact complete_arg hx ihx hr ihy
  | combined h => exact complete_combined h
  | looser hl hx ht _ ihx ihy => exact complete_looser hl hx ihx ht ihy
  | tighter hl hx ht hr _ ihx ihr ihy => exact complete_tighter hl hx ihx ht hr ihr ihy

end Frontend.Grammar
