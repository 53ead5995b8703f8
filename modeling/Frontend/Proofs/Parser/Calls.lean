import Frontend.Proofs.Parser.Phrases

/-!
# Calls of the parser

While it reads a phrase, the parser reads the phrases that it is made of. `Calls` says which ones
these are and where they start, given that everything in front of them has been read: it has a rule
for each call in the code, and no budget. `Visits` is any number of calls in a row.

Calls are where the types of variables are missed: an error about a type is always that of some
variable that the parser has come to (`exists_unknown`).
-/

namespace Frontend.Grammar

/-- Reading a phrase needs another phrase at some place, since what is in front of that place has
been read. -/
inductive Calls (prec : Precedence) (s : Scope) :
    Phrase → List Token → Phrase → List Token → Prop
  | operand {ts : List Token} : Calls prec s .expr ts .unary ts
  | operators {ts ts₁ : List Token} {x : Node} (hx : Reads prec s .unary ts x ts₁) :
      Calls prec s .expr ts (.binary 0 x) (skip ts₁)
  | behindOperator {ts : List Token} {op pos : Int} (hne : ts ≠ []) :
      Calls prec s .unary (⟨.operator op, pos⟩ :: ts) .unary ts
  | primary {ts : List Token} {t : Token} (ht : t.kind.operator? = none) :
      Calls prec s .unary (t :: ts) .primary (t :: ts)
  | named {ts : List Token} {name : Text} {pos : Int} :
      Calls prec s .primary (⟨.identifier name, pos⟩ :: ts) .named (⟨.identifier name, pos⟩ :: ts)
  | sendsToNamed {ts ts₁ : List Token} {x : Node} (hx : Reads prec s .named ts x ts₁) :
      Calls prec s .primary ts (.sends x) (skip ts₁)
  | sendsToLiteral {t : Token} {ts : List Token} {x : Node}
      (hx : Parser.literal? t.pos t.kind = some x) :
      Calls prec s .primary (t :: ts) (.sends x) (skip ts)
  | inParens {ts : List Token} {pos : Int} (hne : ts ≠ []) :
      Calls prec s .primary (⟨.leftParen, pos⟩ :: ts) .expr ts
  | sendsToParens {ts ts₁ ts₂ : List Token} {x : Node} {pos pos' : Int}
      (hx : Reads prec s .expr ts x ts₁) (hr : skip ts₁ = ⟨.rightParen, pos'⟩ :: ts₂)
      (hne : ts₂ ≠ []) : Calls prec s .primary (⟨.leftParen, pos⟩ :: ts) (.sends x) (skip ts₂)
  | message {ts : List Token} {recv : Node} {name : Text} {pos pos' : Int} :
      Calls prec s (.sends recv) (⟨.dot, pos⟩ :: ⟨.identifier name, pos'⟩ :: ts) .named
        (⟨.identifier name, pos'⟩ :: ts)
  | moreSends {ts ts₁ : List Token} {recv msg : Node} {pos : Int}
      (hm : Reads prec s .named ts msg ts₁) :
      Calls prec s (.sends recv) (⟨.dot, pos⟩ :: ts)
        (.sends (.send ⟨recv.start, msg.stop⟩ recv msg)) (skip ts₁)
  | args {ts ts₁ : List Token} {fn : Text} {pos pos' : Int}
      (hl : skip ts = ⟨.leftParen, pos'⟩ :: ts₁) (hne : ts₁ ≠ [])
      (hr : front (skip ts₁) ≠ .rightParen) :
      Calls prec s .named (⟨.identifier fn, pos⟩ :: ts) (.args pos fn []) (skip ts₁)
  | value {ts ts₁ : List Token} {name : Text} {pos pos' : Int}
      (ha : skip ts = ⟨.assign, pos'⟩ :: ts₁) (hne : ts₁ ≠ []) :
      Calls prec s .named (⟨.identifier name, pos⟩ :: ts) .expr (skip ts₁)
  | arg {ts : List Token} {pos : Int} {fn : Text} {done : List Node} :
      Calls prec s (.args pos fn done) ts .expr (skip ts)
  | moreArgs {ts ts₁ ts₂ : List Token} {x : Node} {pos pos' : Int} {fn : Text} {done : List Node}
      (hx : Reads prec s .expr (skip ts) x ts₁) (hr : skip ts₁ = ⟨.comma, pos'⟩ :: ts₂) :
      Calls prec s (.args pos fn done) ts (.args pos fn (x :: done)) ts₂
  | rightOperand {ts : List Token} {least op pos : Int} {left : Node} (hl : least ≤ prec.of op)
      (hne : ts ≠ []) :
      Calls prec s (.binary least left) (⟨.operator op, pos⟩ :: ts) .unary (skip ts)
  | tighter {ts ts₁ : List Token} {least op pos : Int} {left x : Node} (hl : least ≤ prec.of op)
      (hx : Reads prec s .unary (skip ts) x ts₁) (ht : prec.of op < levelOf prec ts₁) :
      Calls prec s (.binary least left) (⟨.operator op, pos⟩ :: ts)
        (.binary (prec.of op + 1) x) (skip ts₁)
  | behindLooser {ts ts₁ : List Token} {least op pos : Int} {left x : Node}
      (hl : least ≤ prec.of op) (hx : Reads prec s .unary (skip ts) x ts₁)
      (ht : levelOf prec ts₁ ≤ prec.of op) :
      Calls prec s (.binary least left) (⟨.operator op, pos⟩ :: ts)
        (.binary least (.binary ⟨left.start, x.stop⟩ op left x)) (skip ts₁)
  | behindTighter {ts ts₁ ts₂ : List Token} {least op pos : Int} {left x right : Node}
      (hl : least ≤ prec.of op) (hx : Reads prec s .unary (skip ts) x ts₁)
      (ht : prec.of op < levelOf prec ts₁)
      (hr : Reads prec s (.binary (prec.of op + 1) x) (skip ts₁) right ts₂) :
      Calls prec s (.binary least left) (⟨.operator op, pos⟩ :: ts)
        (.binary least (.binary ⟨left.start, right.stop⟩ op left right)) ts₂

end Frontend.Grammar

namespace Frontend

open Grammar (skip front levelOf)

/-! ### Errors about types -/

namespace Parser

variable {α β : Type} {c c' : Cursor} {e : SyntaxError}

/-- A parser fails since the type of a variable cannot be found. -/
def Misses (p : Parser α) (c : Cursor) (e : SyntaxError) (c' : Cursor) : Prop :=
  p c = .error e c' ∧ e.cause.kind = .inference

lemma misses_bind {p : Parser α} {f : α → Parser β} : Misses (p >>= f) c e c' ↔
    Misses p c e c' ∨ ∃ x c₁, p c = .ok x c₁ ∧ Misses (f x) c₁ e c' := by
  simp only [Misses, bind, EStateM.bind]
  cases p c with
  | ok x c₁ => simp
  | error e c₁ => simp

lemma misses_pure {x : α} : Misses (pure x) c e c' ↔ False := by
  simp [Misses, pure, EStateM.pure]

lemma misses_fail {cause : Cause} : Misses (fail cause : Parser α) c e c' ↔
    cause.kind = .inference ∧ c.error cause = e ∧ c = c' := by
  rw [Misses, fail_apply]
  constructor
  · rintro ⟨⟨⟩, h⟩
    exact ⟨h, rfl, rfl⟩
  · rintro ⟨h, rfl, rfl⟩
    exact ⟨rfl, h⟩

lemma misses_failAt {cause : Cause} {pos : Int} : Misses (failAt cause pos : Parser α) c e c' ↔
    cause.kind = .inference ∧ ⟨cause, pos⟩ = e ∧ c = c' := by
  rw [Misses, failAt_apply]
  constructor
  · rintro ⟨⟨⟩, h⟩
    exact ⟨h, rfl, rfl⟩
  · rintro ⟨h, rfl, rfl⟩
    exact ⟨rfl, h⟩

lemma misses_current : Misses current c e c' ↔ False := by
  rw [Misses, current_apply]
  split
  · simp
  · simp only [iff_false, not_and]
    rintro ⟨⟩
    simp [Cursor.error, Cause.kind]

lemma misses_advance : Misses advance c e c' ↔ False := by
  rw [Misses, advance_apply]
  split
  · simp
  · simp only [iff_false, not_and]
    rintro ⟨⟩
    simp [Cursor.error, Cause.kind]

lemma misses_token : Misses token c e c' ↔ False := by simp [Misses, token_apply]

lemma misses_next : Misses next c e c' ↔ False := by simp [Misses, next_apply]

lemma misses_skipWhitespace : Misses skipWhitespace c e c' ↔ False := by
  simp [Misses, skipWhitespace_apply]

lemma misses_skipSpace : Misses skipSpace c e c' ↔ False := by simp [Misses, skipSpace_apply]

lemma misses_atEnd : Misses atEnd c e c' ↔ False := by simp [Misses, atEnd_apply]

lemma misses_level {prec : Precedence} : Misses (level prec) c e c' ↔ False := by
  simp [Misses, level_apply]

lemma misses_lastPos : Misses lastPos c e c' ↔ False := by simp [Misses, lastPos_apply]

end Parser

end Frontend

namespace Frontend.Grammar

open Frontend.Parser

/-- A variable stands at the start of some tokens, and its type cannot be found. -/
inductive Unknown (s : Scope) : List Token → SyntaxError → List Token → Prop
  | mk {ts : List Token} {name : Text} {pos : Int} {cause : Cause}
      (hl : front (skip ts) ≠ .leftParen) (ha : front (skip ts) ≠ .assign)
      (hc : s.classOf name = .error cause) :
      Unknown s (⟨.identifier name, pos⟩ :: ts) ⟨cause, pos⟩ (skip ts)

/-- A phrase that is called misses the type of a variable. -/
def CalleeMisses (prec : Precedence) (s : Scope) (n : Nat) (g : Phrase) (c : Cursor)
    (e : SyntaxError) (c' : Cursor) : Prop :=
  ∃ g' m c₁, m ≤ n ∧ Calls prec s g c.rest g' c₁.rest ∧ Misses (g'.run prec s m) c₁ e c'

section Misses

variable {prec : Precedence} {s : Scope} {n : Nat} {c c' : Cursor} {e : SyntaxError}

lemma calleeMisses_of_expr (h : Misses (Parser.expr prec (n + 1) s) c e c') :
    CalleeMisses prec s n .expr c e c' := by
  simp only [Parser.expr, routine_eq, misses_bind, misses_skipWhitespace, false_or,
    skipWhitespace_eq_ok] at h
  rcases h with h | ⟨x, c₁, hx, -, c₂, rfl, h⟩
  · exact ⟨.unary, n, c, le_rfl, .operand, h⟩
  · refine ⟨.binary 0 x, n, c₁.skipWhitespace, le_rfl, ?_, h⟩
    rw [Cursor.rest_skipWhitespace]
    exact .operators (reads_of_run (g := .unary) hx).1

lemma calleeMisses_of_unary (h : Misses (Parser.unary prec (n + 1) s) c e c') :
    CalleeMisses prec s n .unary c e c' := by
  simp only [Parser.unary, routine_eq, misses_bind, misses_current, false_or, current_eq_ok] at h
  obtain ⟨⟨kind, pos⟩, c₁, ⟨⟨ts, hr⟩, rfl⟩, h⟩ := h
  dsimp only at h
  split at h
  case h_1 op =>
    simp only [misses_bind, misses_advance, false_or, advance_eq_ok, misses_pure, and_false,
      exists_false, or_false] at h
    obtain ⟨-, c₁, ⟨hne, rfl⟩, h⟩ := h
    rw [Cursor.rest_next hr] at hne
    refine ⟨.unary, n, c.next, le_rfl, ?_, h⟩
    rw [hr, Cursor.rest_next hr]
    exact .behindOperator hne
  case h_2 hop =>
    refine ⟨.primary, n, c, le_rfl, ?_, h⟩
    rw [hr]
    refine .primary ?_
    cases kind with
    | operator op => exact absurd rfl (hop op)
    | _ => rfl

lemma calleeMisses_of_paren {pos : Int} {ts : List Token} (hr : c.rest = ⟨.leftParen, pos⟩ :: ts)
    (h : Misses (Parser.paren prec (n + 1) s) c e c') :
    ts ≠ [] ∧ Misses (Parser.expr prec n s) c.next e c' := by
  simp only [Parser.paren, routine_eq, misses_bind, misses_current, false_or, current_eq_ok] at h
  obtain ⟨⟨kind, pos⟩, c₁, ⟨⟨ts', hr'⟩, rfl⟩, h⟩ := h
  obtain ⟨⟨rfl, rfl⟩, rfl⟩ := List.cons.inj (hr.symm.trans hr')
  simp only [misses_bind, misses_advance, false_or, advance_eq_ok, misses_skipWhitespace,
    skipWhitespace_eq_ok, misses_current, current_eq_ok] at h
  obtain ⟨-, c₁, ⟨hne, rfl⟩, h⟩ := h
  rw [Cursor.rest_next hr] at hne
  rcases h with h | ⟨x, c₁, hx, -, c₂, rfl, ⟨kind', pos'⟩, c₃, ⟨⟨ts', hr'⟩, rfl⟩, h⟩
  · exact ⟨hne, h⟩
  · dsimp only at h
    split at h
    · simp only [misses_bind, misses_advance, misses_pure, and_false, exists_false, or_false] at h
    · simp [misses_fail, Cause.kind] at h

lemma calleeMisses_of_atom (h : Misses (Parser.atom prec (n + 1) s) c e c') :
    CalleeMisses prec s n .primary c e c' := by
  simp only [Parser.atom, misses_bind, misses_token, false_or, token_eq_ok] at h
  obtain ⟨t, c₁, ⟨rfl, rfl⟩, h⟩ := h
  generalize hk : c.token.kind = kind at h
  split at h
  case h_1 name =>
    obtain ⟨pos, ts, hr⟩ := exists_cons_of_front hk (by simp)
    refine ⟨.named, n, c, le_rfl, ?_, h⟩
    rw [hr]
    exact .named
  case h_2 =>
    obtain ⟨pos, ts, hr⟩ := exists_cons_of_front hk (by simp)
    cases n with
    | zero => simp [Parser.paren, misses_fail, Cause.kind] at h
    | succ n =>
      obtain ⟨hne, h⟩ := calleeMisses_of_paren hr h
      refine ⟨.expr, n, c.next, Nat.le_succ n, ?_, h⟩
      rw [hr, Cursor.rest_next hr]
      exact .inParens hne
  case h_3 =>
    cases hl : literal? c.token.pos kind with
    | none => simp [hl, misses_fail, Cause.kind] at h
    | some x =>
      simp only [hl, misses_bind, misses_next, misses_pure, and_false, exists_false, or_false] at h

/-- The messages behind an operand are a callee, whatever the operand is made of. -/
lemma calls_sends {x : Node} {c₁ : Cursor} (h : Parser.atom prec n s c = .ok x c₁) :
    Calls prec s .primary c.rest (.sends x) (skip c₁.rest) := by
  obtain ⟨hx, -⟩ := readsAtom_of_run h
  generalize c.rest = ts at hx ⊢
  generalize c₁.rest = ts₁ at hx ⊢
  cases hx with
  | named hx => exact .sendsToNamed hx
  | paren hx hr hne => exact .sendsToParens hx hr hne
  | literal hx => exact .sendsToLiteral hx

lemma calleeMisses_of_primary (h : Misses (Parser.primary prec (n + 1) s) c e c') :
    CalleeMisses prec s n .primary c e c' := by
  simp only [primary_succ, misses_bind, misses_skipWhitespace, false_or,
    skipWhitespace_eq_ok] at h
  cases n with
  | zero => simp [Parser.atom, misses_fail, Cause.kind, fail_eq_ok] at h
  | succ n =>
    rcases h with h | ⟨x, c₁, hx, -, c₂, rfl, h⟩
    · obtain ⟨g, m, c₁, hm, hcall, h⟩ := calleeMisses_of_atom h
      exact ⟨g, m, c₁, by omega, hcall, h⟩
    · refine ⟨.sends x, n + 1, c₁.skipWhitespace, le_rfl, ?_, h⟩
      rw [Cursor.rest_skipWhitespace]
      exact calls_sends hx

lemma calleeMisses_of_sends {recv : Node} (h : Misses (Parser.sends prec (n + 1) s recv) c e c') :
    CalleeMisses prec s n (.sends recv) c e c' := by
  simp only [Parser.sends, misses_bind, misses_token, false_or, token_eq_ok] at h
  obtain ⟨t, c₁, ⟨rfl, rfl⟩, h⟩ := h
  generalize hk : c.token.kind = kind at h
  split at h
  case h_2 => exact (misses_pure.1 h).elim
  obtain ⟨pos, ts, hr⟩ := exists_cons_of_front hk (by simp)
  simp only [misses_bind, misses_next, next_eq_ok, misses_token, false_or, token_eq_ok] at h
  obtain ⟨-, c₁, rfl, t, c₂, ⟨rfl, rfl⟩, h⟩ := h
  have hn := Cursor.rest_next hr
  generalize hk' : c.next.token.kind = kind' at h
  split at h
  case h_2 => simp [misses_fail, Cause.kind] at h
  case h_1 name =>
  obtain ⟨pos', ts', hr'⟩ := exists_cons_of_front hk' (by simp)
  simp only [misses_bind, misses_skipWhitespace, false_or, skipWhitespace_eq_ok] at h
  rcases h with h | ⟨msg, c₁, hmsg, -, c₂, rfl, h⟩
  · refine ⟨.named, n, c.next, le_rfl, ?_, h⟩
    rw [hr, ← hn, hr']
    exact .message
  · refine ⟨.sends _, n, c₁.skipWhitespace, le_rfl, ?_, h⟩
    rw [hr, ← hn, Cursor.rest_skipWhitespace]
    exact .moreSends (reads_of_run (g := .named) hmsg).1

lemma calleeMisses_of_args {pos : Int} {fn : Text} {done : List Node}
    (h : Misses (Parser.args prec (n + 1) s done) c e c') :
    CalleeMisses prec s n (.args pos fn done) c e c' := by
  simp only [Parser.args, misses_bind, misses_skipWhitespace, false_or, skipWhitespace_eq_ok,
    misses_token, token_eq_ok] at h
  obtain ⟨-, c₁, rfl, h | ⟨x, c₁, hx, -, c₂, rfl, t, c₃, ⟨rfl, rfl⟩, h⟩⟩ := h
  · refine ⟨.expr, n, c.skipWhitespace, le_rfl, ?_, h⟩
    rw [Cursor.rest_skipWhitespace]
    exact .arg
  · have hx := (reads_of_run (g := .expr) hx).1
    rw [Cursor.rest_skipWhitespace] at hx
    generalize hk : c₁.skipWhitespace.token.kind = kind at h
    split at h
    case h_1 =>
      simp only [misses_bind, misses_next, misses_pure, and_false, exists_false, or_false] at h
    case h_2 =>
      obtain ⟨pos', ts, hr⟩ := exists_cons_of_front hk (by simp)
      simp only [misses_bind, misses_next, false_or, next_eq_ok] at h
      obtain ⟨-, c₂, rfl, h⟩ := h
      refine ⟨.args pos fn (x :: done), n, _, le_rfl, ?_, misses_bind.2 (.inl h)⟩
      rw [Cursor.rest_next hr]
      rw [Cursor.rest_skipWhitespace] at hr
      exact .moreArgs hx hr
    case h_3 => simp [misses_fail, Cause.kind] at h

lemma misses_args_of_argList (h : Misses (Parser.argList prec (n + 1) s) c e c') :
    front (skip c.rest) ≠ .rightParen ∧ Misses (Parser.args prec n s []) c.skipWhitespace e c' := by
  simp only [Parser.argList, misses_bind, misses_skipWhitespace, false_or, skipWhitespace_eq_ok,
    misses_token, token_eq_ok] at h
  obtain ⟨-, c₁, rfl, t, c₂, ⟨rfl, rfl⟩, h⟩ := h
  generalize hk : c.skipWhitespace.token.kind = kind at h
  rw [Cursor.kind_token, Cursor.rest_skipWhitespace] at hk
  split at h
  case h_1 =>
    simp only [misses_bind, misses_next, misses_pure, and_false, exists_false, or_false] at h
  case h_2 hne => exact ⟨fun he => hne (hk.symm.trans he), h⟩

/-- A call, an assignment or a variable misses a type in its parts, or is a variable itself. -/
lemma calleeMisses_of_named (h : Misses (Parser.named prec (n + 1) s) c e c') :
    CalleeMisses prec s n .named c e c' ∨ Unknown s c.rest e c'.rest := by
  simp only [Parser.named, routine_eq, misses_bind, misses_token, false_or, token_eq_ok] at h
  obtain ⟨t, c₁, ⟨rfl, rfl⟩, h⟩ := h
  generalize hk : c.token.kind = kind at h
  split at h
  case h_2 => simp [misses_fail, Cause.kind] at h
  case h_1 name =>
  obtain ⟨pos, ts, hr⟩ := exists_cons_of_front hk (by simp)
  simp only [misses_bind, misses_next, false_or, next_eq_ok, misses_skipWhitespace,
    skipWhitespace_eq_ok, misses_token, token_eq_ok] at h
  obtain ⟨-, c₁, rfl, -, c₂, rfl, t, c₃, ⟨rfl, rfl⟩, h⟩ := h
  have hn : c.next.skipWhitespace.rest = skip ts := by
    rw [Cursor.rest_skipWhitespace, Cursor.rest_next hr]
  rw [Cursor.token_of_rest hr] at h
  rw [hr]
  generalize hk' : c.next.skipWhitespace.token.kind = kind' at h
  rw [Cursor.kind_token, hn] at hk'
  split at h
  -- a call misses a type in one of its arguments
  case h_1 =>
    obtain ⟨pos', ts', hl⟩ := exists_cons_of_front hk' (by simp)
    simp only [misses_bind, misses_advance, false_or, advance_eq_ok, misses_pure, and_false,
      exists_false, or_false] at h
    obtain ⟨-, c₁, ⟨hne, rfl⟩, h⟩ := h
    have hn' := Cursor.rest_next (hn.trans hl)
    rw [hn'] at hne
    cases n with
    | zero => simp [Parser.argList, misses_fail, Cause.kind] at h
    | succ n =>
      obtain ⟨hfront, h⟩ := misses_args_of_argList h
      rw [hn'] at hfront
      refine .inl ⟨.args pos name [], n, _, Nat.le_succ n, ?_, misses_bind.2 (.inl h)⟩
      rw [hr, Cursor.rest_skipWhitespace, hn']
      exact .args hl hne hfront
  -- an assignment in its value
  case h_2 =>
    obtain ⟨pos', ts', ha⟩ := exists_cons_of_front hk' (by simp)
    simp only [misses_bind, misses_advance, false_or, advance_eq_ok, misses_skipWhitespace,
      skipWhitespace_eq_ok, misses_pure, and_false, exists_false, or_false] at h
    obtain ⟨-, c₁, ⟨hne, rfl⟩, -, c₂, rfl, h⟩ := h
    have hn' := Cursor.rest_next (hn.trans ha)
    rw [hn'] at hne
    refine .inl ⟨.expr, n, _, le_rfl, ?_, h⟩
    rw [hr, Cursor.rest_skipWhitespace, hn']
    exact .value ha hne
  -- a variable has no type itself
  case h_3 hl ha =>
    cases hc : s.classOf name with
    | ok className => simp only [hc, misses_pure] at h
    | error cause =>
      simp only [hc, misses_failAt] at h
      obtain ⟨-, rfl, rfl⟩ := h
      rw [hn]
      exact .inr (.mk (fun he => hl (hk'.symm.trans he)) (fun he => ha (hk'.symm.trans he)) hc)

lemma calleeMisses_of_binary {least : Int} {left : Node}
    (h : Misses (Parser.binary prec (n + 1) s least left) c e c') :
    CalleeMisses prec s n (.binary least left) c e c' := by
  simp only [Parser.binary, misses_bind, misses_token, false_or, token_eq_ok] at h
  obtain ⟨t, c₁, ⟨rfl, rfl⟩, h⟩ := h
  split_ifs at h with hend
  · exact (misses_pure.1 h).elim
  simp only [misses_bind, misses_level, false_or, level_eq_ok, misses_atEnd, atEnd_eq_ok] at h
  obtain ⟨cur, c₁, ⟨rfl, rfl⟩, done, c₂, ⟨rfl, rfl⟩, h⟩ := h
  split_ifs at h with hd
  · exact (misses_pure.1 h).elim
  obtain ⟨hl, -⟩ := not_or.1 hd
  simp only [misses_bind, misses_token, false_or, token_eq_ok] at h
  obtain ⟨t, c₁, ⟨rfl, rfl⟩, h⟩ := h
  generalize hk : c.token.kind = kind at h
  split at h
  case h_2 => simp [misses_fail, Cause.kind] at h
  case h_1 op =>
  obtain ⟨pos, ts, hr⟩ := exists_cons_of_front hk (by simp)
  have hlevel : levelOf prec c.rest = prec.of op := by rw [hr]; rfl
  have hn := Cursor.rest_next hr
  rw [hlevel] at hl
  have hl : least ≤ prec.of op := by omega
  simp only [misses_bind, misses_advance, false_or, advance_eq_ok, misses_skipWhitespace,
    skipWhitespace_eq_ok, misses_level, level_eq_ok] at h
  rw [CalleeMisses, hr]
  obtain ⟨-, c₁, ⟨hne, rfl⟩, -, c₂, rfl, h | ⟨x, c₁, hx, ahead, c₂, ⟨rfl, rfl⟩, -, c₃, rfl, h⟩⟩ := h
  · -- within the right operand
    refine ⟨.unary, n, _, le_rfl, ?_, h⟩
    rw [Cursor.rest_skipWhitespace, hn]
    rw [hn] at hne
    exact .rightOperand hl hne
  have hy := (reads_of_run (g := .unary) hx).1
  rw [Cursor.rest_skipWhitespace, hn] at hy
  rw [hlevel] at h
  cases n with
  | zero => simp [Parser.tighter, misses_fail, Cause.kind, fail_eq_ok] at h
  | succ n =>
  simp only [Parser.tighter, raising_eq, routine_eq] at h
  -- behind it: the operators that bind tighter, then those that are left
  by_cases ht : prec.of op < levelOf prec c₁.rest
  · simp only [if_pos ht] at h
    rcases h with h | ⟨right, c₂, hright, h⟩
    · refine ⟨.binary (prec.of op + 1) x, n, c₁.skipWhitespace, Nat.le_succ n, ?_, h⟩
      rw [Cursor.rest_skipWhitespace]
      exact .tighter hl hy ht
    · have hright := (reads_of_run (g := .binary _ _) hright).1
      rw [Cursor.rest_skipWhitespace] at hright
      exact ⟨.binary least _, n + 1, c₂, le_rfl, .behindTighter hl hy ht hright, h⟩
  · simp only [if_neg ht, misses_pure, false_or, pure_eq_ok] at h
    obtain ⟨right, c₂, ⟨rfl, rfl⟩, h⟩ := h
    refine ⟨.binary least _, n + 1, c₁.skipWhitespace, le_rfl, ?_, h⟩
    rw [Cursor.rest_skipWhitespace]
    exact .behindLooser hl hy (by omega)

/-- A phrase that misses a type calls one that does, or is itself the variable without a type. -/
lemma calleeMisses_of_run {g : Phrase} (h : Misses (g.run prec s (n + 1)) c e c') :
    CalleeMisses prec s n g c e c' ∨ g = .named ∧ Unknown s c.rest e c'.rest := by
  cases g with
  | expr => exact .inl (calleeMisses_of_expr h)
  | unary => exact .inl (calleeMisses_of_unary h)
  | primary => exact .inl (calleeMisses_of_primary h)
  | sends recv => exact .inl (calleeMisses_of_sends h)
  | named => exact (calleeMisses_of_named h).imp_right fun h => ⟨rfl, h⟩
  | args pos fn done =>
    simp only [Phrase.run, misses_bind, misses_pure, and_false, exists_false, or_false] at h
    exact .inl (calleeMisses_of_args h)
  | binary least left => exact .inl (calleeMisses_of_binary h)

/-- Reading a phrase comes to another one through any number of calls. -/
inductive Visits (prec : Precedence) (s : Scope) (g' : Phrase) (us : List Token) :
    Phrase → List Token → Prop
  | here : Visits prec s g' us g' us
  | call {g g₁ : Phrase} {ts ts₁ : List Token} (h : Calls prec s g ts g₁ ts₁)
      (hv : Visits prec s g' us g₁ ts₁) : Visits prec s g' us g ts

lemma not_misses_zero (g : Phrase) : ¬Misses (g.run prec s 0) c e c' := by
  have hfail : ∀ {α : Type}, ¬Misses (fail .outOfBudget : Parser α) c e c' := by
    intro α h
    exact absurd (misses_fail.1 h).1 (by decide)
  cases g with
  | args pos fn done =>
    intro h
    rcases misses_bind.1 h with h | ⟨xs, c₁, -, h⟩
    · exact hfail h
    · exact misses_pure.1 h
  | _ => exact hfail

/-- Whenever a type is missed, it is that of a variable that the parser has come to. -/
theorem exists_unknown {g : Phrase} (h : Misses (g.run prec s n) c e c') :
    ∃ us, Visits prec s .named us g c.rest ∧ Unknown s us e c'.rest := by
  induction n using Nat.strong_induction_on generalizing g c with
  | _ n ih =>
    cases n with
    | zero => exact absurd h (not_misses_zero g)
    | succ n =>
      rcases calleeMisses_of_run h with ⟨g', m, c₁, hm, hcall, h⟩ | ⟨rfl, hu⟩
      · obtain ⟨us, hv, hu⟩ := ih m (by omega) h
        exact ⟨us, .call hcall hv, hu⟩
      · exact ⟨c.rest, .here, hu⟩

end Misses

/-! ### Progress -/

section Progress

variable {prec : Precedence} {s : Scope} {g g' : Phrase} {ts ts' us rest : List Token}
  {c c' : Cursor} {e : SyntaxError}

lemma Calls.suffix (h : Calls prec s g ts g' ts') : ts' <:+ ts := by
  cases h with
  | operand | primary | named => exact List.suffix_rfl
  | operators hx | sendsToNamed hx => exact (skip_suffix _).trans hx.suffix
  | behindOperator | inParens => exact List.suffix_cons _ _
  | sendsToLiteral => exact (skip_suffix _).trans (List.suffix_cons _ _)
  | sendsToParens hx hr =>
    exact (((skip_suffix _).trans (suffix_of_skip hr)).trans hx.suffix).trans
      (List.suffix_cons _ _)
  | message => exact List.suffix_cons _ _
  | moreSends hm => exact ((skip_suffix _).trans hm.suffix).trans (List.suffix_cons _ _)
  | args hs | value hs =>
    exact ((skip_suffix _).trans (suffix_of_skip hs)).trans (List.suffix_cons _ _)
  | arg => exact skip_suffix _
  | moreArgs hx hr => exact ((suffix_of_skip hr).trans hx.suffix).trans (skip_suffix _)
  | rightOperand => exact (skip_suffix _).trans (List.suffix_cons _ _)
  | tighter _ hx | behindLooser _ hx =>
    exact (((skip_suffix _).trans hx.suffix).trans (skip_suffix _)).trans (List.suffix_cons _ _)
  | behindTighter _ hx _ hr =>
    exact (((hr.suffix.trans (skip_suffix _)).trans hx.suffix).trans (skip_suffix _)).trans
      (List.suffix_cons _ _)

lemma Visits.suffix (h : Visits prec s g' us g ts) : us <:+ ts := by
  induction h with
  | here => exact List.suffix_rfl
  | call hcall _ ih => exact ih.trans hcall.suffix

lemma Unknown.length_lt (h : Unknown s us e rest) : rest.length < us.length := by
  cases h with
  | @mk ts => exact Nat.lt_succ_of_le (length_skip_le ts)

end Progress

end Frontend.Grammar
