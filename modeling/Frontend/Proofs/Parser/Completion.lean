import Frontend.Proofs.Parser.Append

/-!
# Input that ends too early

An error that says that the input has ended is true: there are tokens that complete the input. They
are built from the inside out. Where an operand is missing a number is put, and every phrase that
is left open adds what closes it; the tokens that were there are read as before, since what is put
behind them stops an expression just like the end of the input.
-/

namespace Frontend

open Grammar (skip skipBlank front levelOf)

/-! ### Running out of input -/

namespace Parser

/-- A parser fails at a cursor because the input has ended. -/
abbrev RunsOut {α : Type} (p : Parser α) (c : Cursor) : Prop :=
  FailsBy (fun cause => cause.kind = .endOfInput) p c

variable {c : Cursor}

lemma runsOut_current : RunsOut current c ↔ c.rest = [] := by
  simp [failsBy_current, Cause.kind]

lemma runsOut_advance : RunsOut advance c ↔ c.next.rest = [] := by
  simp [failsBy_advance, Cause.kind]

end Parser

namespace Grammar

open Frontend.Parser

/-! ### Expressions -/

/-- The number that is put where an operand is missing. -/
def filler : Token := ⟨.number 1, -1⟩

/-- Some tokens put behind others complete a phrase, in front of everything that stops an
expression. -/
def Completes (prec : Precedence) (s : Scope) (g : Phrase) (ts vs : List Token) : Prop :=
  ∀ us, Stops us → ∃ x, Reads prec s g (ts ++ (vs ++ us)) x us

/-- Every run with a budget that runs out of input can be completed. -/
def Completable (prec : Precedence) (s : Scope) (n : Nat) : Prop :=
  ∀ (g : Phrase) (c : Cursor), g.Nonneg → RunsOut (g.run prec s n) c →
    ∃ vs, Completes prec s g c.rest vs

section Expressions

variable {prec : Precedence} {s : Scope} {n : Nat} {c : Cursor} {ts us : List Token} {x left : Node}

lemma Stops.ne_nil (h : Stops us) : us ≠ [] := by
  rintro rfl
  rcases h with h | h <;> cases h

lemma stops_rightParen (pos : Int) (us : List Token) : Stops (⟨.rightParen, pos⟩ :: us) := .inl rfl

lemma stops_endWord (pos : Int) (us : List Token) : Stops (⟨.endWord, pos⟩ :: us) := .inr rfl

/-- Messages end at a token that stops an expression. -/
lemma reads_sends_of_stops (h : Stops us) : Reads prec s (.sends x) (skip us) x us := by
  rw [h.skip_eq]
  refine .sent ?_
  obtain ⟨kind, pos, vs, rfl, rfl | rfl⟩ := h.exists_cons <;> simp

/-- Operators end at a token that stops an expression. -/
lemma reads_binary_of_stops (h : Stops us) {least : Int} (hl : 0 ≤ least) :
    Reads prec s (.binary least left) us left us := by
  refine .combined (.inr (.inl ?_))
  rw [h.levelOf_eq]
  omega

lemma reads_binary_skip_of_stops (h : Stops us) {least : Int} (hl : 0 ≤ least) :
    Reads prec s (.binary least left) (skip us) left us := by
  rw [h.skip_eq]
  exact reads_binary_of_stops h hl

lemma reads_primary_filler (h : Stops us) :
    Reads prec s .primary (filler :: us) (.int ⟨-1, -1⟩ 1) us :=
  .literal rfl (reads_sends_of_stops h)

lemma reads_expr_of_unary (h : Stops us) (hx : Reads prec s .unary ts x us) :
    Reads prec s .expr ts x us :=
  .expr hx (reads_binary_skip_of_stops h le_rfl)

lemma reads_expr_filler (h : Stops us) :
    Reads prec s .expr (filler :: us) (.int ⟨-1, -1⟩ 1) us :=
  reads_expr_of_unary h (.operand (reads_primary_filler h))

/-- Without a budget, it is not the input that has ended. -/
lemma not_runsOut_zero (g : Phrase) : ¬RunsOut (g.run prec s 0) c := by
  rintro ⟨e, c', h, he⟩
  have hz : g.run prec s 0 c = .error (c.error .outOfBudget) c := by cases g <;> rfl
  obtain ⟨rfl, rfl⟩ := EStateM.Result.error.inj (hz.symm.trans h)
  cases he

/-- What goes on behind an operand is not at the end of the input when it runs out. -/
lemma ne_nil_of_runsOut {g : Phrase} (hg : ¬g.Consumes) (h : RunsOut (g.run prec s n) c) :
    c.rest ≠ [] := by
  intro hr
  cases n with
  | zero => exact not_runsOut_zero g h
  | succ n =>
    cases g with
    | sends recv =>
      have ht : c.token = .eof := by simp [Cursor.token, hr]
      simp only [Phrase.run, Parser.sends, failsBy_bind, failsBy_token, token_eq_ok, false_or] at h
      obtain ⟨t, c₁, ⟨rfl, rfl⟩, h⟩ := h
      rw [ht] at h
      exact failsBy_pure.1 h
    | binary least left =>
      have he : c.atEnd = true := by simp [Cursor.atEnd, hr]
      simp only [Phrase.run, Parser.binary, failsBy_bind, failsBy_token, token_eq_ok, false_or] at h
      obtain ⟨t, c₁, ⟨rfl, rfl⟩, h⟩ := h
      split_ifs at h with hend
      · exact failsBy_pure.1 h
      simp only [failsBy_bind, failsBy_level, failsBy_atEnd, level_eq_ok, atEnd_eq_ok,
        false_or] at h
      obtain ⟨cur, c₁, ⟨-, rfl⟩, done, c₂, ⟨rfl, rfl⟩, h⟩ := h
      rw [if_pos (.inr he)] at h
      exact failsBy_pure.1 h
    | _ => exact hg trivial

/-- An operand that is missing. -/
lemma completes_primary_nil : Completes prec s .primary [] [filler] :=
  fun _ hu => ⟨_, reads_primary_filler hu⟩

/-- An operand without operators is one with operators. -/
lemma Completes.unary {vs : List Token} (h : Completes prec s .primary ts vs) :
    Completes prec s .unary ts vs := by
  intro us hu
  obtain ⟨x, hx⟩ := h us hu
  exact ⟨x, .operand hx⟩

lemma completes_expr (ih : ∀ m ≤ n, Completable prec s m)
    (h : RunsOut (Parser.expr prec (n + 1) s) c) : ∃ vs, Completes prec s .expr c.rest vs := by
  simp only [Parser.expr, routine_eq, failsBy_bind, failsBy_skipWhitespace, skipWhitespace_eq_ok,
    false_or] at h
  rcases h with h | ⟨x, c₁, hx, -, c₂, rfl, h⟩
  · obtain ⟨vs, hvs⟩ := ih n le_rfl .unary c trivial h
    refine ⟨vs, fun us hu => ?_⟩
    obtain ⟨x, hx⟩ := hvs us hu
    exact ⟨x, reads_expr_of_unary hu hx⟩
  · obtain ⟨hx, -⟩ := reads_of_run (g := .unary) hx
    obtain ⟨vs, hvs⟩ := ih n le_rfl (.binary 0 x) _ le_rfl h
    have hne := ne_nil_of_runsOut (g := .binary 0 x) id h
    rw [Cursor.rest_skipWhitespace] at hvs hne
    refine ⟨vs, fun us hu => ?_⟩
    obtain ⟨y, hy⟩ := hvs us hu
    have hf := fenced_of_ne_nil hne (vs ++ us)
    refine ⟨y, .expr (hx.append trivial (hf.of_suffix (skip_suffix _))) ?_⟩
    rwa [hf.skip_append]

lemma completes_unary (ih : ∀ m ≤ n, Completable prec s m)
    (h : RunsOut (Parser.unary prec (n + 1) s) c) : ∃ vs, Completes prec s .unary c.rest vs := by
  simp only [Parser.unary, routine_eq, failsBy_bind, runsOut_current, current_eq_ok] at h
  rcases h with hr | ⟨⟨kind, pos⟩, c₁, ⟨⟨ts, hr⟩, rfl⟩, h⟩
  · rw [hr]
    exact ⟨_, completes_primary_nil.unary⟩
  dsimp only at h
  split at h
  case h_1 op =>
    have operator : ∀ {vs}, Completes prec s .unary ts vs → Completes prec s .unary c.rest vs := by
      intro vs hvs us hu
      obtain ⟨x, hx⟩ := hvs us hu
      rw [hr]
      exact ⟨_, .operator hx⟩
    simp only [failsBy_bind, runsOut_advance, advance_eq_ok, failsBy_pure, and_false, exists_false,
      or_false] at h
    rcases h with he | ⟨-, c₁, ⟨-, rfl⟩, h⟩
    · rw [Cursor.rest_next hr] at he
      exact ⟨_, operator (he ▸ completes_primary_nil.unary)⟩
    · obtain ⟨vs, hvs⟩ := ih n le_rfl .unary _ trivial h
      rw [Cursor.rest_next hr] at hvs
      exact ⟨vs, operator hvs⟩
  case h_2 =>
    obtain ⟨vs, hvs⟩ := ih n le_rfl .primary c trivial h
    exact ⟨vs, hvs.unary⟩

/-- An expression in front of a closing parenthesis, in parentheses. -/
lemma reads_paren_of_stops {pos pos' : Int} (hu : Stops us)
    (hx : Reads prec s .expr ts x (⟨.rightParen, pos'⟩ :: us)) :
    Reads prec s .primary (⟨.leftParen, pos⟩ :: ts) x us :=
  .paren hx (skip_cons_of_not_whitespace rfl us) hu.ne_nil (reads_sends_of_stops hu)

/-- An expression in parentheses that is left open. -/
lemma completes_paren (ih : ∀ m ≤ n, Completable prec s m)
    (h : RunsOut (Parser.paren prec (n + 1) s) c) : ∃ vs, Completes prec s .primary c.rest vs := by
  simp only [Parser.paren, routine_eq, failsBy_bind, runsOut_current, current_eq_ok] at h
  rcases h with hr | ⟨⟨kind, pos⟩, c₁, ⟨⟨ts, hr⟩, rfl⟩, h⟩
  · rw [hr]
    exact ⟨_, completes_primary_nil⟩
  dsimp only at h
  split at h
  case h_2 => simp [failsBy_fail, Cause.kind] at h
  have close := stops_rightParen (-1)
  simp only [failsBy_bind, runsOut_advance, advance_eq_ok, failsBy_skipWhitespace,
    skipWhitespace_eq_ok, runsOut_current, current_eq_ok, false_or] at h
  rw [hr]
  rcases h with he | ⟨-, c₁, ⟨-, rfl⟩, h | ⟨x, c₂, hx, -, c₃, rfl, h⟩⟩
  · -- nothing behind the opening parenthesis
    rw [Cursor.rest_next hr] at he
    subst he
    exact ⟨[filler, ⟨.rightParen, -1⟩], fun us hu => ⟨_,
      reads_paren_of_stops hu (reads_expr_filler (close us))⟩⟩
  · -- the expression itself
    obtain ⟨vs, hvs⟩ := ih n le_rfl .expr _ trivial h
    rw [Cursor.rest_next hr] at hvs
    refine ⟨vs ++ [⟨.rightParen, -1⟩], fun us hu => ?_⟩
    obtain ⟨x, hx⟩ := hvs _ (close us)
    simp only [List.append_assoc, List.cons_append, List.nil_append]
    exact ⟨x, reads_paren_of_stops hu hx⟩
  obtain ⟨hx, -⟩ := reads_of_run (g := .expr) hx
  rw [Cursor.rest_next hr] at hx
  rcases h with he | ⟨⟨kind', pos'⟩, c₄, ⟨⟨ts', hr'⟩, rfl⟩, h⟩
  · -- the closing parenthesis
    rw [Cursor.rest_skipWhitespace] at he
    refine ⟨[⟨.rightParen, -1⟩], fun us hu => ⟨x, ?_⟩⟩
    have hx' := hx.append trivial fun _ => close us
    have hc := (skip_append_of_nil he _).trans (close us).skip_eq
    exact .paren hx' hc hu.ne_nil (reads_sends_of_stops hu)
  · -- the token behind the closing parenthesis
    dsimp only at h
    split at h
    case h_2 => simp [failsBy_fail, Cause.kind] at h
    simp only [failsBy_bind, runsOut_advance, failsBy_pure, and_false, exists_false, or_false] at h
    rw [Cursor.rest_next hr'] at h
    subst h
    rw [Cursor.rest_skipWhitespace] at hr'
    refine ⟨[], fun us hu => ⟨x, ?_⟩⟩
    have hx' := hx.append trivial (fenced_of_skip hr' us)
    exact .paren hx' (skip_append_of_cons hr' us) hu.ne_nil (reads_sends_of_stops hu)

/-- An atom that has been read, with more tokens behind it, and the messages sent to it. -/
lemma reads_primary_of_atom {c₁ : Cursor} {y : Node} {rest : List Token}
    (ha : Parser.atom prec n s c = .ok x c₁) (hu : Fenced c₁.rest us)
    (hy : Reads prec s (.sends x) (skip (c₁.rest ++ us)) y rest) :
    Reads prec s .primary (c.rest ++ us) y rest := by
  obtain ⟨hx, -⟩ := readsAtom_of_run ha
  generalize c₁.rest = ts₁ at hx hu hy
  generalize c.rest = ts at hx
  -- what closes the parentheses is there already, so nothing is appended inside of them
  cases hx with
  | named hx => exact .name (hx.append trivial hu) hy
  | paren hx hr hne =>
    exact .paren (hx.append trivial (fenced_of_skip hr us)) (skip_append_of_cons hr us)
      (by simp [hne]) hy
  | literal hx => exact .literal hx hy

lemma completes_primary (ih : ∀ m ≤ n, Completable prec s m)
    (h : RunsOut (Parser.primary prec (n + 1) s) c) :
    ∃ vs, Completes prec s .primary c.rest vs := by
  simp only [primary_succ, failsBy_bind, failsBy_skipWhitespace, skipWhitespace_eq_ok,
    false_or] at h
  rcases h with h | ⟨x, c₁, hx, -, c₂, rfl, h⟩
  · -- the input ends within the operand: its completion sends no messages
    cases n with
    | zero => simp only [Parser.atom, failsBy_fail, Cause.kind, reduceCtorEq] at h
    | succ n =>
      simp only [Parser.atom, failsBy_bind, failsBy_token, token_eq_ok, false_or] at h
      obtain ⟨t, c₁, ⟨rfl, rfl⟩, h⟩ := h
      generalize c.token.kind = kind at h
      split at h
      case h_1 name =>
        obtain ⟨vs, hvs⟩ := ih n (by omega) .named c trivial h
        refine ⟨vs, fun us hu => ?_⟩
        obtain ⟨x, hx⟩ := hvs us hu
        exact ⟨x, .name hx (reads_sends_of_stops hu)⟩
      case h_2 =>
        cases n with
        | zero => simp only [Parser.paren, failsBy_fail, Cause.kind, reduceCtorEq] at h
        | succ n => exact completes_paren (fun m hm => ih m (by omega)) h
      case h_3 =>
        split at h
        case h_1 => exact (failsBy_next_pure.1 h).elim
        case h_2 => simp [failsBy_fail, Cause.kind] at h
  · -- it ends within the messages behind the operand
    obtain ⟨vs, hvs⟩ := ih n le_rfl (.sends x) _ trivial h
    have hne := ne_nil_of_runsOut (g := .sends x) id h
    rw [Cursor.rest_skipWhitespace] at hvs hne
    refine ⟨vs, fun us hu => ?_⟩
    obtain ⟨y, hy⟩ := hvs us hu
    have hf := fenced_of_ne_nil hne (vs ++ us)
    refine ⟨y, reads_primary_of_atom hx (hf.of_suffix (skip_suffix _)) ?_⟩
    rwa [hf.skip_append]

lemma completes_sends {recv : Node} (ih : ∀ m ≤ n, Completable prec s m)
    (h : RunsOut (Parser.sends prec (n + 1) s recv) c) :
    ∃ vs, Completes prec s (.sends recv) c.rest vs := by
  simp only [Parser.sends, failsBy_bind, failsBy_token, token_eq_ok, false_or] at h
  obtain ⟨t, c₁, ⟨rfl, rfl⟩, h⟩ := h
  generalize hk : c.token.kind = kind at h
  split at h
  case h_2 => exact (failsBy_pure.1 h).elim
  obtain ⟨pos, ts, hr⟩ := exists_cons_of_front hk (by simp)
  simp only [failsBy_bind, failsBy_next, next_eq_ok, failsBy_token, token_eq_ok, false_or] at h
  obtain ⟨-, c₁, rfl, t, c₂, ⟨rfl, rfl⟩, h⟩ := h
  generalize c.next.token.kind = kind' at h
  split at h
  case h_2 => simp [failsBy_fail, Cause.kind] at h
  simp only [failsBy_bind, failsBy_skipWhitespace, skipWhitespace_eq_ok, false_or] at h
  rw [hr]
  rcases h with h | ⟨msg, c₃, hm, -, c₄, rfl, h⟩
  · -- the message itself is cut off, …
    obtain ⟨vs, hvs⟩ := ih n le_rfl .named _ trivial h
    rw [Cursor.rest_next hr] at hvs
    refine ⟨vs, fun us hu => ?_⟩
    obtain ⟨msg, hm⟩ := hvs us hu
    exact ⟨_, .send hm (reads_sends_of_stops hu)⟩
  · -- … or the messages behind it
    obtain ⟨hm, -⟩ := reads_of_run (g := .named) hm
    obtain ⟨vs, hvs⟩ := ih n le_rfl (.sends _) _ trivial h
    have hne := ne_nil_of_runsOut (g := .sends _) id h
    rw [Cursor.rest_next hr] at hm
    rw [Cursor.rest_skipWhitespace] at hvs hne
    refine ⟨vs, fun us hu => ?_⟩
    obtain ⟨y, hy⟩ := hvs us hu
    have hf := fenced_of_ne_nil hne (vs ++ us)
    refine ⟨y, .send (hm.append trivial (hf.of_suffix (skip_suffix _))) ?_⟩
    rwa [hf.skip_append]

/-- The arguments of a call, behind its opening parenthesis. -/
lemma completes_argList (pos : Int) (fn : Text) (ih : ∀ m ≤ n, Completable prec s m)
    (h : RunsOut (Parser.argList prec (n + 1) s) c) :
    ∃ vs, Completes prec s (.args pos fn []) c.rest vs := by
  simp only [Parser.argList, failsBy_bind, failsBy_skipWhitespace, skipWhitespace_eq_ok,
    failsBy_token, token_eq_ok, false_or] at h
  obtain ⟨-, c₁, rfl, t, c₂, ⟨rfl, rfl⟩, h⟩ := h
  generalize c.skipWhitespace.token.kind = kind at h
  split at h
  case h_1 => exact (failsBy_next_pure.1 h).elim
  case h_2 =>
    have h' : RunsOut ((Phrase.args pos fn []).run prec s n) c.skipWhitespace :=
      failsBy_bind.2 (.inl h)
    obtain ⟨vs, hvs⟩ := ih n le_rfl (.args pos fn []) _ trivial h'
    rw [Cursor.rest_skipWhitespace] at hvs
    refine ⟨vs, fun us hu => ?_⟩
    obtain ⟨x, hx⟩ := hvs us hu
    rw [← reads_args_skip, skip_skip_append, reads_args_skip] at hx
    exact ⟨x, hx⟩

lemma completes_named (ih : ∀ m ≤ n, Completable prec s m)
    (h : RunsOut (Parser.named prec (n + 1) s) c) : ∃ vs, Completes prec s .named c.rest vs := by
  simp only [Parser.named, routine_eq, failsBy_bind, failsBy_token, token_eq_ok, false_or] at h
  obtain ⟨t, c₁, ⟨rfl, rfl⟩, h⟩ := h
  generalize hk : c.token.kind = kind at h
  split at h
  case h_2 => simp [failsBy_fail, Cause.kind] at h
  case h_1 name =>
  obtain ⟨pos, ts, hr⟩ := exists_cons_of_front hk (by simp)
  simp only [failsBy_bind, failsBy_next, next_eq_ok, failsBy_skipWhitespace, skipWhitespace_eq_ok,
    failsBy_token, token_eq_ok, false_or] at h
  obtain ⟨-, c₁, rfl, -, c₂, rfl, t, c₃, ⟨rfl, rfl⟩, h⟩ := h
  have hn : c.next.skipWhitespace.rest = skip ts := by
    rw [Cursor.rest_skipWhitespace, Cursor.rest_next hr]
  rw [hr]
  generalize hk' : c.next.skipWhitespace.token.kind = kind' at h
  rw [Cursor.kind_token, hn] at hk'
  split at h
  -- a call: an empty list is closed, a list that has begun is completed
  case h_1 =>
    obtain ⟨pos', ts', hl⟩ := exists_cons_of_front hk' (by simp)
    have hl' := hn.trans hl
    simp only [failsBy_bind, runsOut_advance, advance_eq_ok, failsBy_pure, and_false, exists_false,
      or_false] at h
    rcases h with he | ⟨-, c₁, ⟨-, rfl⟩, h⟩
    · rw [Cursor.rest_next hl'] at he
      subst he
      have close := fun us => (stops_rightParen (-1) us).skip_eq
      exact ⟨[⟨.rightParen, -1⟩], fun us _ => ⟨_,
        .callNone (skip_append_of_cons hl _) (close us)⟩⟩
    · cases n with
      | zero => simp only [Parser.argList, failsBy_fail, Cause.kind, reduceCtorEq] at h
      | succ n =>
        obtain ⟨vs, hvs⟩ := completes_argList pos name (fun m hm => ih m (by omega)) h
        rw [Cursor.rest_next hl'] at hvs
        refine ⟨vs, fun us hu => ?_⟩
        obtain ⟨x, hx⟩ := hvs us hu
        exact ⟨x, .call (skip_append_of_cons hl _) (reads_args_skip.2 hx)⟩
  -- an assignment: a value is put in where there is none
  case h_2 =>
    obtain ⟨pos', ts', ha⟩ := exists_cons_of_front hk' (by simp)
    have ha' := hn.trans ha
    have assign : ∀ {vs}, Completes prec s .expr (skip ts') vs →
        Completes prec s .named (⟨.identifier name, pos⟩ :: ts) vs := by
      intro vs hvs us hu
      obtain ⟨x, hx⟩ := hvs us hu
      exact ⟨_, .assign (skip_append_of_cons ha _) (hx.skip_append (.inl rfl))⟩
    simp only [failsBy_bind, runsOut_advance, advance_eq_ok, failsBy_skipWhitespace,
      skipWhitespace_eq_ok, failsBy_pure, and_false, exists_false, or_false, false_or] at h
    rcases h with he | ⟨-, c₁, ⟨-, rfl⟩, -, c₂, rfl, h⟩
    · rw [Cursor.rest_next ha'] at he
      subst he
      exact ⟨[filler], assign fun us hu => ⟨_, reads_expr_filler hu⟩⟩
    · obtain ⟨vs, hvs⟩ := ih n le_rfl .expr _ trivial h
      rw [Cursor.rest_skipWhitespace, Cursor.rest_next ha'] at hvs
      exact ⟨vs, assign hvs⟩
  -- a variable does not look at what follows it
  case h_3 =>
    cases hc : s.classOf name with
    | error cause => simp [hc, failsBy_failAt, kind_of_classOf hc] at h
    | ok className => simp only [hc, failsBy_pure] at h

lemma completes_args {pos : Int} {fn : Text} {done : List Node}
    (ih : ∀ m ≤ n, Completable prec s m) (h : RunsOut (Parser.args prec (n + 1) s done) c) :
    ∃ vs, Completes prec s (.args pos fn done) c.rest vs := by
  simp only [Parser.args, failsBy_bind, failsBy_skipWhitespace, skipWhitespace_eq_ok,
    failsBy_token, token_eq_ok, false_or] at h
  obtain ⟨-, c₁, rfl, h | ⟨x, c₂, hx, -, c₃, rfl, t, c₄, ⟨rfl, rfl⟩, h⟩⟩ := h
  · -- an argument is cut off: it is completed and the list closed
    obtain ⟨vs, hvs⟩ := ih n le_rfl .expr _ trivial h
    rw [Cursor.rest_skipWhitespace] at hvs
    refine ⟨vs ++ [⟨.rightParen, -1⟩], fun us _ => ?_⟩
    have close := stops_rightParen (-1) us
    obtain ⟨x, hx⟩ := hvs _ close
    simp only [List.append_assoc, List.cons_append, List.nil_append]
    exact ⟨_, .lastArg (hx.skip_append (.inl rfl)) close.skip_eq⟩
  · -- the input ends behind a comma that follows an argument
    obtain ⟨hx, -⟩ := reads_of_run (g := .expr) hx
    rw [Cursor.rest_skipWhitespace] at hx
    generalize hk : c₂.skipWhitespace.token.kind = kind at h
    split at h
    case h_1 => exact (failsBy_next_pure.1 h).elim
    case h_2 =>
      obtain ⟨pos', ts, hr⟩ := exists_cons_of_front hk (by simp)
      simp only [failsBy_bind, failsBy_next, next_eq_ok, false_or] at h
      obtain ⟨-, c₃, rfl, h⟩ := h
      have h' : RunsOut ((Phrase.args pos fn (x :: done)).run prec s n) c₂.skipWhitespace.next :=
        failsBy_bind.2 (.inl h)
      obtain ⟨vs, hvs⟩ := ih n le_rfl (.args pos fn (x :: done)) _ trivial h'
      rw [Cursor.rest_next hr] at hvs
      rw [Cursor.rest_skipWhitespace] at hr
      refine ⟨vs, fun us hu => ?_⟩
      obtain ⟨y, hy⟩ := hvs us hu
      have hf := fenced_of_skip hr (vs ++ us)
      have hx' := hx.append trivial hf
      rw [← (hf.of_suffix hx.suffix).skip_append] at hx'
      exact ⟨y, .arg hx' (skip_append_of_cons hr _) hy⟩
    case h_3 => simp [failsBy_fail, Cause.kind] at h

section Operators

variable {op pos least : Int} {vs : List Token}

/-- The right operand of an operator is completed, and nothing binds tighter behind it. -/
lemma Completes.rightOperand (hleast : 0 ≤ least) (hl : least ≤ prec.of op)
    (h : Completes prec s .unary (skip ts) vs) :
    Completes prec s (.binary least left) (⟨.operator op, pos⟩ :: ts) vs := by
  intro us hu
  obtain ⟨x, hx⟩ := h us hu
  have hlow : levelOf prec us ≤ prec.of op := by
    rw [hu.levelOf_eq]
    omega
  exact ⟨_, .looser hl (hx.skip_append (.inr rfl)) hlow (reads_binary_skip_of_stops hu hleast)⟩

/-- A right operand with something behind it is the same in front of more tokens, and so is the
operator behind it. -/
lemma Reads.append_rightOperand {rest : List Token} (h : Reads prec s .unary (skip ts) x rest)
    (hne : skip rest ≠ []) (vs : List Token) :
    Reads prec s .unary (skip (ts ++ vs)) x (rest ++ vs) ∧ skip (rest ++ vs) = skip rest ++ vs ∧
      levelOf prec (rest ++ vs) = levelOf prec rest := by
  have hf := fenced_of_ne_nil hne vs
  have hf' := hf.of_suffix (skip_suffix _)
  rw [(hf'.of_suffix h.suffix).skip_append]
  exact ⟨h.append trivial hf', hf.skip_append, hf'.levelOf_append prec⟩

/-- The operators that belong to the right operand are completed. -/
lemma Completes.tighter (hleast : 0 ≤ least) (hl : least ≤ prec.of op)
    (hx : Reads prec s .unary (skip ts) x us) (hne : skip us ≠ [])
    (ht : prec.of op < levelOf prec us)
    (h : Completes prec s (.binary (prec.of op + 1) x) (skip us) vs) :
    Completes prec s (.binary least left) (⟨.operator op, pos⟩ :: ts) vs := by
  intro us' hu
  obtain ⟨right, hright⟩ := h us' hu
  obtain ⟨hx', hskip, hlevel⟩ := hx.append_rightOperand hne (vs ++ us')
  rw [← hskip] at hright
  rw [← hlevel] at ht
  exact ⟨_, .tighter hl hx' ht hright (reads_binary_of_stops hu hleast)⟩

/-- The operators behind the right operand are completed. -/
lemma Completes.behind {right : Node} {c₁ : Cursor} (hleast : 0 ≤ least) (hl : least ≤ prec.of op)
    (hx : Reads prec s .unary (skip ts) x c.rest)
    (hr : Parser.tighter prec n s (prec.of op) (levelOf prec c.rest) x c.skipWhitespace =
      .ok right c₁)
    (hne : c₁.rest ≠ [])
    (h : Completes prec s (.binary least (.binary ⟨left.start, right.stop⟩ op left right)) c₁.rest
      vs) :
    Completes prec s (.binary least left) (⟨.operator op, pos⟩ :: ts) vs := by
  intro us hu
  obtain ⟨y, hy⟩ := h us hu
  cases n with
  | zero => simp only [Parser.tighter, fail_eq_ok] at hr
  | succ n =>
    simp only [Parser.tighter, raising_eq, routine_eq] at hr
    split_ifs at hr with ht
    · -- the right operand took tighter operators of its own, …
      obtain ⟨hright, -⟩ := reads_of_run (g := .binary (prec.of op + 1) x) hr
      rw [Cursor.rest_skipWhitespace] at hright
      have hne' : skip c.rest ≠ [] := fun he => hne (List.suffix_nil.1 (he ▸ hright.suffix))
      obtain ⟨hx', hskip, hlevel⟩ := hx.append_rightOperand hne' (vs ++ us)
      have hright' := hright.append (Int.add_nonneg (hleast.trans hl) (by decide))
        (fenced_of_ne_nil hne (vs ++ us))
      rw [← hskip] at hright'
      rw [← hlevel] at ht
      exact ⟨y, .tighter hl hx' ht hright' hy⟩
    · -- … or it was taken alone
      obtain ⟨rfl, rfl⟩ := pure_eq_ok.1 hr
      rw [Cursor.rest_skipWhitespace] at hy hne
      obtain ⟨hx', hskip, hlevel⟩ := hx.append_rightOperand hne (vs ++ us)
      rw [← hskip] at hy
      rw [not_lt, ← hlevel] at ht
      exact ⟨y, .looser hl hx' ht hy⟩

end Operators

lemma completes_binary {least : Int} (hleast : 0 ≤ least) (ih : ∀ m ≤ n, Completable prec s m)
    (h : RunsOut (Parser.binary prec (n + 1) s least left) c) :
    ∃ vs, Completes prec s (.binary least left) c.rest vs := by
  simp only [Parser.binary, failsBy_bind, failsBy_token, token_eq_ok, false_or] at h
  obtain ⟨t, c₁, ⟨rfl, rfl⟩, h⟩ := h
  split_ifs at h with hend
  · exact (failsBy_pure.1 h).elim
  simp only [failsBy_bind, failsBy_level, failsBy_atEnd, level_eq_ok, atEnd_eq_ok, false_or] at h
  obtain ⟨cur, c₁, ⟨rfl, rfl⟩, done, c₂, ⟨rfl, rfl⟩, h⟩ := h
  split_ifs at h with hd
  · exact (failsBy_pure.1 h).elim
  obtain ⟨hl, -⟩ := not_or.1 hd
  simp only [failsBy_bind, failsBy_token, token_eq_ok, false_or] at h
  obtain ⟨t, c₁, ⟨rfl, rfl⟩, h⟩ := h
  generalize hk : c.token.kind = kind at h
  split at h
  case h_2 => simp [failsBy_fail, Cause.kind] at h
  case h_1 op =>
  obtain ⟨pos, ts, hr⟩ := exists_cons_of_front hk (by simp)
  have hlevel : levelOf prec c.rest = prec.of op := by rw [hr]; rfl
  rw [hlevel, not_lt] at hl
  rw [hlevel] at h
  simp only [failsBy_bind, runsOut_advance, advance_eq_ok, failsBy_skipWhitespace,
    skipWhitespace_eq_ok, failsBy_level, level_eq_ok, false_or] at h
  -- the input ends right behind the operator, …
  rcases h with he | ⟨-, c₁, ⟨-, rfl⟩, -, c₂, rfl, h⟩
  · rw [Cursor.rest_next hr] at he
    rw [hr, he]
    exact ⟨_, completes_primary_nil.unary.rightOperand hleast hl⟩
  -- … within the right operand, …
  rcases h with h | ⟨x, c₃, hx, ahead, c₄, ⟨rfl, rfl⟩, -, c₅, rfl, h⟩
  · obtain ⟨vs, hvs⟩ := ih n le_rfl .unary _ trivial h
    rw [Cursor.rest_skipWhitespace, Cursor.rest_next hr] at hvs
    rw [hr]
    exact ⟨vs, hvs.rightOperand hleast hl⟩
  obtain ⟨hread, -⟩ := reads_of_run (g := .unary) hx
  rw [Cursor.rest_skipWhitespace, Cursor.rest_next hr] at hread
  rw [hr]
  -- … within the tighter operators behind it, or within those that are left
  rcases h with h | ⟨right, c₆, hright, h⟩
  · cases n with
    | zero => simp only [Parser.tighter, failsBy_fail, Cause.kind, reduceCtorEq] at h
    | succ n =>
      simp only [Parser.tighter, raising_eq, routine_eq] at h
      split_ifs at h with ht
      · have hne := ne_nil_of_runsOut (g := .binary (prec.of op + 1) x) id h
        have hop : 0 ≤ prec.of op + 1 := by omega
        obtain ⟨vs, hvs⟩ := ih n (by omega) (.binary (prec.of op + 1) x) _ hop h
        rw [Cursor.rest_skipWhitespace] at hvs hne
        exact ⟨vs, hvs.tighter hleast hl hread hne ht⟩
      · exact (failsBy_pure.1 h).elim
  · have hne := ne_nil_of_runsOut (g := .binary least _) id h
    obtain ⟨vs, hvs⟩ := ih n le_rfl (.binary least _) _ hleast h
    exact ⟨vs, hvs.behind hleast hl hread hright hne⟩

/-- Every expression that runs out of input can be completed. -/
theorem exists_completes {g : Phrase} (hg : g.Nonneg) (h : RunsOut (g.run prec s n) c) :
    ∃ vs, Completes prec s g c.rest vs := by
  have key : ∀ n, Completable prec s n := by
    intro n
    induction n using Nat.strong_induction_on with
    | _ n ih =>
      intro g c hg h
      cases n with
      | zero => exact absurd h (not_runsOut_zero g)
      | succ n =>
        have ih' : ∀ m ≤ n, Completable prec s m := fun m hm => ih m (by omega)
        cases g with
        | expr => exact completes_expr ih' h
        | unary => exact completes_unary ih' h
        | primary => exact completes_primary ih' h
        | sends recv => exact completes_sends ih' h
        | named => exact completes_named ih' h
        | args pos fn done =>
          simp only [Phrase.run, failsBy_bind, failsBy_pure, and_false, exists_false,
            or_false] at h
          exact completes_args ih' h
        | binary least left => exact completes_binary hg ih' h
  exact key n g c hg h

end Expressions

end Grammar

end Frontend
