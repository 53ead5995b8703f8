import Frontend.Proofs.Parser.Calls
import Frontend.Proofs.Parser.FirstError

/-!
# Going on behind a call

A call is a part of the run of its caller: what happens in the run up to the call is settled, so the
run does what the callee does and then goes on (`Continues`). If the callee fails, the caller fails
with the same error.

If it does not, going on can lead to errors of its own, but one about a type is that of a variable
that is still ahead. A parser with this property is `Late`, which is closed under sequencing.
-/

namespace Frontend

open Grammar (skip levelOf)

namespace Parser

variable {α β γ : Type} {p : Parser α} {c c' : Cursor} {e : SyntaxError}

/-- A parser never goes back, and a type that it misses is that of a variable ahead. -/
structure Late (p : Parser α) : Prop where
  le (c : Cursor) {x : α} {c' : Cursor} (h : p c = .ok x c') : c'.rest.length ≤ c.rest.length
  lt (c : Cursor) {e : SyntaxError} {c' : Cursor} (h : Misses p c e c') :
    c'.rest.length < c.rest.length

lemma Late.bind {f : α → Parser β} (hp : Late p) (hf : ∀ x, Late (f x)) : Late (p >>= f) where
  le c y c' h := by
    obtain ⟨x, c₁, hx, hy⟩ := bind_eq_ok.1 h
    exact ((hf x).le c₁ hy).trans (hp.le c hx)
  lt c e c' h := by
    rcases misses_bind.1 h with h | ⟨x, c₁, hx, h⟩
    · exact hp.lt c h
    · exact ((hf x).lt c₁ h).trans_le (hp.le c hx)

lemma late_of_framed {φ : α → β} {q : Parser β} (h : Framed (.followedBy []) φ p q)
    (hm : ∀ {c e c'}, Misses p c e c' ↔ False) : Late p where
  le c x c' hp := by
    have hl := (h c (.inl rfl)).leadsTo
    rw [hp] at hl
    exact hl.suffix.length_le
  lt _ _ _ hp := (hm.1 hp).elim

lemma late_pure (x : α) : Late (pure x : Parser α) :=
  late_of_framed (framed_pure (φ := id) x) misses_pure

lemma late_fail {cause : Cause} (h : cause.kind ≠ .inference) : Late (fail cause : Parser α) :=
  late_of_framed (framed_fail (φ := id) cause) (by simp [misses_fail, h])

lemma late_current : Late current := late_of_framed framed_current misses_current

lemma late_token : Late token := late_of_framed framed_token misses_token

lemma late_next : Late next := late_of_framed framed_next misses_next

lemma late_advance : Late advance := late_of_framed framed_advance misses_advance

lemma late_skipWhitespace : Late skipWhitespace :=
  late_of_framed framed_skipWhitespace misses_skipWhitespace

lemma late_level (prec : Precedence) : Late (level prec) :=
  late_of_framed (framed_level prec) misses_level

lemma late_lastPos : Late lastPos where
  le c x c' h := by
    obtain ⟨-, rfl⟩ := lastPos_eq_ok.1 h
    exact le_rfl
  lt _ _ _ h := (misses_lastPos.1 h).elim

section Expressions

open Grammar (Phrase)

variable (prec : Precedence) (s : Scope) (n : Nat)

/-- Reading a phrase never goes back, and a type that is missed is that of a variable ahead. -/
lemma late_run (g : Phrase) : Late (g.run prec s n) where
  le _ _ _ h := (Grammar.reads_of_run h).2.suffix.length_le
  lt c e c' h := by
    obtain ⟨us, hv, hu⟩ := Grammar.exists_unknown h
    exact hu.length_lt.trans_le hv.suffix.length_le

lemma late_args (done : List Node) : Late (args prec n s done) where
  le c x c' h := by
    have hrun : (Phrase.args 0 [] done).run prec s n c = .ok (.call ⟨0, x.2⟩ [] x.1) c' :=
      bind_of_ok h
    exact (late_run prec s n _).le c hrun
  lt c e c' h := (late_run prec s n (.args 0 [] done)).lt c (misses_bind.2 (.inl h))

lemma late_tighter (cur ahead : Int) (x : Node) : Late (tighter prec n s cur ahead x) := by
  cases n with
  | zero => exact late_fail (by decide)
  | succ n =>
    rw [tighter]
    split_ifs
    · exact late_run prec s n (.binary (cur + 1) x)
    · exact late_pure x

end Expressions

/-- From a place on, a parser does what another one does from a later place on, and then goes on. -/
def Continues (p : Parser α) (c : Cursor) (q : Parser β) (c' : Cursor) : Prop :=
  ∃ f : β → Parser α, p c = (q >>= f) c' ∧ ∀ y, Late (f y)

section Continues

variable {q : Parser β} {r : Parser γ} {c₁ c₂ : Cursor}

/-- The run is what it is from another place on. -/
lemma Continues.of_eq {q : Parser α} (h : p c = q c') : Continues p c q c' :=
  ⟨pure, by rw [bind_pure, h], late_pure⟩

lemma bind_congr_at {q : Parser α} (h : p c = q c') (f : α → Parser γ) :
    (p >>= f) c = (q >>= f) c' := by
  simp only [Bind.bind, EStateM.bind, h]

lemma Continues.refl (p : Parser α) (c : Cursor) : Continues p c p c := .of_eq rfl

lemma Continues.bind {f : α → Parser γ} (h : Continues p c q c') (hf : ∀ x, Late (f x)) :
    Continues (p >>= f) c q c' := by
  obtain ⟨g, hp, hg⟩ := h
  refine ⟨fun y => g y >>= f, ?_, fun y => (hg y).bind hf⟩
  rw [← bind_assoc]
  exact bind_congr_at hp f

lemma Continues.after {f : α → Parser γ} {x : α} (hp : p c = .ok x c₁)
    (h : Continues (f x) c₁ q c') : Continues (p >>= f) c q c' := by
  obtain ⟨g, hx, hg⟩ := h
  exact ⟨g, (bind_of_ok hp).trans hx, hg⟩

/-- A step that has no value. -/
lemma Continues.step {r : Parser Unit} {f : Unit → Parser α} (hr : r c = .ok () c₁)
    (h : Continues (f ()) c₁ q c') : Continues (r >>= f) c q c' := .after hr h

lemma Continues.trans (h : Continues p c q c₁) (h' : Continues q c₁ r c₂) :
    Continues p c r c₂ := by
  obtain ⟨f, hp, hf⟩ := h
  obtain ⟨g, hq, hg⟩ := h'.bind hf
  exact ⟨g, hp.trans hq, hg⟩

/-- An error that is found on the way is the error in the end. -/
lemma Continues.of_error (h : Continues p c q c') (hq : q c' = .error e c₁) :
    p c = .error e c₁ := by
  obtain ⟨f, hp, -⟩ := h
  rw [hp, bind_of_error hq]

/-- Types that are missed later are those of variables ahead. -/
lemma Continues.lt_of_ok {y : β} (h : Continues p c q c') (hq : q c' = .ok y c₁)
    (hm : Misses p c e c₂) : c₂.rest.length < c₁.rest.length := by
  obtain ⟨f, hp, hf⟩ := h
  rw [Misses, hp, bind_of_ok hq] at hm
  exact (hf y).lt c₁ hm

end Continues

end Parser

end Frontend

namespace Frontend.Grammar

open Frontend.Parser

section Continues

variable {prec : Precedence} {s : Scope} {g g' : Phrase} {ts ts₁ ts₂ ts' : List Token} {t : Token}
  {x : Node} {name fn : Text} {op pos pos' least : Int} {done : List Node} {left right : Node}

/-- A callee is found in every run with a budget that is linear in the tokens ahead. -/
def Found (prec : Precedence) (s : Scope) (g : Phrase) (ts : List Token) (g' : Phrase)
    (ts' : List Token) : Prop :=
  ∀ n c, c.rest = ts → 6 * ts.length + g.slack ≤ n → ∃ n' c', c'.rest = ts' ∧
    6 * ts'.length + g'.slack ≤ n' ∧ Continues (g.run prec s n) c (g'.run prec s n') c'

lemma found_operand : Found prec s .expr ts .unary ts := by
  intro n c hc hn
  simp only [Phrase.slack] at hn
  obtain ⟨n, rfl⟩ : ∃ m, n = m + 1 := ⟨n - 1, by omega⟩
  refine ⟨n, c, hc, by simp only [Phrase.slack]; omega, ?_⟩
  exact (Continues.refl _ c).bind fun x =>
    late_skipWhitespace.bind fun _ => late_run prec s n (.binary 0 x)

lemma found_operators (h : Reads prec s .unary ts x ts₁) :
    Found prec s .expr ts (.binary 0 x) (skip ts₁) := by
  intro n c hc hn
  have hlen := h.length_lt trivial
  have hs := length_skip_le ts₁
  simp only [Phrase.slack] at hn
  obtain ⟨n, rfl⟩ : ∃ m, n = m + 1 := ⟨n - 1, by omega⟩
  obtain ⟨c₁, hx, rfl⟩ := exists_run_of_reads h n c hc (by simp only [Phrase.slack]; omega)
  refine ⟨n, c₁.skipWhitespace, c₁.rest_skipWhitespace, by simp only [Phrase.slack]; omega, ?_⟩
  exact .of_eq ((bind_of_ok hx).trans (bind_of_ok rfl))

lemma found_behindOperator (hne : ts ≠ []) :
    Found prec s .unary (⟨.operator op, pos⟩ :: ts) .unary ts := by
  intro n c hc hn
  have hr := Cursor.rest_next hc
  simp only [Phrase.slack, List.length_cons] at hn
  obtain ⟨n, rfl⟩ : ∃ m, n = m + 1 := ⟨n - 1, by omega⟩
  refine ⟨n, c.next, hr, by simp only [Phrase.slack]; omega, ?_⟩
  refine .after (current_eq_ok.2 ⟨⟨ts, hc⟩, rfl⟩) ?_
  refine .step (advance_eq_ok.2 ⟨by rwa [hr], rfl⟩) ?_
  exact (Continues.refl _ _).bind fun _ => late_pure _

lemma found_primary (ht : t.kind.operator? = none) :
    Found prec s .unary (t :: ts) .primary (t :: ts) := by
  intro n c hc hn
  simp only [Phrase.slack] at hn
  obtain ⟨n, rfl⟩ : ∃ m, n = m + 1 := ⟨n - 1, by omega⟩
  refine ⟨n, c, hc, by simp only [Phrase.slack]; omega, ?_⟩
  refine .after (current_eq_ok.2 ⟨⟨ts, hc⟩, rfl⟩) ?_
  generalize t.kind = kind at ht
  cases kind with
  | operator op => cases ht
  | _ => exact .refl _ _

/-- An operand goes on with the messages behind it. -/
lemma continues_primary {n : Nat} {c c' : Cursor} {q : Parser Node}
    (h : Continues (atom prec n s) c q c') : Continues (Parser.primary prec (n + 1) s) c q c' := by
  rw [primary_succ]
  exact h.bind fun x => late_skipWhitespace.bind fun _ => late_run prec s n (.sends x)

lemma found_named :
    Found prec s .primary (⟨.identifier name, pos⟩ :: ts) .named
      (⟨.identifier name, pos⟩ :: ts) := by
  intro n c hc hn
  simp only [Phrase.slack] at hn
  obtain ⟨n, rfl⟩ : ∃ m, n = m + 2 := ⟨n - 2, by omega⟩
  refine ⟨n, c, hc, by simp only [Phrase.slack]; omega, continues_primary ?_⟩
  exact .after (token_eq_ok.2 ⟨Cursor.token_of_rest hc, rfl⟩) (.refl _ _)

lemma found_inParens (hne : ts ≠ []) :
    Found prec s .primary (⟨.leftParen, pos⟩ :: ts) .expr ts := by
  intro n c hc hn
  have hr := Cursor.rest_next hc
  simp only [Phrase.slack, List.length_cons] at hn
  obtain ⟨n, rfl⟩ : ∃ m, n = m + 3 := ⟨n - 3, by omega⟩
  refine ⟨n, c.next, hr, by simp only [Phrase.slack]; omega, continues_primary ?_⟩
  have hparen : Continues (paren prec (n + 1) s) c (Parser.expr prec n s) c.next := by
    refine .after (current_eq_ok.2 ⟨⟨ts, hc⟩, rfl⟩) ?_
    refine .step (advance_eq_ok.2 ⟨by rwa [hr], rfl⟩) ?_
    refine (Continues.refl _ _).bind fun x => late_skipWhitespace.bind fun _ =>
      late_current.bind fun u => ?_
    split
    · exact late_advance.bind fun _ => late_pure x
    · exact late_fail (by decide)
  exact .after (token_eq_ok.2 ⟨Cursor.token_of_rest hc, rfl⟩) hparen

/-- The messages behind an atom that has been read. -/
lemma continues_sends {n : Nat} {c c₁ : Cursor} (h : atom prec n s c = .ok x c₁) :
    Continues (Parser.primary prec (n + 1) s) c (Parser.sends prec n s x) c₁.skipWhitespace := by
  rw [primary_succ]
  exact .of_eq ((bind_of_ok h).trans (bind_of_ok rfl))

lemma found_sendsToNamed (h : Reads prec s .named ts x ts₁) :
    Found prec s .primary ts (.sends x) (skip ts₁) := by
  intro n c hc hn
  have hlen := h.length_lt trivial
  have hs := length_skip_le ts₁
  simp only [Phrase.slack] at hn
  obtain ⟨n, rfl⟩ : ∃ m, n = m + 2 := ⟨n - 2, by omega⟩
  obtain ⟨c₁, hx, rfl⟩ := exists_run_of_reads h n c hc (by simp only [Phrase.slack]; omega)
  obtain ⟨name, pos, ts', rfl⟩ := h.front_named
  exact ⟨n + 1, c₁.skipWhitespace, c₁.rest_skipWhitespace, by simp only [Phrase.slack]; omega,
    continues_sends (atom_named hc hx)⟩

lemma found_sendsToLiteral (hx : literal? t.pos t.kind = some x) :
    Found prec s .primary (t :: ts) (.sends x) (skip ts) := by
  intro n c hc hn
  have hs := length_skip_le ts
  simp only [Phrase.slack, List.length_cons] at hn
  obtain ⟨n, rfl⟩ : ∃ m, n = m + 2 := ⟨n - 2, by omega⟩
  refine ⟨n + 1, c.next.skipWhitespace, ?_, by simp only [Phrase.slack]; omega,
    continues_sends (atom_literal hc hx)⟩
  rw [Cursor.rest_skipWhitespace, Cursor.rest_next hc]

lemma found_sendsToParens (h : Reads prec s .expr ts x ts₁)
    (hr : skip ts₁ = ⟨.rightParen, pos'⟩ :: ts₂) (hne : ts₂ ≠ []) :
    Found prec s .primary (⟨.leftParen, pos⟩ :: ts) (.sends x) (skip ts₂) := by
  intro n c hc hn
  have hlen := h.length_lt trivial
  have hlen₂ := length_of_skip hr
  have hs := length_skip_le ts₂
  simp only [Phrase.slack, List.length_cons] at hn
  obtain ⟨n, rfl⟩ : ∃ m, n = m + 3 := ⟨n - 3, by omega⟩
  obtain ⟨c₁, hx, rfl⟩ := exists_run_of_reads h n c.next (Cursor.rest_next hc)
    (by simp only [Phrase.slack]; omega)
  have hatom := atom_paren hc (List.ne_nil_of_length_pos (by omega)) hx hr hne
  refine ⟨n + 2, c₁.skipWhitespace.next.skipWhitespace, ?_, by simp only [Phrase.slack]; omega,
    continues_sends hatom⟩
  rw [Cursor.rest_skipWhitespace, Cursor.rest_next (c₁.rest_skipWhitespace.trans hr)]

/-- The message behind a dot. -/
lemma sends_dot {n : Nat} {c : Cursor} {recv : Node}
    (hc : c.rest = ⟨.dot, pos⟩ :: ⟨.identifier name, pos'⟩ :: ts) :
    Parser.sends prec (n + 1) s recv c = (do
      let msg ← Parser.named prec n s
      Parser.skipWhitespace
      Parser.sends prec n s (.send ⟨recv.start, msg.stop⟩ recv msg) : Parser Node) c.next := by
  have hr := Cursor.rest_next hc
  rw [Parser.sends, bind_of_ok (token_eq_ok.2 ⟨Cursor.token_of_rest hc, rfl⟩)]
  refine (bind_of_ok (rfl : next c = .ok () c.next)).trans ?_
  exact bind_of_ok (token_eq_ok.2 ⟨Cursor.token_of_rest hr, rfl⟩)

lemma found_message {recv : Node} :
    Found prec s (.sends recv) (⟨.dot, pos⟩ :: ⟨.identifier name, pos'⟩ :: ts) .named
      (⟨.identifier name, pos'⟩ :: ts) := by
  intro n c hc hn
  simp only [Phrase.slack, List.length_cons] at hn
  obtain ⟨n, rfl⟩ : ∃ m, n = m + 1 := ⟨n - 1, by omega⟩
  refine ⟨n, c.next, Cursor.rest_next hc, by simp only [Phrase.slack, List.length_cons]; omega, ?_⟩
  refine (Continues.of_eq (sends_dot hc)).trans ?_
  exact (Continues.refl _ _).bind fun msg => late_skipWhitespace.bind fun _ =>
    late_run prec s n (.sends (.send ⟨recv.start, msg.stop⟩ recv msg))

lemma found_moreSends {recv : Node} (h : Reads prec s .named ts x ts₁) :
    Found prec s (.sends recv) (⟨.dot, pos⟩ :: ts) (.sends (.send ⟨recv.start, x.stop⟩ recv x))
      (skip ts₁) := by
  intro n c hc hn
  have hlen := h.length_lt trivial
  have hs := length_skip_le ts₁
  simp only [Phrase.slack, List.length_cons] at hn
  obtain ⟨n, rfl⟩ : ∃ m, n = m + 1 := ⟨n - 1, by omega⟩
  obtain ⟨c₁, hx, rfl⟩ := exists_run_of_reads h n c.next (Cursor.rest_next hc)
    (by simp only [Phrase.slack]; omega)
  refine ⟨n, c₁.skipWhitespace, c₁.rest_skipWhitespace, by simp only [Phrase.slack]; omega, ?_⟩
  obtain ⟨name, pos', ts', rfl⟩ := h.front_named
  exact .of_eq ((sends_dot hc).trans ((bind_of_ok hx).trans (bind_of_ok rfl)))

/-- A name with an opening parenthesis behind it. -/
lemma named_paren {n : Nat} {c : Cursor} (hc : c.rest = ⟨.identifier fn, pos⟩ :: ts)
    (hl : skip ts = ⟨.leftParen, pos'⟩ :: ts₁) (hne : ts₁ ≠ []) :
    Parser.named prec (n + 1) s c = (do
      let (args, stop) ← Parser.argList prec n s
      return .call ⟨pos, stop⟩ fn args : Parser Node) c.next.skipWhitespace.next := by
  have hl' : c.next.skipWhitespace.rest = ⟨.leftParen, pos'⟩ :: ts₁ := by
    rw [Cursor.rest_skipWhitespace, Cursor.rest_next hc, hl]
  rw [Parser.named, routine_eq, bind_of_ok (token_eq_ok.2 ⟨Cursor.token_of_rest hc, rfl⟩)]
  refine (bind_of_ok (rfl : next c = .ok () c.next)).trans ?_
  refine (bind_of_ok (rfl : skipWhitespace _ = .ok () c.next.skipWhitespace)).trans ?_
  refine (bind_of_ok (token_eq_ok.2 ⟨Cursor.token_of_rest hl', rfl⟩)).trans ?_
  exact bind_of_ok (advance_eq_ok (u := ()).2 ⟨by rwa [Cursor.rest_next hl'], rfl⟩)

/-- A name with an equals sign behind it. -/
lemma named_assign {n : Nat} {c : Cursor} (hc : c.rest = ⟨.identifier name, pos⟩ :: ts)
    (ha : skip ts = ⟨.assign, pos'⟩ :: ts₁) (hne : ts₁ ≠ []) :
    Parser.named prec (n + 1) s c = (do
      let value ← Parser.expr prec n s
      return .assign ⟨pos, value.stop⟩ name value : Parser Node)
        c.next.skipWhitespace.next.skipWhitespace := by
  have ha' : c.next.skipWhitespace.rest = ⟨.assign, pos'⟩ :: ts₁ := by
    rw [Cursor.rest_skipWhitespace, Cursor.rest_next hc, ha]
  rw [Parser.named, routine_eq, bind_of_ok (token_eq_ok.2 ⟨Cursor.token_of_rest hc, rfl⟩)]
  refine (bind_of_ok (rfl : next c = .ok () c.next)).trans ?_
  refine (bind_of_ok (rfl : skipWhitespace _ = .ok () c.next.skipWhitespace)).trans ?_
  refine (bind_of_ok (token_eq_ok.2 ⟨Cursor.token_of_rest ha', rfl⟩)).trans ?_
  refine (bind_of_ok (advance_eq_ok (u := ()).2 ⟨by rwa [Cursor.rest_next ha'], rfl⟩)).trans ?_
  exact bind_of_ok (rfl : skipWhitespace _ = .ok () _)

lemma found_args (hl : skip ts = ⟨.leftParen, pos'⟩ :: ts₁) (hne : ts₁ ≠ [])
    (hr : front (skip ts₁) ≠ .rightParen) :
    Found prec s .named (⟨.identifier fn, pos⟩ :: ts) (.args pos fn []) (skip ts₁) := by
  intro n c hc hn
  have hlen := length_of_skip hl
  have hs := length_skip_le ts₁
  simp only [Phrase.slack, List.length_cons] at hn
  obtain ⟨n, rfl⟩ : ∃ m, n = m + 2 := ⟨n - 2, by omega⟩
  have hrest : c.next.skipWhitespace.next.skipWhitespace.rest = skip ts₁ := by
    have hl' := (c.next.rest_skipWhitespace.trans (by rw [Cursor.rest_next hc])).trans hl
    rw [Cursor.rest_skipWhitespace, Cursor.rest_next hl']
  refine ⟨n, _, hrest, by simp only [Phrase.slack]; omega,
    .of_eq ((named_paren hc hl hne).trans ?_)⟩
  refine bind_congr_at ((bind_of_ok rfl).trans ((bind_of_ok rfl).trans ?_)) _
  rw [← hrest, ← Cursor.kind_token] at hr
  generalize Cursor.token _ = t at hr ⊢
  obtain ⟨kind, pos⟩ := t
  cases kind with
  | rightParen => exact absurd rfl hr
  | _ => rfl

lemma found_value (ha : skip ts = ⟨.assign, pos'⟩ :: ts₁) (hne : ts₁ ≠ []) :
    Found prec s .named (⟨.identifier name, pos⟩ :: ts) .expr (skip ts₁) := by
  intro n c hc hn
  have hlen := length_of_skip ha
  have hs := length_skip_le ts₁
  simp only [Phrase.slack, List.length_cons] at hn
  obtain ⟨n, rfl⟩ : ∃ m, n = m + 1 := ⟨n - 1, by omega⟩
  have hrest : c.next.skipWhitespace.next.skipWhitespace.rest = skip ts₁ := by
    have ha' := (c.next.rest_skipWhitespace.trans (by rw [Cursor.rest_next hc])).trans ha
    rw [Cursor.rest_skipWhitespace, Cursor.rest_next ha']
  refine ⟨n, _, hrest, by simp only [Phrase.slack]; omega, ?_⟩
  refine (Continues.of_eq (named_assign hc ha hne)).trans ?_
  exact (Continues.refl _ _).bind fun _ => late_pure _

lemma late_behindArg (n : Nat) (x : Node) : Late (do
    Parser.skipWhitespace
    let t ← Parser.token
    match t.kind with
    | .rightParen => do
      Parser.next
      return ((x :: done).reverse, t.pos)
    | .comma => do
      Parser.next
      Parser.args prec n s (x :: done)
    | _ => Parser.fail .afterArgument : Parser (List Node × Int)) := by
  refine late_skipWhitespace.bind fun _ => late_token.bind fun t => ?_
  split
  · exact late_next.bind fun _ => late_pure _
  · exact late_next.bind fun _ => late_args prec s n (x :: done)
  · exact late_fail (by decide)

lemma found_arg : Found prec s (.args pos fn done) ts .expr (skip ts) := by
  intro n c hc hn
  have hs := length_skip_le ts
  simp only [Phrase.slack] at hn
  obtain ⟨n, rfl⟩ : ∃ m, n = m + 1 := ⟨n - 1, by omega⟩
  refine ⟨n, c.skipWhitespace, by rw [Cursor.rest_skipWhitespace, hc],
    by simp only [Phrase.slack]; omega, ?_⟩
  refine Continues.bind ?_ fun _ => late_pure _
  exact .step rfl ((Continues.refl _ _).bind fun x => late_behindArg n x)

lemma found_moreArgs (h : Reads prec s .expr (skip ts) x ts₁)
    (hr : skip ts₁ = ⟨.comma, pos'⟩ :: ts₂) :
    Found prec s (.args pos fn done) ts (.args pos fn (x :: done)) ts₂ := by
  intro n c hc hn
  have hs := length_skip_le ts
  have hlen := h.length_lt trivial
  have hlen₁ := length_of_skip hr
  simp only [Phrase.slack] at hn
  obtain ⟨n, rfl⟩ : ∃ m, n = m + 1 := ⟨n - 1, by omega⟩
  obtain ⟨c₁, hx, rfl⟩ := exists_run_of_reads h n c.skipWhitespace
    (by rw [Cursor.rest_skipWhitespace, hc]) (by simp only [Phrase.slack]; omega)
  have hr' := c₁.rest_skipWhitespace.trans hr
  refine ⟨n, _, Cursor.rest_next hr', by simp only [Phrase.slack]; omega, .of_eq ?_⟩
  refine bind_congr_at ((bind_of_ok rfl).trans ((bind_of_ok hx).trans ?_)) _
  refine (bind_of_ok (rfl : skipWhitespace c₁ = .ok () _)).trans ?_
  refine (bind_of_ok (token_eq_ok.2 ⟨Cursor.token_of_rest hr', rfl⟩)).trans ?_
  exact bind_of_ok (rfl : next _ = .ok () _)

/-- An operator that may be taken, and what is done behind it. -/
lemma binary_operator {n : Nat} {c : Cursor} (hc : c.rest = ⟨.operator op, pos⟩ :: ts)
    (hl : least ≤ prec.of op) (hne : ts ≠ []) :
    Parser.binary prec (n + 1) s least left c = (do
      let x ← Parser.unary prec n s
      let ahead ← Parser.level prec
      Parser.skipWhitespace
      let right ← Parser.tighter prec n s (prec.of op) ahead x
      Parser.binary prec n s least (.binary ⟨left.start, right.stop⟩ op left right) : Parser Node)
        c.next.skipWhitespace := by
  have hlevel : levelOf prec c.rest = prec.of op := by rw [hc]; rfl
  rw [Parser.binary, bind_of_ok (token_eq_ok.2 ⟨Cursor.token_of_rest hc, rfl⟩), if_neg (by simp),
    bind_of_ok (level_eq_ok.2 ⟨hlevel, rfl⟩)]
  refine (bind_of_ok (atEnd_eq_ok.2 ⟨Cursor.atEnd_of_rest hc, rfl⟩)).trans ?_
  rw [if_neg (by simp [hl])]
  refine (bind_of_ok (token_eq_ok.2 ⟨Cursor.token_of_rest hc, rfl⟩)).trans ?_
  refine (bind_of_ok (advance_eq_ok (u := ()).2 ⟨by rwa [Cursor.rest_next hc], rfl⟩)).trans ?_
  exact bind_of_ok (rfl : skipWhitespace _ = .ok () _)

lemma found_rightOperand (hl : least ≤ prec.of op) (hne : ts ≠ []) :
    Found prec s (.binary least left) (⟨.operator op, pos⟩ :: ts) .unary (skip ts) := by
  intro n c hc hn
  have hs := length_skip_le ts
  simp only [Phrase.slack, List.length_cons] at hn
  obtain ⟨n, rfl⟩ : ∃ m, n = m + 1 := ⟨n - 1, by omega⟩
  refine ⟨n, c.next.skipWhitespace, by rw [Cursor.rest_skipWhitespace, Cursor.rest_next hc],
    by simp only [Phrase.slack]; omega, ?_⟩
  refine (Continues.of_eq (binary_operator hc hl hne)).trans ?_
  exact (Continues.refl _ _).bind fun x => (late_level prec).bind fun ahead =>
    late_skipWhitespace.bind fun _ => (late_tighter prec s n _ ahead x).bind fun right =>
      late_run prec s n (.binary least _)

/-- The right operand of an operator has been read, and the next operator is looked at. -/
lemma binary_of_unary (left : Node) {n : Nat} {c : Cursor} (hc : c.rest = ⟨.operator op, pos⟩ :: ts)
    (hl : least ≤ prec.of op) (h : Reads prec s .unary (skip ts) x ts₁)
    (hn : 6 * ts.length + 4 ≤ n) : ∃ c₁ : Cursor, c₁.rest = ts₁ ∧
      Parser.binary prec (n + 1) s least left c = (do
        let right ← Parser.tighter prec n s (prec.of op) (levelOf prec ts₁) x
        Parser.binary prec n s least (.binary ⟨left.start, right.stop⟩ op left right) : Parser Node)
          c₁.skipWhitespace := by
  have hs := length_skip_le ts
  have hlen := h.length_lt trivial
  obtain ⟨c₁, hx, rfl⟩ := exists_run_of_reads h n c.next.skipWhitespace
    (by rw [Cursor.rest_skipWhitespace, Cursor.rest_next hc]) (by simp only [Phrase.slack]; omega)
  refine ⟨c₁, rfl, ?_⟩
  refine (binary_operator hc hl (List.ne_nil_of_length_pos (by omega))).trans ?_
  refine (bind_of_ok hx).trans ((bind_of_ok (level_eq_ok.2 ⟨rfl, rfl⟩)).trans ?_)
  exact bind_of_ok (rfl : skipWhitespace _ = .ok () _)

lemma found_tighter (hl : least ≤ prec.of op) (h : Reads prec s .unary (skip ts) x ts₁)
    (ht : prec.of op < levelOf prec ts₁) :
    Found prec s (.binary least left) (⟨.operator op, pos⟩ :: ts)
      (.binary (prec.of op + 1) x) (skip ts₁) := by
  intro n c hc hn
  have hlen := h.length_le
  have hs := length_skip_le ts
  have hs₁ := length_skip_le ts₁
  simp only [Phrase.slack, List.length_cons] at hn
  obtain ⟨n, rfl⟩ : ∃ m, n = m + 2 := ⟨n - 2, by omega⟩
  obtain ⟨c₁, rfl, hrun⟩ := binary_of_unary left hc hl h (n := n + 1) (by omega)
  refine ⟨n, c₁.skipWhitespace, c₁.rest_skipWhitespace, by simp only [Phrase.slack]; omega, ?_⟩
  refine (Continues.of_eq hrun).trans (Continues.bind ?_ fun right =>
    late_run prec s (n + 1) (.binary least _))
  rw [Parser.tighter, if_pos ht]
  exact .refl _ _

lemma found_behindLooser (hl : least ≤ prec.of op) (h : Reads prec s .unary (skip ts) x ts₁)
    (ht : levelOf prec ts₁ ≤ prec.of op) :
    Found prec s (.binary least left) (⟨.operator op, pos⟩ :: ts)
      (.binary least (.binary ⟨left.start, x.stop⟩ op left x)) (skip ts₁) := by
  intro n c hc hn
  have hlen := h.length_le
  have hs := length_skip_le ts
  have hs₁ := length_skip_le ts₁
  simp only [Phrase.slack, List.length_cons] at hn
  obtain ⟨n, rfl⟩ : ∃ m, n = m + 2 := ⟨n - 2, by omega⟩
  obtain ⟨c₁, rfl, hrun⟩ := binary_of_unary left hc hl h (n := n + 1) (by omega)
  refine ⟨n + 1, c₁.skipWhitespace, c₁.rest_skipWhitespace, by simp only [Phrase.slack]; omega,
    .of_eq (hrun.trans ?_)⟩
  rw [Parser.tighter, if_neg (by omega)]
  exact bind_of_ok rfl

lemma found_behindTighter (hl : least ≤ prec.of op) (h : Reads prec s .unary (skip ts) x ts₁)
    (ht : prec.of op < levelOf prec ts₁)
    (hr : Reads prec s (.binary (prec.of op + 1) x) (skip ts₁) right ts₂) :
    Found prec s (.binary least left) (⟨.operator op, pos⟩ :: ts)
      (.binary least (.binary ⟨left.start, right.stop⟩ op left right)) ts₂ := by
  intro n c hc hn
  have hlen := h.length_le
  have hlen₁ := hr.length_le
  have hs := length_skip_le ts
  have hs₁ := length_skip_le ts₁
  simp only [Phrase.slack, List.length_cons] at hn
  obtain ⟨n, rfl⟩ : ∃ m, n = m + 2 := ⟨n - 2, by omega⟩
  obtain ⟨c₁, rfl, hrun⟩ := binary_of_unary left hc hl h (n := n + 1) (by omega)
  obtain ⟨c₂, hright, rfl⟩ := exists_run_of_reads hr n c₁.skipWhitespace c₁.rest_skipWhitespace
    (by simp only [Phrase.slack]; omega)
  refine ⟨n + 1, c₂, rfl, by simp only [Phrase.slack]; omega, .of_eq (hrun.trans ?_)⟩
  rw [Parser.tighter, if_pos ht]
  exact bind_of_ok hright

/-- A callee is a part of the run of its caller. -/
theorem Calls.found (h : Calls prec s g ts g' ts') : Found prec s g ts g' ts' := by
  cases h with
  | operand => exact found_operand
  | operators hx => exact found_operators hx
  | behindOperator hne => exact found_behindOperator hne
  | primary ht => exact found_primary ht
  | named => exact found_named
  | sendsToNamed hx => exact found_sendsToNamed hx
  | sendsToLiteral hx => exact found_sendsToLiteral hx
  | inParens hne => exact found_inParens hne
  | sendsToParens hx hr hne => exact found_sendsToParens hx hr hne
  | message => exact found_message
  | moreSends hm => exact found_moreSends hm
  | args hl hne hr => exact found_args hl hne hr
  | value ha hne => exact found_value ha hne
  | arg => exact found_arg
  | moreArgs hx hr => exact found_moreArgs hx hr
  | rightOperand hl hne => exact found_rightOperand hl hne
  | tighter hl hx ht => exact found_tighter hl hx ht
  | behindLooser hl hx ht => exact found_behindLooser hl hx ht
  | behindTighter hl hx ht hr => exact found_behindTighter hl hx ht hr

/-- What the parser comes to is a part of its run. -/
theorem Visits.found (h : Visits prec s g' ts' g ts) : Found prec s g ts g' ts' := by
  induction h with
  | here => exact fun n c hc hn => ⟨n, c, hc, hn, .refl _ _⟩
  | call hcall _ ih =>
    intro n c hc hn
    obtain ⟨n₁, c₁, hc₁, hn₁, h₁⟩ := hcall.found n c hc hn
    obtain ⟨n₂, c₂, hc₂, hn₂, h₂⟩ := ih n₁ c₁ hc₁ hn₁
    exact ⟨n₂, c₂, hc₂, hn₂, h₁.trans h₂⟩

end Continues

end Frontend.Grammar
