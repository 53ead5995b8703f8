import Frontend.Proofs.Parser.Framing
import Frontend.Proofs.Parser.Logged
import Frontend.Proofs.Parser.Objections

/-!
# Progress of the parser

What can happen while the parser runs is said once, for all of its functions. With a log it does
what it does without one. The cursor moves over the tokens of its stream from the start to the end
and never back. A function that is called for something steps over a token before it succeeds. The
precedences that are asked for are words that are not negative, and one can always be added to the
precedence of an operator where it is. An error is right about the tokens at the cursor, and the
budget is never used up: every call that does not step over a token leads to one that does within a
fixed number of steps, and the budget has six steps for each token ahead.

`Follows` says this of a function from a cursor on. It is closed under sequencing, so that each
function of the parser needs only its own shape.
-/

namespace Frontend

/-- The function steps over a token whenever it succeeds. -/
def Routine.Moves : Routine → Prop
  | .binary _ => False
  | _         => True

namespace Logged

open Grammar (front levelOf)

/-! ### Words -/

/-- A number that a word of 64 bits can hold. -/
def IsWord (n : Int) : Prop := ∃ w : Int64, w.toInt = n

/-- There is room for one more below a word. -/
lemma exists_succ {n m : Int} (hn : IsWord n) (hm : IsWord m) (h : n < m) :
    ∃ w : Int64, w.toInt = n ∧ (w + 1).toInt = n + 1 := by
  obtain ⟨w, rfl⟩ := hn
  obtain ⟨v, rfl⟩ := hm
  refine ⟨w, rfl, ?_⟩
  have hlow := w.le_toInt
  have hhigh := v.toInt_lt
  rw [Int64.toInt_add, Int64.toInt_one]
  exact Int.bmod_eq_of_le (by omega) (by omega)

lemma isWord_levelOf (prec : Precedence) (ts : List Token) : IsWord (levelOf prec ts) := by
  unfold levelOf
  split
  · unfold Precedence.of
    split
    · exact ⟨_, rfl⟩
    · exact ⟨100, rfl⟩
  · exact ⟨-1, rfl⟩

/-! ### Logs that are right -/

/-- What is logged is as it should be. -/
def Record.Right : Record → Prop
  | ⟨.called (.binary least), _⟩ => 0 ≤ least ∧ IsWord least
  | ⟨.returned r start, c⟩       => r.Moves → start.index < c.index
  | ⟨.raised level, _⟩           => ∃ w : Int64, w.toInt = level ∧ (w + 1).toInt = level + 1
  | _                            => True

/-- The cursor has only gone forward from a start, and what is logged is right. -/
structure Trace.Good (start : Cursor) (t : Trace) : Prop where
  onward : (t.cursor :: (t.log.map Record.cursor ++ [start])).Pairwise
    fun later earlier => earlier.Reaches later
  right : ∀ r ∈ t.log, r.Right

section Traces

variable {start c c' : Cursor} {log : List Record}

lemma Trace.good_nil (c : Cursor) : Trace.Good c ⟨c, []⟩ :=
  ⟨List.pairwise_pair.2 (.refl c), List.forall_mem_nil _⟩

lemma Trace.Good.put {t : Trace} {e : Event} (h : t.Good start)
    (he : Record.Right ⟨e, t.cursor⟩) : (t.put e).Good start := by
  refine ⟨List.pairwise_cons.2 ⟨?_, h.onward⟩, List.forall_mem_cons.2 ⟨he, h.right⟩⟩
  exact List.forall_mem_cons.2 ⟨.refl _, (List.pairwise_cons.1 h.onward).1⟩

lemma Trace.Good.move (h : Trace.Good start ⟨c, log⟩) (hc : c.Reaches c') :
    Trace.Good start ⟨c', log⟩ := by
  obtain ⟨hall, hlog⟩ := List.pairwise_cons.1 h.onward
  exact ⟨List.pairwise_cons.2 ⟨fun d hd => (hall d hd).trans hc, hlog⟩, h.right⟩

/-- Every cursor in the log has been reached from the start. -/
lemma Trace.Good.reaches {t : Trace} (h : t.Good start) {r : Record} (hr : r ∈ t.log) :
    start.Reaches r.cursor := by
  obtain ⟨-, -, hstart⟩ := List.pairwise_append.1 (List.pairwise_cons.1 h.onward).2
  exact hstart _ (List.mem_map_of_mem hr) _ (List.mem_singleton_self _)

end Traces

/-! ### Following the parser -/

variable {α β : Type} {c : Cursor}

/-- The result of a run with a log, from a trace on, fits that of a run without one: they are the
same but for the log. The run has gone forward, nothing that was in the log is lost, the log is
still right, and so is an error. -/
structure Tallies (start : Cursor) (t : Trace) (r : EStateM.Result SyntaxError Trace α)
    (q : EStateM.Result SyntaxError Cursor α) : Prop where
  forget_eq : forget r = q
  reaches : t.cursor.Reaches (traceOf r).cursor
  suffix : t.log <:+ (traceOf r).log
  good : (traceOf r).Good start
  objects {e : SyntaxError} {c' : Cursor} : q = .error e c' → e.cause.Objects c'.rest

/-- From a cursor on, a parser with a log does what the one without does. -/
def Follows (l : Logged α) (p : Parser α) (c : Cursor) : Prop :=
  ∀ start log, Trace.Good start ⟨c, log⟩ → Tallies start ⟨c, log⟩ (l ⟨c, log⟩) (p c)

lemma Follows.bind {l : Logged α} {p : Parser α} {f : α → Logged β} {g : α → Parser β}
    (h : Follows l p c)
    (hf : ∀ x c₁, p c = .ok x c₁ → c.Reaches c₁ → Follows (f x) (g x) c₁) :
    Follows (l >>= f) (p >>= g) c := by
  intro start log hg
  have h₁ := h start log hg
  simp only [Bind.bind, EStateM.bind]
  cases hl : l ⟨c, log⟩ with
  | error e t =>
    rw [hl] at h₁
    have hp : p c = .error e t.cursor := h₁.forget_eq.symm
    rw [hp]
    refine ⟨rfl, h₁.reaches, h₁.suffix, h₁.good, ?_⟩
    rintro _ _ ⟨⟩
    exact h₁.objects hp
  | ok x t =>
    rw [hl] at h₁
    have hp : p c = .ok x t.cursor := h₁.forget_eq.symm
    have h₂ := hf x t.cursor hp h₁.reaches start t.log h₁.good
    rw [hp]
    exact ⟨h₂.forget_eq, h₁.reaches.trans h₂.reaches, h₁.suffix.trans h₂.suffix, h₂.good,
      h₂.objects⟩

lemma Follows.reaches {l : Logged α} {p : Parser α} {x : α} {c' : Cursor} (h : Follows l p c)
    (hp : p c = .ok x c') : c.Reaches c' := by
  have h₁ := h c [] (Trace.good_nil c)
  have hl := h₁.forget_eq.trans hp
  have hr := h₁.reaches
  cases ht : l ⟨c, []⟩ with
  | error e t =>
    rw [ht] at hl
    cases hl
  | ok y t =>
    rw [ht] at hl hr
    cases hl
    exact hr

/-- An error of the parser is right about the tokens at the cursor. -/
lemma Follows.objects {l : Logged α} {p : Parser α} {e : SyntaxError} {c' : Cursor}
    (h : Follows l p c) (hp : p c = .error e c') : e.cause.Objects c'.rest :=
  (h c [] (Trace.good_nil c)).objects hp

lemma follows_pure (x : α) : Follows (pure x) (pure x) c :=
  fun _ _ h => ⟨rfl, .refl c, List.suffix_rfl, h, by rintro _ _ ⟨⟩⟩

/-- A step that goes forward and is right about its error. -/
lemma follows_step {p : Parser α} (hok : ∀ x c', p c = .ok x c' → c.Reaches c')
    (herror : ∀ e c', p c = .error e c' → c.Reaches c' ∧ e.cause.Objects c'.rest) :
    Follows (ParserState.step p) p c := by
  intro start log hg
  cases hp : p c with
  | ok x c' =>
    have hr := hok x c' hp
    rw [step_of_ok hp]
    exact ⟨rfl, hr, List.suffix_cons _ _, (hg.move hr).put trivial, by rintro _ _ ⟨⟩⟩
  | error e c' =>
    obtain ⟨hr, ho⟩ := herror e c' hp
    rw [step_of_error hp]
    exact ⟨rfl, hr, List.suffix_cons _ _, (hg.move hr).put trivial, by rintro _ _ ⟨⟩; exact ho⟩

/-- An error that is right where it is found. -/
lemma follows_fail {cause : Cause} (h : cause.Objects c.rest) :
    Follows (Parser.fail cause : Logged α) (Parser.fail cause) c := by
  refine follows_step (p := Parser.fail cause) (fun _ _ h => (Parser.fail_eq_ok.1 h).elim) ?_
  rintro _ _ ⟨⟩
  exact ⟨.refl c, h⟩

lemma follows_failAt {cause : Cause} (h : cause.Objects c.rest) (pos : Int) :
    Follows (Parser.failAt cause pos : Logged α) (Parser.failAt cause pos) c := by
  refine follows_step (p := Parser.failAt cause pos)
    (fun _ _ h => (Parser.failAt_eq_ok.1 h).elim) ?_
  rintro _ _ ⟨⟩
  exact ⟨.refl c, h⟩

/-- A token is refused. -/
lemma follows_refuse {cause : Cause} {t : Token} {ts : List Token} (hr : c.rest = t :: ts)
    (h : cause.refuses t.kind = true) :
    Follows (Parser.fail cause : Logged α) (Parser.fail cause) c :=
  follows_fail (hr ▸ .token h)

/-- The end of the input is refused. -/
lemma follows_refuse_end {cause : Cause} (hr : c.rest = []) (h : cause.isUnchecked = true) :
    Follows (Parser.fail cause : Logged α) (Parser.fail cause) c :=
  follows_fail (hr ▸ .unchecked h)

section Steps

variable {f : Unit → Logged β} {g : Unit → Parser β} {t : Token} {ts : List Token}

lemma follows_next_bind (hr : c.rest = t :: ts) (h : Follows (f ()) (g ()) c.next) :
    Follows (Parser.next >>= f) (Parser.next >>= g) c := by
  refine Follows.bind (follows_step (p := Parser.next) ?_ (by rintro _ _ ⟨⟩)) fun _ c₁ hc _ => ?_
  · exact fun _ _ hc => Parser.next_eq_ok.1 hc ▸ Cursor.reaches_next hr
  · exact Parser.next_eq_ok.1 hc ▸ h

lemma follows_advance_bind (hr : c.rest = t :: ts) (h : Follows (f ()) (g ()) c.next) :
    Follows (Parser.advance >>= f) (Parser.advance >>= g) c := by
  refine Follows.bind (follows_step (p := Parser.advance) ?_ ?_) fun _ c₁ hc _ => ?_
  · exact fun _ _ hc => (Parser.advance_eq_ok.1 hc).2 ▸ Cursor.reaches_next hr
  · intro e c' he
    rw [Parser.advance_apply] at he
    split at he
    case h_1 => cases he
    case h_2 hn =>
      cases he
      exact ⟨Cursor.reaches_next hr, hn ▸ .ended (.inr rfl)⟩
  · exact (Parser.advance_eq_ok.1 hc).2 ▸ h

lemma follows_skipWhitespace_bind (h : Follows (f ()) (g ()) c.skipWhitespace) :
    Follows (Parser.skipWhitespace >>= f) (Parser.skipWhitespace >>= g) c := by
  refine Follows.bind (follows_step (p := Parser.skipWhitespace) ?_ (by rintro _ _ ⟨⟩))
    fun _ c₁ hc _ => ?_
  · exact fun _ _ hc => Parser.skipWhitespace_eq_ok.1 hc ▸ c.reaches_skipWhitespace
  · exact Parser.skipWhitespace_eq_ok.1 hc ▸ h

lemma follows_skipSpace_bind (h : Follows (f ()) (g ()) c.skipSpace) :
    Follows (Parser.skipSpace >>= f) (Parser.skipSpace >>= g) c := by
  refine Follows.bind (follows_step (p := Parser.skipSpace) ?_ (by rintro _ _ ⟨⟩))
    fun _ c₁ hc _ => ?_
  · exact fun _ _ hc => Parser.skipSpace_eq_ok.1 hc ▸ c.reaches_skipSpace
  · exact Parser.skipSpace_eq_ok.1 hc ▸ h

end Steps

/-- Looking at something does not move the cursor. -/
lemma follows_look_bind {p : Parser α} {x : α} (hp : p c = .ok x c) {f : α → Logged β}
    {g : α → Parser β} (h : Follows (f x) (g x) c) :
    Follows (ParserState.step p >>= f) (p >>= g) c := by
  refine Follows.bind (follows_step ?_ ?_) fun _ _ hc _ => ?_
  · intro _ _ hc
    cases hp.symm.trans hc
    exact .refl c
  · intro _ _ he
    cases hp.symm.trans he
  · cases hp.symm.trans hc
    exact h

lemma follows_current_bind {f : Token → Logged β} {g : Token → Parser β}
    (h : ∀ kind pos ts, c.rest = ⟨kind, pos⟩ :: ts → Follows (f ⟨kind, pos⟩) (g ⟨kind, pos⟩) c) :
    Follows (Parser.current >>= f) (Parser.current >>= g) c := by
  refine Follows.bind (follows_step (p := Parser.current) ?_ ?_) fun t c₁ hc _ => ?_
  · exact fun _ _ hc => (Parser.current_eq_ok.1 hc).2 ▸ .refl c
  · intro e c' he
    rw [Parser.current_apply] at he
    split at he
    case h_1 => cases he
    case h_2 hr =>
      cases he
      exact ⟨.refl c, hr ▸ .ended (.inl rfl)⟩
  · obtain ⟨⟨ts, hr⟩, rfl⟩ := Parser.current_eq_ok.1 hc
    exact h t.kind t.pos ts hr

/-- At the end of the input, the end-of-input token is looked at. -/
lemma follows_token_bind {f : Token → Logged β} {g : Token → Parser β}
    (he : c.rest = [] → Follows (f .eof) (g .eof) c)
    (h : ∀ kind pos ts, c.rest = ⟨kind, pos⟩ :: ts → Follows (f ⟨kind, pos⟩) (g ⟨kind, pos⟩) c) :
    Follows (Parser.token >>= f) (Parser.token >>= g) c := by
  refine follows_look_bind (x := c.token) (p := Parser.token) rfl ?_
  cases hr : c.rest with
  | nil =>
    rw [Cursor.token, hr]
    exact he hr
  | cons t ts =>
    rw [Cursor.token_of_rest hr]
    exact h t.kind t.pos ts hr

/-- Something is put down. -/
lemma Follows.raising {level : Int} {l : Logged α} {p : Parser α}
    (he : Record.Right ⟨.raised level, c⟩) (h : Follows l p c) :
    Follows (ParserState.raising level l) (ParserState.raising level p) c := by
  intro start log hg
  have h₁ := h start _ (hg.put he)
  exact ⟨h₁.forget_eq, h₁.reaches, (List.suffix_cons _ _).trans h₁.suffix, h₁.good, h₁.objects⟩

lemma follows_withBudget {l : Nat → Logged α} {p : Nat → Parser α}
    (h : Follows (l (6 * c.rest.length + 6)) (p (6 * c.rest.length + 6)) c) :
    Follows (Parser.withBudget l) (Parser.withBudget p) c := h

section Routines

variable {l : Logged α} {p : Parser α} {r : Routine}

/-- A call of a function that steps over a token. -/
lemma Follows.routine (h : Follows l p c) (hcalled : Record.Right ⟨.called r, c⟩)
    (hmoves : ∀ x c', p c = .ok x c' → r.Moves → c'.rest.length < c.rest.length) :
    Follows (ParserState.routine r l) (ParserState.routine r p) c := by
  intro start log hg
  have h₁ : Tallies start ⟨c, ⟨.called r, c⟩ :: log⟩ (l ⟨c, ⟨.called r, c⟩ :: log⟩) (p c) :=
    h start _ (hg.put hcalled)
  have hsuffix := (List.suffix_cons _ _).trans h₁.suffix
  cases hl : l ⟨c, ⟨.called r, c⟩ :: log⟩ with
  | error e t =>
    rw [hl] at h₁ hsuffix
    rw [routine_of_error hl]
    exact ⟨h₁.forget_eq, h₁.reaches, hsuffix, h₁.good, h₁.objects⟩
  | ok x t =>
    rw [hl] at h₁ hsuffix
    have hp : p c = .ok x t.cursor := h₁.forget_eq.symm
    rw [routine_of_ok hl]
    refine ⟨h₁.forget_eq, h₁.reaches, hsuffix.trans (List.suffix_cons _ _), ?_, h₁.objects⟩
    exact h₁.good.put fun hr => h₁.reaches.index_lt (hmoves x _ hp hr)

/-- The log is complete: a call is in it with the cursor where it was made, and if the call
succeeds, its return is in it with the cursor that it left behind. -/
theorem Follows.mem_log {start : Cursor} {log : List Record} (h : Follows l p c)
    (hcalled : Record.Right ⟨.called r, c⟩) (hg : Trace.Good start ⟨c, log⟩) :
    ⟨.called r, c⟩ ∈ (traceOf (ParserState.routine r l ⟨c, log⟩)).log ∧
      ∀ x c', p c = .ok x c' →
        ⟨.returned r c, c'⟩ ∈ (traceOf (ParserState.routine r l ⟨c, log⟩)).log := by
  have h₁ : Tallies start ⟨c, ⟨.called r, c⟩ :: log⟩ (l ⟨c, ⟨.called r, c⟩ :: log⟩) (p c) :=
    h start _ (hg.put hcalled)
  have hmem := h₁.suffix.subset List.mem_cons_self
  cases hl : l ⟨c, ⟨.called r, c⟩ :: log⟩ with
  | error e t =>
    rw [hl] at h₁ hmem
    rw [routine_of_error hl]
    refine ⟨hmem, fun x c' hp => ?_⟩
    cases h₁.forget_eq.trans hp
  | ok x t =>
    rw [hl] at h₁ hmem
    rw [routine_of_ok hl]
    refine ⟨List.mem_cons_of_mem _ hmem, fun y c' hp => ?_⟩
    cases h₁.forget_eq.trans hp
    exact List.mem_cons_self

end Routines

/-! ### Tokens ahead -/

lemma length_next {t : Token} {ts : List Token} (h : c.rest = t :: ts) :
    c.next.rest.length + 1 = c.rest.length := by
  rw [Cursor.rest_next h, h, List.length_cons]

lemma length_skipWhitespace (c : Cursor) : c.skipWhitespace.rest.length ≤ c.rest.length := by
  rw [Cursor.rest_skipWhitespace]
  exact Grammar.length_skip_le c.rest

/-! ### Expressions -/

section Expressions

open Frontend.Parser
open Grammar (Reads reads_of_run sound_paren)

variable {prec : Precedence} {n : Nat} {s : Scope} {x : Node} {c' : Cursor}

lemma length_run (prec : Precedence) (s : Scope) (n : Nat) (g : Grammar.Phrase) (hg : g.Consumes)
    (h : g.run prec s n c = .ok x c') : c'.rest.length < c.rest.length :=
  (reads_of_run h).1.length_lt hg

/-- Messages that begin with a dot. -/
lemma length_sends {recv : Node} {pos : Int} {ts : List Token} (hr : c.rest = ⟨.dot, pos⟩ :: ts)
    (h : sends prec n s recv c = .ok x c') : c'.rest.length < c.rest.length := by
  obtain ⟨hx, -⟩ := reads_of_run (g := .sends recv) h
  rw [hr] at hx ⊢
  generalize c'.rest = rest at hx
  cases hx with
  | sent hd => exact absurd rfl hd
  | @send _ ts₁ _ _ _ _ _ hm hy =>
    have h₁ := hm.length_le
    have h₂ := hy.length_le
    have h₃ := Grammar.length_skip_le ts₁
    simp only [List.length_cons]
    omega

lemma length_paren (h : paren prec (n + 1) s c = .ok x c') : c'.rest.length < c.rest.length := by
  have ih : ∀ m ≤ n, Grammar.Sound prec s m := fun m _ g c x c' h => reads_of_run h
  obtain ⟨ts, ts₁, pos, pos', hr, hx, hskip, -⟩ := sound_paren ih h
  have h₁ := hx.length_le
  have h₂ := Grammar.length_of_skip hskip
  rw [hr, List.length_cons]
  omega

/-- The functions of expressions can be followed where they are called. There is a token for an
operand, names and parentheses have been seen, precedences are words, and none that is asked for is
negative. Beyond six steps for each token ahead, every function needs the calls that it makes before
the first token is stepped over. -/
structure FollowsAll (prec : Precedence) (n : Nat) : Prop where
  expr (s : Scope) (c : Cursor) : 6 * c.rest.length + 5 ≤ n →
    Follows (expr prec n s) (expr prec n s) c
  unary (s : Scope) (c : Cursor) : 6 * c.rest.length + 4 ≤ n →
    Follows (unary prec n s) (unary prec n s) c
  primary (s : Scope) (c : Cursor) : c.rest ≠ [] → 6 * c.rest.length + 3 ≤ n →
    Follows (primary prec n s) (primary prec n s) c
  atom (s : Scope) (c : Cursor) : c.rest ≠ [] → 6 * c.rest.length + 2 ≤ n →
    Follows (atom prec n s) (atom prec n s) c
  sends (s : Scope) (x : Node) (c : Cursor) : 6 * c.rest.length + 1 ≤ n →
    Follows (sends prec n s x) (sends prec n s x) c
  named (s : Scope) {name : Text} {pos : Int} {ts : List Token} (c : Cursor) :
    c.rest = ⟨.identifier name, pos⟩ :: ts → 6 * c.rest.length + 1 ≤ n →
    Follows (named prec n s) (named prec n s) c
  argList (s : Scope) (c : Cursor) : 6 * c.rest.length + 7 ≤ n →
    Follows (argList prec n s) (argList prec n s) c
  args (s : Scope) (done : List Node) (c : Cursor) : 6 * c.rest.length + 6 ≤ n →
    Follows (args prec n s done) (args prec n s done) c
  paren (s : Scope) {pos : Int} {ts : List Token} (c : Cursor) :
    c.rest = ⟨.leftParen, pos⟩ :: ts → 6 * c.rest.length + 1 ≤ n →
    Follows (paren prec n s) (paren prec n s) c
  binary (s : Scope) {least : Int} (x : Node) (c : Cursor) :
    0 ≤ least → 6 * c.rest.length + 1 ≤ n →
    Follows (binary prec n s least x) (binary prec n s least x) c
  tighter (s : Scope) {cur ahead : Int} (x : Node) (c : Cursor) : 0 ≤ cur → IsWord cur →
    IsWord ahead → 6 * c.rest.length + 2 ≤ n →
    Follows (tighter prec n s cur ahead x) (tighter prec n s cur ahead x) c

lemma followsAll_zero : FollowsAll prec 0 := by
  constructor
  all_goals
    intros
    omega

lemma FollowsAll.expr_succ (ih : FollowsAll prec n) (s : Scope) (c : Cursor)
    (hn : 6 * c.rest.length + 5 ≤ n + 1) :
    Follows (Parser.expr prec (n + 1) s) (Parser.expr prec (n + 1) s) c := by
  refine Follows.routine ?_ trivial fun _ _ h _ => length_run prec s (n + 1) .expr trivial h
  refine (ih.unary s c (by omega)).bind fun x c₁ _ hr => follows_skipWhitespace_bind ?_
  have h₁ := hr.suffix.length_le
  have h₂ := length_skipWhitespace c₁
  refine Follows.routine (ih.binary s x _ le_rfl (by omega)) ⟨le_rfl, 0, rfl⟩ ?_
  exact fun _ _ _ h => h.elim

lemma FollowsAll.unary_succ (ih : FollowsAll prec n) (s : Scope) (c : Cursor)
    (hn : 6 * c.rest.length + 4 ≤ n + 1) :
    Follows (Parser.unary prec (n + 1) s) (Parser.unary prec (n + 1) s) c := by
  refine Follows.routine ?_ trivial fun _ _ h _ => length_run prec s (n + 1) .unary trivial h
  refine follows_current_bind fun kind pos ts hr => ?_
  cases kind with
  | operator op =>
    have h₁ := length_next hr
    refine follows_advance_bind hr ((ih.unary s _ (by omega)).bind fun _ _ _ _ => ?_)
    exact follows_pure _
  | _ => exact ih.primary s c (by simp [hr]) (by omega)

lemma FollowsAll.primary_succ (ih : FollowsAll prec n) (s : Scope) (c : Cursor) (hc : c.rest ≠ [])
    (hn : 6 * c.rest.length + 3 ≤ n + 1) :
    Follows (Parser.primary prec (n + 1) s) (Parser.primary prec (n + 1) s) c := by
  refine Follows.routine ?_ trivial fun _ _ h _ => length_run prec s (n + 1) .primary trivial h
  refine (ih.atom s c hc (by omega)).bind fun x c₁ _ hr => follows_skipWhitespace_bind ?_
  have h₁ := hr.suffix.length_le
  have h₂ := length_skipWhitespace c₁
  refine follows_token_bind (fun _ => follows_pure x) fun kind pos ts hr => ?_
  cases kind with
  | dot =>
    refine Follows.routine (ih.sends s x _ (by omega)) trivial ?_
    exact fun _ _ h _ => length_sends hr h
  | _ => exact follows_pure x

lemma FollowsAll.atom_succ (ih : FollowsAll prec n) (s : Scope) (c : Cursor) (hc : c.rest ≠ [])
    (hn : 6 * c.rest.length + 2 ≤ n + 1) :
    Follows (Parser.atom prec (n + 1) s) (Parser.atom prec (n + 1) s) c := by
  refine follows_token_bind (fun hr => absurd hr hc) fun kind pos ts hr => ?_
  cases kind with
  | identifier => exact ih.named s c hr (by omega)
  | leftParen => exact ih.paren s c hr (by omega)
  | number | string | selfWord => exact follows_next_bind hr (follows_pure _)
  | _ => exact follows_refuse hr rfl

lemma FollowsAll.sends_succ (ih : FollowsAll prec n) (s : Scope) (x : Node) (c : Cursor)
    (hn : 6 * c.rest.length + 1 ≤ n + 1) :
    Follows (Parser.sends prec (n + 1) s x) (Parser.sends prec (n + 1) s x) c := by
  refine follows_token_bind (fun _ => follows_pure _) fun kind pos ts hr => ?_
  cases kind with
  | dot =>
    have h₁ := length_next hr
    refine follows_next_bind hr (follows_token_bind (follows_refuse_end · rfl) ?_)
    intro kind pos ts hr
    cases kind with
    | identifier =>
      refine (ih.named s _ hr (by omega)).bind fun y c₁ _ hm => follows_skipWhitespace_bind ?_
      have h₂ := hm.suffix.length_le
      have h₃ := length_skipWhitespace c₁
      exact ih.sends s _ _ (by omega)
    | _ => exact follows_refuse hr rfl
  | _ => exact follows_pure _

/-- A local variable without a type is found behind its name. -/
lemma follows_localVar (s : Scope) (name : Text) (pos : Int) :
    Follows
      (match s.classOf name with
        | .ok className =>
          (pure (.localVar ⟨pos, pos⟩ name (some (.undef className))) : Logged Node)
        | .error cause => failAt cause pos)
      (match s.classOf name with
        | .ok className =>
          (pure (.localVar ⟨pos, pos⟩ name (some (.undef className))) : Parser Node)
        | .error cause => failAt cause pos) c := by
  cases hc : s.classOf name with
  | ok className => exact follows_pure _
  | error cause => exact follows_failAt (.untyped (Grammar.kind_of_classOf hc)) _

lemma FollowsAll.named_succ (ih : FollowsAll prec n) (s : Scope) {name : Text} {pos : Int}
    {ts : List Token} (c : Cursor) (hr : c.rest = ⟨.identifier name, pos⟩ :: ts)
    (hn : 6 * c.rest.length + 1 ≤ n + 1) :
    Follows (Parser.named prec (n + 1) s) (Parser.named prec (n + 1) s) c := by
  refine Follows.routine ?_ trivial fun _ _ h _ => length_run prec s (n + 1) .named trivial h
  refine follows_look_bind (p := token) (x := c.token) rfl ?_
  rw [Cursor.token_of_rest hr]
  have h₁ := length_next hr
  have h₂ := length_skipWhitespace c.next
  refine follows_next_bind hr (follows_skipWhitespace_bind ?_)
  refine follows_token_bind (fun _ => follows_localVar s name _) fun kind pos ts hr => ?_
  cases kind with
  | leftParen =>
    have h₃ := length_next hr
    have hargs := ih.argList s c.next.skipWhitespace.next (by omega)
    refine Follows.routine ?_ trivial fun _ c₁ h _ => ?_
    · exact follows_advance_bind hr (hargs.bind fun _ _ _ _ => follows_pure _)
    · -- the parenthesis is stepped over
      obtain ⟨_, c₂, ha, h⟩ := bind_eq_ok.1 h
      obtain ⟨-, rfl⟩ := advance_eq_ok.1 ha
      obtain ⟨_, c₂, ha, h⟩ := bind_eq_ok.1 h
      obtain ⟨-, rfl⟩ := pure_eq_ok.1 h
      have h₄ := (hargs.reaches ha).suffix.length_le
      omega
  | assign =>
    have h₃ := length_next hr
    have h₄ := length_skipWhitespace c.next.skipWhitespace.next
    refine follows_advance_bind hr (follows_skipWhitespace_bind ?_)
    exact (ih.expr s _ (by omega)).bind fun _ _ _ _ => follows_pure _
  | _ => exact follows_localVar s name _

lemma FollowsAll.argList_succ (ih : FollowsAll prec n) (s : Scope) (c : Cursor)
    (hn : 6 * c.rest.length + 7 ≤ n + 1) :
    Follows (Parser.argList prec (n + 1) s) (Parser.argList prec (n + 1) s) c := by
  have h₁ := length_skipWhitespace c
  refine follows_skipWhitespace_bind (follows_token_bind (fun _ => ?_) fun kind pos ts hr => ?_)
  · exact ih.args s [] _ (by omega)
  · cases kind with
    | rightParen => exact follows_next_bind hr (follows_pure _)
    | _ => exact ih.args s [] _ (by omega)

lemma FollowsAll.args_succ (ih : FollowsAll prec n) (s : Scope) (done : List Node) (c : Cursor)
    (hn : 6 * c.rest.length + 6 ≤ n + 1) :
    Follows (Parser.args prec (n + 1) s done) (Parser.args prec (n + 1) s done) c := by
  have h₁ := length_skipWhitespace c
  refine follows_skipWhitespace_bind ((ih.expr s _ (by omega)).bind fun x c₁ _ hx => ?_)
  have h₂ := hx.suffix.length_le
  have h₃ := length_skipWhitespace c₁
  refine follows_skipWhitespace_bind (follows_token_bind (follows_refuse_end · rfl) ?_)
  intro kind pos ts hr
  cases kind with
  | rightParen => exact follows_next_bind hr (follows_pure _)
  | comma =>
    have h₄ := length_next hr
    exact follows_next_bind hr (ih.args s _ _ (by omega))
  | _ => exact follows_refuse hr rfl

lemma FollowsAll.paren_succ (ih : FollowsAll prec n) (s : Scope) {pos : Int} {ts : List Token}
    (c : Cursor) (hr : c.rest = ⟨.leftParen, pos⟩ :: ts) (hn : 6 * c.rest.length + 1 ≤ n + 1) :
    Follows (Parser.paren prec (n + 1) s) (Parser.paren prec (n + 1) s) c := by
  refine Follows.routine ?_ trivial fun x c' h _ => length_paren h
  refine follows_look_bind (p := current) (Parser.current_eq_ok.2 ⟨⟨ts, hr⟩, rfl⟩) ?_
  have h₁ := length_next hr
  refine follows_advance_bind hr ((ih.expr s _ (by omega)).bind fun x c₁ _ _ => ?_)
  refine follows_skipWhitespace_bind (follows_current_bind fun kind pos ts hr => ?_)
  cases kind with
  | rightParen => exact follows_advance_bind hr (follows_pure _)
  | _ => exact follows_refuse hr rfl

lemma FollowsAll.binary_succ (ih : FollowsAll prec n) (s : Scope) {least : Int} (x : Node)
    (c : Cursor) (hleast : 0 ≤ least) (hn : 6 * c.rest.length + 1 ≤ n + 1) :
    Follows (Parser.binary prec (n + 1) s least x) (Parser.binary prec (n + 1) s least x) c := by
  refine follows_look_bind (p := token) (x := c.token) rfl ?_
  split_ifs with hend
  · exact follows_pure x
  refine follows_look_bind (p := level prec) (x := c.level prec) rfl ?_
  refine follows_look_bind (p := atEnd) (x := c.atEnd) rfl ?_
  rw [Cursor.level_eq]
  split_ifs with hd
  · exact follows_pure x
  rw [not_or] at hd
  refine follows_token_bind (fun he => absurd ?_ hd.2) fun kind pos ts hr => ?_
  · rw [Cursor.atEnd, he]
    rfl
  cases kind with
  | operator op =>
    have h₁ := length_next hr
    have h₂ := length_skipWhitespace c.next
    refine follows_advance_bind hr (follows_skipWhitespace_bind ?_)
    refine (ih.unary s _ (by omega)).bind fun y c₁ _ hy => ?_
    have h₃ := hy.suffix.length_le
    have h₄ := length_skipWhitespace c₁
    refine follows_look_bind (p := level prec) (x := c₁.level prec) rfl ?_
    refine follows_skipWhitespace_bind ?_
    rw [Cursor.level_eq]
    have htighter := ih.tighter s y c₁.skipWhitespace (hleast.trans (not_lt.1 hd.1))
      (isWord_levelOf prec c.rest) (isWord_levelOf prec c₁.rest) (by omega)
    refine htighter.bind fun z c₂ _ hz => ?_
    have h₅ := hz.suffix.length_le
    exact ih.binary s _ c₂ hleast (by omega)
  | _ =>
    -- only an operator has a precedence that is not negative
    have hlevel : levelOf prec c.rest = -1 := by rw [hr]; rfl
    omega

lemma FollowsAll.tighter_succ (ih : FollowsAll prec n) (s : Scope) {cur ahead : Int} (x : Node)
    (c : Cursor) (hcur : 0 ≤ cur) (hc : IsWord cur) (ha : IsWord ahead)
    (hn : 6 * c.rest.length + 2 ≤ n + 1) :
    Follows (Parser.tighter prec (n + 1) s cur ahead x)
      (Parser.tighter prec (n + 1) s cur ahead x) c := by
  rw [Parser.tighter, Parser.tighter]
  split_ifs with hlt
  · obtain ⟨w, hw, hsucc⟩ := exists_succ hc ha hlt
    refine Follows.raising ⟨w, hw, hsucc⟩ (Follows.routine ?_ ⟨by omega, w + 1, hsucc⟩ ?_)
    · exact ih.binary s x c (by omega) (by omega)
    · exact fun _ _ _ h => h.elim
  · exact follows_pure x

lemma followsAll (prec : Precedence) (n : Nat) : FollowsAll prec n := by
  induction n with
  | zero => exact followsAll_zero
  | succ n ih =>
    exact ⟨ih.expr_succ, ih.unary_succ, ih.primary_succ, ih.atom_succ, ih.sends_succ,
      ih.named_succ, ih.argList_succ, ih.args_succ, ih.paren_succ, ih.binary_succ, ih.tighter_succ⟩

lemma follows_expression (s : Scope) : Follows (expression prec s) (expression prec s) c :=
  follows_withBudget ((followsAll prec _).expr s c (by omega))

end Expressions

/-! ### Signatures -/

section Signatures

open Frontend.Parser

lemma follows_resultTypeName : Follows resultTypeName resultTypeName c := by
  refine follows_token_bind (follows_refuse_end · rfl) fun kind pos ts hr => ?_
  cases kind with
  | constant => exact follows_next_bind hr (follows_pure _)
  | _ => exact follows_refuse hr rfl

lemma follows_resultType : Follows resultType resultType c := by
  refine follows_current_bind fun kind pos ts hr => ?_
  cases kind with
  | newline => exact follows_next_bind hr (follows_pure _)
  | arrow => exact follows_next_bind hr follows_resultTypeName
  | space =>
    refine follows_next_bind hr (follows_token_bind (follows_refuse_end · rfl) ?_)
    intro kind pos ts hr
    cases kind with
    | arrow => exact follows_next_bind hr (follows_skipSpace_bind follows_resultTypeName)
    | newline => exact follows_next_bind hr (follows_pure _)
    | _ => exact follows_refuse hr rfl
  | _ => exact follows_refuse hr rfl

lemma follows_param : Follows param param c := by
  refine follows_token_bind (follows_refuse_end · rfl) fun kind pos ts hr => ?_
  cases kind with
  | identifier =>
    refine follows_advance_bind hr (follows_skipSpace_bind ?_)
    refine follows_token_bind (follows_refuse_end · rfl) fun kind pos ts hr => ?_
    cases kind with
    | constant => exact follows_advance_bind hr (follows_pure _)
    | _ => exact follows_refuse hr rfl
  | _ => exact follows_refuse hr rfl

lemma follows_params {n : Nat} (hn : c.rest.length < n) (done : List Param) :
    Follows (params n done) (params n done) c := by
  induction n generalizing c done with
  | zero => omega
  | succ n ih =>
    have h₁ := length_skipWhitespace c
    refine follows_skipWhitespace_bind (follows_param.bind fun p c₁ _ hp => ?_)
    have h₂ := hp.suffix.length_le
    have h₃ := length_skipWhitespace c₁
    refine follows_skipWhitespace_bind (follows_token_bind (follows_refuse_end · rfl) ?_)
    intro kind pos ts hr
    cases kind with
    | rightParen => exact follows_next_bind hr (follows_pure _)
    | comma =>
      have h₄ := length_next hr
      exact follows_next_bind hr (ih (by omega) _)
    | _ => exact follows_refuse hr rfl

lemma follows_paramList : Follows paramList paramList c := by
  refine follows_skipWhitespace_bind (follows_token_bind (fun _ => ?_) fun kind pos ts hr => ?_)
  · exact follows_withBudget (follows_params (by omega) [])
  · cases kind with
    | rightParen => exact follows_next_bind hr (follows_pure _)
    | _ => exact follows_withBudget (follows_params (by omega) [])

lemma length_prototype {p : Prototype} {c' : Cursor} (h : prototype c = .ok p c') :
    c'.rest.length < c.rest.length :=
  (Grammar.reader_prototype.sound h).1.length_lt

lemma follows_prototype : Follows prototype prototype c := by
  refine Follows.routine ?_ trivial fun _ _ h _ => length_prototype h
  refine follows_current_bind fun kind pos ts hr => ?_
  cases kind with
  | space =>
    refine follows_next_bind hr (follows_token_bind (follows_refuse_end · rfl) ?_)
    intro kind pos ts hr
    cases kind with
    | identifier =>
      refine follows_advance_bind hr (follows_skipSpace_bind ?_)
      refine follows_token_bind (follows_refuse_end · rfl) fun kind pos ts hr => ?_
      cases kind with
      | leftParen =>
        refine follows_next_bind hr (follows_paramList.bind fun _ _ _ _ => ?_)
        exact follows_resultType.bind fun _ _ _ _ => follows_pure _
      | newline => exact follows_next_bind hr (follows_pure _)
      | _ => exact follows_refuse hr rfl
    | _ => exact follows_refuse hr rfl
  | _ => exact follows_refuse hr rfl

end Signatures

/-! ### Definitions and blocks -/

section Blocks

open Frontend.Parser
open Grammar (Block opening)

variable {prec : Precedence} {t : Token} {ts : List Token} {pos : Int} {n : Nat}

lemma follows_statements (hn : c.rest.length < n) (proto : Prototype) (done : List Node) :
    Follows (statements prec n proto done) (statements prec n proto done) c := by
  induction n generalizing c done with
  | zero => omega
  | succ n ih =>
    have h₁ := length_skipWhitespace c
    refine follows_skipWhitespace_bind (follows_current_bind fun kind pos ts hr => ?_)
    cases kind with
    | endWord =>
      cases done with
      | nil => exact follows_pure _
      | cons => exact follows_next_bind hr (follows_pure _)
    | _ =>
      refine (follows_expression _).bind fun x c₁ hx _ => ?_
      have h₂ := (Grammar.expression_eq_ok hx).1.length_lt trivial
      exact ih (by omega) _

lemma follows_body (proto : Prototype) :
    Follows (withBudget fun n => statements prec n proto [])
      (withBudget fun n => statements prec n proto []) c :=
  follows_withBudget (follows_statements (by omega) proto [])

lemma follows_definition (className implName : Text) (hr : c.rest = ⟨.defWord, pos⟩ :: ts) :
    Follows (definition prec className implName) (definition prec className implName) c := by
  refine Follows.routine ?_ trivial fun _ _ h _ => (Grammar.reads_of_definition hr h).1.length_lt
  refine follows_look_bind (p := token) (x := c.token) rfl (follows_next_bind hr ?_)
  refine follows_prototype.bind fun proto c₂ _ _ => follows_skipWhitespace_bind ?_
  refine (follows_body proto).bind fun body c₃ _ _ => ?_
  exact follows_look_bind (p := lastPos) (x := c₃.lastPos) rfl (follows_pure _)

/-- A constant is missing where the name of a block is, or a line end behind it. -/
lemma follows_blockName {noName noNewline : Cause}
    (hn : ∀ kind, noName.refuses kind = !(kind matches .constant _))
    (hl : ∀ kind, noNewline.refuses kind = !(kind matches .newline))
    (hu : noNewline.isUnchecked = true) :
    Follows (blockName noName noNewline) (blockName noName noNewline) c := by
  refine follows_skipSpace_bind (follows_current_bind fun kind pos ts hr => ?_)
  cases kind with
  | constant =>
    refine follows_advance_bind hr (follows_skipSpace_bind ?_)
    refine follows_token_bind (follows_refuse_end · hu) fun kind pos ts hr => ?_
    cases kind with
    | newline => exact follows_next_bind hr (follows_pure _)
    | _ => exact follows_refuse hr (hl _)
  | _ => exact follows_refuse hr (hn _)

lemma length_opening {noName noNewline : Cause} (inner : Text → Block) {ds : List Definition}
    {c' : Cursor} (hr : c.rest = t :: ts) (h : opening prec noName noNewline inner c = .ok ds c') :
    c'.rest.length < c.rest.length := by
  obtain ⟨name, ts₁, hn, hds, -⟩ := Grammar.reads_of_opening hr h
  have hl := (hds.suffix.trans hn.suffix).length_le
  rw [hr, List.length_cons]
  omega

/-- A block from its keyword on, which is stepped over. -/
lemma follows_opening {noName noNewline : Cause} (inner : Text → Block) {r : Routine}
    {l : Text → Nat → Logged (List Definition)} (hcalled : Record.Right ⟨.called r, c⟩)
    (hr : c.rest = t :: ts)
    (hname : ∀ c, Follows (blockName noName noNewline) (blockName noName noNewline) c)
    (h : ∀ name n c, c.rest.length < n → Follows (l name n) ((inner name).run prec n []) c) :
    Follows (ParserState.routine r do
        next
        let name ← blockName noName noNewline
        withBudget fun n => l name n)
      (opening prec noName noNewline inner) c := by
  refine Follows.routine ?_ hcalled fun _ _ hopen _ => length_opening inner hr hopen
  refine follows_next_bind hr ((hname _).bind fun name c₁ _ _ => ?_)
  exact follows_withBudget (h name _ c₁ (by omega))

lemma follows_members (className implName : Text) {stray : Cause}
    (hs : ∀ kind, stray.refuses kind = !(kind matches .defWord | .endWord)) (n : Nat)
    (done : List Definition) (c : Cursor) (hn : c.rest.length < n) :
    Follows (members prec className implName stray n done)
      (members prec className implName stray n done) c := by
  induction n generalizing c done with
  | zero => omega
  | succ n ih =>
    have h₁ := length_skipWhitespace c
    refine follows_skipWhitespace_bind (follows_current_bind fun kind pos ts hr => ?_)
    cases kind with
    | defWord =>
      refine (follows_definition _ _ hr).bind fun d c₁ hd _ => ih _ c₁ ?_
      have h₂ := (Grammar.reads_of_definition hr hd).1.length_lt
      omega
    | endWord => exact follows_next_bind hr (follows_pure _)
    | _ => exact follows_refuse hr (hs _)

lemma follows_implBlock (className : Text) (hr : c.rest = t :: ts) :
    Follows (implBlock prec className) (implBlock prec className) c := by
  refine follows_opening (.inImpl className) trivial hr (fun _ => ?_) fun name n c hn => ?_
  · exact follows_blockName (fun _ => rfl) (fun _ => rfl) rfl
  · exact follows_members className name (fun _ => rfl) n [] c hn

lemma follows_classMembers (className : Text) (n : Nat) (done : List Definition) (c : Cursor)
    (hn : c.rest.length < n) :
    Follows (classMembers prec className n done) (classMembers prec className n done) c := by
  induction n generalizing c done with
  | zero => omega
  | succ n ih =>
    have h₁ := length_skipWhitespace c
    refine follows_skipWhitespace_bind (follows_current_bind fun kind pos ts hr => ?_)
    cases kind with
    | defWord =>
      refine (follows_definition _ _ hr).bind fun d c₁ hd _ => ih _ c₁ ?_
      have h₂ := (Grammar.reads_of_definition hr hd).1.length_lt
      omega
    | implWord =>
      refine (follows_implBlock _ hr).bind fun ds c₁ hd _ => ih _ c₁ ?_
      have h₂ := length_opening (.inImpl className) hr hd
      omega
    | endWord => exact follows_next_bind hr (follows_pure _)
    | _ => exact follows_refuse hr rfl

lemma follows_classBlock (hr : c.rest = t :: ts) :
    Follows (classBlock prec) (classBlock prec) c := by
  refine follows_opening .inClass trivial hr (fun _ => ?_) fun name n c hn => ?_
  · exact follows_blockName (fun _ => rfl) (fun _ => rfl) rfl
  · exact follows_classMembers name n [] c hn

lemma follows_traitBlock (hr : c.rest = t :: ts) :
    Follows (traitBlock prec) (traitBlock prec) c := by
  refine follows_opening .inTrait trivial hr (fun _ => ?_) fun name n c hn => ?_
  · exact follows_blockName (fun _ => rfl) (fun _ => rfl) rfl
  · exact follows_members name [] (fun _ => rfl) n [] c hn

lemma follows_items (n : Nat) (done : List Definition) (c : Cursor) (hn : c.rest.length < n) :
    Follows (items prec n done) (items prec n done) c := by
  induction n generalizing c done with
  | zero => omega
  | succ n ih =>
    have h₁ := length_skipWhitespace c
    refine follows_skipWhitespace_bind ?_
    refine follows_look_bind (p := atEnd) (x := c.skipWhitespace.atEnd) rfl ?_
    split_ifs with hf
    · exact follows_pure _
    refine follows_current_bind fun kind pos ts hr => ?_
    cases kind with
    | classWord =>
      refine (follows_classBlock hr).bind fun ds c₁ hd _ => ih _ c₁ ?_
      have h₂ := length_opening .inClass hr hd
      omega
    | traitWord =>
      refine (follows_traitBlock hr).bind fun ds c₁ hd _ => ih _ c₁ ?_
      have h₂ := length_opening .inTrait hr hd
      omega
    | defWord =>
      refine (follows_definition _ _ hr).bind fun d c₁ hd _ => ih _ c₁ ?_
      have h₂ := (Grammar.reads_of_definition hr hd).1.length_lt
      omega
    | _ => exact follows_refuse hr rfl

/-- The parser can be followed from every cursor on. -/
theorem follows_definitions : Follows (definitions prec) (definitions prec) c :=
  follows_withBudget (follows_items _ [] c (by omega))

end Blocks

/-! ### Runs -/

section Runs

variable (prec : Precedence) (ts : List Token)

lemma tallies_run : Tallies (.ofTokens ts) ⟨.ofTokens ts, []⟩ (run prec ts)
    (Parser.definitions prec (Cursor.ofTokens ts)) :=
  follows_definitions _ _ (Trace.good_nil _)

/-- A run without its log is the run of the parser. -/
lemma forget_run : forget (run prec ts) = Parser.definitions prec (Cursor.ofTokens ts) :=
  (tallies_run prec ts).forget_eq

lemma good_run : (traceOf (run prec ts)).Good (.ofTokens ts) := (tallies_run prec ts).good

variable {prec ts} {r : Record}

/-- The cursor stands on the tokens of the stream, or just behind the last one. -/
lemma index_le_of_reaches {c : Cursor} (h : (Cursor.ofTokens ts).Reaches c) :
    c.index ≤ ts.length := by
  obtain ⟨used, hr, hp, hb⟩ := h
  have hlen : ts.length = used.length + c.rest.length := by
    rw [← List.length_append, ← hr]
    rfl
  rw [Cursor.index, hp, hb]
  simp [Cursor.ofTokens]
  omega

/-- The log is ordered like the tokens. -/
lemma pairwise_index_run : (traceOf (run prec ts)).log.Pairwise
    fun later earlier => earlier.cursor.index ≤ later.cursor.index := by
  obtain ⟨hlog, -, -⟩ := List.pairwise_append.1 (List.pairwise_cons.1 (good_run prec ts).onward).2
  exact (List.pairwise_map.1 hlog).imp fun h => h.index_le

end Runs

/-- A module is parsed to the end or refused for what is in it, with a recursion budget of six steps
for each token. On the way the cursor never leaves the tokens and never goes back, and the functions
that are called for something step over a token before they succeed. -/
theorem run_onward (prec : Precedence) (ts : List Token) :
    forget (run prec ts) = Parser.items prec (6 * ts.length + 6) [] (Cursor.ofTokens ts) ∧
    ((∃ m, parse prec ts = .ok m) ∨ ∃ e, parse prec ts = .error e ∧ e.cause ≠ .outOfBudget) ∧
    (∀ r ∈ (traceOf (run prec ts)).log, r.cursor.stream = ts ∧ r.cursor.index ≤ ts.length) ∧
    ((traceOf (run prec ts)).log.Pairwise
      fun later earlier => earlier.cursor.index ≤ later.cursor.index) ∧
    ∀ r start c, ⟨.returned r start, c⟩ ∈ (traceOf (run prec ts)).log → r.Moves →
      start.index + 1 ≤ c.index := by
  refine ⟨forget_run prec ts, ?_, fun r hr => ?_, pairwise_index_run, fun r start c hr hm => ?_⟩
  · unfold parse
    split
    case h_1 => exact .inl ⟨_, rfl⟩
    case h_2 e c h => exact .inr ⟨e, rfl, ((tallies_run prec ts).objects h).ne_outOfBudget⟩
  · have h := (good_run prec ts).reaches hr
    exact ⟨h.leadsTo.stream_eq, index_le_of_reaches h⟩
  · exact (good_run prec ts).right _ hr hm

/-- Precedences that are asked for are words that are not negative, one can be added to the
precedence of every operator to which it is, and four errors are never given, whatever words the
table holds. -/
theorem run_levels (prec : Precedence) (ts : List Token) :
    forget (run prec ts) = Parser.definitions prec (Cursor.ofTokens ts) ∧
    (∀ least c, ⟨.called (.binary least), c⟩ ∈ (traceOf (run prec ts)).log →
      0 ≤ least ∧ least ≤ 2 ^ 63 - 1) ∧
    (∀ cur c, ⟨.raised cur, c⟩ ∈ (traceOf (run prec ts)).log →
      ∃ w : Int64, w.toInt = cur ∧ (w + 1).toInt = cur + 1) ∧
    ∀ e, parse prec ts = .error e → e.cause ≠ .invalidOperator ∧ e.cause ≠ .expectedOpenParen ∧
      e.cause ≠ .expectedIdentifier ∧ e.cause ≠ .peekedAtEnd := by
  refine ⟨forget_run prec ts, fun least c hr => ?_, fun cur c hr => (good_run prec ts).right _ hr,
    fun e he => ?_⟩
  · obtain ⟨hleast, w, rfl⟩ := (good_run prec ts).right _ hr
    exact ⟨hleast, by have := w.toInt_lt; omega⟩
  · unfold parse at he
    split at he
    case h_1 => cases he
    case h_2 e' c h =>
      obtain rfl := Except.error.inj he
      have hexcluded := ((tallies_run prec ts).objects h).isExcluded
      refine ⟨?_, ?_, ?_, ?_⟩ <;>
        · intro hcause
          rw [hcause] at hexcluded
          cases hexcluded

/-- In `1 + 2 * 3` the product is asked for with a precedence above that of the sum. -/
example : (traceOf (run .builtin [⟨.defWord, 0⟩, ⟨.space, 3⟩, ⟨.identifier [0x66], 4⟩,
    ⟨.newline, 5⟩, ⟨.number 1, 6⟩, ⟨.operator 0x2B, 7⟩, ⟨.number 2, 8⟩, ⟨.operator 0x2A, 9⟩,
    ⟨.number 3, 10⟩, ⟨.newline, 11⟩, ⟨.endWord, 12⟩])).log.reverse.filterMap (fun r =>
      match r.event with
      | .called (.binary least) => some least
      | _                       => none) = [0, 21] := by
  decide +kernel

end Logged

end Frontend
