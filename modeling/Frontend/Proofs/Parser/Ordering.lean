import Frontend.Proofs.Parser.Framing
import Frontend.Token.Lexer

/-!
# The order of operators

The numbers in a table of precedences mean nothing by themselves: the parser only asks which of two
operators binds tighter, and whether an operator may stand between operands at all. Tables that
agree on this for the operators of a stream parse it alike, with the same tree or the same error.

The two runs are kept in step by `Parser.Agree`. The numbers that they compare are different, but
come from the same operators: `Precedence.Level` is what holds of the precedences that are found on
the way, and `Precedence.Least` of the lower bounds that are made from them.
-/

namespace Frontend

namespace Precedence

/-- Two tables order some operators alike, and agree on which of them have a negative precedence. -/
structure Alike (p q : Precedence) (ops : List Int) : Prop where
  lt_iff : ∀ a ∈ ops, ∀ b ∈ ops, p.of a < p.of b ↔ q.of a < q.of b
  neg_iff : ∀ a ∈ ops, p.of a < 0 ↔ q.of a < 0

/-- What two tables say about a token: the precedences of one operator, or `-1` twice. -/
inductive Level (p q : Precedence) (ops : List Int) : Int → Int → Prop
  | operator {a : Int} (ha : a ∈ ops) : Level p q ops (p.of a) (q.of a)
  | other : Level p q ops (-1) (-1)

/-- The least precedences that are asked for in two runs: any that is not negative, or any above
that of an operator. -/
inductive Least (p q : Precedence) (ops : List Int) : Int → Int → Prop
  | zero : Least p q ops 0 0
  | above {x y : Int} (h : Level p q ops x y) (hx : 0 ≤ x) : Least p q ops (x + 1) (y + 1)

variable {p q : Precedence} {ops : List Int} {x y x' y' : Int}

lemma Alike.neg_iff_of_level (h : p.Alike q ops) (hx : Level p q ops x y) : x < 0 ↔ y < 0 := by
  cases hx with
  | operator ha => exact h.neg_iff _ ha
  | other => rfl

/-- The runs agree on which of two operators binds tighter. -/
lemma Alike.lt_iff_of_level (h : p.Alike q ops) (hx : Level p q ops x y)
    (hx' : Level p q ops x' y') (h₀ : 0 ≤ x) : x < x' ↔ y < y' := by
  have h₀' : 0 ≤ y := by
    have := h.neg_iff_of_level hx
    omega
  cases hx with
  | operator ha =>
    cases hx' with
    | operator hb => exact h.lt_iff _ ha _ hb
    | other => omega
  | other => omega

/-- The runs agree on which operators are below the least precedence. -/
lemma Alike.lt_least_iff (h : p.Alike q ops) (hx : Level p q ops x y)
    (hl : Least p q ops x' y') : x < x' ↔ y < y' := by
  cases hl with
  | zero => exact h.neg_iff_of_level hx
  | above hb hb₀ =>
    have hlt := h.lt_iff_of_level hb hx hb₀
    omega

lemma Least.nonneg (hl : Least p q ops x y) : 0 ≤ x := by
  cases hl with
  | zero => exact le_rfl
  | above _ hx => omega

end Precedence

open Precedence (Alike Level Least)

/-- All operators that a cursor has in front of it belong to some. -/
def Cursor.Within (ops : List Int) (c : Cursor) : Prop :=
  ∀ t ∈ c.rest, ∀ a, t.kind = .operator a → a ∈ ops

namespace Parser

variable {α β γ δ : Type} {p q : Precedence} {ops : List Int} {R : α → β → Prop}
  {S : γ → δ → Prop} {c : Cursor}

/-! ### Two runs in step -/

/-- Two results are the same, but for values that only correspond to each other. -/
inductive Same (ops : List Int) (R : α → β → Prop) :
    EStateM.Result SyntaxError Cursor α → EStateM.Result SyntaxError Cursor β → Prop
  | ok {x : α} {y : β} {c : Cursor} (h : R x y) (hc : c.Within ops) :
      Same ops R (.ok x c) (.ok y c)
  | error (e : SyntaxError) (c : Cursor) : Same ops R (.error e c) (.error e c)

/-- Two parsers do the same on all streams with some operators. -/
def Agree (ops : List Int) (R : α → β → Prop) (r : Parser α) (r' : Parser β) : Prop :=
  ∀ c : Cursor, c.Within ops → Same ops R (r c) (r' c)

lemma Agree.bind {r : Parser α} {r' : Parser β} {f : α → Parser γ} {g : β → Parser δ}
    (h : Agree ops R r r') (hf : ∀ x y, R x y → Agree ops S (f x) (g y)) :
    Agree ops S (r >>= f) (r' >>= g) := by
  intro c hc
  have hsame := h c hc
  simp only [EStateM.bind, Bind.bind]
  generalize r c = a, r' c = b at hsame
  cases hsame with
  | ok hxy hc' => exact hf _ _ hxy _ hc'
  | error e c' => exact .error e c'

/-- Two parsers go on in the same way with the same value. -/
lemma Agree.andThen {r r' : Parser α} {f : α → Parser γ} {g : α → Parser δ}
    (h : Agree ops Eq r r') (hf : ∀ x, Agree ops S (f x) (g x)) :
    Agree ops S (r >>= f) (r' >>= g) :=
  h.bind fun x _ hxy => hxy ▸ hf x

lemma agree_pure (x : α) : Agree ops Eq (pure x) (pure x) := fun _ hc => .ok rfl hc

lemma agree_fail (cause : Cause) : Agree ops R (fail cause) (fail cause) :=
  fun _ _ => .error _ _

lemma agree_failAt (cause : Cause) (pos : Int) :
    Agree ops R (failAt cause pos) (failAt cause pos) :=
  fun _ _ => .error _ _

lemma agree_lastPos : Agree ops Eq lastPos lastPos := fun _ hc => .ok rfl hc

/-- A parser that knows no table agrees with itself, since it only goes forward. -/
lemma agree_self {r : Parser α} {r' : Parser β} {φ : α → β}
    (h : Framed (Frame.followedBy []) φ r r') : Agree ops Eq r r := by
  intro c hc
  have hlead := (h c (.inl rfl)).leadsTo
  cases hr : r c with
  | ok x c' =>
    rw [hr] at hlead
    exact .ok rfl fun t ht => hc t (hlead.suffix.subset ht)
  | error e c' => exact .error e c'

lemma agree_level : Agree ops (Level p q ops) (level p) (level q) := by
  intro c hc
  refine .ok ?_ hc
  rcases hr : c.rest with _ | ⟨⟨kind, pos⟩, ts⟩
  · simpa only [Cursor.level, hr] using .other
  · cases kind with
    | operator a =>
      have ha : a ∈ ops := hc ⟨.operator a, pos⟩ (by simp [hr]) a rfl
      simpa only [Cursor.level, hr] using .operator ha
    | _ => simpa only [Cursor.level, hr] using .other

lemma agree_withBudget {r : Nat → Parser α} {r' : Nat → Parser β}
    (h : ∀ n, Agree ops R (r n) (r' n)) : Agree ops R (withBudget r) (withBudget r') :=
  fun c hc => h _ c hc

/-! ### Expressions -/

/-- The parsers of expressions with a budget agree. -/
structure AgreeAll (p q : Precedence) (ops : List Int) (n : Nat) : Prop where
  expr : ∀ s, Agree ops Eq (expr p n s) (expr q n s)
  unary : ∀ s, Agree ops Eq (unary p n s) (unary q n s)
  primary : ∀ s, Agree ops Eq (primary p n s) (primary q n s)
  atom : ∀ s, Agree ops Eq (atom p n s) (atom q n s)
  sends : ∀ s x, Agree ops Eq (sends p n s x) (sends q n s x)
  named : ∀ s, Agree ops Eq (named p n s) (named q n s)
  argList : ∀ s, Agree ops Eq (argList p n s) (argList q n s)
  args : ∀ s done, Agree ops Eq (args p n s done) (args q n s done)
  paren : ∀ s, Agree ops Eq (paren p n s) (paren q n s)
  binary : ∀ s {l l' : Int} x, Least p q ops l l' →
    Agree ops Eq (binary p n s l x) (binary q n s l' x)
  tighter : ∀ s {cur cur' ahead ahead' : Int} x, Level p q ops cur cur' → 0 ≤ cur →
    Level p q ops ahead ahead' →
    Agree ops Eq (tighter p n s cur ahead x) (tighter q n s cur' ahead' x)

section Expressions

variable {n : Nat}

lemma agreeAll_zero : AgreeAll p q ops 0 := by
  constructor
  all_goals
    intros
    exact agree_fail _

lemma AgreeAll.expr_succ (ih : AgreeAll p q ops n) (s : Scope) :
    Agree ops Eq (Parser.expr p (n + 1) s) (Parser.expr q (n + 1) s) :=
  (ih.unary s).andThen fun x => (agree_self framed_skipWhitespace).andThen fun _ =>
    ih.binary s x .zero

lemma AgreeAll.unary_succ (ih : AgreeAll p q ops n) (s : Scope) :
    Agree ops Eq (Parser.unary p (n + 1) s) (Parser.unary q (n + 1) s) := by
  refine (agree_self framed_current).andThen ?_
  rintro ⟨kind, pos⟩
  cases kind with
  | operator op =>
    refine (agree_self framed_advance).andThen fun _ => (ih.unary s).andThen fun x => ?_
    exact agree_pure _
  | _ => exact ih.primary s

lemma AgreeAll.primary_succ (ih : AgreeAll p q ops n) (s : Scope) :
    Agree ops Eq (Parser.primary p (n + 1) s) (Parser.primary q (n + 1) s) := by
  refine (ih.atom s).andThen fun x => (agree_self framed_skipWhitespace).andThen fun _ => ?_
  refine (agree_self framed_token).andThen ?_
  rintro ⟨kind, pos⟩
  cases kind with
  | dot => exact ih.sends s x
  | _ => exact agree_pure x

lemma AgreeAll.atom_succ (ih : AgreeAll p q ops n) (s : Scope) :
    Agree ops Eq (Parser.atom p (n + 1) s) (Parser.atom q (n + 1) s) := by
  refine (agree_self framed_token).andThen ?_
  rintro ⟨kind, pos⟩
  cases kind with
  | identifier => exact ih.named s
  | leftParen => exact ih.paren s
  | number | string | selfWord => exact (agree_self framed_next).andThen fun _ => agree_pure _
  | _ => exact agree_fail _

lemma AgreeAll.sends_succ (ih : AgreeAll p q ops n) (s : Scope) (x : Node) :
    Agree ops Eq (Parser.sends p (n + 1) s x) (Parser.sends q (n + 1) s x) := by
  refine (agree_self framed_token).andThen ?_
  rintro ⟨kind, pos⟩
  cases kind with
  | dot =>
    refine (agree_self framed_next).andThen fun _ => ?_
    refine (agree_self framed_token).andThen ?_
    rintro ⟨kind, pos⟩
    cases kind with
    | identifier =>
      exact (ih.named s).andThen fun msg => (agree_self framed_skipWhitespace).andThen fun _ =>
        ih.sends s _
    | _ => exact agree_fail _
  | _ => exact agree_pure x

lemma AgreeAll.named_succ (ih : AgreeAll p q ops n) (s : Scope) :
    Agree ops Eq (Parser.named p (n + 1) s) (Parser.named q (n + 1) s) := by
  refine (agree_self framed_token).andThen ?_
  rintro ⟨kind, pos⟩
  cases kind with
  | identifier name =>
    refine (agree_self framed_next).andThen fun _ => ?_
    refine (agree_self framed_skipWhitespace).andThen fun _ => ?_
    refine (agree_self framed_token).andThen ?_
    rintro ⟨kind, pos'⟩
    cases kind with
    | leftParen =>
      refine (agree_self framed_advance).andThen fun _ => ?_
      refine (ih.argList s).andThen ?_
      rintro ⟨xs, stop⟩
      exact agree_pure _
    | assign =>
      refine (agree_self framed_advance).andThen fun _ => ?_
      exact (agree_self framed_skipWhitespace).andThen fun _ => (ih.expr s).andThen fun value =>
        agree_pure _
    | _ =>
      dsimp only
      cases s.classOf name with
      | ok className => exact agree_pure _
      | error cause => exact agree_failAt cause pos
  | _ => exact agree_fail _

lemma AgreeAll.argList_succ (ih : AgreeAll p q ops n) (s : Scope) :
    Agree ops Eq (Parser.argList p (n + 1) s) (Parser.argList q (n + 1) s) := by
  refine (agree_self framed_skipWhitespace).andThen fun _ => ?_
  refine (agree_self framed_token).andThen ?_
  rintro ⟨kind, pos⟩
  cases kind with
  | rightParen => exact (agree_self framed_next).andThen fun _ => agree_pure _
  | _ => exact ih.args s []

lemma AgreeAll.args_succ (ih : AgreeAll p q ops n) (s : Scope) (done : List Node) :
    Agree ops Eq (Parser.args p (n + 1) s done) (Parser.args q (n + 1) s done) := by
  refine (agree_self framed_skipWhitespace).andThen fun _ => (ih.expr s).andThen fun x => ?_
  refine (agree_self framed_skipWhitespace).andThen fun _ => ?_
  refine (agree_self framed_token).andThen ?_
  rintro ⟨kind, pos⟩
  cases kind with
  | rightParen => exact (agree_self framed_next).andThen fun _ => agree_pure _
  | comma => exact (agree_self framed_next).andThen fun _ => ih.args s (x :: done)
  | _ => exact agree_fail _

lemma AgreeAll.paren_succ (ih : AgreeAll p q ops n) (s : Scope) :
    Agree ops Eq (Parser.paren p (n + 1) s) (Parser.paren q (n + 1) s) := by
  refine (agree_self framed_current).andThen ?_
  rintro ⟨kind, pos⟩
  cases kind with
  | leftParen =>
    refine (agree_self framed_advance).andThen fun _ => (ih.expr s).andThen fun x => ?_
    refine (agree_self framed_skipWhitespace).andThen fun _ => ?_
    refine (agree_self framed_current).andThen ?_
    rintro ⟨kind, pos⟩
    cases kind with
    | rightParen => exact (agree_self framed_advance).andThen fun _ => agree_pure x
    | _ => exact agree_fail _
  | _ => exact agree_fail _

/-- Both runs stop at the same operators, and those that they go on with are at least as tight as
asked for. -/
lemma AgreeAll.binary_succ (h : p.Alike q ops) (ih : AgreeAll p q ops n) (s : Scope) {l l' : Int}
    (x : Node) (hl : Least p q ops l l') :
    Agree ops Eq (Parser.binary p (n + 1) s l x) (Parser.binary q (n + 1) s l' x) := by
  refine (agree_self framed_token).andThen fun t => ?_
  by_cases hend : t.kind = .endWord
  · rw [if_pos hend, if_pos hend]
    exact agree_pure x
  rw [if_neg hend, if_neg hend]
  refine agree_level.bind fun cur cur' hcur => (agree_self framed_atEnd).andThen fun done => ?_
  have hstop : (cur < l ∨ done = true) ↔ (cur' < l' ∨ done = true) :=
    or_congr_left (h.lt_least_iff hcur hl)
  by_cases hs : cur < l ∨ done = true
  · rw [if_pos hs, if_pos (hstop.1 hs)]
    exact agree_pure x
  · rw [if_neg hs, if_neg (mt hstop.2 hs)]
    -- an operator that goes on is not negative, so the tables order it alike with the one ahead
    have hcur₀ : 0 ≤ cur := by
      have := hl.nonneg
      omega
    refine (agree_self framed_token).andThen ?_
    rintro ⟨kind, pos⟩
    cases kind with
    | operator op =>
      refine (agree_self framed_advance).andThen fun _ => ?_
      refine (agree_self framed_skipWhitespace).andThen fun _ => (ih.unary s).andThen fun y => ?_
      refine agree_level.bind fun ahead ahead' ha => ?_
      refine (agree_self framed_skipWhitespace).andThen fun _ => ?_
      exact (ih.tighter s y hcur hcur₀ ha).andThen fun right => ih.binary s _ hl
    | _ => exact agree_fail _

lemma AgreeAll.tighter_succ (h : p.Alike q ops) (ih : AgreeAll p q ops n) (s : Scope)
    {cur cur' ahead ahead' : Int} (x : Node) (hcur : Level p q ops cur cur') (h₀ : 0 ≤ cur)
    (ha : Level p q ops ahead ahead') :
    Agree ops Eq (Parser.tighter p (n + 1) s cur ahead x)
      (Parser.tighter q (n + 1) s cur' ahead' x) := by
  have hlt := h.lt_iff_of_level hcur ha h₀
  simp only [Parser.tighter, raising_eq, routine_eq]
  by_cases hc : cur < ahead
  · rw [if_pos hc, if_pos (hlt.1 hc)]
    exact ih.binary s x (.above hcur h₀)
  · rw [if_neg hc, if_neg (mt hlt.2 hc)]
    exact agree_pure x

lemma agreeAll (h : p.Alike q ops) (n : Nat) : AgreeAll p q ops n := by
  induction n with
  | zero => exact agreeAll_zero
  | succ n ih =>
    exact ⟨ih.expr_succ, ih.unary_succ, ih.primary_succ, ih.atom_succ, ih.sends_succ,
      ih.named_succ, ih.argList_succ, ih.args_succ, ih.paren_succ, ih.binary_succ h,
      ih.tighter_succ h⟩

end Expressions

/-! ### Definitions and blocks -/

section Blocks

open Grammar (Block Entry opening)

variable (h : p.Alike q ops)
include h

lemma agree_statements (n : Nat) (proto : Prototype) (done : List Node) :
    Agree ops Eq (statements p n proto done) (statements q n proto done) := by
  induction n generalizing done with
  | zero => exact agree_fail _
  | succ n ih =>
    refine (agree_self framed_skipWhitespace).andThen fun _ => ?_
    refine (agree_self framed_current).andThen ?_
    rintro ⟨kind, pos⟩
    cases kind with
    | endWord =>
      cases done with
      | nil => exact agree_pure []
      | cons x done => exact (agree_self framed_next).andThen fun _ => agree_pure _
    | _ =>
      exact (agree_withBudget fun n => (agreeAll h n).expr _).andThen fun x => ih (x :: done)

lemma agree_definition (className implName : Text) :
    Agree ops Eq (definition p className implName) (definition q className implName) := by
  refine (agree_self framed_token).andThen fun t => (agree_self framed_next).andThen fun _ => ?_
  refine (agree_self framed_prototype).andThen fun proto => ?_
  refine (agree_self framed_skipWhitespace).andThen fun _ => ?_
  refine (agree_withBudget fun n => agree_statements h n proto []).andThen fun body => ?_
  exact agree_lastPos.andThen fun stop => agree_pure _

lemma agree_run (b : Block) (n : Nat) (done : List Definition) :
    Agree ops Eq (b.run p n done) (b.run q n done) := by
  -- the blocks inside are taken care of by the nesting, the entries by the budget
  induction b using Block.nesting_induction generalizing n done with
  | step b ihb =>
    induction n generalizing done with
    | zero =>
      rw [Block.run_zero, Block.run_zero]
      exact agree_fail _
    | succ n ih =>
      rw [Block.run_succ, Block.run_succ]
      refine (agree_self framed_skipWhitespace).andThen fun _ => ?_
      refine (agree_self framed_atEnd).andThen fun finished => ?_
      split_ifs with hf
      · exact agree_pure _
      refine (agree_self framed_current).andThen fun t => ?_
      cases he : b.entry t.kind with
      | definition => exact (agree_definition h _ _).andThen fun d => ih (d :: done)
      | ending => exact (agree_self framed_next).andThen fun _ => agree_pure _
      | nested noName noNewline inner =>
        have hinner : Agree ops Eq (opening p noName noNewline inner)
            (opening q noName noNewline inner) := by
          refine (agree_self framed_next).andThen fun _ => ?_
          refine (agree_self (framed_blockName noName noNewline)).andThen fun name => ?_
          exact agree_withBudget fun m => ihb _ name _ (Grammar.opens_of_entry he name) m []
        exact hinner.andThen fun ds => ih (ds.reverse ++ done)
      | stray cause => exact agree_fail cause

end Blocks

end Parser

/-- The operators of a stream. -/
def operatorsOf (ts : List Token) : List Int := ts.filterMap fun t => t.kind.operator?

/-- The numbers in a table do not matter: two tables that order the operators of a stream alike, and
agree on which of them are negative, give the same tree or the same error. -/
theorem parse_congr_alike {p q : Precedence} {ts : List Token} (h : p.Alike q (operatorsOf ts)) :
    parse p ts = parse q ts := by
  have hwithin : (Cursor.ofTokens ts).Within (operatorsOf ts) := fun t ht a hk =>
    List.mem_filterMap.2 ⟨t, ht, by rw [hk]; rfl⟩
  have hdefs : Parser.Agree (operatorsOf ts) Eq (Parser.definitions p) (Parser.definitions q) :=
    Parser.agree_withBudget fun n => Parser.agree_run h .top n []
  have hsame := hdefs _ hwithin
  rw [parse, parse]
  generalize Parser.definitions p (Cursor.ofTokens ts) = a,
    Parser.definitions q (Cursor.ofTokens ts) = b at hsame
  cases hsame with
  | ok hxy => rw [hxy]
  | error => rfl

/-- The built-in table with a negative operator, and another one whose numbers go from the least to
the greatest that there are. The stream has ties, an operator that only one table lists, and the
negative one, which stands in front of its operand since it may not stand between two. -/
theorem parse_congr_alike_shifted : ∃ p q ts,
    p = (⟨(0x21, -1) :: Precedence.builtin.entries⟩ : Precedence) ∧
    q = (⟨[(0x21, -0x8000000000000000), (0x3C, 0), (0x2B, 1), (0x2D, 1), (0x2A, 2),
      (0x2F, 0x7FFFFFFFFFFFFFFF)]⟩ : Precedence) ∧
    Lexer.tokens (Text.ofString "def f\n 1 < 2 + 3 * 4 / 5 - 6 !7\nend") 0 = .ok ts ∧
    p.Alike q (operatorsOf ts) ∧ (parse p ts).isOk = true ∧ parse p ts = parse q ts := by
  obtain ⟨p, hp⟩ : ∃ p, p = (⟨(0x21, -1) :: Precedence.builtin.entries⟩ : Precedence) :=
    ⟨_, rfl⟩
  obtain ⟨q, hq⟩ : ∃ q, q = (⟨[(0x21, -0x8000000000000000), (0x3C, 0), (0x2B, 1), (0x2D, 1),
    (0x2A, 2), (0x2F, 0x7FFFFFFFFFFFFFFF)]⟩ : Precedence) := ⟨_, rfl⟩
  obtain ⟨ts, ht, h, hok⟩ : ∃ ts,
      Lexer.tokens (Text.ofString "def f\n 1 < 2 + 3 * 4 / 5 - 6 !7\nend") 0 = .ok ts ∧
      p.Alike q (operatorsOf ts) ∧ (parse p ts).isOk = true := by
    subst hp hq
    exact ⟨_, by cbv, ⟨by decide +kernel, by decide +kernel⟩, by decide +kernel⟩
  exact ⟨p, q, ts, hp, hq, ht, h, hok, parse_congr_alike h⟩

end Frontend
