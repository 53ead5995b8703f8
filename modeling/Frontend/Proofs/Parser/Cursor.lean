import Frontend.Parser.Cursor
import Mathlib

/-!
# Steps of the parser

When each primitive step of the parser succeeds, where it leaves the cursor, and for which causes
it can fail. A cursor that has only gone forward over tokens of its stream `Reaches` the place where
it now stands; steps that succeed in the grammar never go beyond the end of the stream.

What is ahead of the cursor is a list of tokens, and `Grammar.skip` is what skipping whitespace
does to it.
-/

namespace Frontend

/-! ### Token lists -/

/-- The operator that a kind of token carries. -/
def Kind.operator? : Kind → Option Int
  | .operator code => some code
  | _              => none

namespace Grammar

/-- The tokens behind all whitespace at the start. -/
def skip (ts : List Token) : List Token := ts.dropWhile Token.isWhitespace

/-- The tokens behind one blank run at the start. -/
def skipBlank : List Token → List Token
  | ⟨.space, _⟩ :: ts => ts
  | ts                => ts

/-- The kind of the first token, or that of the end of the input. -/
def front (ts : List Token) : Kind := (ts.headD Token.eof).kind

/-- The precedence of the first token if it is an operator, else `-1`. -/
def levelOf (prec : Precedence) (ts : List Token) : Int :=
  match front ts with
  | .operator op => prec.of op
  | _            => -1

@[simp] lemma skip_nil : skip [] = [] := rfl

lemma skip_cons_of_whitespace {t : Token} (h : t.isWhitespace = true) (ts : List Token) :
    skip (t :: ts) = skip ts := by
  simp [skip, h]

lemma skip_cons_of_not_whitespace {t : Token} (h : t.isWhitespace = false) (ts : List Token) :
    skip (t :: ts) = t :: ts := by
  simp [skip, h]

@[simp] lemma skip_skip (ts : List Token) : skip (skip ts) = skip ts := by
  induction ts with
  | nil => rfl
  | cons t ts ih =>
    by_cases h : t.isWhitespace = true
    · rw [skip_cons_of_whitespace h, ih]
    · rw [skip_cons_of_not_whitespace (by simpa using h),
        skip_cons_of_not_whitespace (by simpa using h)]

/-- Whitespace in front of some tokens. -/
lemma exists_whitespace (ts : List Token) :
    ∃ ws, ts = ws ++ skip ts ∧ ∀ t ∈ ws, t.isWhitespace = true :=
  ⟨ts.takeWhile Token.isWhitespace, List.takeWhile_append_dropWhile.symm,
    fun _ ht => List.mem_takeWhile_imp ht⟩

lemma skip_append_of_whitespace {us : List Token} (h : ∀ t ∈ us, t.isWhitespace = true)
    (ts : List Token) : skip (us ++ ts) = skip ts := by
  induction us with
  | nil => rfl
  | cons t us ih =>
    obtain ⟨ht, h⟩ := List.forall_mem_cons.1 h
    rw [List.cons_append, skip_cons_of_whitespace ht, ih h]

lemma skip_suffix (ts : List Token) : skip ts <:+ ts := List.dropWhile_suffix _

lemma skipBlank_suffix (ts : List Token) : skipBlank ts <:+ ts := by
  unfold skipBlank
  split
  · exact List.suffix_cons _ _
  · exact List.suffix_rfl

lemma length_skip_le (ts : List Token) : (skip ts).length ≤ ts.length :=
  (skip_suffix ts).length_le

lemma length_skipBlank_le (ts : List Token) : (skipBlank ts).length ≤ ts.length :=
  (skipBlank_suffix ts).length_le

section

variable {ts u : List Token} {t : Token}

lemma suffix_of_skip (h : skip ts = t :: u) : u <:+ ts :=
  (List.suffix_cons t u).trans (h ▸ skip_suffix ts)

lemma length_of_skip (h : skip ts = t :: u) : u.length < ts.length := by
  have := length_skip_le ts
  rw [h, List.length_cons] at this
  omega

lemma ne_nil_of_skip (h : skip ts = t :: u) : ts ≠ [] := by
  rintro rfl
  simp at h

lemma suffix_of_skipBlank (h : skipBlank ts = t :: u) : u <:+ ts :=
  (List.suffix_cons t u).trans (h ▸ skipBlank_suffix ts)

lemma length_of_skipBlank (h : skipBlank ts = t :: u) : u.length < ts.length := by
  have := length_skipBlank_le ts
  rw [h, List.length_cons] at this
  omega

lemma ne_nil_of_skipBlank (h : skipBlank ts = t :: u) : ts ≠ [] := by
  rintro rfl
  simp [skipBlank] at h

end

@[simp] lemma front_cons (t : Token) (ts : List Token) : front (t :: ts) = t.kind := rfl

lemma exists_cons_of_front {ts : List Token} {kind : Kind} (h : front ts = kind)
    (hk : kind ≠ .eof) : ∃ pos rest, ts = ⟨kind, pos⟩ :: rest := by
  match ts with
  | [] => exact absurd h.symm hk
  | t :: ts => exact ⟨t.pos, ts, by rw [← h]; rfl⟩

end Grammar

open Grammar (skip skipBlank front levelOf)

/-! ### Cursors -/

namespace Cursor

/-- A cursor has gone forward over tokens of its stream to another place. -/
def Reaches (c c' : Cursor) : Prop :=
  ∃ used, c.rest = used ++ c'.rest ∧ c'.past = used.reverse ++ c.past ∧ c'.beyond = c.beyond

variable {c c₁ c₂ : Cursor}

lemma Reaches.refl (c : Cursor) : c.Reaches c := ⟨[], rfl, rfl, rfl⟩

lemma Reaches.trans (h : c.Reaches c₁) (h' : c₁.Reaches c₂) : c.Reaches c₂ := by
  obtain ⟨u, hr, hp, hb⟩ := h
  obtain ⟨v, hr', hp', hb'⟩ := h'
  refine ⟨u ++ v, ?_, ?_, hb'.trans hb⟩
  · rw [hr, hr', List.append_assoc]
  · rw [hp', hp, List.reverse_append, List.append_assoc]

lemma Reaches.suffix (h : c.Reaches c₁) : c₁.rest <:+ c.rest := by
  obtain ⟨u, hr, -, -⟩ := h
  exact ⟨u, hr.symm⟩

lemma Reaches.index_le (h : c.Reaches c₁) : c.index ≤ c₁.index := by
  obtain ⟨used, -, hp, hb⟩ := h
  rw [index, index, hp, hb, List.length_append, List.length_reverse]
  omega

lemma Reaches.index_lt (h : c.Reaches c₁) (hl : c₁.rest.length < c.rest.length) :
    c.index < c₁.index := by
  obtain ⟨used, hr, hp, hb⟩ := h
  rw [hr, List.length_append] at hl
  rw [index, index, hp, hb, List.length_append, List.length_reverse]
  omega

lemma index_seek (ts : List Token) (i : Nat) : ((ofTokens ts).seek i).index = i := by
  have hs : (ofTokens ts).stream = ts := rfl
  simp only [seek, index, hs, List.length_reverse, List.length_take]
  omega

/-- A place that is reached in a stream is found again by its index. -/
lemma Reaches.eq_seek {ts : List Token} {i : Nat} (h : ((ofTokens ts).seek i).Reaches c) :
    c = (ofTokens ts).seek c.index := by
  obtain ⟨past, rest, beyond⟩ := c
  obtain ⟨used, hr, hp, hb⟩ := h
  have hs : (ofTokens ts).stream = ts := rfl
  simp only [seek, hs, index] at hr hp hb ⊢
  subst hp hb
  rcases le_or_gt i ts.length with hi | hi
  · have hlen : (used.reverse ++ (ts.take i).reverse).length + (i - ts.length) =
        i + used.length := by
      simp only [List.length_append, List.length_reverse, List.length_take]
      omega
    have hused : used.length ≤ ts.length - i := by
      have := congrArg List.length hr
      rw [List.length_drop, List.length_append] at this
      omega
    rw [hlen, List.take_add, ← List.drop_drop, hr, List.take_left, List.drop_left,
      List.reverse_append]
    congr 1
    omega
  · -- nothing is left to be stepped over behind the end of the stream
    rw [List.drop_eq_nil_of_le hi.le, List.nil_eq, List.append_eq_nil_iff] at hr
    obtain ⟨rfl, rfl⟩ := hr
    have hlen : (ts.take i).reverse.length + (i - ts.length) = i := by
      rw [List.length_reverse, List.length_take]
      omega
    rw [List.reverse_nil, List.nil_append, hlen, List.drop_eq_nil_of_le hi.le]

lemma skipOver_eq (past ts : List Token) :
    skipOver past ts = ((ts.takeWhile Token.isWhitespace).reverse ++ past, skip ts) := by
  induction ts generalizing past with
  | nil => rfl
  | cons t ts ih =>
    by_cases h : t.isWhitespace = true
    · simp [skipOver, h, ih, Grammar.skip]
    · simp [skipOver, h, Grammar.skip]

@[simp] lemma rest_skipWhitespace (c : Cursor) : c.skipWhitespace.rest = skip c.rest := by
  simp [skipWhitespace, skipOver_eq]

lemma reaches_skipWhitespace (c : Cursor) : c.Reaches c.skipWhitespace :=
  ⟨c.rest.takeWhile Token.isWhitespace, by simp [Grammar.skip],
    by simp [skipWhitespace, skipOver_eq], rfl⟩

lemma rest_next {t : Token} {ts : List Token} (h : c.rest = t :: ts) : c.next.rest = ts := by
  simp [next, h]

lemma reaches_next {t : Token} {ts : List Token} (h : c.rest = t :: ts) : c.Reaches c.next :=
  ⟨[t], by simp [next, h], by simp [next, h], by simp [next, h]⟩

lemma skipSpace_cases (c : Cursor) :
    c.skipSpace = c ∧ skipBlank c.rest = c.rest ∨
      ∃ t ts, c.rest = t :: ts ∧ c.skipSpace = c.next ∧ skipBlank c.rest = ts := by
  unfold Cursor.skipSpace
  split
  case h_1 pos ts h => exact .inr ⟨_, ts, h, rfl, by rw [h]; rfl⟩
  case h_2 h =>
    refine .inl ⟨rfl, ?_⟩
    unfold Grammar.skipBlank
    split
    case h_1 pos ts h' => exact absurd h' (h pos ts)
    case h_2 => rfl

@[simp] lemma rest_skipSpace (c : Cursor) : c.skipSpace.rest = skipBlank c.rest := by
  rcases skipSpace_cases c with ⟨h, h'⟩ | ⟨t, ts, hr, h, h'⟩
  · rw [h, h']
  · rw [h, h', rest_next hr]

lemma reaches_skipSpace (c : Cursor) : c.Reaches c.skipSpace := by
  rcases skipSpace_cases c with ⟨h, -⟩ | ⟨t, ts, hr, h, -⟩
  · rw [h]
    exact .refl c
  · rw [h]
    exact reaches_next hr

lemma level_eq (prec : Precedence) (c : Cursor) : c.level prec = levelOf prec c.rest := by
  unfold Cursor.level levelOf front
  split
  case h_1 op pos ts h => simp [h]
  case h_2 h =>
    split
    case h_1 op h' =>
      obtain ⟨pos, ts, hr⟩ := Grammar.exists_cons_of_front h' (by simp)
      exact absurd hr (h op pos ts)
    case h_2 => rfl

@[simp] lemma kind_token (c : Cursor) : c.token.kind = front c.rest := rfl

lemma atEnd_of_rest {t : Token} {ts : List Token} (h : c.rest = t :: ts) : c.atEnd = false := by
  simp [atEnd, h]

lemma token_of_rest {t : Token} {ts : List Token} (h : c.rest = t :: ts) : c.token = t := by
  simp [token, h]

end Cursor

namespace Parser

variable {α β : Type} {c c' : Cursor}

/-! ### Without a record -/

@[simp] lemma routine_eq (r : Routine) (p : Parser α) : ParserState.routine r p = p := rfl

@[simp] lemma raising_eq (level : Int) (p : Parser α) : ParserState.raising level p = p := rfl

lemma fail_apply (cause : Cause) : (fail cause : Parser α) c = .error (c.error cause) c := rfl

lemma failAt_apply (cause : Cause) (pos : Int) :
    (failAt cause pos : Parser α) c = .error ⟨cause, pos⟩ c := rfl

lemma current_apply : current c =
    match c.rest with
    | t :: _ => .ok t c
    | []     => .error (c.error .pastLastToken) c := rfl

lemma token_apply : token c = .ok c.token c := rfl

lemma advance_apply : advance c =
    match c.next.rest with
    | _ :: _ => .ok () c.next
    | []     => .error (c.next.error .unexpectedEnd) c.next := rfl

lemma next_apply : next c = .ok () c.next := rfl

lemma skipWhitespace_apply : skipWhitespace c = .ok () c.skipWhitespace := rfl

lemma skipSpace_apply : skipSpace c = .ok () c.skipSpace := rfl

lemma atEnd_apply : atEnd c = .ok c.atEnd c := rfl

lemma level_apply (prec : Precedence) : level prec c = .ok (c.level prec) c := rfl

lemma lastPos_apply : lastPos c = .ok c.lastPos c := rfl

/-! ### Steps that succeed -/

lemma bind_of_ok {p : Parser α} {f : α → Parser β} {x : α} {c₁ : Cursor} (h : p c = .ok x c₁) :
    (p >>= f) c = f x c₁ := by
  simp only [bind, EStateM.bind, h]

lemma bind_of_error {p : Parser α} {f : α → Parser β} {e : SyntaxError} {c₁ : Cursor}
    (h : p c = .error e c₁) : (p >>= f) c = .error e c₁ := by
  simp only [bind, EStateM.bind, h]

lemma bind_eq_ok {p : Parser α} {f : α → Parser β} {y : β} :
    (p >>= f) c = .ok y c' ↔ ∃ x c₁, p c = .ok x c₁ ∧ f x c₁ = .ok y c' := by
  simp only [bind, EStateM.bind]
  cases p c with
  | ok x c₁ =>
    constructor
    · exact fun h => ⟨x, c₁, rfl, h⟩
    · rintro ⟨x', c₁', h, h'⟩
      cases h
      exact h'
  | error e c₁ => simp

lemma pure_eq_ok {x y : α} : (pure x : Parser α) c = .ok y c' ↔ x = y ∧ c = c' := by
  simp [pure, EStateM.pure]

lemma fail_eq_ok {cause : Cause} {y : α} : (fail cause : Parser α) c = .ok y c' ↔ False := by
  simp [fail_apply]

lemma failAt_eq_ok {cause : Cause} {pos : Int} {y : α} :
    (failAt cause pos : Parser α) c = .ok y c' ↔ False := by
  simp [failAt_apply]

lemma current_eq_ok {t : Token} : current c = .ok t c' ↔ (∃ ts, c.rest = t :: ts) ∧ c = c' := by
  rw [current_apply]
  split
  case h_1 u ts h => simp [h]
  case h_2 h => simp [h]

lemma token_eq_ok {t : Token} : token c = .ok t c' ↔ c.token = t ∧ c = c' := by
  simp [token_apply]

lemma next_eq_ok {u : Unit} : next c = .ok u c' ↔ c.next = c' := by
  simp [next_apply]

lemma advance_eq_ok {u : Unit} : advance c = .ok u c' ↔ c.next.rest ≠ [] ∧ c.next = c' := by
  rw [advance_apply]
  split
  case h_1 h => simp [h]
  case h_2 h => simp [h]

lemma skipWhitespace_eq_ok {u : Unit} : skipWhitespace c = .ok u c' ↔ c.skipWhitespace = c' := by
  simp [skipWhitespace_apply]

lemma skipSpace_eq_ok {u : Unit} : skipSpace c = .ok u c' ↔ c.skipSpace = c' := by
  simp [skipSpace_apply]

lemma atEnd_eq_ok {b : Bool} : atEnd c = .ok b c' ↔ c.atEnd = b ∧ c = c' := by
  simp [atEnd_apply]

lemma level_eq_ok {prec : Precedence} {n : Int} :
    level prec c = .ok n c' ↔ levelOf prec c.rest = n ∧ c = c' := by
  simp [level_apply, Cursor.level_eq]

lemma lastPos_eq_ok {n : Int} : lastPos c = .ok n c' ↔ c.lastPos = n ∧ c = c' := by
  simp [lastPos_apply]

/-! ### Steps that fail -/

/-- A parser fails at a cursor for a cause of some kind. -/
def FailsBy (P : Cause → Prop) (p : Parser α) (c : Cursor) : Prop :=
  ∃ e c', p c = .error e c' ∧ P e.cause

variable {P : Cause → Prop}

lemma failsBy_bind {p : Parser α} {f : α → Parser β} :
    FailsBy P (p >>= f) c ↔ FailsBy P p c ∨ ∃ x c₁, p c = .ok x c₁ ∧ FailsBy P (f x) c₁ := by
  simp only [FailsBy, bind, EStateM.bind]
  cases p c with
  | ok x c₁ => simp
  | error e c₁ => simp

lemma failsBy_pure {x : α} : FailsBy P (pure x) c ↔ False := by
  simp [FailsBy, pure, EStateM.pure]

lemma failsBy_fail {cause : Cause} : FailsBy P (fail cause : Parser α) c ↔ P cause := by
  simp [FailsBy, fail_apply, Cursor.error]

lemma failsBy_failAt {cause : Cause} {pos : Int} :
    FailsBy P (failAt cause pos : Parser α) c ↔ P cause := by
  simp [FailsBy, failAt_apply]

lemma failsBy_current : FailsBy P current c ↔ c.rest = [] ∧ P .pastLastToken := by
  simp only [FailsBy, current_apply]
  split
  case h_1 h => simp [h]
  case h_2 h => simp [h, Cursor.error]

lemma failsBy_advance : FailsBy P advance c ↔ c.next.rest = [] ∧ P .unexpectedEnd := by
  simp only [FailsBy, advance_apply]
  split
  case h_1 h => simp [h]
  case h_2 h => simp [h, Cursor.error]

lemma failsBy_token : FailsBy P token c ↔ False := by simp [FailsBy, token_apply]

lemma failsBy_next : FailsBy P next c ↔ False := by simp [FailsBy, next_apply]

/-- The last token of a phrase is stepped over. -/
lemma failsBy_next_pure {x : α} : FailsBy P (next >>= fun _ => pure x) c ↔ False := by
  simp only [failsBy_bind, failsBy_next, failsBy_pure, and_false, exists_false, or_false]

lemma failsBy_skipWhitespace : FailsBy P skipWhitespace c ↔ False := by
  simp [FailsBy, skipWhitespace_apply]

lemma failsBy_skipSpace : FailsBy P skipSpace c ↔ False := by simp [FailsBy, skipSpace_apply]

lemma failsBy_atEnd : FailsBy P atEnd c ↔ False := by simp [FailsBy, atEnd_apply]

lemma failsBy_level {prec : Precedence} : FailsBy P (level prec) c ↔ False := by
  simp [FailsBy, level_apply]

lemma failsBy_lastPos : FailsBy P lastPos c ↔ False := by simp [FailsBy, lastPos_apply]

lemma failsBy_withBudget {p : Nat → Parser α} :
    FailsBy P (withBudget p) c ↔ FailsBy P (p (6 * c.rest.length + 6)) c := Iff.rfl

end Parser

end Frontend
