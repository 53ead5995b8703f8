import Frontend.Proofs.Parser.FirstError
import Frontend.Proofs.Tree.Reading

/-!
# Spacing between tokens

In the body of a definition it matters whether there is whitespace between two tokens, but not of
which tokens it is made: a line end separates no more than a blank does, and statements need not be
on lines of their own. Token lists of the same layout are parsed alike, up to offsets, with the same
statements or an error for the same cause.

Two runs of the parser are kept in step by `Parser.InStep`. They stand at cursors that have the same
layout ahead, and step over the same tokens. Neither of them ever steps over whitespace except over
all that there is, since what they see of a token in front of them is `Blind` to whitespace.

The budgets of the runs differ with the lengths of the lists. A run that is out of budget is in step
with everything, and is excluded at the end.
-/

namespace Frontend

namespace Grammar

/-! ### Layouts -/

/-- The kinds of some tokens, with every run of whitespace condensed to one blank. -/
def condensed : List Token → List Kind
  | []      => []
  | t :: ts =>
    if t.isWhitespace then .space :: (condensed ts).dropWhile (· = .space)
    else t.kind :: condensed ts

/-- Two token lists have the same tokens other than whitespace, up to offsets, and whitespace at the
same places. -/
def SameLayout (ts us : List Token) : Prop := condensed ts = condensed us

instance (ts us : List Token) : Decidable (SameLayout ts us) :=
  inferInstanceAs (Decidable (condensed ts = condensed us))

/-- The number of tokens that are not whitespace. -/
def solidCount (ts : List Token) : Nat := ts.countP fun t => !t.isWhitespace

/-- The tokens from the first one on that is not whitespace and has a number of such tokens in front
of it. -/
def behind : Nat → List Token → List Token
  | 0,     ts => skip ts
  | n + 1, ts => behind n (skip ts).tail

section Layouts

variable {ts us : List Token} {t : Token}

lemma condensed_cons_of_not_whitespace (h : t.isWhitespace = false) (ts : List Token) :
    condensed (t :: ts) = t.kind :: condensed ts := by
  simp [condensed, h]

lemma kind_ne_space (h : t.isWhitespace = false) : t.kind ≠ .space := by
  intro hk
  simp [Token.isWhitespace, hk, Kind.isWhitespace] at h

lemma condensed_skip (ts : List Token) :
    condensed (skip ts) = (condensed ts).dropWhile (· = .space) := by
  induction ts with
  | nil => rfl
  | cons t ts ih =>
    cases h : t.isWhitespace with
    | true =>
      rw [skip_cons_of_whitespace h, condensed, if_pos h, ih,
        List.dropWhile_cons_of_pos (by simp), List.dropWhile_idempotent]
    | false =>
      rw [skip_cons_of_not_whitespace h, condensed_cons_of_not_whitespace h,
        List.dropWhile_cons_of_neg (by simpa using kind_ne_space h)]

lemma condensed_cons_of_whitespace (h : t.isWhitespace = true) (ts : List Token) :
    condensed (t :: ts) = .space :: condensed (skip ts) := by
  rw [condensed, if_pos h, condensed_skip]

lemma condensed_tail_skip (ts : List Token) :
    condensed (skip ts).tail = (condensed (skip ts)).tail := by
  induction ts with
  | nil => rfl
  | cons t ts ih =>
    cases h : t.isWhitespace with
    | true => rwa [skip_cons_of_whitespace h]
    | false =>
      rw [skip_cons_of_not_whitespace h, condensed_cons_of_not_whitespace h, List.tail_cons,
        List.tail_cons]

lemma SameLayout.skip (h : SameLayout ts us) : SameLayout (skip ts) (skip us) := by
  unfold SameLayout at *
  rw [condensed_skip, condensed_skip, h]

lemma SameLayout.behind (h : SameLayout ts us) (n : Nat) :
    SameLayout (behind n ts) (behind n us) := by
  induction n generalizing ts us with
  | zero => exact h.skip
  | succ n ih =>
    have hskip := h.skip
    unfold SameLayout at ih hskip
    exact ih (by rw [condensed_tail_skip, condensed_tail_skip, hskip])

/-- What is behind some tokens depends only on how many of them are not whitespace. -/
lemma skip_drop (ts : List Token) (i : Nat) :
    skip (ts.drop i) = behind (solidCount (ts.take i)) ts := by
  induction ts generalizing i with
  | nil => simp [solidCount, behind]
  | cons t ts ih =>
    cases i with
    | zero => rfl
    | succ i =>
      rw [List.drop_succ_cons, List.take_succ_cons, ih]
      cases h : t.isWhitespace with
      | true =>
        have hs : solidCount (t :: ts.take i) = solidCount (ts.take i) := by simp [solidCount, h]
        rw [hs]
        cases solidCount (ts.take i) with
        | zero => exact (skip_cons_of_whitespace h ts).symm
        | succ n => rw [behind, behind, skip_cons_of_whitespace h]
      | false =>
        have hs : solidCount (t :: ts.take i) = solidCount (ts.take i) + 1 := by
          simp [solidCount, h]
        rw [hs, behind, skip_cons_of_not_whitespace h, List.tail_cons]

/-- The parsers of two bodies see the same tokens from corresponding places on. -/
lemma SameLayout.skip_drop (h : SameLayout ts us) {i j : Nat}
    (hij : solidCount (ts.take i) = solidCount (us.take j)) :
    SameLayout (Grammar.skip (ts.drop i)) (Grammar.skip (us.drop j)) := by
  rw [Grammar.skip_drop, Grammar.skip_drop, hij]
  exact h.behind _

/-- Blanks are not counted. -/
lemma solidCount_eq_countP (ts : List Token) :
    solidCount ts = (condensed ts).countP (· ≠ .space) := by
  induction ts with
  | nil => rfl
  | cons t ts ih =>
    rw [solidCount, List.countP_cons, ← solidCount, ih]
    cases h : t.isWhitespace with
    | true =>
      have hblank : ((condensed ts).takeWhile (· = .space)).countP (· ≠ .space) = 0 := by
        refine List.countP_eq_zero.2 fun k hk => ?_
        simpa using List.mem_takeWhile_imp hk
      conv_lhs => rw [← List.takeWhile_append_dropWhile (p := (· = .space)) (l := condensed ts)]
      rw [List.countP_append, hblank, condensed, if_pos h]
      simp
    | false =>
      rw [condensed_cons_of_not_whitespace h, List.countP_cons]
      simp [kind_ne_space h]

lemma SameLayout.solidCount_eq (h : SameLayout ts us) : solidCount ts = solidCount us := by
  unfold SameLayout at h
  rw [solidCount_eq_countP, solidCount_eq_countP, h]

/-- What is in front of places with the same layout behind them is as long. -/
lemma SameLayout.solidCount_take (h : SameLayout ts us) {i j : Nat}
    (hij : SameLayout (ts.drop i) (us.drop j)) :
    solidCount (ts.take i) = solidCount (us.take j) := by
  have hts : solidCount ts = solidCount (ts.take i) + solidCount (ts.drop i) := by
    rw [solidCount, solidCount, solidCount, ← List.countP_append, List.take_append_drop]
  have hus : solidCount us = solidCount (us.take j) + solidCount (us.drop j) := by
    rw [solidCount, solidCount, solidCount, ← List.countP_append, List.take_append_drop]
  have := h.solidCount_eq
  have := hij.solidCount_eq
  omega

end Layouts

end Grammar

open Grammar (SameLayout condensed condensed_cons_of_whitespace condensed_cons_of_not_whitespace
  kind_ne_space)

/-! ### Cursors -/

namespace Cursor

variable {c d : Cursor}

/-- Two cursors have the same layout ahead. -/
def Alike (c d : Cursor) : Prop := SameLayout c.rest d.rest

/-- What two cursors with the same layout ahead stand at. -/
inductive Front (c d : Cursor) : Prop
  | ending (hc : c.rest = []) (hd : d.rest = [])
  | gap {t u : Token} {ts us : List Token} (hc : c.rest = t :: ts) (hd : d.rest = u :: us)
      (ht : t.isWhitespace = true) (hu : u.isWhitespace = true)
  | token {kind : Kind} {pos pos' : Int} {ts us : List Token} (hc : c.rest = ⟨kind, pos⟩ :: ts)
      (hd : d.rest = ⟨kind, pos'⟩ :: us) (h : c.next.Alike d.next)

lemma Alike.front (h : c.Alike d) : c.Front d := by
  have hcons (t : Token) (ts : List Token) : condensed (t :: ts) ≠ [] := by
    rw [condensed]
    split_ifs <;> simp
  unfold Alike SameLayout at h
  cases hc : c.rest with
  | nil =>
    cases hd : d.rest with
    | nil => exact .ending hc hd
    | cons u us =>
      rw [hc, hd] at h
      exact absurd h.symm (hcons u us)
  | cons t ts =>
    cases hd : d.rest with
    | nil =>
      rw [hc, hd] at h
      exact absurd h (hcons t ts)
    | cons u us =>
      rw [hc, hd] at h
      -- whitespace condenses to one token, so it stands in front of both cursors or of neither
      cases ht : t.isWhitespace <;> cases hu : u.isWhitespace
      · rw [condensed_cons_of_not_whitespace ht, condensed_cons_of_not_whitespace hu] at h
        obtain ⟨kind, pos⟩ := t
        obtain ⟨kind', pos'⟩ := u
        obtain ⟨hk, h⟩ := List.cons.inj h
        obtain rfl : kind = kind' := hk
        refine .token hc hd ?_
        rwa [Alike, rest_next hc, rest_next hd]
      · rw [condensed_cons_of_not_whitespace ht, condensed_cons_of_whitespace hu] at h
        exact absurd (List.cons.inj h).1 (kind_ne_space ht)
      · rw [condensed_cons_of_whitespace ht, condensed_cons_of_not_whitespace hu] at h
        exact absurd (List.cons.inj h).1.symm (kind_ne_space hu)
      · exact .gap hc hd ht hu

lemma Alike.skipWhitespace (h : c.Alike d) : c.skipWhitespace.Alike d.skipWhitespace := by
  rw [Alike, rest_skipWhitespace, rest_skipWhitespace]
  exact SameLayout.skip h

lemma level_of_whitespace {t : Token} {ts : List Token} (hc : c.rest = t :: ts)
    (ht : t.isWhitespace = true) (prec : Precedence) : c.level prec = -1 := by
  obtain ⟨kind, pos⟩ := t
  rw [Cursor.level_eq, hc]
  cases kind with
  | space | newline => rfl
  | _ => cases ht

lemma Alike.level_eq (h : c.Alike d) (prec : Precedence) : c.level prec = d.level prec := by
  cases h.front with
  | ending hc hd => rw [Cursor.level_eq, Cursor.level_eq, hc, hd]
  | gap hc hd ht hu => rw [level_of_whitespace hc ht, level_of_whitespace hd hu]
  | token hc hd =>
    rw [Cursor.level_eq, Cursor.level_eq, hc, hd]
    rfl

lemma Alike.atEnd_eq (h : c.Alike d) : c.atEnd = d.atEnd := by
  cases h.front with
  | ending hc hd => rw [atEnd, atEnd, hc, hd]
  | gap hc hd | token hc hd => rw [atEnd_of_rest hc, atEnd_of_rest hd]

end Cursor

namespace Parser

variable {α β γ δ : Type} {R : α → β → Prop} {S : γ → δ → Prop} {c d : Cursor}

/-! ### Trees that are the same up to offsets -/

/-- Two trees are the same, up to offsets. -/
def SameTree (x y : Node) : Prop := x.erase = y.erase

/-- Two lists of trees are the same, up to offsets. -/
def SameTrees (xs ys : List Node) : Prop := xs.map Node.erase = ys.map Node.erase

/-- Two lists of arguments are the same, wherever they are closed. -/
def SameArgs (xs ys : List Node × Int) : Prop := SameTrees xs.1 ys.1

section Trees

variable {x y x' y' : Node} {xs ys : List Node}

lemma SameTrees.cons (h : SameTree x y) (hs : SameTrees xs ys) :
    SameTrees (x :: xs) (y :: ys) := by
  unfold SameTree at h
  unfold SameTrees at *
  rw [List.map_cons, List.map_cons, h, hs]

lemma SameTrees.reverse (h : SameTrees xs ys) : SameTrees xs.reverse ys.reverse := by
  unfold SameTrees at *
  rw [List.map_reverse, List.map_reverse, h]

lemma sameTree_call (s s' : Span) (fn : Text) (h : SameTrees xs ys) :
    SameTree (.call s fn xs) (.call s' fn ys) := by
  unfold SameTrees at h
  rw [SameTree, Node.erase, Node.erase, Node.eraseAll_eq_map, Node.eraseAll_eq_map, h]

lemma sameTree_assign (s s' : Span) (name : Text) (h : SameTree x y) :
    SameTree (.assign s name x) (.assign s' name y) := by
  unfold SameTree at *
  rw [Node.erase, Node.erase, h]

lemma sameTree_send (s s' : Span) (h : SameTree x y) (h' : SameTree x' y') :
    SameTree (.send s x x') (.send s' y y') := by
  unfold SameTree at *
  rw [Node.erase, Node.erase, h, h']

lemma sameTree_binary (s s' : Span) (op : Int) (h : SameTree x y) (h' : SameTree x' y') :
    SameTree (.binary s op x x') (.binary s' op y y') := by
  unfold SameTree at *
  rw [Node.erase, Node.erase, h, h']

/-- Types do not depend on offsets. -/
lemma SameTrees.classOf_eq (h : SameTrees xs ys) (params : List Param) :
    Scope.classOf ⟨params, xs⟩ = Scope.classOf ⟨params, ys⟩ := by
  unfold SameTrees at h
  rw [← Grammar.classOf_erase params xs, ← Grammar.classOf_erase params ys, h]

end Trees

/-! ### Two runs in step -/

/-- Two runs end alike: with values that correspond at cursors with the same layout ahead, or with
errors for one cause. Nothing is said where a run is out of budget. -/
inductive EndAlike (R : α → β → Prop) :
    EStateM.Result SyntaxError Cursor α → EStateM.Result SyntaxError Cursor β → Prop
  | ok {x : α} {y : β} {c d : Cursor} (h : R x y) (hc : c.Alike d) : EndAlike R (.ok x c) (.ok y d)
  | error {e e' : SyntaxError} {c d : Cursor} (h : e.cause = e'.cause) :
      EndAlike R (.error e c) (.error e' d)
  | spentLeft {e : SyntaxError} {c : Cursor} {r : EStateM.Result SyntaxError Cursor β}
      (h : e.cause = .outOfBudget) : EndAlike R (.error e c) r
  | spentRight {e : SyntaxError} {d : Cursor} {r : EStateM.Result SyntaxError Cursor α}
      (h : e.cause = .outOfBudget) : EndAlike R r (.error e d)

/-- Two parsers go from two cursors to ends that are alike. -/
def InStep (R : α → β → Prop) (p : Parser α) (c : Cursor) (q : Parser β) (d : Cursor) : Prop :=
  EndAlike R (p c) (q d)

/-- A parser that goes on from a token goes on from whitespace as from the end of the input. -/
structure Blind (f : Token → Parser γ) : Prop where
  space (pos : Int) : f ⟨.space, pos⟩ = f .eof
  newline (pos : Int) : f ⟨.newline, pos⟩ = f .eof

lemma Blind.eq {f : Token → Parser γ} (h : Blind f) {t : Token} (ht : t.isWhitespace = true) :
    f t = f .eof := by
  obtain ⟨kind, pos⟩ := t
  cases kind with
  | space => exact h.space pos
  | newline => exact h.newline pos
  | _ => cases ht

lemma InStep.bind {p : Parser α} {q : Parser β} {f : α → Parser γ} {g : β → Parser δ}
    (h : InStep R p c q d)
    (hfg : ∀ x y c' d', R x y → c'.Alike d' → InStep S (f x) c' (g y) d') :
    InStep S (p >>= f) c (q >>= g) d := by
  rw [InStep] at h
  simp only [InStep, EStateM.bind, Bind.bind]
  generalize p c = a, q d = b at h
  cases h with
  | ok hxy hcd => exact hfg _ _ _ _ hxy hcd
  | error h => exact .error h
  | spentLeft h => exact .spentLeft h
  | spentRight h =>
    cases a with
    | ok | error => exact .spentRight h

lemma inStep_pure {x : α} {y : β} (h : R x y) (hc : c.Alike d) :
    InStep R (pure x) c (pure y) d := .ok h hc

lemma inStep_fail (cause : Cause) : InStep R (fail cause) c (fail cause) d := .error rfl

lemma inStep_failAt (cause : Cause) (pos pos' : Int) :
    InStep R (failAt cause pos) c (failAt cause pos') d := .error rfl

lemma inStep_withBudget {p : Nat → Parser α} {q : Nat → Parser β}
    (h : ∀ n m, InStep R (p n) c (q m) d) : InStep R (withBudget p) c (withBudget q) d := h _ _

section Steps

variable {f : Unit → Parser γ} {g : Unit → Parser δ}

lemma inStep_next_bind (h : InStep S (f ()) c.next (g ()) d.next) :
    InStep S (next >>= f) c (next >>= g) d := h

lemma inStep_skipWhitespace_bind (h : InStep S (f ()) c.skipWhitespace (g ()) d.skipWhitespace) :
    InStep S (skipWhitespace >>= f) c (skipWhitespace >>= g) d := h

lemma inStep_advance_bind (hc : c.next.Alike d.next)
    (h : InStep S (f ()) c.next (g ()) d.next) : InStep S (advance >>= f) c (advance >>= g) d := by
  have hok {c : Cursor} {t : Token} {ts : List Token} (hr : c.next.rest = t :: ts) :
      advance c = .ok () c.next := by
    rw [advance_apply, hr]
  have hend {c : Cursor} (hr : c.next.rest = []) :
      advance c = .error (c.next.error .unexpectedEnd) c.next := by
    rw [advance_apply, hr]
  cases hc.front with
  | ending hr hs =>
    rw [InStep, bind_of_error (hend hr), bind_of_error (hend hs)]
    exact .error rfl
  | gap hr hs | token hr hs =>
    rw [InStep, bind_of_ok (hok hr), bind_of_ok (hok hs)]
    exact h

lemma inStep_level_bind {prec : Precedence} {f : Int → Parser γ} {g : Int → Parser δ}
    (hc : c.Alike d) (h : ∀ n, InStep S (f n) c (g n) d) :
    InStep S (level prec >>= f) c (level prec >>= g) d := by
  change InStep S (f (c.level prec)) c (g (d.level prec)) d
  rw [hc.level_eq]
  exact h _

lemma inStep_atEnd_bind {f : Bool → Parser γ} {g : Bool → Parser δ} (hc : c.Alike d)
    (h : ∀ b, InStep S (f b) c (g b) d) : InStep S (atEnd >>= f) c (atEnd >>= g) d := by
  change InStep S (f c.atEnd) c (g d.atEnd) d
  rw [hc.atEnd_eq]
  exact h _

end Steps

section Tokens

variable {f : Token → Parser γ} {g : Token → Parser δ}

/-- The two runs see the same token, or do the same as at the end of the input. Only in front of a
token is the layout the same behind it: one run may stand at the last blank of a gap and the other
one at the first. -/
lemma inStep_token_bind (hc : c.Alike d) (hf : Blind f) (hg : Blind g)
    (h : ∀ kind pos pos', (kind ≠ .eof → c.next.Alike d.next) →
      InStep S (f ⟨kind, pos⟩) c (g ⟨kind, pos'⟩) d) :
    InStep S (token >>= f) c (token >>= g) d := by
  have hend : InStep S (f .eof) c (g .eof) d := h .eof (-1) (-1) (absurd rfl)
  change InStep S (f c.token) c (g d.token) d
  -- whitespace is shown to both as the end of the input, for which nothing is known of what follows
  cases hc.front with
  | ending hr hs => rwa [Cursor.token, Cursor.token, hr, hs]
  | gap hr hs ht hu =>
    rwa [Cursor.token_of_rest hr, Cursor.token_of_rest hs, hf.eq ht, hg.eq hu]
  | token hr hs hn =>
    rw [Cursor.token_of_rest hr, Cursor.token_of_rest hs]
    exact h _ _ _ fun _ => hn

/-- Past the end of the input both runs fail, and else they see a token. -/
lemma inStep_current_bind (hc : c.Alike d) (hf : Blind f) (hg : Blind g)
    (h : ∀ kind pos pos', (kind ≠ .eof → c.next.Alike d.next) →
      InStep S (f ⟨kind, pos⟩) c (g ⟨kind, pos'⟩) d) :
    InStep S (current >>= f) c (current >>= g) d := by
  have hok {c : Cursor} {t : Token} {ts : List Token} (hr : c.rest = t :: ts) :
      current c = token c := by
    rw [current_apply, hr, token_apply, Cursor.token_of_rest hr]
  have hend {c : Cursor} (hr : c.rest = []) :
      current c = .error (c.error .pastLastToken) c := by
    rw [current_apply, hr]
  have hsame := inStep_token_bind hc hf hg h
  cases hc.front with
  | ending hr hs =>
    rw [InStep, bind_of_error (hend hr), bind_of_error (hend hs)]
    exact .error rfl
  | gap hr hs | token hr hs =>
    simp only [InStep, Bind.bind, EStateM.bind] at hsame ⊢
    rwa [hok hr, hok hs]

end Tokens

/-! ### Expressions -/

/-- The runs of all parsers of expressions with two budgets are in step, where they know the same
types and continue the same trees, up to offsets. -/
structure InStepAll (prec : Precedence) (n m : Nat) : Prop where
  expr {s s' : Scope} {c d : Cursor} : s.classOf = s'.classOf → c.Alike d →
    InStep SameTree (expr prec n s) c (expr prec m s') d
  unary {s s' : Scope} {c d : Cursor} : s.classOf = s'.classOf → c.Alike d →
    InStep SameTree (unary prec n s) c (unary prec m s') d
  primary {s s' : Scope} {c d : Cursor} : s.classOf = s'.classOf → c.Alike d →
    InStep SameTree (primary prec n s) c (primary prec m s') d
  atom {s s' : Scope} {c d : Cursor} : s.classOf = s'.classOf → c.Alike d →
    InStep SameTree (atom prec n s) c (atom prec m s') d
  sends {s s' : Scope} {x y : Node} {c d : Cursor} : s.classOf = s'.classOf → SameTree x y →
    c.Alike d → InStep SameTree (sends prec n s x) c (sends prec m s' y) d
  named {s s' : Scope} {c d : Cursor} : s.classOf = s'.classOf → c.Alike d →
    InStep SameTree (named prec n s) c (named prec m s') d
  argList {s s' : Scope} {c d : Cursor} : s.classOf = s'.classOf → c.Alike d →
    InStep SameArgs (argList prec n s) c (argList prec m s') d
  args {s s' : Scope} {done done' : List Node} {c d : Cursor} : s.classOf = s'.classOf →
    SameTrees done done' → c.Alike d →
    InStep SameArgs (args prec n s done) c (args prec m s' done') d
  paren {s s' : Scope} {c d : Cursor} : s.classOf = s'.classOf → c.Alike d →
    InStep SameTree (paren prec n s) c (paren prec m s') d
  binary {s s' : Scope} {x y : Node} {c d : Cursor} (least : Int) : s.classOf = s'.classOf →
    SameTree x y → c.Alike d →
    InStep SameTree (binary prec n s least x) c (binary prec m s' least y) d
  tighter {s s' : Scope} {x y : Node} {c d : Cursor} (cur ahead : Int) : s.classOf = s'.classOf →
    SameTree x y → c.Alike d →
    InStep SameTree (tighter prec n s cur ahead x) c (tighter prec m s' cur ahead y) d

section Expressions

variable {prec : Precedence} {n m : Nat} {s s' : Scope} {x y : Node}

lemma inStepAll_zero_left (m : Nat) : InStepAll prec 0 m := by
  constructor
  all_goals
    intros
    exact .spentLeft rfl

lemma inStepAll_zero_right (n : Nat) : InStepAll prec n 0 := by
  constructor
  all_goals
    intros
    exact .spentRight rfl

lemma InStepAll.expr_succ (ih : InStepAll prec n m) (hs : s.classOf = s'.classOf)
    (hc : c.Alike d) :
    InStep SameTree (Parser.expr prec (n + 1) s) c (Parser.expr prec (m + 1) s') d :=
  (ih.unary hs hc).bind fun _ _ _ _ hx hc => inStep_skipWhitespace_bind <|
    ih.binary 0 hs hx hc.skipWhitespace

lemma InStepAll.unary_succ (ih : InStepAll prec n m) (hs : s.classOf = s'.classOf)
    (hc : c.Alike d) :
    InStep SameTree (Parser.unary prec (n + 1) s) c (Parser.unary prec (m + 1) s') d := by
  refine inStep_current_bind hc ⟨fun _ => rfl, fun _ => rfl⟩ ⟨fun _ => rfl, fun _ => rfl⟩ ?_
  intro kind pos pos' hn
  cases kind with
  | operator op =>
    have hn := hn (by simp)
    refine inStep_advance_bind hn ((ih.unary hs hn).bind fun x y c d hx hc => ?_)
    exact inStep_pure (sameTree_call _ _ _ (.cons hx rfl)) hc
  | _ => exact ih.primary hs hc

lemma InStepAll.primary_succ (ih : InStepAll prec n m) (hs : s.classOf = s'.classOf)
    (hc : c.Alike d) :
    InStep SameTree (Parser.primary prec (n + 1) s) c (Parser.primary prec (m + 1) s') d := by
  rw [Grammar.primary_succ, Grammar.primary_succ]
  refine (ih.atom hs hc).bind fun _ _ _ _ hx hc => inStep_skipWhitespace_bind ?_
  exact ih.sends hs hx hc.skipWhitespace

lemma InStepAll.atom_succ (ih : InStepAll prec n m) (hs : s.classOf = s'.classOf)
    (hc : c.Alike d) :
    InStep SameTree (Parser.atom prec (n + 1) s) c (Parser.atom prec (m + 1) s') d := by
  refine inStep_token_bind hc ⟨fun _ => rfl, fun _ => rfl⟩ ⟨fun _ => rfl, fun _ => rfl⟩ ?_
  intro kind pos pos' hn
  cases kind with
  | identifier => exact ih.named hs hc
  | leftParen => exact ih.paren hs hc
  | number | string | selfWord => exact inStep_next_bind (inStep_pure rfl (hn (by simp)))
  | _ => exact inStep_fail _

lemma InStepAll.sends_succ (ih : InStepAll prec n m) (hs : s.classOf = s'.classOf)
    (hx : SameTree x y) (hc : c.Alike d) :
    InStep SameTree (Parser.sends prec (n + 1) s x) c (Parser.sends prec (m + 1) s' y) d := by
  refine inStep_token_bind hc ⟨fun _ => rfl, fun _ => rfl⟩ ⟨fun _ => rfl, fun _ => rfl⟩ ?_
  intro kind pos pos' hn
  cases kind with
  | dot =>
    have hn := hn (by simp)
    refine inStep_next_bind ?_
    refine inStep_token_bind hn ⟨fun _ => rfl, fun _ => rfl⟩ ⟨fun _ => rfl, fun _ => rfl⟩ ?_
    intro kind pos pos' _
    cases kind with
    | identifier =>
      refine (ih.named hs hn).bind fun msg msg' c d hmsg hc => inStep_skipWhitespace_bind ?_
      exact ih.sends hs (sameTree_send _ _ hx hmsg) hc.skipWhitespace
    | _ => exact inStep_fail _
  | _ => exact inStep_pure hx hc

lemma InStepAll.named_succ (ih : InStepAll prec n m) (hs : s.classOf = s'.classOf)
    (hc : c.Alike d) :
    InStep SameTree (Parser.named prec (n + 1) s) c (Parser.named prec (m + 1) s') d := by
  refine inStep_token_bind hc ⟨fun _ => rfl, fun _ => rfl⟩ ⟨fun _ => rfl, fun _ => rfl⟩ ?_
  intro kind start start' hn
  cases kind with
  | identifier name =>
    have hn := (hn (by simp)).skipWhitespace
    -- the cursors stand behind the whitespace that may separate a name from what it is used for
    refine inStep_next_bind (inStep_skipWhitespace_bind ?_)
    refine inStep_token_bind hn ⟨fun _ => rfl, fun _ => rfl⟩ ⟨fun _ => rfl, fun _ => rfl⟩ ?_
    intro kind pos pos' hn'
    cases kind with
    | leftParen =>
      have hn' := hn' (by simp)
      refine inStep_advance_bind hn' ((ih.argList hs hn').bind fun xs ys c d hxs hc => ?_)
      exact inStep_pure (sameTree_call _ _ _ hxs) hc
    | assign =>
      have hn' := hn' (by simp)
      refine inStep_advance_bind hn' (inStep_skipWhitespace_bind ?_)
      refine (ih.expr hs hn'.skipWhitespace).bind fun x y c d hx hc => ?_
      exact inStep_pure (sameTree_assign _ _ _ hx) hc
    | _ =>
      dsimp only
      rw [hs]
      cases s'.classOf name with
      | ok className => exact inStep_pure rfl hn
      | error cause => exact inStep_failAt cause start start'
  | _ => exact inStep_fail _

lemma InStepAll.argList_succ (ih : InStepAll prec n m) (hs : s.classOf = s'.classOf)
    (hc : c.Alike d) :
    InStep SameArgs (Parser.argList prec (n + 1) s) c (Parser.argList prec (m + 1) s') d := by
  refine inStep_skipWhitespace_bind ?_
  refine inStep_token_bind hc.skipWhitespace ⟨fun _ => rfl, fun _ => rfl⟩
    ⟨fun _ => rfl, fun _ => rfl⟩ ?_
  intro kind pos pos' hn
  cases kind with
  | rightParen => exact inStep_next_bind (inStep_pure rfl (hn (by simp)))
  | _ => exact ih.args hs rfl hc.skipWhitespace

lemma InStepAll.args_succ (ih : InStepAll prec n m) {done done' : List Node}
    (hs : s.classOf = s'.classOf) (hd : SameTrees done done') (hc : c.Alike d) :
    InStep SameArgs (Parser.args prec (n + 1) s done) c
      (Parser.args prec (m + 1) s' done') d := by
  refine inStep_skipWhitespace_bind ((ih.expr hs hc.skipWhitespace).bind fun x y c d hx hc => ?_)
  refine inStep_skipWhitespace_bind ?_
  refine inStep_token_bind hc.skipWhitespace ⟨fun _ => rfl, fun _ => rfl⟩
    ⟨fun _ => rfl, fun _ => rfl⟩ ?_
  intro kind pos pos' hn
  cases kind with
  | rightParen =>
    exact inStep_next_bind (inStep_pure (SameTrees.reverse (.cons hx hd)) (hn (by simp)))
  | comma => exact inStep_next_bind (ih.args hs (.cons hx hd) (hn (by simp)))
  | _ => exact inStep_fail _

lemma InStepAll.paren_succ (ih : InStepAll prec n m) (hs : s.classOf = s'.classOf)
    (hc : c.Alike d) :
    InStep SameTree (Parser.paren prec (n + 1) s) c (Parser.paren prec (m + 1) s') d := by
  refine inStep_current_bind hc ⟨fun _ => rfl, fun _ => rfl⟩ ⟨fun _ => rfl, fun _ => rfl⟩ ?_
  intro kind pos pos' hn
  cases kind with
  | leftParen =>
    have hn := hn (by simp)
    refine inStep_advance_bind hn ((ih.expr hs hn).bind fun x y c d hx hc => ?_)
    refine inStep_skipWhitespace_bind ?_
    refine inStep_current_bind hc.skipWhitespace ⟨fun _ => rfl, fun _ => rfl⟩
      ⟨fun _ => rfl, fun _ => rfl⟩ ?_
    intro kind pos pos' hn
    cases kind with
    | rightParen =>
      have hn := hn (by simp)
      exact inStep_advance_bind hn (inStep_pure hx hn)
    | _ => exact inStep_fail _
  | _ => exact inStep_fail _

lemma InStepAll.binary_succ (ih : InStepAll prec n m) (least : Int) (hs : s.classOf = s'.classOf)
    (hx : SameTree x y) (hc : c.Alike d) :
    InStep SameTree (Parser.binary prec (n + 1) s least x) c
      (Parser.binary prec (m + 1) s' least y) d := by
  refine inStep_token_bind hc ⟨fun _ => rfl, fun _ => rfl⟩ ⟨fun _ => rfl, fun _ => rfl⟩ ?_
  intro kind pos pos' _
  split_ifs with hend
  · exact inStep_pure hx hc
  refine inStep_level_bind hc fun cur => inStep_atEnd_bind hc fun done => ?_
  split_ifs with hstop
  · exact inStep_pure hx hc
  refine inStep_token_bind hc ⟨fun _ => rfl, fun _ => rfl⟩ ⟨fun _ => rfl, fun _ => rfl⟩ ?_
  intro kind pos pos' hn
  cases kind with
  | operator op =>
    have hn := hn (by simp)
    refine inStep_advance_bind hn (inStep_skipWhitespace_bind ?_)
    refine (ih.unary hs hn.skipWhitespace).bind fun x₁ y₁ c d hx₁ hc => ?_
    refine inStep_level_bind hc fun ahead => inStep_skipWhitespace_bind ?_
    refine (ih.tighter cur ahead hs hx₁ hc.skipWhitespace).bind fun right right' c d hr hc => ?_
    exact ih.binary least hs (sameTree_binary _ _ op hx hr) hc
  | _ => exact inStep_fail _

lemma InStepAll.tighter_succ (ih : InStepAll prec n m) (cur ahead : Int)
    (hs : s.classOf = s'.classOf) (hx : SameTree x y) (hc : c.Alike d) :
    InStep SameTree (Parser.tighter prec (n + 1) s cur ahead x) c
      (Parser.tighter prec (m + 1) s' cur ahead y) d := by
  simp only [Parser.tighter, raising_eq, routine_eq]
  split_ifs
  · exact ih.binary _ hs hx hc
  · exact inStep_pure hx hc

lemma inStepAll (prec : Precedence) (n m : Nat) : InStepAll prec n m := by
  induction n generalizing m with
  | zero => exact inStepAll_zero_left m
  | succ n ih =>
    cases m with
    | zero => exact inStepAll_zero_right (n + 1)
    | succ m =>
      have ih := ih m
      exact ⟨ih.expr_succ, ih.unary_succ, ih.primary_succ, ih.atom_succ, ih.sends_succ,
        ih.named_succ, ih.argList_succ, ih.args_succ, ih.paren_succ, ih.binary_succ,
        ih.tighter_succ⟩

lemma inStep_expression (hs : s.classOf = s'.classOf) (hc : c.Alike d) :
    InStep SameTree (expression prec s) c (expression prec s') d :=
  inStep_withBudget fun n m => (inStepAll prec n m).expr hs hc

end Expressions

/-! ### Statements -/

/-- Whitespace in front of a statement means nothing, so the cursors may stand in it anywhere. -/
lemma inStep_statements {prec : Precedence} {n m : Nat} (proto : Prototype) {done done' : List Node}
    (hd : SameTrees done done') (hc : c.skipWhitespace.Alike d.skipWhitespace) :
    InStep SameTrees (statements prec n proto done) c (statements prec m proto done') d := by
  induction n generalizing m done done' c d with
  | zero => exact .spentLeft rfl
  | succ n ih =>
    cases m with
    | zero => exact .spentRight rfl
    | succ m =>
      refine inStep_skipWhitespace_bind ?_
      refine inStep_current_bind hc ⟨fun _ => rfl, fun _ => rfl⟩ ⟨fun _ => rfl, fun _ => rfl⟩ ?_
      intro kind pos pos' hn
      cases kind with
      | endWord =>
        -- a body that has statements takes its `end`, and both bodies have as many
        cases done with
        | nil =>
          cases done' with
          | nil => exact inStep_pure rfl hc
          | cons => simp [SameTrees] at hd
        | cons =>
          cases done' with
          | nil => simp [SameTrees] at hd
          | cons => exact inStep_next_bind (inStep_pure hd.reverse (hn (by simp)))
      | _ =>
        refine (inStep_expression (hd.classOf_eq proto.params) hc).bind fun x y c d hx hc => ?_
        exact ih (.cons hx hd) hc.skipWhitespace

end Parser

namespace Grammar

/-- Two runs over token lists end alike: with the same trees, up to offsets, at corresponding
places, or with errors of the grammar for one cause. -/
inductive SameOutcome (ts us : List Token) :
    EStateM.Result SyntaxError Cursor (List Node) →
    EStateM.Result SyntaxError Cursor (List Node) → Prop
  | ok {xs ys : List Node} {k l : Nat} (hx : xs.map Node.erase = ys.map Node.erase)
      (hkl : solidCount (ts.take k) = solidCount (us.take l))
      (h : SameLayout (ts.drop k) (us.drop l)) :
      SameOutcome ts us (.ok xs ((Cursor.ofTokens ts).seek k))
        (.ok ys ((Cursor.ofTokens us).seek l))
  | error {e e' : SyntaxError} {c d : Cursor} (h : e.cause = e'.cause)
      (hb : e.cause ≠ .outOfBudget) : SameOutcome ts us (.error e c) (.error e' d)

/-- The statements of a body, read from a place in a token list. -/
def bodyAt (prec : Precedence) (proto : Prototype) (ts : List Token) (i : Nat) :
    EStateM.Result SyntaxError Cursor (List Node) :=
  Parser.withBudget (fun n => Parser.statements prec n proto []) ((Cursor.ofTokens ts).seek i)

section Bodies

variable {prec : Precedence} {proto : Prototype} {ts us : List Token} {i : Nat}

lemma seek_of_bodyAt {xs : List Node} {c : Cursor} (h : bodyAt prec proto ts i = .ok xs c) :
    ∃ k, c = (Cursor.ofTokens ts).seek k := by
  obtain ⟨_, -, -, hreach⟩ := reads_of_statements h
  exact ⟨_, hreach.eq_seek⟩

lemma cause_of_bodyAt {e : SyntaxError} {c : Cursor} (h : bodyAt prec proto ts i = .error e c) :
    e.cause ≠ .outOfBudget :=
  ((Logged.follows_body proto).objects h).ne_outOfBudget

end Bodies

/-- The layout of a body means nothing but the places of its whitespace: from corresponding places
of token lists with the same layout, the same statements are read up to corresponding places, or
both runs fail for the same cause, so with the same kind of error and the same message. -/
theorem bodyAt_congr_layout (prec : Precedence) (proto : Prototype) {ts us : List Token}
    (h : SameLayout ts us) {i j : Nat} (hij : solidCount (ts.take i) = solidCount (us.take j)) :
    SameOutcome ts us (bodyAt prec proto ts i) (bodyAt prec proto us j) := by
  have hc : ((Cursor.ofTokens ts).seek i).skipWhitespace.Alike
      ((Cursor.ofTokens us).seek j).skipWhitespace := by
    rw [Cursor.Alike, Cursor.rest_skipWhitespace, Cursor.rest_skipWhitespace]
    exact h.skip_drop hij
  have hsame : Parser.EndAlike Parser.SameTrees (bodyAt prec proto ts i) (bodyAt prec proto us j) :=
    Parser.inStep_withBudget fun n m => Parser.inStep_statements proto rfl hc
  generalize hl : bodyAt prec proto ts i = a at hsame ⊢
  generalize hr : bodyAt prec proto us j = b at hsame ⊢
  cases hsame with
  | ok hx hcd =>
    obtain ⟨k, rfl⟩ := seek_of_bodyAt hl
    obtain ⟨l, rfl⟩ := seek_of_bodyAt hr
    exact .ok hx (h.solidCount_take hcd) hcd
  | error he => exact .error he (cause_of_bodyAt hl)
  | spentLeft he => exact absurd he (cause_of_bodyAt hl)
  | spentRight he => exact absurd he (cause_of_bodyAt hr)

/-- Statements on lines of their own, and the same ones with line ends between other tokens. -/
theorem bodyAt_congr_layout_lines : ∃ ts us,
    Lexer.tokens (Text.ofString "def f\n  x = 1\n  g(x, 2) .h(x) +3\nend") 0 = .ok ts ∧
    Lexer.tokens (Text.ofString "def f\nx\n=\n1 g(x,\n2)\n\n.h(x)\n+3 \n end") 0 = .ok us ∧
    SameLayout ts us ∧ solidCount (ts.take 4) = solidCount (us.take 4) ∧
    (∃ xs c, bodyAt .builtin { name := Text.ofString "f" } ts 4 = .ok xs c ∧ xs.length = 2) ∧
    SameOutcome ts us (bodyAt .builtin { name := Text.ofString "f" } ts 4)
      (bodyAt .builtin { name := Text.ofString "f" } us 4) := by
  obtain ⟨ts, us, hts, hus, h, hij, hrun⟩ : ∃ ts us,
      Lexer.tokens (Text.ofString "def f\n  x = 1\n  g(x, 2) .h(x) +3\nend") 0 = .ok ts ∧
      Lexer.tokens (Text.ofString "def f\nx\n=\n1 g(x,\n2)\n\n.h(x)\n+3 \n end") 0 = .ok us ∧
      SameLayout ts us ∧ solidCount (ts.take 4) = solidCount (us.take 4) ∧
      ∃ xs c, bodyAt .builtin { name := Text.ofString "f" } ts 4 = .ok xs c ∧ xs.length = 2 :=
    ⟨_, _, by cbv, by cbv, by decide +kernel, by decide +kernel, _, _, by rfl, by rfl⟩
  exact ⟨ts, us, hts, hus, h, hij, hrun, bodyAt_congr_layout .builtin _ h hij⟩

end Grammar

end Frontend
