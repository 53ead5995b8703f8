import Frontend.Failure
import Frontend.Token.Lexer
import Frontend.Proofs.Parser.Completion

/-!
# The end of the input

Signatures, bodies and blocks that run out of input can be completed like expressions. A body needs
a statement, since an `end` directly behind a signature is left to the block around it, and every
block that is open needs an `end`.

So an error that says that the input has ended is never wrong: some tokens behind the input make a
module of it.
-/

namespace Frontend

namespace Grammar

open Frontend.Parser

/-- The name that is put where one of a block or of a type is missing. -/
def typeName : Text := Text.ofString "Int"

/-! ### Signatures -/

section Signatures

variable {n : Nat} {c : Cursor}

/-- A parameter runs out of input behind its name or behind its type. -/
lemma rest_of_runsOut_param (h : RunsOut param c) :
    (∃ name pos, c.rest = [⟨.identifier name, pos⟩]) ∨
      ∃ name type pos pos' ts, c.rest = ⟨.identifier name, pos⟩ :: ts ∧
        skipBlank ts = [⟨.constant type, pos'⟩] := by
  simp only [param, failsBy_bind, failsBy_token, token_eq_ok, false_or] at h
  obtain ⟨t, c₁, ⟨rfl, rfl⟩, h⟩ := h
  generalize hk : c.token.kind = kind at h
  split at h
  case h_2 => simp [failsBy_fail, Cause.kind] at h
  case h_1 name =>
  obtain ⟨pos, ts, hr⟩ := exists_cons_of_front hk (by simp)
  have hn := Cursor.rest_next hr
  simp only [failsBy_bind, runsOut_advance, advance_eq_ok, failsBy_skipSpace, skipSpace_eq_ok,
    failsBy_token, token_eq_ok, false_or] at h
  rcases h with he | ⟨-, c₁, ⟨-, rfl⟩, -, c₂, rfl, u, c₃, ⟨rfl, rfl⟩, h⟩
  · exact .inl ⟨name, pos, by rw [hr, ← hn, he]⟩
  generalize hk' : c.next.skipSpace.token.kind = kind' at h
  split at h
  case h_2 => simp [failsBy_fail, Cause.kind] at h
  case h_1 type =>
    obtain ⟨pos', ts', hr'⟩ := exists_cons_of_front hk' (by simp)
    simp only [failsBy_bind, runsOut_advance, failsBy_pure, and_false, exists_false,
      or_false] at h
    rw [Cursor.rest_next hr'] at h
    rw [Cursor.rest_skipSpace, hn, h] at hr'
    exact .inr ⟨name, type, pos, pos', ts, hr, hr'⟩

lemma completes_params {done : List Param} (h : RunsOut (params n done) c) :
    ∃ vs, ∀ us, ∃ ps, ReadsParams (c.rest ++ (vs ++ us)) ps us := by
  induction n generalizing done c with
  | zero => simp only [params, failsBy_fail, Cause.kind, reduceCtorEq] at h
  | succ n ih =>
    simp only [params, failsBy_bind, failsBy_skipWhitespace, skipWhitespace_eq_ok, failsBy_token,
      token_eq_ok, false_or] at h
    obtain ⟨-, c₁, rfl, h | ⟨p, c₂, hp, -, c₃, rfl, t, c₄, ⟨rfl, rfl⟩, h⟩⟩ := h
    · -- the parameter is cut off behind its name or its type
      have close : ∀ us, skip (⟨.rightParen, -1⟩ :: us) = ⟨.rightParen, -1⟩ :: us :=
        skip_cons_of_not_whitespace rfl
      rcases rest_of_runsOut_param h with ⟨name, pos, hn⟩ | ⟨name, type, pos, pos', ts, hn, ht⟩
      · rw [Cursor.rest_skipWhitespace] at hn
        exact ⟨[⟨.constant typeName, -1⟩, ⟨.rightParen, -1⟩], fun us =>
          ⟨_, .last (skip_append_of_cons hn _) rfl (close us)⟩⟩
      · rw [Cursor.rest_skipWhitespace] at hn
        exact ⟨[⟨.rightParen, -1⟩], fun us =>
          ⟨_, .last (skip_append_of_cons hn _) (skipBlank_append_of_cons ht _) (close us)⟩⟩
    · -- the list is cut off behind a comma
      obtain ⟨name, type, pos, pos', ts, hn, ht, rfl, -⟩ := reaches_param hp
      generalize hk : c₂.skipWhitespace.token.kind = kind at h
      split at h
      case h_1 => exact (failsBy_next_pure.1 h).elim
      case h_2 =>
        obtain ⟨pos'', ts', hr⟩ := exists_cons_of_front hk (by simp)
        simp only [failsBy_bind, failsBy_next, next_eq_ok, false_or] at h
        obtain ⟨-, c₃, rfl, h⟩ := h
        obtain ⟨vs, hvs⟩ := ih h
        rw [Cursor.rest_next hr] at hvs
        rw [Cursor.rest_skipWhitespace] at hr
        refine ⟨vs, fun us => ?_⟩
        obtain ⟨ps, hps⟩ := hvs us
        exact ⟨_, .cons (skip_append_of_cons hn _) (skipBlank_append_of_cons ht _)
          (skip_append_of_cons hr _) hps⟩
      case h_3 => simp [failsBy_fail, Cause.kind] at h

lemma not_runsOut_resultTypeName : ¬RunsOut resultTypeName c := by
  simp only [resultTypeName, failsBy_bind, failsBy_token, token_eq_ok, false_or]
  rintro ⟨t, c₁, ⟨rfl, rfl⟩, h⟩
  generalize c.token.kind = kind at h
  split at h
  case h_1 => exact (failsBy_next_pure.1 h).elim
  case h_2 => simp [failsBy_fail, Cause.kind] at h

/-- What follows the parameters runs out of input only if nothing does. -/
lemma rest_of_runsOut_resultType (h : RunsOut resultType c) : c.rest = [] := by
  simp only [resultType, failsBy_bind, runsOut_current, current_eq_ok] at h
  rcases h with h | ⟨⟨kind, pos⟩, c₁, ⟨⟨ts, hr⟩, rfl⟩, h⟩
  · exact h
  exfalso
  cases kind with
  | newline => exact (failsBy_next_pure.1 h).elim
  | arrow =>
    simp only [failsBy_bind, failsBy_next, not_runsOut_resultTypeName, and_false, exists_false,
      or_false] at h
  | space =>
    simp only [failsBy_bind, failsBy_next, failsBy_token, next_eq_ok, token_eq_ok, false_or] at h
    obtain ⟨-, c₁, rfl, t, c₂, ⟨rfl, rfl⟩, h⟩ := h
    generalize c.next.token.kind = kind at h
    split at h
    case h_1 =>
      simp only [failsBy_bind, failsBy_next, failsBy_skipSpace, not_runsOut_resultTypeName,
        and_false, exists_false, or_false] at h
    case h_2 => exact (failsBy_next_pure.1 h).elim
    case h_3 => simp [failsBy_fail, Cause.kind] at h
  | _ => simp [failsBy_fail, Cause.kind] at h

lemma completes_paramList (h : RunsOut paramList c) :
    ∃ vs, ∀ us, ∃ ps, ReadsParams (c.rest ++ (vs ++ us)) ps us := by
  simp only [paramList, failsBy_bind, failsBy_skipWhitespace, skipWhitespace_eq_ok, failsBy_token,
    token_eq_ok, false_or] at h
  obtain ⟨-, c₁, rfl, t, c₂, ⟨rfl, rfl⟩, h⟩ := h
  generalize c.skipWhitespace.token.kind = kind at h
  split at h
  case h_1 => exact (failsBy_next_pure.1 h).elim
  case h_2 =>
    obtain ⟨vs, hvs⟩ := completes_params (failsBy_withBudget.1 h)
    refine ⟨vs, fun us => ?_⟩
    obtain ⟨ps, hps⟩ := hvs us
    rw [Cursor.rest_skipWhitespace, ← readsParams_skip, skip_skip_append, readsParams_skip] at hps
    exact ⟨ps, hps⟩

/-- What stands behind the name of a definition, if it runs out of input there. -/
lemma completes_prototype (h : RunsOut prototype c) :
    ∃ vs, ∀ us, ∃ p, ReadsPrototype (c.rest ++ (vs ++ us)) p us := by
  simp only [prototype, routine_eq, failsBy_bind, runsOut_current, current_eq_ok] at h
  rcases h with hr | ⟨⟨kind, pos⟩, c₁, ⟨⟨ts, hr⟩, rfl⟩, h⟩
  · rw [hr]
    exact ⟨[⟨.space, -1⟩, ⟨.identifier mainName, -1⟩, ⟨.newline, -1⟩], fun us => ⟨_, .bare rfl⟩⟩
  dsimp only at h
  split at h
  case h_2 => simp [failsBy_fail, Cause.kind] at h
  simp only [failsBy_bind, failsBy_next, next_eq_ok, failsBy_token, token_eq_ok, false_or] at h
  obtain ⟨-, c₁, rfl, t, c₂, ⟨rfl, rfl⟩, h⟩ := h
  generalize hk : c.next.token.kind = kind at h
  split at h
  case h_2 => simp [failsBy_fail, Cause.kind] at h
  case h_1 name =>
  obtain ⟨pos', ts', hr'⟩ := exists_cons_of_front hk (by simp)
  have hc : c.rest = ⟨.space, pos⟩ :: ⟨.identifier name, pos'⟩ :: ts' := by
    rw [hr, ← Cursor.rest_next hr, hr']
  rw [hc]
  simp only [failsBy_bind, runsOut_advance, advance_eq_ok, failsBy_skipSpace, skipSpace_eq_ok,
    failsBy_token, token_eq_ok, false_or] at h
  rcases h with he | ⟨-, c₁, ⟨-, rfl⟩, -, c₂, rfl, t, c₃, ⟨rfl, rfl⟩, h⟩
  · rw [Cursor.rest_next hr'] at he
    subst he
    exact ⟨[⟨.newline, -1⟩], fun us => ⟨_, .bare rfl⟩⟩
  have hs : c.next.next.skipSpace.rest = skipBlank ts' := by
    rw [Cursor.rest_skipSpace, Cursor.rest_next hr']
  generalize hk' : c.next.next.skipSpace.token.kind = kind' at h
  rw [Cursor.kind_token, hs] at hk'
  split at h
  case h_1 =>
    obtain ⟨posl, ts₁, hl⟩ := exists_cons_of_front hk' (by simp)
    have hn : c.next.next.skipSpace.next.rest = ts₁ := Cursor.rest_next (hs.trans hl)
    simp only [failsBy_bind, failsBy_next, next_eq_ok, failsBy_pure, and_false, exists_false,
      or_false, false_or] at h
    obtain ⟨-, c₁, rfl, h | ⟨ps, c₂, hps, h⟩⟩ := h
    · -- the parameters
      obtain ⟨vs, hvs⟩ := completes_paramList h
      rw [hn] at hvs
      refine ⟨vs ++ [⟨.newline, -1⟩], fun us => ?_⟩
      obtain ⟨ps, hps⟩ := hvs (⟨.newline, -1⟩ :: us)
      simp only [List.append_assoc, List.cons_append, List.nil_append]
      exact ⟨_, .full (skipBlank_append_of_cons hl _) hps (.none rfl)⟩
    · -- the line end behind them
      have he := rest_of_runsOut_resultType h
      obtain ⟨hps, -⟩ := reads_of_paramList hps
      rw [hn, he] at hps
      refine ⟨[⟨.newline, -1⟩], fun us => ?_⟩
      rcases hps with ⟨posr, rfl, hr⟩ | hps
      · exact ⟨_, .empty (skipBlank_append_of_cons hl _) (skip_append_of_cons hr _) (.none rfl)⟩
      · exact ⟨_, .full (skipBlank_append_of_cons hl _) (hps.append _) (.none rfl)⟩
  case h_2 => exact (failsBy_next_pure.1 h).elim
  case h_3 => simp [failsBy_fail, Cause.kind] at h

end Signatures

/-! ### Bodies and definitions -/

section Definitions

variable {prec : Precedence} {n : Nat} {c : Cursor}

/-- An expression that runs out of input is completed in front of an `end`. -/
lemma completes_expression {s : Scope} (h : RunsOut (expression prec s) c) :
    ∃ vs, Completes prec s .expr c.rest vs := by
  have hn := failsBy_withBudget.1 h
  generalize 6 * c.rest.length + 6 = n at hn
  exact exists_completes (g := .expr) trivial hn

/-- A body is completed in front of everything. Behind a statement at the end of the input, the
first token that is put there is an `end`. -/
lemma completes_statements {proto : Prototype} {done : List Node}
    (h : RunsOut (statements prec n proto done) c) :
    ∃ vs, (done ≠ [] → c.rest = [] → ∀ us, Stops (vs ++ us)) ∧
      ∀ us, ∃ xs, ReadsBody prec proto.params done (c.rest ++ (vs ++ us)) xs us := by
  induction n generalizing done c with
  | zero => simp only [statements, failsBy_fail, Cause.kind, reduceCtorEq] at h
  | succ n ih =>
    have close : ∀ us, skip (⟨.endWord, -1⟩ :: us) = ⟨.endWord, -1⟩ :: us :=
      skip_cons_of_not_whitespace rfl
    simp only [statements, failsBy_bind, failsBy_skipWhitespace, skipWhitespace_eq_ok,
      runsOut_current, current_eq_ok, false_or] at h
    obtain ⟨-, c₁, rfl, hr | ⟨⟨kind, pos⟩, c₂, ⟨⟨ts, hr⟩, rfl⟩, h⟩⟩ := h
    · rw [Cursor.rest_skipWhitespace] at hr
      cases done with
      | nil =>
        refine ⟨[filler, ⟨.endWord, -1⟩], fun h => absurd rfl h, fun us =>
          ⟨[.int ⟨-1, -1⟩ 1], .statement ?_ (.closed (close us))⟩⟩
        rw [skip_append_of_nil hr]
        exact reads_expr_filler (stops_endWord _ us)
      | cons x done =>
        exact ⟨[⟨.endWord, -1⟩], fun _ _ us => stops_endWord _ us, fun us =>
          ⟨[], .closed ((skip_append_of_nil hr _).trans (close us))⟩⟩
    have hne : c.rest ≠ [] := ne_nil_of_skip (Cursor.rest_skipWhitespace c ▸ hr)
    dsimp only at h
    split at h
    case h_1 =>
      cases done with
      | nil => exact (failsBy_pure.1 h).elim
      | cons x done => exact (failsBy_next_pure.1 h).elim
    case h_2 =>
      simp only [failsBy_bind] at h
      rcases h with h | ⟨x, c₁, hx, h⟩
      · -- the statement itself
        obtain ⟨vs, hvs⟩ := completes_expression h
        rw [Cursor.rest_skipWhitespace] at hvs
        refine ⟨vs ++ [⟨.endWord, -1⟩], fun _ hc => absurd hc hne, fun us => ?_⟩
        obtain ⟨x, hx⟩ := hvs (⟨.endWord, -1⟩ :: us) (stops_endWord _ us)
        simp only [List.append_assoc, List.cons_append, List.nil_append]
        exact ⟨_, .statement (hx.skip_append (.inl rfl)) (.closed (close us))⟩
      · -- those behind it
        obtain ⟨hx, -⟩ := expression_eq_ok hx
        obtain ⟨vs, hstop, hvs⟩ := ih h
        rw [Cursor.rest_skipWhitespace] at hx
        refine ⟨vs, fun _ hc => absurd hc hne, fun us => ?_⟩
        obtain ⟨xs, hxs⟩ := hvs us
        have hx' := hx.append trivial fun hc => hstop (List.cons_ne_nil x done) hc us
        exact ⟨_, .statement (hx'.skip_append (.inl rfl)) hxs⟩

/-- A definition is completed in front of everything. -/
lemma completes_definition {className implName : Text} {pos : Int} {ts : List Token}
    (hr : c.rest = ⟨.defWord, pos⟩ :: ts) (h : RunsOut (definition prec className implName) c) :
    ∃ vs, ∀ us, ∃ d, ReadsDefinition prec className implName (c.rest ++ (vs ++ us)) d us := by
  have hn := Cursor.rest_next hr
  simp only [definition, routine_eq, failsBy_bind, failsBy_token, token_eq_ok, failsBy_next,
    next_eq_ok, failsBy_skipWhitespace, skipWhitespace_eq_ok, failsBy_withBudget, failsBy_lastPos,
    failsBy_pure, and_false, exists_false, or_false, false_or] at h
  obtain ⟨t, c₁, ⟨rfl, rfl⟩, -, c₂, rfl, h | ⟨proto, c₃, hp, -, c₄, rfl, h⟩⟩ := h
  · -- the signature, behind which a statement is missing as well
    obtain ⟨vs, hvs⟩ := completes_prototype h
    rw [hn] at hvs
    refine ⟨vs ++ [filler, ⟨.endWord, -1⟩], fun us => ?_⟩
    obtain ⟨p, hp⟩ := hvs (filler :: ⟨.endWord, -1⟩ :: us)
    have hb : ReadsBody prec p.params [] (filler :: ⟨.endWord, -1⟩ :: us) [.int ⟨-1, -1⟩ 1] us :=
      .statement (reads_expr_filler (stops_endWord _ us))
        (.closed (skip_cons_of_not_whitespace rfl us))
    have hu : ⟨.defWord, pos⟩ :: (ts ++ (vs ++ filler :: ⟨.endWord, -1⟩ :: us)) =
        (⟨.defWord, pos⟩ :: (ts ++ (vs ++ [filler, ⟨.endWord, -1⟩]))) ++ us := by simp
    simp only [hr, List.append_assoc, List.cons_append, List.nil_append]
    exact ⟨_, .mk hp hb hu⟩
  · -- the body
    obtain ⟨hp, -⟩ := reader_prototype.sound hp
    obtain ⟨vs, -, hvs⟩ := completes_statements h
    rw [hn] at hp
    refine ⟨vs, fun us => ?_⟩
    obtain ⟨xs, hxs⟩ := hvs us
    rw [Cursor.rest_skipWhitespace, ← readsBody_skip, skip_skip_append, readsBody_skip] at hxs
    have hu : ⟨.defWord, pos⟩ :: (ts ++ (vs ++ us)) = (⟨.defWord, pos⟩ :: (ts ++ vs)) ++ us := by
      simp
    rw [hr, List.cons_append]
    exact ⟨_, .mk (hp.append _) hxs hu⟩

end Definitions

/-! ### Blocks -/

section Blocks

variable {prec : Precedence} {b : Block} {n : Nat} {c : Cursor}

lemma skipBlank_append_of_nil {ts vs : List Token} (h : skipBlank ts = [])
    (hv : front vs ≠ .space) : skipBlank (ts ++ vs) = vs := by
  unfold skipBlank at h
  split at h
  case h_1 pos ts =>
    subst h
    rfl
  case h_2 =>
    subst h
    match vs with
    | []             => rfl
    | ⟨kind, pos⟩ :: vs =>
      cases kind with
      | space => exact absurd rfl hv
      | _ => rfl

/-- The name of a block that is missing, or the end of the line behind it. -/
lemma completes_blockName {noName noNewline : Cause} (hn : noName.kind ≠ .endOfInput)
    (hl : noNewline.kind ≠ .endOfInput) (h : RunsOut (blockName noName noNewline) c) :
    ∃ vs name, ∀ us, ReadsName (c.rest ++ (vs ++ us)) name us := by
  simp only [blockName, failsBy_bind, failsBy_skipSpace, skipSpace_eq_ok, runsOut_current,
    current_eq_ok, false_or] at h
  obtain ⟨-, c₁, rfl, hr | ⟨⟨kind, pos⟩, c₂, ⟨⟨ts, hr⟩, rfl⟩, h⟩⟩ := h
  · rw [Cursor.rest_skipSpace] at hr
    exact ⟨[⟨.constant typeName, -1⟩, ⟨.newline, -1⟩], typeName, fun us =>
      ⟨_, -1, -1, skipBlank_append_of_nil hr (by simp), rfl⟩⟩
  have hr' := hr
  rw [Cursor.rest_skipSpace] at hr'
  dsimp only at h
  split at h
  case h_2 => exact absurd (failsBy_fail.1 h) hn
  case h_1 name =>
  simp only [failsBy_bind, runsOut_advance, advance_eq_ok, failsBy_skipSpace, skipSpace_eq_ok,
    failsBy_token, token_eq_ok, false_or] at h
  rcases h with he | ⟨-, c₁, ⟨-, rfl⟩, -, c₂, rfl, t, c₃, ⟨rfl, rfl⟩, h⟩
  · rw [Cursor.rest_next hr] at he
    subst he
    exact ⟨[⟨.newline, -1⟩], name, fun us => ⟨_, pos, -1, skipBlank_append_of_cons hr' _, rfl⟩⟩
  generalize c.skipSpace.next.skipSpace.token.kind = kind at h
  split at h
  case h_1 => exact (failsBy_next_pure.1 h).elim
  case h_2 => exact absurd (failsBy_fail.1 h) hl

/-- The tokens that close a block: a module needs none. -/
def closer : Block → List Token
  | .top => []
  | _    => [⟨.endWord, -1⟩]

lemma readsBlock_closer (b : Block) {us : List Token} (hu : b = .top → us = []) :
    ReadsBlock prec b (closer b ++ us) [] us := by
  cases b with
  | top =>
    obtain rfl := hu rfl
    exact .finished rfl
  | _ => exact .closed (by simp) (skip_cons_of_not_whitespace rfl us)

/-- Some tokens put behind others complete a block. -/
def CompletesBlock (prec : Precedence) (b : Block) (ts vs : List Token) : Prop :=
  ∀ us, (b = .top → us = []) → ∃ ds, ReadsBlock prec b (ts ++ (vs ++ us)) ds us

/-- A nested block is completed by what completes it and closes the block around it. -/
lemma completes_opening {word : Kind} {pos : Int} {ts : List Token} {noName noNewline : Cause}
    {inner : Text → Block} (hw : b.entry word = .nested noName noNewline inner)
    (hr : c.skipWhitespace.rest = ⟨word, pos⟩ :: ts)
    (ih : ∀ name n done c, RunsOut ((inner name).run prec n done) c →
      ∃ vs, CompletesBlock prec (inner name) c.rest vs)
    (h : RunsOut (opening prec noName noNewline inner) c.skipWhitespace) :
    ∃ vs, CompletesBlock prec b c.rest vs := by
  have hn := Cursor.rest_next hr
  rw [Cursor.rest_skipWhitespace] at hr
  simp only [opening, failsBy_bind, failsBy_next, next_eq_ok, failsBy_withBudget, false_or] at h
  obtain ⟨-, c₁, rfl, h | ⟨name, c₂, hname, h⟩⟩ := h
  · -- the header is cut off: the block is empty
    obtain ⟨hname, hline⟩ := kinds_of_entry hw
    obtain ⟨vs, name, hvs⟩ := completes_blockName (by simp [hname]) (by simp [hline]) h
    have ho := opens_of_entry hw name
    rw [hn] at hvs
    refine ⟨vs ++ (closer (inner name) ++ closer b), fun us hu => ?_⟩
    have hi : ReadsBlock prec (inner name) (closer (inner name) ++ (closer b ++ us)) []
        (closer b ++ us) :=
      readsBlock_closer _ fun ht => absurd ht ho.ne_top
    simp only [List.append_assoc]
    exact ⟨_, .nested (skip_append_of_cons hr _) ho (hvs _) hi (readsBlock_closer b hu)⟩
  · -- the header is read and the block behind it is cut off
    obtain ⟨hname, -⟩ := (reader_blockName _ _).sound hname
    obtain ⟨vs, hvs⟩ := ih name _ _ _ h
    have ho := opens_of_entry hw name
    rw [hn] at hname
    refine ⟨vs ++ closer b, fun us hu => ?_⟩
    obtain ⟨ds, hds⟩ := hvs (closer b ++ us) fun ht => absurd ht ho.ne_top
    simp only [List.append_assoc]
    exact ⟨_, .nested (skip_append_of_cons hr _) ho (hname.append _) hds (readsBlock_closer b hu)⟩

/-- A nested block in front of a block that is completed. -/
lemma CompletesBlock.nested {word : Kind} {pos : Int} {ts vs : List Token}
    {noName noNewline : Cause} {inner : Text → Block} {ds : List Definition} {c₁ : Cursor}
    (hw : b.entry word = .nested noName noNewline inner)
    (hr : c.skipWhitespace.rest = ⟨word, pos⟩ :: ts)
    (hd : opening prec noName noNewline inner c.skipWhitespace = .ok ds c₁)
    (h : CompletesBlock prec b c₁.rest vs) : CompletesBlock prec b c.rest vs := by
  intro us hu
  obtain ⟨name, ts₁, hname, hds, -⟩ := reads_of_opening hr hd
  obtain ⟨es, hes⟩ := h us hu
  have ho := opens_of_entry hw name
  rw [Cursor.rest_skipWhitespace] at hr
  exact ⟨_, .nested (skip_append_of_cons hr _) ho (hname.append _) (hds.append ho.ne_top _) hes⟩

/-- A block that runs out of input can be completed: a module in front of nothing, every other block
in front of everything. -/
theorem exists_completesBlock {done : List Definition} (h : RunsOut (b.run prec n done) c) :
    ∃ vs, CompletesBlock prec b c.rest vs := by
  induction b using Block.nesting_induction generalizing n done c with
  | step b ihb =>
    induction n generalizing done c with
    | zero => simp only [Block.run_zero, failsBy_fail, Cause.kind, reduceCtorEq] at h
    | succ n ih =>
      simp only [Block.run_succ, failsBy_bind, failsBy_skipWhitespace, skipWhitespace_eq_ok,
        failsBy_atEnd, atEnd_eq_ok, false_or] at h
      obtain ⟨-, c₁, rfl, finished, c₂, ⟨rfl, rfl⟩, h⟩ := h
      split_ifs at h with hf
      · exact (failsBy_pure.1 h).elim
      simp only [failsBy_bind, runsOut_current, current_eq_ok] at h
      rcases h with hr | ⟨⟨kind, pos⟩, c₂, ⟨⟨ts, hr⟩, rfl⟩, h⟩
      · -- at the end of the input
        have hb : b ≠ .top := fun ht => hf ⟨ht, List.isEmpty_iff.2 hr⟩
        rw [Cursor.rest_skipWhitespace] at hr
        exact ⟨[⟨.endWord, -1⟩], fun us _ => ⟨[], .closed hb
          ((skip_append_of_nil hr _).trans (skip_cons_of_not_whitespace rfl us))⟩⟩
      generalize he : b.entry kind = entry at h
      cases entry with
      | definition =>
        obtain rfl := defWord_of_entry he
        simp only [Block.enter, failsBy_bind] at h
        rcases h with h | ⟨d, c₁, hd, h⟩
        · obtain ⟨vs, hvs⟩ := completes_definition hr h
          refine ⟨vs ++ closer b, fun us hu => ?_⟩
          obtain ⟨d, hd⟩ := hvs (closer b ++ us)
          rw [Cursor.rest_skipWhitespace] at hd hr
          simp only [List.append_assoc]
          rw [hr, List.cons_append, ← skip_append_of_cons hr] at hd
          exact ⟨_, .definition hd (readsBlock_closer b hu)⟩
        · obtain ⟨hd, -⟩ := reads_of_definition hr hd
          obtain ⟨vs, hvs⟩ := ih h
          rw [Cursor.rest_skipWhitespace] at hd
          refine ⟨vs, fun us hu => ?_⟩
          obtain ⟨ds, hds⟩ := hvs us hu
          exact ⟨_, .definition (hd.append_skip _) hds⟩
      | ending => exact (failsBy_next_pure.1 h).elim
      | nested noName noNewline inner =>
        simp only [Block.enter, failsBy_bind] at h
        rcases h with h | ⟨ds, c₁, hd, h⟩
        · exact completes_opening he hr
            (fun name _ _ _ h => ihb _ name _ (opens_of_entry he name) h) h
        · obtain ⟨vs, hvs⟩ := ih h
          exact ⟨vs, hvs.nested he hr hd⟩
      | stray cause =>
        have hc := failsBy_fail.1 h
        rw [kind_of_entry he] at hc
        cases hc

/-- An error that says that the input has ended is never wrong: the tokens are the start of a
module. -/
theorem exists_parse_append {ts : List Token} {e : SyntaxError} (h : parse prec ts = .error e)
    (he : e.toFailure.isEndOfInput = true) : ∃ us m, parse prec (ts ++ us) = .ok m := by
  have hk : e.cause.kind = .endOfInput := by
    simpa [SyntaxError.toFailure, Failure.isEndOfInput, Failure.root] using he
  have hr : RunsOut (Block.top.run prec (6 * ts.length + 6) []) (.ofTokens ts) := by
    unfold parse at h
    split at h
    case h_1 => cases h
    case h_2 e' c' hd =>
      obtain rfl := Except.error.inj h
      exact ⟨e', c', hd, hk⟩
  obtain ⟨vs, hvs⟩ := exists_completesBlock hr
  obtain ⟨ds, hds⟩ := hvs [] fun _ => rfl
  rw [List.append_nil] at hds
  exact ⟨vs, _, parse_of_reads hds⟩

/-- A call in parentheses, left open behind an operator in a method of a class. -/
theorem exists_parse_append_open_call : ∃ ts e,
    Lexer.tokens (Text.ofString "class A\n def f(x Int)\n  y = (x.g(1, 2 +") 0 = .ok ts ∧
    parse .builtin ts = .error e ∧ e.toFailure.isEndOfInput = true ∧
      ∃ us m, parse .builtin (ts ++ us) = .ok m := by
  obtain ⟨ts, ht, e, hp, he⟩ : ∃ ts,
      Lexer.tokens (Text.ofString "class A\n def f(x Int)\n  y = (x.g(1, 2 +") 0 = .ok ts ∧
      ∃ e, parse .builtin ts = .error e ∧ e.toFailure.isEndOfInput = true :=
    ⟨_, by cbv, _, by rfl, by rfl⟩
  exact ⟨ts, e, ht, hp, he, exists_parse_append hp he⟩

end Blocks

end Grammar

end Frontend
