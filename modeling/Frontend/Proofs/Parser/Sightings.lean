import Frontend.Proofs.Parser.Continuation

/-!
# Names that the parser comes to

`Sees` says that the parser comes to a name in a statement of some definition: the blocks around the
definition have been opened, everything in front of it and its signature have been read, and so have
the statements in front of that one, which give the variables there their types.

The types that the parser misses are those of names that it sees (`exists_sees_of_misses`). And what
it sees decides: it misses the type of a variable that it comes to exactly if the scope there knows
none (`Sees.misses_iff`).
-/

namespace Frontend

open Grammar (skip front)

namespace Parser

variable {α β : Type} {c c' : Cursor} {e : SyntaxError}

/-! ### Signatures and names of blocks -/

/-- A parser does not ask for the types of variables. -/
def NeverMisses (p : Parser α) : Prop := ∀ c e c', ¬Misses p c e c'

lemma NeverMisses.bind {p : Parser α} {f : α → Parser β} (hp : NeverMisses p)
    (hf : ∀ x, NeverMisses (f x)) : NeverMisses (p >>= f) := by
  intro c e c' h
  rcases misses_bind.1 h with h | ⟨x, c₁, -, h⟩
  · exact hp c e c' h
  · exact hf x c₁ e c' h

lemma neverMisses_pure (x : α) : NeverMisses (pure x : Parser α) := fun _ _ _ => misses_pure.1

lemma neverMisses_fail {cause : Cause} (h : cause.kind ≠ .inference) :
    NeverMisses (fail cause : Parser α) :=
  fun _ _ _ hm => h (misses_fail.1 hm).1

lemma neverMisses_current : NeverMisses current := fun _ _ _ => misses_current.1

lemma neverMisses_token : NeverMisses token := fun _ _ _ => misses_token.1

lemma neverMisses_next : NeverMisses next := fun _ _ _ => misses_next.1

lemma neverMisses_advance : NeverMisses advance := fun _ _ _ => misses_advance.1

lemma neverMisses_skipWhitespace : NeverMisses skipWhitespace :=
  fun _ _ _ => misses_skipWhitespace.1

lemma neverMisses_skipSpace : NeverMisses skipSpace := fun _ _ _ => misses_skipSpace.1

lemma misses_withBudget {p : Nat → Parser α} :
    Misses (withBudget p) c e c' ↔ Misses (p (6 * c.rest.length + 6)) c e c' := Iff.rfl

lemma neverMisses_withBudget {p : Nat → Parser α} (h : ∀ n, NeverMisses (p n)) :
    NeverMisses (withBudget p) :=
  fun c e c' hm => h _ c e c' (misses_withBudget.1 hm)

lemma neverMisses_resultTypeName : NeverMisses resultTypeName := by
  refine neverMisses_token.bind fun t => ?_
  split
  · exact neverMisses_next.bind fun _ => neverMisses_pure _
  · exact neverMisses_fail (by decide)

lemma neverMisses_resultType : NeverMisses resultType := by
  refine neverMisses_current.bind fun t => ?_
  split
  · exact neverMisses_next.bind fun _ => neverMisses_pure _
  · exact neverMisses_next.bind fun _ => neverMisses_resultTypeName
  · refine neverMisses_next.bind fun _ => neverMisses_token.bind fun u => ?_
    split
    · exact neverMisses_next.bind fun _ =>
        neverMisses_skipSpace.bind fun _ => neverMisses_resultTypeName
    · exact neverMisses_next.bind fun _ => neverMisses_pure _
    · exact neverMisses_fail (by decide)
  · exact neverMisses_fail (by decide)

lemma neverMisses_param : NeverMisses param := by
  refine neverMisses_token.bind fun t => ?_
  split
  · refine neverMisses_advance.bind fun _ => neverMisses_skipSpace.bind fun _ =>
      neverMisses_token.bind fun u => ?_
    split
    · exact neverMisses_advance.bind fun _ => neverMisses_pure _
    · exact neverMisses_fail (by decide)
  · exact neverMisses_fail (by decide)

lemma neverMisses_params (n : Nat) (done : List Param) : NeverMisses (params n done) := by
  induction n generalizing done with
  | zero => exact neverMisses_fail (by decide)
  | succ n ih =>
    refine neverMisses_skipWhitespace.bind fun _ => neverMisses_param.bind fun p =>
      neverMisses_skipWhitespace.bind fun _ => neverMisses_token.bind fun t => ?_
    split
    · exact neverMisses_next.bind fun _ => neverMisses_pure _
    · exact neverMisses_next.bind fun _ => ih (p :: done)
    · exact neverMisses_fail (by decide)

lemma neverMisses_paramList : NeverMisses paramList := by
  refine neverMisses_skipWhitespace.bind fun _ => neverMisses_token.bind fun t => ?_
  split
  · exact neverMisses_next.bind fun _ => neverMisses_pure _
  · exact neverMisses_withBudget fun n => neverMisses_params n []

lemma neverMisses_prototype : NeverMisses prototype := by
  refine neverMisses_current.bind fun t => ?_
  split
  · refine neverMisses_next.bind fun _ => neverMisses_token.bind fun u => ?_
    split
    · refine neverMisses_advance.bind fun _ => neverMisses_skipSpace.bind fun _ =>
        neverMisses_token.bind fun v => ?_
      split
      · exact neverMisses_next.bind fun _ => neverMisses_paramList.bind fun _ =>
          neverMisses_resultType.bind fun _ => neverMisses_pure _
      · exact neverMisses_next.bind fun _ => neverMisses_pure _
      · exact neverMisses_fail (by decide)
    · exact neverMisses_fail (by decide)
  · exact neverMisses_fail (by decide)

lemma neverMisses_blockName {noName noNewline : Cause} (hn : noName.kind = .token)
    (hl : noNewline.kind = .structural) : NeverMisses (blockName noName noNewline) := by
  refine neverMisses_skipSpace.bind fun _ => neverMisses_current.bind fun t => ?_
  split
  · refine neverMisses_advance.bind fun _ => neverMisses_skipSpace.bind fun _ =>
      neverMisses_token.bind fun u => ?_
    split
    · exact neverMisses_next.bind fun _ => neverMisses_pure _
    · exact neverMisses_fail (by simp [hl])
  · exact neverMisses_fail (by simp [hn])

end Parser

namespace Grammar

open Frontend.Parser

/-! ### Relations -/

/-- In the body of a definition, the parser comes to a statement: from a scope and the tokens
behind what gave it, to the scope of that statement and to where it starts. -/
inductive Statement (prec : Precedence) : Scope → List Token → Scope → List Token → Prop
  | here {s : Scope} {ts u : List Token} {t : Token} (h : skip ts = t :: u)
      (he : t.kind ≠ .endWord) : Statement prec s ts s (skip ts)
  | behind {s s' : Scope} {ts ts₁ ts' : List Token} {x : Node}
      (hx : Reads prec s .expr (skip ts) x ts₁)
      (h : Statement prec ⟨s.params, x :: s.done⟩ ts₁ s' ts') : Statement prec s ts s' ts'

/-- Behind the signature of a definition, the parser comes to a name in a statement with the given
scope. -/
def SeesInBody (prec : Precedence) (s : Scope) (us : List Token) (params : List Param)
    (ts : List Token) : Prop :=
  ∃ vs, Statement prec ⟨params, []⟩ ts s vs ∧ Visits prec s .named us .expr vs

/-- In a block, the parser comes to a name in a statement with the given scope. -/
inductive Sees (prec : Precedence) (s : Scope) (us : List Token) : Block → List Token → Prop
  | here {b : Block} {ts ts₁ ts₂ : List Token} {pos : Int} {proto : Prototype}
      (hd : skip ts = ⟨.defWord, pos⟩ :: ts₁) (hp : ReadsPrototype ts₁ proto ts₂)
      (h : SeesInBody prec s us proto.params ts₂) : Sees prec s us b ts
  | behindDefinition {b : Block} {ts ts₁ : List Token} {d : Definition}
      (hd : ReadsDefinition prec b.className b.implName (skip ts) d ts₁)
      (h : Sees prec s us b ts₁) : Sees prec s us b ts
  | inside {b b' : Block} {ts ts₁ ts₂ : List Token} {word : Kind} {pos : Int} {name : Text}
      (hw : skip ts = ⟨word, pos⟩ :: ts₁) (ho : Opens b word name b')
      (hn : ReadsName ts₁ name ts₂) (h : Sees prec s us b' ts₂) : Sees prec s us b ts
  | behindBlock {b b' : Block} {ts ts₁ ts₂ ts₃ : List Token} {word : Kind} {pos : Int}
      {name : Text} {ds : List Definition} (hw : skip ts = ⟨word, pos⟩ :: ts₁)
      (ho : Opens b word name b') (hn : ReadsName ts₁ name ts₂)
      (hds : ReadsBlock prec b' ts₂ ds ts₃) (h : Sees prec s us b ts₃) : Sees prec s us b ts

section

variable {prec : Precedence} {s s' : Scope} {ts ts' us : List Token} {b : Block}

lemma Statement.suffix (h : Statement prec s ts s' ts') : ts' <:+ ts := by
  induction h with
  | here => exact skip_suffix _
  | behind hx _ ih => exact (ih.trans hx.suffix).trans (skip_suffix _)

lemma statement_skip : Statement prec s (skip ts) s' ts' ↔ Statement prec s ts s' ts' := by
  constructor
  · intro h
    generalize hus : skip ts = us at h
    cases h with
    | here h he =>
      rw [← hus, skip_skip] at h ⊢
      exact .here h he
    | behind hx h =>
      rw [← hus, skip_skip] at hx
      exact .behind hx h
  · intro h
    cases h with
    | here h he =>
      have hstart : Statement prec s (skip ts) s (skip (skip ts)) := .here (by rwa [skip_skip]) he
      rwa [skip_skip] at hstart
    | behind hx h =>
      rw [← skip_skip] at hx
      exact .behind hx h

lemma SeesInBody.suffix {params : List Param} (h : SeesInBody prec s us params ts) : us <:+ ts := by
  obtain ⟨vs, hs, hv⟩ := h
  exact hv.suffix.trans hs.suffix

lemma Sees.suffix (h : Sees prec s us b ts) : us <:+ ts := by
  induction h with
  | here hd hp h => exact (h.suffix.trans hp.suffix).trans (suffix_of_skip hd)
  | behindDefinition hd _ ih => exact (ih.trans hd.suffix).trans (skip_suffix _)
  | inside hw _ hn _ ih => exact (ih.trans hn.suffix).trans (suffix_of_skip hw)
  | behindBlock hw _ hn hds _ ih =>
    exact ((ih.trans hds.suffix).trans hn.suffix).trans (suffix_of_skip hw)

end

/-! ### Missed types -/

section Misses

variable {prec : Precedence} {c c' : Cursor} {e : SyntaxError} {n : Nat}

lemma exists_unknown_of_expression {s : Scope} (h : Misses (expression prec s) c e c') :
    ∃ us, Visits prec s .named us .expr c.rest ∧ Unknown s us e c'.rest := by
  rw [expression, misses_withBudget] at h
  have hrun : Misses (Phrase.expr.run prec s (6 * c.rest.length + 6)) c e c' := h
  exact exists_unknown hrun

lemma exists_statement_of_misses {proto : Prototype} {done : List Node}
    (h : Misses (statements prec n proto done) c e c') :
    ∃ s us, (∃ vs, Statement prec ⟨proto.params, done⟩ c.rest s vs ∧
      Visits prec s .named us .expr vs) ∧ Unknown s us e c'.rest := by
  induction n generalizing done c with
  | zero => exact absurd h (neverMisses_fail (by decide) c e c')
  | succ n ih =>
    simp only [statements, misses_bind, misses_skipWhitespace, false_or, skipWhitespace_eq_ok,
      misses_current, current_eq_ok] at h
    obtain ⟨-, c₁, rfl, ⟨kind, pos⟩, c₂, ⟨⟨ts, hr⟩, rfl⟩, h⟩ := h
    rw [Cursor.rest_skipWhitespace] at hr
    dsimp only at h
    split at h
    -- no type is missed at the end of a body
    case h_1 =>
      cases done with
      | nil => exact absurd h (neverMisses_pure _ _ e c')
      | cons x done => exact absurd h (neverMisses_next.bind (fun _ => neverMisses_pure _) _ e c')
    -- in the next statement, or in one of those behind it
    case h_2 he =>
      rcases misses_bind.1 h with h | ⟨x, c₁, hx, h⟩
      · obtain ⟨us, hv, hu⟩ := exists_unknown_of_expression h
        rw [Cursor.rest_skipWhitespace] at hv
        exact ⟨_, us, ⟨_, .here hr he, hv⟩, hu⟩
      · obtain ⟨s, us, ⟨vs, hs, hv⟩, hu⟩ := ih h
        have hx := (expression_eq_ok hx).1
        rw [Cursor.rest_skipWhitespace] at hx
        exact ⟨s, us, ⟨vs, .behind hx hs, hv⟩, hu⟩

lemma exists_body_of_misses {className implName : Text} {pos : Int} {ts : List Token}
    (hr : c.rest = ⟨.defWord, pos⟩ :: ts) (h : Misses (definition prec className implName) c e c') :
    ∃ s us proto ts₁, ReadsPrototype ts proto ts₁ ∧ SeesInBody prec s us proto.params ts₁ ∧
      Unknown s us e c'.rest := by
  simp only [definition, routine_eq, misses_bind, misses_token, token_eq_ok, misses_next,
    next_eq_ok, misses_skipWhitespace, skipWhitespace_eq_ok, misses_withBudget, misses_lastPos,
    misses_pure, and_false, exists_false, or_false, false_or] at h
  obtain ⟨t, c₁, ⟨rfl, rfl⟩, -, c₂, rfl, h | ⟨proto, c₃, hp, -, c₄, rfl, h⟩⟩ := h
  · exact absurd h (neverMisses_prototype _ e c')
  · have hp := (reader_prototype.sound hp).1
    rw [Cursor.rest_next hr] at hp
    obtain ⟨s, us, ⟨vs, hs, hv⟩, hu⟩ := exists_statement_of_misses h
    rw [Cursor.rest_skipWhitespace] at hs
    exact ⟨s, us, proto, c₃.rest, hp, ⟨vs, statement_skip.1 hs, hv⟩, hu⟩

/-- Whenever a block misses a type, it is that of a variable that is seen. -/
theorem exists_sees_of_misses {b : Block} {done : List Definition}
    (h : Misses (b.run prec n done) c e c') :
    ∃ s us, Sees prec s us b c.rest ∧ Unknown s us e c'.rest := by
  -- the blocks inside are taken care of by the nesting, the entries by the budget
  induction b using Block.nesting_induction generalizing n done c with
  | step b ihb =>
    induction n generalizing done c with
    | zero =>
      rw [Block.run_zero] at h
      exact absurd h (neverMisses_fail (by decide) c e c')
    | succ n ih =>
      simp only [Block.run_succ, misses_bind, misses_skipWhitespace, false_or,
        skipWhitespace_eq_ok, misses_atEnd, atEnd_eq_ok] at h
      obtain ⟨-, c₁, rfl, finished, c₂, ⟨-, rfl⟩, h⟩ := h
      split_ifs at h with hf
      · exact absurd h (neverMisses_pure _ _ e c')
      simp only [misses_bind, misses_current, false_or, current_eq_ok] at h
      obtain ⟨⟨kind, pos⟩, c₁, ⟨⟨ts, hr⟩, rfl⟩, h⟩ := h
      have hs : skip c.rest = ⟨kind, pos⟩ :: ts := by rw [← Cursor.rest_skipWhitespace, hr]
      cases he : b.entry kind with
      | definition =>
        obtain rfl := defWord_of_entry he
        simp only [he, Block.enter, misses_bind] at h
        rcases h with h | ⟨d, c₁, hd, h⟩
        · obtain ⟨s, us, proto, ts₁, hp, hsees, hu⟩ := exists_body_of_misses hr h
          exact ⟨s, us, .here hs hp hsees, hu⟩
        · have hd := (reads_of_definition hr hd).1
          rw [Cursor.rest_skipWhitespace] at hd
          obtain ⟨s, us, hsees, hu⟩ := ih h
          exact ⟨s, us, .behindDefinition hd hsees, hu⟩
      | ending =>
        simp only [he, Block.enter, misses_bind, misses_next, misses_pure, and_false, exists_false,
          or_false] at h
      | nested noName noNewline inner =>
        have ho := opens_of_entry he
        obtain ⟨hname, hline⟩ := kinds_of_entry he
        simp only [he, Block.enter, misses_bind] at h
        rcases h with h | ⟨ds, c₁, hd, h⟩
        · simp only [opening, misses_bind, misses_next, false_or, next_eq_ok,
            misses_withBudget] at h
          obtain ⟨-, c₁, rfl, h | ⟨name, c₂, hn, h⟩⟩ := h
          · exact absurd h (neverMisses_blockName hname hline _ e c')
          · have hn := ((reader_blockName _ _).sound hn).1
            rw [Cursor.rest_next hr] at hn
            obtain ⟨s, us, hsees, hu⟩ := ihb _ name _ (ho name) h
            exact ⟨s, us, .inside hs (ho name) hn hsees, hu⟩
        · obtain ⟨name, ts₁, hn, hds, -⟩ := reads_of_opening hr hd
          obtain ⟨s, us, hsees, hu⟩ := ih h
          exact ⟨s, us, .behindBlock hs (ho name) hn hds hsees, hu⟩
      | stray cause =>
        simp only [he, Block.enter] at h
        exact absurd h (neverMisses_fail (by simp [kind_of_entry he]) _ e c')

end Misses

/-! ### Going on -/

section Continues

variable {prec : Precedence} {s s' : Scope} {ts ts' us : List Token} {b : Block}

lemma late_statements (prec : Precedence) (n : Nat) (proto : Prototype) (done : List Node) :
    Late (statements prec n proto done) where
  le _ _ _ h := (reads_of_statements h).choose_spec.2.2.suffix.length_le
  lt _ _ _ h := by
    obtain ⟨s, us, ⟨vs, hs, hv⟩, hu⟩ := exists_statement_of_misses h
    exact hu.length_lt.trans_le (hv.suffix.trans hs.suffix).length_le

lemma late_block (prec : Precedence) (n : Nat) (done : List Definition) (b : Block) :
    Late (b.run prec n done) where
  le _ _ _ h := (b.sound _ _ _ _ _ h).choose_spec.2.2.suffix.length_le
  lt _ _ _ h := by
    obtain ⟨s, us, hsees, hu⟩ := exists_sees_of_misses h
    exact hu.length_lt.trans_le hsees.suffix.length_le

lemma continues_withBudget {α : Type} (p : Nat → Parser α) (c : Cursor) :
    Continues (withBudget p) c (p (6 * c.rest.length + 6)) c := .of_eq rfl

/-- A statement that the parser comes to is read as an expression, with its scope. -/
lemma Statement.found (h : Statement prec s ts s' ts') (proto : Prototype)
    (hp : proto.params = s.params) :
    ∀ n c, c.rest = ts → ts.length ≤ n → ∃ n' c', c'.rest = ts' ∧ 6 * ts'.length + 5 ≤ n' ∧
      Continues (statements prec n proto s.done) c (Parser.expr prec n' s') c' := by
  induction h with
  | @here s ts u t h he =>
    intro n c hc hn
    have hlen := length_of_skip h
    obtain ⟨n, rfl⟩ : ∃ m, n = m + 1 := ⟨n - 1, by omega⟩
    have hr : c.skipWhitespace.rest = skip ts := by rw [Cursor.rest_skipWhitespace, hc]
    refine ⟨6 * c.skipWhitespace.rest.length + 6, c.skipWhitespace, hr, by rw [hr]; omega, ?_⟩
    refine .step rfl (.after (current_eq_ok.2 ⟨⟨u, hr.trans h⟩, rfl⟩) ?_)
    generalize t.kind = kind at he
    split
    case h_1 => exact absurd rfl he
    case h_2 =>
      rw [hp]
      refine Continues.bind ?_ fun x => late_statements prec n proto (x :: s.done)
      exact continues_withBudget _ _
  -- the next statement is read first and adds to the scope
  | @behind s s' ts ts₁ ts' x hx _ ih =>
    intro n c hc hn
    have hlen := hx.length_lt trivial
    have hs := length_skip_le ts
    obtain ⟨n, rfl⟩ : ∃ m, n = m + 1 := ⟨n - 1, by omega⟩
    have hr : c.skipWhitespace.rest = skip ts := by rw [Cursor.rest_skipWhitespace, hc]
    obtain ⟨t, u, htu, -, he⟩ := hx.start (by simp)
    rw [← hr] at hx
    obtain ⟨c₁, hrun, rfl⟩ := exists_expression hx
    obtain ⟨n', c', hc', hn', hcont⟩ := ih hp n c₁ rfl (by omega)
    refine ⟨n', c', hc', hn', ?_⟩
    refine .step rfl (.after (current_eq_ok.2 ⟨⟨u, hr.trans htu⟩, rfl⟩) ?_)
    generalize t.kind = kind at he
    split
    case h_1 => exact absurd rfl he
    case h_2 =>
      rw [hp]
      exact .after hrun hcont

/-- In a definition, the parser comes to a name in its body. -/
lemma continues_definition (className implName : Text) {pos : Int} {proto : Prototype}
    {ts₁ : List Token} {c : Cursor} (hr : c.rest = ⟨.defWord, pos⟩ :: ts)
    (hp : ReadsPrototype ts proto ts₁) (h : SeesInBody prec s us proto.params ts₁) :
    ∃ n' c', c'.rest = us ∧ 6 * us.length + 1 ≤ n' ∧
      Continues (definition prec className implName) c (Parser.named prec n' s) c' := by
  obtain ⟨vs, hs, hv⟩ := h
  rw [← Cursor.rest_next hr] at hp
  obtain ⟨c₁, hrun, rfl⟩ := reader_prototype.complete hp
  rw [← statement_skip, ← Cursor.rest_skipWhitespace] at hs
  obtain ⟨n₂, c₂, hc₂, hn₂, hbody⟩ := hs.found proto rfl
    (6 * c₁.skipWhitespace.rest.length + 6) c₁.skipWhitespace rfl (by omega)
  obtain ⟨n', c', hc', hn', hname⟩ := hv.found n₂ c₂ hc₂ hn₂
  refine ⟨n', c', hc', hn', Continues.trans ?_ hname⟩
  refine .after (token_eq_ok.2 ⟨Cursor.token_of_rest hr, rfl⟩) (.step rfl (.after hrun ?_))
  refine .step rfl (Continues.bind ?_ fun body => late_lastPos.bind fun stop => late_pure _)
  exact (continues_withBudget _ _).trans hbody

/-- What the parser sees in a block is a part of the run of the block. -/
theorem Sees.found (h : Sees prec s us b ts) :
    ∀ n done c, c.rest = ts → ts.length < n → ∃ n' c', c'.rest = us ∧ 6 * us.length + 1 ≤ n' ∧
      Continues (b.run prec n done) c (Parser.named prec n' s) c' := by
  induction h with
  | @here b ts ts₁ ts₂ pos proto hd hp h =>
    intro n done c hc hn
    obtain ⟨n, rfl⟩ : ∃ m, n = m + 1 := ⟨n - 1, by omega⟩
    rw [← hc, ← Cursor.rest_skipWhitespace] at hd
    obtain ⟨n', c', hc', hn', hcont⟩ := continues_definition b.className b.implName hd hp h
    refine ⟨n', c', hc', hn', Continues.trans (.of_eq (run_of_rest hd)) ?_⟩
    have he : b.entry .defWord = .definition := by cases b <;> rfl
    rw [he]
    exact hcont.bind fun d => late_block prec n (d :: done) b
  -- a definition or a block in front is run with a budget that leaves enough for the rest
  | @behindDefinition b ts ts₁ d hd _ ih =>
    intro n done c hc hn
    have hlen := hd.length_lt
    have hs := length_skip_le ts
    obtain ⟨n, rfl⟩ : ∃ m, n = m + 1 := ⟨n - 1, by omega⟩
    rw [← hc, ← Cursor.rest_skipWhitespace] at hd
    obtain ⟨pos, u, hr⟩ := hd.exists_cons
    obtain ⟨c₁, hrun, rfl⟩ := exists_definition hd
    obtain ⟨n', c', hc', hn', hcont⟩ := ih n (d :: done) c₁ rfl (by omega)
    exact ⟨n', c', hc', hn', (Continues.of_eq (run_of_definition hr hrun)).trans hcont⟩
  | @inside b b' ts ts₁ ts₂ word pos name hw ho hname _ ih =>
    intro n done c hc hn
    obtain ⟨n, rfl⟩ : ∃ m, n = m + 1 := ⟨n - 1, by omega⟩
    rw [← hc, ← Cursor.rest_skipWhitespace] at hw
    obtain ⟨noName, noNewline, inner, he, rfl⟩ := entry_of_opens ho
    rw [← Cursor.rest_next hw] at hname
    obtain ⟨c₁, hrun, rfl⟩ := (reader_blockName noName noNewline).complete hname
    obtain ⟨n', c', hc', hn', hcont⟩ := ih (6 * c₁.rest.length + 6) [] c₁ rfl (by omega)
    refine ⟨n', c', hc', hn', Continues.trans (.of_eq (run_of_rest hw)) ?_⟩
    rw [he]
    refine Continues.bind ?_ fun ds => late_block prec n (ds.reverse ++ done) b
    exact .step rfl (.after hrun ((continues_withBudget _ _).trans hcont))
  | @behindBlock b b' ts ts₁ ts₂ ts₃ word pos name ds hw ho hname hds _ ih =>
    intro n done c hc hn
    have hlen := (hds.suffix.trans hname.suffix).length_le
    have hskip := length_of_skip hw
    obtain ⟨n, rfl⟩ : ∃ m, n = m + 1 := ⟨n - 1, by omega⟩
    rw [← hc, ← Cursor.rest_skipWhitespace] at hw
    obtain ⟨noName, noNewline, inner, he, rfl⟩ := entry_of_opens ho
    obtain ⟨c₁, hrun, rfl⟩ :=
      exists_opening noName noNewline inner hw hname (exists_run_of_readsBlock hds)
    obtain ⟨n', c', hc', hn', hcont⟩ := ih n (ds.reverse ++ done) c₁ rfl (by omega)
    exact ⟨n', c', hc', hn', (Continues.of_eq (run_of_opening he hw hrun)).trans hcont⟩

lemma Sees.found_definitions (h : Sees prec s us .top ts) :
    ∃ n c, c.rest = us ∧
      Continues (definitions prec) (.ofTokens ts) (Parser.named prec (n + 1) s) c := by
  obtain ⟨n, c, hc, hn, hcont⟩ := h.found (6 * ts.length + 6) [] (.ofTokens ts) rfl (by omega)
  obtain ⟨n, rfl⟩ : ∃ m, n = m + 1 := ⟨n - 1, by omega⟩
  have hd : definitions prec = withBudget fun n => Block.top.run prec n [] := rfl
  refine ⟨n, c, hc, ?_⟩
  rw [hd]
  exact (continues_withBudget _ _).trans hcont

end Continues

/-! ### Variables -/

section Variables

variable {prec : Precedence} {s : Scope} {ts us : List Token} {name : Text} {pos : Int}

/-- A name with neither an opening parenthesis nor an equals sign behind it. -/
lemma named_variable {n : Nat} {c : Cursor} (hc : c.rest = ⟨.identifier name, pos⟩ :: us)
    (hl : front (skip us) ≠ .leftParen) (ha : front (skip us) ≠ .assign) :
    Parser.named prec (n + 1) s c = (match s.classOf name with
      | .ok className => pure (.localVar ⟨pos, pos⟩ name (some (.undef className)))
      | .error cause => failAt cause pos : Parser Node) c.next.skipWhitespace := by
  rw [Parser.named, routine_eq, bind_of_ok (token_eq_ok.2 ⟨Cursor.token_of_rest hc, rfl⟩)]
  refine (bind_of_ok (rfl : next c = .ok () c.next)).trans ?_
  refine (bind_of_ok (rfl : skipWhitespace _ = .ok () c.next.skipWhitespace)).trans ?_
  refine (bind_of_ok (token_eq_ok.2 ⟨rfl, rfl⟩)).trans ?_
  rw [← Cursor.rest_next hc, ← Cursor.rest_skipWhitespace, ← Cursor.kind_token] at hl ha
  generalize Cursor.token _ = t at hl ha ⊢
  obtain ⟨kind, pos'⟩ := t
  cases kind with
  | leftParen => exact absurd rfl hl
  | assign => exact absurd rfl ha
  | _ => rfl

/-- The parser misses the type of a variable that it sees exactly if the scope knows none. -/
theorem Sees.misses_iff (h : Sees prec s (⟨.identifier name, pos⟩ :: us) .top ts)
    (hl : front (skip us) ≠ .leftParen) (ha : front (skip us) ≠ .assign) :
    (∃ cause c, Misses (definitions prec) (.ofTokens ts) ⟨cause, pos⟩ c ∧ c.rest = skip us) ↔
      ∃ cause, s.classOf name = .error cause := by
  obtain ⟨n, c₁, hc₁, hcont⟩ := h.found_definitions
  have hrun : Parser.named prec (n + 1) s c₁ = _ := named_variable hc₁ hl ha
  have hrest : c₁.next.skipWhitespace.rest = skip us := by
    rw [Cursor.rest_skipWhitespace, Cursor.rest_next hc₁]
  cases hclass : s.classOf name with
  | error cause =>
    rw [hclass] at hrun
    refine iff_of_true ⟨cause, _, ⟨hcont.of_error hrun, kind_of_classOf hclass⟩, hrest⟩ ⟨cause, rfl⟩
  | ok className =>
    rw [hclass] at hrun
    refine iff_of_false ?_ (by simp)
    rintro ⟨cause, c, hm, hc⟩
    have hlt := hcont.lt_of_ok hrun hm
    rw [hrest, hc] at hlt
    exact lt_irrefl _ hlt

end Variables

end Grammar

end Frontend
