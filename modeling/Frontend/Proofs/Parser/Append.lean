import Frontend.Proofs.Parser.Blocks

/-!
# More tokens behind a phrase

What the grammar reads does not depend on the tokens behind it, as long as some token is left: the
decisions are made on the first token that is left at the latest. Where no token is left, the end
of the input has been looked at, and it may only be replaced by a token that `Stops` an expression
in the same way.

Definitions and blocks end with a token of their own, so everything may stand behind them.
-/

namespace Frontend.Grammar

/-! ### Whitespace -/

section

variable {ts us : List Token} {t : Token}

lemma skip_append_of_cons (h : skip ts = t :: us) (vs : List Token) :
    skip (ts ++ vs) = t :: (us ++ vs) := by
  induction ts with
  | nil => simp at h
  | cons t' ts ih =>
    by_cases hw : t'.isWhitespace = true
    · rw [skip_cons_of_whitespace hw] at h
      rw [List.cons_append, skip_cons_of_whitespace hw, ih h]
    · have hw : t'.isWhitespace = false := by simpa using hw
      rw [skip_cons_of_not_whitespace hw] at h
      obtain ⟨rfl, rfl⟩ := List.cons.inj h
      rw [List.cons_append, skip_cons_of_not_whitespace hw]

lemma skip_append_of_nil (h : skip ts = []) (vs : List Token) : skip (ts ++ vs) = skip vs := by
  induction ts with
  | nil => rfl
  | cons t ts ih =>
    have hw : t.isWhitespace = true := by
      by_contra hw
      rw [skip_cons_of_not_whitespace (by simpa using hw)] at h
      cases h
    rw [skip_cons_of_whitespace hw] at h
    rw [List.cons_append, skip_cons_of_whitespace hw, ih h]

lemma skip_append {vs : List Token} (h : skip ts = [] → skip vs = vs) :
    skip (ts ++ vs) = skip ts ++ vs := by
  cases hs : skip ts with
  | nil => rw [skip_append_of_nil hs, h hs, List.nil_append]
  | cons t us => exact skip_append_of_cons hs vs

lemma skip_skip_append (ts vs : List Token) : skip (skip ts ++ vs) = skip (ts ++ vs) := by
  cases hs : skip ts with
  | nil => rw [skip_append_of_nil hs, List.nil_append]
  | cons t us =>
    have hs' := (skip_skip ts).trans hs
    rw [skip_append_of_cons hs, ← List.cons_append, ← hs, skip_append_of_cons hs', hs,
      List.cons_append]

lemma skipBlank_append_of_cons (h : skipBlank ts = t :: us) (vs : List Token) :
    skipBlank (ts ++ vs) = t :: (us ++ vs) := by
  unfold skipBlank at h
  split at h
  case h_1 pos ts => rw [h]; rfl
  case h_2 hne =>
    rw [h, List.cons_append]
    obtain ⟨kind, pos⟩ := t
    cases kind with
    | space => exact absurd h (hne pos us)
    | _ => rfl

end

/-! ### Expressions -/

/-- The tokens start with one that ends every expression in front of it. -/
def Stops (ts : List Token) : Prop := front ts = .rightParen ∨ front ts = .endWord

lemma Stops.exists_cons {ts : List Token} (h : Stops ts) :
    ∃ kind pos us, ts = ⟨kind, pos⟩ :: us ∧ (kind = .rightParen ∨ kind = .endWord) := by
  match ts with
  | []             => rcases h with h | h <;> cases h
  | ⟨k, pos⟩ :: us => exact ⟨k, pos, us, rfl, h⟩

lemma Stops.skip_eq {ts : List Token} (h : Stops ts) : skip ts = ts := by
  obtain ⟨kind, pos, us, rfl, rfl | rfl⟩ := h.exists_cons
  · exact skip_cons_of_not_whitespace rfl us
  · exact skip_cons_of_not_whitespace rfl us

lemma Stops.levelOf_eq {ts : List Token} (h : Stops ts) (prec : Precedence) :
    levelOf prec ts = -1 := by
  obtain ⟨kind, pos, us, rfl, rfl | rfl⟩ := h.exists_cons <;> rfl

/-- Tokens can be put behind others: if there are none, they stop an expression like the end of the
input does. -/
def Fenced (ts us : List Token) : Prop := ts = [] → Stops us

section

variable {ts us vs : List Token}

lemma Fenced.of_suffix (h : Fenced ts us) (hs : ts <:+ vs) : Fenced vs us := by
  rintro rfl
  exact h (List.suffix_nil.1 hs)

lemma fenced_of_ne_nil (h : ts ≠ []) (us : List Token) : Fenced ts us :=
  fun he => absurd he h

lemma fenced_of_skip {t : Token} (h : skip ts = t :: vs) (us : List Token) : Fenced ts us :=
  fenced_of_ne_nil (ne_nil_of_skip h) us

lemma Fenced.skip_append (h : Fenced (skip ts) us) : skip (ts ++ us) = skip ts ++ us :=
  Grammar.skip_append fun he => (h he).skip_eq

/-- A token that stops an expression is none that an expression looks for. -/
lemma Fenced.front_ne {kind : Kind} (hu : Fenced ts us) (h : front ts ≠ kind)
    (hr : kind ≠ .rightParen) (he : kind ≠ .endWord) : front (ts ++ us) ≠ kind := by
  match ts with
  | []      =>
    rcases hu rfl with hs | hs
    · exact hs ▸ hr.symm
    · exact hs ▸ he.symm
  | t :: ts => exact h

lemma Fenced.levelOf_append (hu : Fenced ts us) (prec : Precedence) :
    levelOf prec (ts ++ us) = levelOf prec ts := by
  match ts with
  | []      => exact (hu rfl).levelOf_eq prec
  | t :: ts => rfl

end

/-- Whitespace in front of arguments means nothing. -/
lemma reads_args_skip {prec : Precedence} {s : Scope} {ts : List Token} {pos : Int} {fn : Text}
    {done : List Node} {y : Node} {r : List Token} :
    Reads prec s (.args pos fn done) (skip ts) y r ↔ Reads prec s (.args pos fn done) ts y r := by
  constructor
  · intro h
    cases h with
    | lastArg hx hr => exact .lastArg (skip_skip ts ▸ hx) hr
    | arg hx hr hy => exact .arg (skip_skip ts ▸ hx) hr hy
  · intro h
    cases h with
    | lastArg hx hr => exact .lastArg ((skip_skip ts).symm ▸ hx) hr
    | arg hx hr hy => exact .arg ((skip_skip ts).symm ▸ hx) hr hy

/-- What starts an expression is put behind other tokens by putting it behind their whitespace. -/
lemma Reads.skip_append {prec : Precedence} {s : Scope} {g : Phrase} {ts us rest : List Token}
    {x : Node} (h : Reads prec s g (skip ts ++ us) x rest) (hg : g = .expr ∨ g = .unary) :
    Reads prec s g (skip (ts ++ us)) x rest := by
  rw [← skip_skip_append, h.skip_eq (by tauto)]
  exact h

/-- The least precedence that a phrase asks for is not negative. -/
def Phrase.Nonneg : Phrase → Prop
  | .binary least _ => 0 ≤ least
  | _               => True

/-- What is read is also read in front of other tokens. -/
theorem Reads.append {prec : Precedence} {s : Scope} {g : Phrase} {ts rest us : List Token}
    {x : Node} (h : Reads prec s g ts x rest) (hg : g.Nonneg) (hu : Fenced rest us) :
    Reads prec s g (ts ++ us) x (rest ++ us) := by
  induction h with
  -- operands: what follows the operand decides where its messages begin
  | @expr _ ts₁ _ _ _ _ hy ihx ihy =>
    have hs := hu.of_suffix hy.suffix
    refine .expr (ihx trivial (hs.of_suffix (skip_suffix ts₁))) ?_
    rw [hs.skip_append]
    exact ihy le_rfl hu
  | operator _ ihx => exact .operator (ihx trivial hu)
  | operand _ ihx => exact .operand (ihx trivial hu)
  | literal hx hy ihy =>
    rw [List.cons_append]
    refine .literal hx ?_
    rw [(hu.of_suffix hy.suffix).skip_append]
    exact ihy trivial hu
  | @name _ ts₁ _ _ _ _ hy ihx ihy =>
    have hs := hu.of_suffix hy.suffix
    refine .name (ihx trivial (hs.of_suffix (skip_suffix ts₁))) ?_
    rw [hs.skip_append]
    exact ihy trivial hu
  | paren _ hr hne hy ihx ihy =>
    have hne' := List.append_ne_nil_of_left_ne_nil hne us
    refine .paren (ihx trivial (fenced_of_skip hr us)) (skip_append_of_cons hr us) hne' ?_
    rw [(hu.of_suffix hy.suffix).skip_append]
    exact ihy trivial hu
  -- messages: none are sent only if none begins in what is appended
  | sent h => exact .sent (hu.front_ne h (by simp) (by simp))
  | @send _ ts₁ _ _ _ _ _ _ hy ihm ihy =>
    have hs := hu.of_suffix hy.suffix
    refine .send (ihm trivial (hs.of_suffix (skip_suffix ts₁))) ?_
    rw [hs.skip_append]
    exact ihy trivial hu
  -- names: a declared variable is no call and no assignment, so neither may begin behind it
  | callNone hl hr => exact .callNone (skip_append_of_cons hl us) (skip_append_of_cons hr us)
  | call hl hx ihx =>
    refine .call (skip_append_of_cons hl us) ?_
    rw [(hu.of_suffix hx.suffix).skip_append]
    exact ihx trivial hu
  | assign ha hv ihv =>
    refine .assign (skip_append_of_cons ha us) ?_
    rw [(hu.of_suffix hv.suffix).skip_append]
    exact ihv trivial hu
  | localVar hl ha hc =>
    have hl' := hu.front_ne hl (by simp) (by simp)
    have ha' := hu.front_ne ha (by simp) (by simp)
    rw [← hu.skip_append] at hl' ha' ⊢
    exact .localVar hl' ha' hc
  -- arguments: each ends at a comma or a parenthesis of its own
  | lastArg hx hr ihx =>
    have hs := fenced_of_skip hr us
    have hx' := ihx trivial hs
    rw [← (hs.of_suffix hx.suffix).skip_append] at hx'
    exact .lastArg hx' (skip_append_of_cons hr us)
  | arg hx hr _ ihx ihy =>
    have hs := fenced_of_skip hr us
    have hx' := ihx trivial hs
    rw [← (hs.of_suffix hx.suffix).skip_append] at hx'
    exact .arg hx' (skip_append_of_cons hr us) (ihy trivial hu)
  -- operators: the level ahead of an operand stays the same
  | @combined ts least left h =>
    refine .combined ?_
    rw [hu.levelOf_append]
    rcases h with h | h | rfl
    · obtain ⟨pos, ts, rfl⟩ := exists_cons_of_front h (by simp)
      exact .inl h
    · exact .inr (.inl h)
    · exact .inr (.inl (lt_of_lt_of_le neg_one_lt_zero hg))
  | @looser _ ts₁ _ _ _ _ _ _ _ hl hx ht hy ihx ihy =>
    have hs := hu.of_suffix hy.suffix
    have hs' := hs.of_suffix (skip_suffix ts₁)
    have hx' := ihx trivial hs'
    rw [← (hs'.of_suffix hx.suffix).skip_append] at hx'
    refine .looser hl hx' ?_ ?_
    · rwa [hs'.levelOf_append]
    · rw [hs.skip_append]
      exact ihy hg hu
  | @tighter _ ts₁ _ _ _ _ _ _ _ _ _ hl hx ht hr hy ihx ihr ihy =>
    have hs₂ := hu.of_suffix hy.suffix
    have hs := hs₂.of_suffix hr.suffix
    have hs' := hs.of_suffix (skip_suffix ts₁)
    have hx' := ihx trivial hs'
    rw [← (hs'.of_suffix hx.suffix).skip_append] at hx'
    refine .tighter hl hx' ?_ ?_ (ihy hg hu)
    · rwa [hs'.levelOf_append]
    · rw [hs.skip_append]
      exact ihr (Int.add_nonneg (hg.trans hl) (by decide)) hs₂

/-! ### Signatures -/

section

variable {ts rest : List Token}

lemma ReadsParams.append {ps : List Param} (h : ReadsParams ts ps rest) (us : List Token) :
    ReadsParams (ts ++ us) ps (rest ++ us) := by
  induction h with
  | last hn ht hr =>
    exact .last (skip_append_of_cons hn us) (skipBlank_append_of_cons ht us)
      (skip_append_of_cons hr us)
  | cons hn ht hc _ ih =>
    exact .cons (skip_append_of_cons hn us) (skipBlank_append_of_cons ht us)
      (skip_append_of_cons hc us) ih

lemma ReadsResult.append {r : Option BaseType} (h : ReadsResult ts r rest) (us : List Token) :
    ReadsResult (ts ++ us) r (rest ++ us) := by
  cases h with
  | none hn => exact .none (skipBlank_append_of_cons hn us)
  | tight => exact .tight
  | spaced ht => exact .spaced (skipBlank_append_of_cons ht us)

lemma ReadsPrototype.append {p : Prototype} (h : ReadsPrototype ts p rest) (us : List Token) :
    ReadsPrototype (ts ++ us) p (rest ++ us) := by
  cases h with
  | bare hn => exact .bare (skipBlank_append_of_cons hn us)
  | empty hl hr ht =>
    exact .empty (skipBlank_append_of_cons hl us) (skip_append_of_cons hr us) (ht.append us)
  | full hl hp ht => exact .full (skipBlank_append_of_cons hl us) (hp.append us) (ht.append us)

end

/-! ### Definitions and blocks -/

section

variable {prec : Precedence} {ts rest : List Token}

lemma ReadsBody.ne_nil {params : List Param} {done xs : List Node}
    (h : ReadsBody prec params done ts xs rest) : ts ≠ [] := by
  cases h with
  | bodyless he => exact ne_nil_of_skip he
  | closed he => exact ne_nil_of_skip he
  | statement hx _ =>
    rintro rfl
    exact absurd (hx.length_lt trivial) (Nat.not_lt_zero _)

lemma ReadsBody.append {params : List Param} {done xs : List Node}
    (h : ReadsBody prec params done ts xs rest) (us : List Token) :
    ReadsBody prec params done (ts ++ us) xs (rest ++ us) := by
  induction h with
  | bodyless he => exact .bodyless (skip_append_of_cons he us)
  | closed he => exact .closed (skip_append_of_cons he us)
  | statement hx hxs ih =>
    have hs := fenced_of_ne_nil hxs.ne_nil us
    have hx' := hx.append trivial hs
    rw [← (hs.of_suffix hx.suffix).skip_append] at hx'
    exact .statement hx' ih

lemma ReadsDefinition.append {className implName : Text} {d : Definition}
    (h : ReadsDefinition prec className implName ts d rest) (us : List Token) :
    ReadsDefinition prec className implName (ts ++ us) d (rest ++ us) := by
  cases h with
  | mk hp hb hu =>
    rw [List.cons_append]
    refine .mk (hp.append us) (hb.append us) ?_
    rw [← List.cons_append, hu, List.append_assoc]

/-- A definition at some tokens, between whitespace, is also one in front of others. -/
lemma ReadsDefinition.append_skip {className implName : Text} {d : Definition}
    (h : ReadsDefinition prec className implName (skip ts) d rest) (us : List Token) :
    ReadsDefinition prec className implName (skip (ts ++ us)) d (rest ++ us) := by
  obtain ⟨pos, vs, hs⟩ := h.exists_cons
  rw [skip_append_of_cons hs, ← List.cons_append, ← hs]
  exact h.append us

lemma ReadsName.append {name : Text} (h : ReadsName ts name rest) (us : List Token) :
    ReadsName (ts ++ us) name (rest ++ us) := by
  obtain ⟨ts₁, pos, pos', hn, hl⟩ := h
  exact ⟨_, pos, pos', skipBlank_append_of_cons hn us, skipBlank_append_of_cons hl us⟩

lemma Opens.ne_top {b b' : Block} {word : Kind} {name : Text} (h : Opens b word name b') :
    b' ≠ .top := by
  cases h with
  | ofClass | ofTrait | ofImpl => simp

/-- A block up to its `end` can stand in front of everything. -/
lemma ReadsBlock.append {b : Block} {ds : List Definition} (h : ReadsBlock prec b ts ds rest)
    (hb : b ≠ .top) (us : List Token) : ReadsBlock prec b (ts ++ us) ds (rest ++ us) := by
  induction h with
  | finished => exact absurd rfl hb
  | closed _ he => exact .closed hb (skip_append_of_cons he us)
  | definition hd _ ih => exact .definition (hd.append_skip us) (ih hb)
  | nested hw ho hn _ _ ihd ihe =>
    have hb' := ho.ne_top
    exact .nested (skip_append_of_cons hw us) ho (hn.append us) (ihd hb') (ihe hb)

end

end Frontend.Grammar
