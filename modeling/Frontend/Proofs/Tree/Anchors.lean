import Frontend.Proofs.Tree.Spans

/-!
# Anchors of parsed trees

Every node of a parsed tree starts at the token that names it and ends at a token that its kind
decides: a call of a name at the parenthesis that closes it, a definition at its `end` or, without
statements, with its signature. Parentheses have no nodes and may stand around any expression, so
the parenthesis that closes a call is found by counting. What all phrases have in common is
`Grammar.Passes`: the tokens that they are read from have balanced parentheses and no `end`.
-/

namespace Frontend

open Lexer (isIdentifier isOperator IsSpelled Spelled)

/-! ### Trees -/

namespace Node

/-- All nodes of a tree have a property. -/
def Everywhere (P : Node → Prop) (root : Node) : Prop := ∀ n, root.Holds n → P n

lemma Holds.cases_root {root n : Node} (h : root.Holds n) :
    n = root ∨ ∃ c ∈ root.children, c.Holds n := by
  induction h with
  | root => exact .inl rfl
  | child _ hc ih =>
    rcases ih with rfl | ⟨d, hd, hn⟩
    · exact .inr ⟨_, hc, .root⟩
    · exact .inr ⟨d, hd, .child hn hc⟩

lemma Everywhere.mk {P : Node → Prop} {root : Node} (h : P root)
    (hc : ∀ c ∈ root.children, c.Everywhere P) : root.Everywhere P := by
  intro n hn
  rcases hn.cases_root with rfl | ⟨c, hmem, hn⟩
  · exact h
  · exact hc c hmem n hn

end Node

namespace Grammar

/-! ### Parentheses -/

/-- Every parenthesis among some tokens has its partner among them. -/
inductive Balanced : List Token → Prop
  | nil : Balanced []
  | token {t : Token} {ts : List Token} (hl : t.kind ≠ .leftParen) (hr : t.kind ≠ .rightParen)
      (h : Balanced ts) : Balanced (t :: ts)
  | group {inner ts : List Token} {pos pos' : Int} (hi : Balanced inner) (h : Balanced ts) :
      Balanced (⟨.leftParen, pos⟩ :: (inner ++ ⟨.rightParen, pos'⟩ :: ts))

lemma Balanced.append {ts us : List Token} (h : Balanced ts) (h' : Balanced us) :
    Balanced (ts ++ us) := by
  induction h with
  | nil => exact h'
  | token hl hr _ ih => exact .token hl hr ih
  | group hi _ _ ih =>
    rw [List.cons_append, List.append_assoc, List.cons_append]
    exact .group hi ih

/-- Between two places of a stream the parentheses are balanced, and no `end` stands there. -/
def Passes (ts rest : List Token) : Prop :=
  ∃ used, ts = used ++ rest ∧ Balanced used ∧ ∀ t ∈ used, t.kind ≠ .endWord

/-- A kind of token that neither opens nor closes anything. -/
def isPlain (kind : Kind) : Bool := kind ≠ .leftParen ∧ kind ≠ .rightParen ∧ kind ≠ .endWord

section Passes

variable {ts us rest : List Token} {t : Token}

lemma Passes.refl (ts : List Token) : Passes ts ts := ⟨[], rfl, .nil, by simp⟩

lemma Passes.trans (h : Passes ts us) (h' : Passes us rest) : Passes ts rest := by
  obtain ⟨a, rfl, ha, hea⟩ := h
  obtain ⟨b, rfl, hb, heb⟩ := h'
  exact ⟨a ++ b, (List.append_assoc ..).symm, ha.append hb, List.forall_mem_append.2 ⟨hea, heb⟩⟩

lemma Passes.cons (ht : isPlain t.kind = true) (h : Passes ts rest) : Passes (t :: ts) rest := by
  obtain ⟨used, rfl, hb, he⟩ := h
  simp only [isPlain, decide_eq_true_eq] at ht
  exact ⟨t :: used, rfl, .token ht.1 ht.2.1 hb, List.forall_mem_cons.2 ⟨ht.2.2, he⟩⟩

lemma Passes.suffix (h : Passes ts rest) : rest <:+ ts := by
  obtain ⟨used, rfl, -⟩ := h
  exact List.suffix_append used rest

/-- A pair of parentheses is passed as a whole. -/
lemma Passes.group {pos pos' : Int} (h : Passes ts (⟨.rightParen, pos'⟩ :: rest)) :
    Passes (⟨.leftParen, pos⟩ :: ts) rest := by
  obtain ⟨used, rfl, hb, he⟩ := h
  refine ⟨⟨.leftParen, pos⟩ :: (used ++ [⟨.rightParen, pos'⟩]), by simp, .group hb .nil, ?_⟩
  refine List.forall_mem_cons.2 ⟨by simp, List.forall_mem_append.2 ⟨he, by simp⟩⟩

lemma isPlain_of_isWhitespace (h : t.isWhitespace = true) : isPlain t.kind = true := by
  cases hk : t.kind <;> simp_all [Token.isWhitespace, Kind.isWhitespace, isPlain]

lemma passes_skip (ts : List Token) : Passes ts (skip ts) := by
  induction ts with
  | nil => exact .refl []
  | cons t ts ih =>
    by_cases hw : t.isWhitespace = true
    · rw [skip_cons_of_whitespace hw]
      exact ih.cons (isPlain_of_isWhitespace hw)
    · rw [skip_cons_of_not_whitespace (by simpa using hw)]
      exact .refl _

lemma passes_of_skip (h : skip ts = t :: us) : Passes ts (t :: us) := h ▸ passes_skip ts

/-- A plain token behind whitespace. -/
lemma Passes.of_skip (h : skip ts = t :: us) (ht : isPlain t.kind = true) (hr : Passes us rest) :
    Passes ts rest :=
  (passes_of_skip h).trans (hr.cons ht)

lemma passes_of_skipBlank (h : skipBlank ts = t :: us) : Passes ts (t :: us) := by
  rcases skipBlank_eq_cons h with rfl | ⟨pos, rfl⟩
  · exact .refl _
  · exact (Passes.refl _).cons rfl

lemma Passes.of_skipBlank (h : skipBlank ts = t :: us) (ht : isPlain t.kind = true)
    (hr : Passes us rest) : Passes ts rest :=
  (passes_of_skipBlank h).trans (hr.cons ht)

end Passes

/-- A phrase passes the tokens that it is read from. The parenthesis behind arguments has its
partner in front of them, and it is the last token of the call. -/
def Phrase.Passed (ts rest : List Token) (x : Node) : Phrase → Prop
  | .args _ _ _ => Passes ts (⟨.rightParen, x.stop⟩ :: rest)
  | _           => Passes ts rest

section Expressions

variable {prec : Precedence} {s : Scope} {g : Phrase} {ts rest : List Token} {x : Node}

lemma isPlain_of_literal? {t : Token} (h : Parser.literal? t.pos t.kind = some x) :
    isPlain t.kind = true := by
  rcases literal?_cases h with ⟨v, hk, -⟩ | ⟨v, hk, -⟩ | ⟨hk, -⟩ <;> rw [hk] <;> rfl

theorem Reads.passed (h : Reads prec s g ts x rest) : g.Passed ts rest x := by
  induction h with
  -- operands: a parenthesised expression is one group
  | @expr ts ts₁ _ _ _ _ _ ihx ihy | @name ts ts₁ _ _ _ _ _ ihx ihy =>
    exact (Passes.trans ihx (passes_skip ts₁)).trans ihy
  | operator _ ihx => exact Passes.cons rfl ihx
  | operand _ ihx => exact ihx
  | @literal ts _ _ _ _ hx _ ihy =>
    exact ((passes_skip ts).trans ihy).cons (isPlain_of_literal? hx)
  | @paren _ _ ts₂ _ _ _ _ _ _ hr _ _ ihx ihy =>
    have hgroup := Passes.trans ihx (passes_of_skip hr)
    exact (hgroup.group.trans (passes_skip ts₂)).trans ihy
  -- messages and names: the list of a call is one group
  | @sent ts => exact .refl ts
  | @send ts ts₁ _ _ _ _ _ _ _ ihm ihy =>
    exact ((Passes.trans ihm (passes_skip ts₁)).trans ihy).cons rfl
  | callNone hl hr =>
    exact ((passes_of_skip hl).trans (Passes.group (passes_of_skip hr))).cons rfl
  | @call ts ts₁ _ _ _ _ _ hl _ ihx =>
    have hgroup := (passes_skip ts₁).trans ihx
    exact ((passes_of_skip hl).trans hgroup.group).cons rfl
  | @assign ts ts₁ _ _ _ _ _ ha _ ihv =>
    exact (((passes_skip ts₁).trans ihv).of_skip ha rfl).cons rfl
  | @localVar ts => exact (passes_skip ts).cons rfl
  -- arguments: the commas stand between the groups, not in them
  | @lastArg ts ts₁ _ _ _ _ _ _ _ hr ihx =>
    exact ((passes_skip ts).trans ihx).trans (passes_of_skip hr)
  | @arg ts _ _ _ _ _ _ _ _ _ _ hr _ ihx ihy =>
    exact ((passes_skip ts).trans ihx).trans (Passes.of_skip hr rfl ihy)
  | @combined ts => exact .refl ts
  | @looser ts ts₁ _ _ _ _ _ _ _ _ _ _ _ ihx ihy =>
    have hx := (passes_skip ts).trans ihx
    exact ((hx.trans (passes_skip ts₁)).trans ihy).cons rfl
  | @tighter ts ts₁ _ _ _ _ _ _ _ _ _ _ _ _ _ _ ihx ihr ihy =>
    have hx := (passes_skip ts).trans ihx
    exact (((hx.trans (passes_skip ts₁)).trans ihr).trans ihy).cons rfl

end Expressions

/-! ### Anchors -/

/-- A call of a name in a stream: the name, an opening parenthesis behind it, and the parenthesis
that closes this one. -/
def Encloses (whole : List Token) (fn : Text) (span : Span) : Prop :=
  ∃ before blank inner after pos, whole = before ++ ⟨.identifier fn, span.start⟩ ::
      (blank ++ ⟨.leftParen, pos⟩ :: (inner ++ ⟨.rightParen, span.stop⟩ :: after)) ∧
    (∀ t ∈ blank, t.isWhitespace = true) ∧ Balanced inner

/-- A definition with statements in a stream: its `def` and the first `end` behind it. -/
def Concludes (whole : List Token) (span : Span) : Prop :=
  ∃ before inner after, whole = before ++ ⟨.defWord, span.start⟩ ::
      (inner ++ ⟨.endWord, span.stop⟩ :: after) ∧
    ∀ t ∈ inner, t.kind ≠ .endWord

/-- A definition without statements in a stream: its `def`, the tokens of its signature, the last
of which that is not whitespace it ends with, and an `end` behind them that is not its own. -/
def Declares (whole : List Token) (proto : Prototype) (span : Span) : Prop :=
  ∃ before signature rest init last blank blank' pos after,
    whole = before ++ ⟨.defWord, span.start⟩ :: (signature ++ rest) ∧
    ReadsPrototype (signature ++ rest) proto rest ∧
    signature = init ++ last :: blank ∧ last.isWhitespace = false ∧ last.pos = span.stop ∧
    rest = blank' ++ ⟨.endWord, pos⟩ :: after ∧
    ∀ t ∈ blank ++ blank', t.isWhitespace = true

end Grammar

open Grammar

/-- A node starts and ends where its kind says, where `stands` says which kinds of tokens stand at
which offsets. Blocks are no nodes of a parsed tree. -/
def Node.Anchored (stands : Kind → Int → Prop) (whole : List Token) : Node → Prop
  | .definition s _ proto [] _ _   => stands .defWord s.start ∧ Declares whole proto s
  | .definition s _ _ (_ :: _) _ _ =>
    stands .defWord s.start ∧ stands .endWord s.stop ∧ Concludes whole s
  | .assign s name value => stands (.identifier name) s.start ∧ s.stop = value.stop
  | .localVar s name _   => stands (.identifier name) s.start ∧ s.stop = s.start
  | .binary s _ l r      => s.start = l.start ∧ s.stop = r.stop
  | .call s fn args      =>
    match prefixOperator? fn args with
    | some op => stands (.operator op.toNat) s.start ∧ args.map Node.stop = [s.stop]
    | none    =>
      stands (.identifier fn) s.start ∧ stands .rightParen s.stop ∧ Encloses whole fn s
  | .send s recv msg     => s.start = recv.start ∧ s.stop = msg.stop
  | .int s value         => stands (.number value) s.start ∧ s.stop = s.start
  | .string s value      => stands (.string value) s.start ∧ s.stop = s.start
  | .selfRef s           => stands .selfWord s.start ∧ s.stop = s.start
  | .module .. | .classBlock .. | .traitBlock .. | .implBlock .. => False

namespace Grammar

/-- The tokens of a stream stand where they say, and texts can spell them. -/
structure Legible (stands : Kind → Int → Prop) (whole : List Token) : Prop where
  stands : ∀ t ∈ whole, stands t.kind t.pos
  spelled : Spelled whole

/-- What a phrase has read before is anchored. -/
def Phrase.Anchored (P : Node → Prop) : Phrase → Prop
  | .sends recv     => recv.Everywhere P
  | .binary _ left  => left.Everywhere P
  | .args _ _ done  => ∀ x ∈ done, x.Everywhere P
  | _               => True

/-- What is read as a phrase is anchored. Of a call whose arguments are read only these are, since
the rest of it stands in front of the phrase. -/
def Phrase.Anchors (P : Node → Prop) (x : Node) : Phrase → Prop
  | .args pos fn _ => ∃ stop args, x = .call ⟨pos, stop⟩ fn args ∧ ∀ c ∈ args, c.Everywhere P
  | _              => x.Everywhere P

section Anchors

variable {stands : Kind → Int → Prop} {whole ts us rest : List Token} {t : Token}
  {prec : Precedence}

lemma Legible.of_cons (h : Legible stands whole) (hs : t :: ts <:+ whole) :
    stands t.kind t.pos ∧ IsSpelled t.kind ∧ ts <:+ whole :=
  have ht : t ∈ whole := hs.subset List.mem_cons_self
  ⟨h.stands t ht, h.spelled t ht, (List.suffix_cons t ts).trans hs⟩

lemma Legible.of_skip (h : Legible stands whole) (hs : ts <:+ whole) (hk : skip ts = t :: us) :
    stands t.kind t.pos ∧ IsSpelled t.kind ∧ us <:+ whole :=
  h.of_cons (hk ▸ (skip_suffix ts).trans hs)

/-- The parentheses of a call, behind a name and in front of a rest of the stream. -/
lemma encloses_of_passes {fn : Text} {pos pos' stop : Int}
    (hs : ⟨.identifier fn, pos⟩ :: ts <:+ whole) (hl : skip ts = ⟨.leftParen, pos'⟩ :: us)
    (h : Passes us (⟨.rightParen, stop⟩ :: rest)) : Encloses whole fn ⟨pos, stop⟩ := by
  obtain ⟨before, rfl⟩ := hs
  obtain ⟨blank, hts, hblank⟩ := exists_whitespace ts
  obtain ⟨inner, rfl, hb, -⟩ := h
  refine ⟨before, blank, inner, rest, pos', ?_, hblank, hb⟩
  rw [hts, hl]

/-- A call of a name between its name and its closing parenthesis. -/
lemma everywhere_call {fn : Text} {args : List Node} {pos pos' stop : Int}
    (hw : Legible stands whole) (hs : ⟨.identifier fn, pos⟩ :: ts <:+ whole)
    (hl : skip ts = ⟨.leftParen, pos'⟩ :: us) (h : Passes us (⟨.rightParen, stop⟩ :: rest))
    (hargs : ∀ c ∈ args, c.Everywhere (Node.Anchored stands whole)) :
    (Node.call ⟨pos, stop⟩ fn args).Everywhere (Node.Anchored stands whole) := by
  obtain ⟨hname, hfn, hsuf⟩ := hw.of_cons hs
  obtain ⟨-, -, hus⟩ := hw.of_skip hsuf hl
  obtain ⟨hclose, -, -⟩ := hw.of_cons (h.suffix.trans hus)
  refine .mk ?_ hargs
  simp only [Node.Anchored, prefixOperator?_of_isIdentifier hfn]
  exact ⟨hname, hclose, encloses_of_passes hs hl h⟩

/-- What is read from a stream is anchored in it. -/
theorem Reads.anchors {s : Scope} {g : Phrase} {x : Node} (h : Reads prec s g ts x rest)
    (hw : Legible stands whole) (hs : ts <:+ whole)
    (hg : g.Anchored (Node.Anchored stands whole)) :
    g.Anchors (Node.Anchored stands whole) x := by
  induction h with
  -- operands: the ones without a kind of their own only hand the anchors on
  | @expr ts ts₁ _ x y hx _ ihx ihy | @name ts ts₁ _ x y hx _ ihx ihy =>
    exact ihy (((skip_suffix ts₁).trans hx.suffix).trans hs) (ihx hs trivial)
  | @operator ts _ x op pos hx ihx =>
    obtain ⟨hop, ⟨b, hb, rfl⟩, hs'⟩ := hw.of_cons hs
    refine Node.Everywhere.mk ?_ (List.forall_mem_singleton.2 (ihx hs' trivial))
    rw [ofCodePoint_of_isOperator hb]
    simp only [Node.Anchored, prefixOperator?_unary hb]
    exact ⟨hop, rfl⟩
  | operand _ ihx => exact ihx hs trivial
  | @literal ts _ x y t hx _ ihy =>
    obtain ⟨ht, -, hs⟩ := hw.of_cons hs
    refine ihy ((skip_suffix ts).trans hs) ?_
    rcases literal?_cases hx with ⟨v, hk, rfl⟩ | ⟨v, hk, rfl⟩ | ⟨hk, rfl⟩ <;> rw [hk] at ht <;>
      exact Node.Everywhere.mk ⟨ht, rfl⟩ (by simp [Node.children])
  | @paren ts ts₁ ts₂ _ x y _ _ hx hr _ _ ihx ihy =>
    obtain ⟨-, -, hs⟩ := hw.of_cons hs
    obtain ⟨-, -, hs'⟩ := hw.of_skip (hx.suffix.trans hs) hr
    exact ihy ((skip_suffix ts₂).trans hs') (ihx hs trivial)
  -- messages: a send starts and ends with its two parts
  | sent => exact hg
  | @send ts ts₁ _ recv msg y _ hm _ ihm ihy =>
    obtain ⟨-, -, hs⟩ := hw.of_cons hs
    refine ihy (((skip_suffix ts₁).trans hm.suffix).trans hs) (.mk ⟨rfl, rfl⟩ ?_)
    exact List.forall_mem_cons.2 ⟨hg, List.forall_mem_singleton.2 (ihm hs trivial)⟩
  -- names: a call ends at the parenthesis that closes its list, an assignment with its value
  | callNone hl hr => exact everywhere_call hw hs hl (passes_of_skip hr) (by simp)
  | @call ts ts₁ _ x fn pos _ hl hx ihx =>
    obtain ⟨-, -, hs'⟩ := hw.of_cons hs
    obtain ⟨-, -, hs'⟩ := hw.of_skip hs' hl
    obtain ⟨stop, args, rfl, hargs⟩ := ihx ((skip_suffix ts₁).trans hs') (by simp [Phrase.Anchored])
    exact everywhere_call hw hs hl ((passes_skip ts₁).trans hx.passed) hargs
  | @assign ts ts₁ _ v _ pos _ ha _ ihv =>
    obtain ⟨hname, -, hs⟩ := hw.of_cons hs
    obtain ⟨-, -, hs⟩ := hw.of_skip hs ha
    exact Node.Everywhere.mk ⟨hname, rfl⟩
      (List.forall_mem_singleton.2 (ihv ((skip_suffix ts₁).trans hs) trivial))
  | localVar =>
    obtain ⟨hname, -, -⟩ := hw.of_cons hs
    exact Node.Everywhere.mk ⟨hname, rfl⟩ (by simp [Node.children])
  -- arguments: the call is anchored once its list is complete
  | @lastArg ts ts₁ _ x done fn pos stop _ _ ihx =>
    refine ⟨stop, (x :: done).reverse, rfl, ?_⟩
    simpa only [List.mem_reverse, List.forall_mem_cons] using
      ⟨ihx ((skip_suffix ts).trans hs) trivial, hg⟩
  | @arg ts ts₁ ts₂ _ x _ done fn pos _ hx hr _ ihx ihy =>
    have hs := (skip_suffix ts).trans hs
    obtain ⟨-, -, hs'⟩ := hw.of_skip (hx.suffix.trans hs) hr
    exact ihy hs' (List.forall_mem_cons.2 ⟨ihx hs trivial, hg⟩)
  -- operators: a binary operator starts and ends with its operands
  | combined => exact hg
  | @looser ts ts₁ _ x left y least op pos _ hx _ _ ihx ihy =>
    have hs := (skip_suffix ts).trans (hw.of_cons hs).2.2
    refine ihy (((skip_suffix ts₁).trans hx.suffix).trans hs) (.mk ⟨rfl, rfl⟩ ?_)
    exact List.forall_mem_cons.2 ⟨hg, List.forall_mem_singleton.2 (ihx hs trivial)⟩
  | @tighter ts ts₁ ts₂ _ x right left y least op pos _ hx _ hr _ ihx ihr ihy =>
    have hs := (skip_suffix ts).trans (hw.of_cons hs).2.2
    have hs' := ((skip_suffix ts₁).trans hx.suffix).trans hs
    refine ihy (hr.suffix.trans hs') (.mk ⟨rfl, rfl⟩ ?_)
    exact List.forall_mem_cons.2
      ⟨hg, List.forall_mem_singleton.2 (ihr hs' (ihx hs trivial))⟩

end Anchors

/-! ### Definitions -/

section Definitions

variable {stands : Kind → Int → Prop} {whole ts rest : List Token} {prec : Precedence}

lemma ReadsParams.passes {ps : List Param} (h : ReadsParams ts ps rest) :
    ∃ pos, Passes ts (⟨.rightParen, pos⟩ :: rest) := by
  induction h with
  | @last ts ts₁ ts₂ ts₃ name type pos pos' pos'' hn ht hr =>
    exact ⟨pos'', .of_skip hn rfl (.of_skipBlank ht rfl (passes_of_skip hr))⟩
  | cons hn ht hc _ ih =>
    obtain ⟨pos, ih⟩ := ih
    exact ⟨pos, .of_skip hn rfl (.of_skipBlank ht rfl (.of_skip hc rfl ih))⟩

lemma ReadsResult.passes {r : Option BaseType} (h : ReadsResult ts r rest) : Passes ts rest := by
  cases h with
  | none hn => exact .of_skipBlank hn rfl (.refl rest)
  | tight => exact ((Passes.refl rest).cons rfl).cons rfl
  | spaced ht => exact ((Passes.of_skipBlank ht rfl (.refl rest)).cons rfl).cons rfl

lemma ReadsPrototype.passes {p : Prototype} (h : ReadsPrototype ts p rest) : Passes ts rest := by
  cases h with
  | bare hn => exact ((Passes.of_skipBlank hn rfl (.refl rest)).cons rfl).cons rfl
  | empty hl hr ht =>
    have hparams := (passes_of_skipBlank hl).trans (passes_of_skip hr).group
    exact ((hparams.trans ht.passes).cons rfl).cons rfl
  | full hl hp ht =>
    obtain ⟨pos, hp⟩ := hp.passes
    have hparams := (passes_of_skipBlank hl).trans hp.group
    exact ((hparams.trans ht.passes).cons rfl).cons rfl

/-- A signature is not only whitespace. -/
lemma ReadsPrototype.exists_signature {p : Prototype} (h : ReadsPrototype ts p rest) :
    ∃ signature, ts = signature ++ rest ∧ ∃ t ∈ signature, t.isWhitespace = false := by
  have key : ∀ {us : List Token} {name : Text} {pos pos' : Int}, rest <:+ us →
      ∃ signature, (⟨.space, pos⟩ :: ⟨.identifier name, pos'⟩ :: us : List Token) =
        signature ++ rest ∧ ∃ t ∈ signature, t.isWhitespace = false := by
    rintro _ name pos pos' ⟨used, rfl⟩
    exact ⟨⟨.space, pos⟩ :: ⟨.identifier name, pos'⟩ :: used, rfl, ⟨.identifier name, pos'⟩,
      by simp, rfl⟩
  cases h with
  | bare hn => exact key (suffix_of_skipBlank hn)
  | empty hl hr ht =>
    exact key ((ht.suffix.trans (suffix_of_skip hr)).trans (suffix_of_skipBlank hl))
  | full hl hp ht => exact key ((ht.suffix.trans hp.suffix).trans (suffix_of_skipBlank hl))

/-- Statements go on up to the first `end`. -/
lemma ReadsBody.passes {params : List Param} {done xs : List Node}
    (h : ReadsBody prec params done ts xs rest) (hne : done ≠ [] ∨ xs ≠ []) :
    ∃ pos, Passes ts (⟨.endWord, pos⟩ :: rest) := by
  induction h with
  | bodyless => simp at hne
  | closed he => exact ⟨_, passes_of_skip he⟩
  | @statement ts ts₁ rest x done xs hx hxs ih =>
    obtain ⟨pos, h⟩ := ih (.inl (List.cons_ne_nil x done))
    exact ⟨pos, ((passes_skip ts).trans hx.passed).trans h⟩

lemma ReadsBody.anchored {params : List Param} {done xs : List Node}
    (h : ReadsBody prec params done ts xs rest) (hw : Legible stands whole) (hs : ts <:+ whole) :
    ∀ x ∈ xs, x.Everywhere (Node.Anchored stands whole) := by
  induction h with
  | bodyless | closed => simp
  | @statement ts ts₁ rest x done xs hx hxs ih =>
    have hs := (skip_suffix ts).trans hs
    exact List.forall_mem_cons.2 ⟨hx.anchors hw hs trivial, ih (hx.suffix.trans hs)⟩

lemma lastPos_append {us ws : List Token} {t : Token} (ht : t.isWhitespace = false)
    (hw : ∀ w ∈ ws, w.isWhitespace = true) : lastPos (us ++ t :: ws) = t.pos := by
  have hnone : ws.reverse.find? (fun w => !w.isWhitespace) = none := by
    simpa [List.find?_eq_none] using hw
  simp [lastPos, List.find?_append, hnone, ht]

/-- A definition without statements ends with its signature. -/
lemma declares_of_reads {proto : Prototype} {used ts₁ : List Token} {pos pos' : Int}
    (hs : ⟨.defWord, pos⟩ :: ts <:+ whole) (hp : ReadsPrototype ts proto ts₁)
    (he : skip ts₁ = ⟨.endWord, pos'⟩ :: rest)
    (hu : ⟨.defWord, pos⟩ :: ts = used ++ ⟨.endWord, pos'⟩ :: rest) :
    Declares whole proto ⟨pos, lastPos used⟩ := by
  obtain ⟨before, rfl⟩ := hs
  obtain ⟨signature, rfl, hne⟩ := hp.exists_signature
  obtain ⟨blank', hts, hblank'⟩ := exists_whitespace ts₁
  obtain ⟨init, last, blank, rfl, hl, -, hblank⟩ := exists_last hne
  rw [he] at hts
  have hws : ∀ t ∈ blank ++ blank', t.isWhitespace = true :=
    List.forall_mem_append.2 ⟨hblank, hblank'⟩
  have hused : used = (⟨.defWord, pos⟩ :: init) ++ last :: (blank ++ blank') := by
    have key : used ++ ⟨.endWord, pos'⟩ :: rest =
        (⟨.defWord, pos⟩ :: init) ++ last :: (blank ++ blank') ++ ⟨.endWord, pos'⟩ :: rest := by
      rw [← hu, hts]
      simp
    exact List.append_cancel_right key
  refine ⟨before, _, ts₁, init, last, blank, blank', pos', rest, rfl, hp, ?_, hl, ?_, hts, hws⟩
  · simp
  · rw [hused, lastPos_append hl hws]

lemma ReadsDefinition.anchored {className implName : Text} {d : Definition}
    (h : ReadsDefinition prec className implName ts d rest) (hw : Legible stands whole)
    (hs : ts <:+ whole) : d.toNode.Everywhere (Node.Anchored stands whole) := by
  cases h with
  | @mk ts ts₁ used _ pos proto body hp hb hu =>
    obtain ⟨hdef, -, hs'⟩ := hw.of_cons hs
    have hbody := hb.anchored hw (hp.suffix.trans hs')
    refine .mk ?_ hbody
    match body, hb with
    | [], .bodyless he => exact ⟨hdef, declares_of_reads hs hp he hu⟩
    | x :: xs, hb =>
      obtain ⟨pos', hend⟩ := hb.passes (.inr (List.cons_ne_nil x xs))
      obtain ⟨inner, rfl, -, hinner⟩ := hp.passes.trans hend
      have hused : used = ⟨.defWord, pos⟩ :: inner ++ [⟨.endWord, pos'⟩] := by
        have key : used ++ rest = ⟨.defWord, pos⟩ :: inner ++ [⟨.endWord, pos'⟩] ++ rest := by
          rw [← hu]
          simp
        exact List.append_cancel_right key
      have hstop : lastPos used = pos' := by rw [hused, lastPos_append rfl (by simp)]
      obtain ⟨before, rfl⟩ := hs
      refine ⟨hdef, ?_, before, inner, rest, by rw [hstop], hinner⟩
      rw [hstop]
      exact hw.stands ⟨.endWord, pos'⟩ (by simp)

/-- All definitions of a block are anchored in the stream that the block is read from. -/
theorem ReadsBlock.anchored {b : Block} {ds : List Definition} (h : ReadsBlock prec b ts ds rest)
    (hw : Legible stands whole) (hs : ts <:+ whole) :
    ∀ d ∈ ds, d.toNode.Everywhere (Node.Anchored stands whole) := by
  induction h with
  | finished | closed => simp
  | @definition b ts ts₁ rest d ds hd hds ih =>
    have hs := (skip_suffix ts).trans hs
    exact List.forall_mem_cons.2 ⟨hd.anchored hw hs, ih (hd.suffix.trans hs)⟩
  | nested hn _ hname hds _ ihd ihe =>
    have hs := hname.suffix.trans (hw.of_skip hs hn).2.2
    exact List.forall_mem_append.2 ⟨ihd hs, ihe (hds.suffix.trans hs)⟩

end Definitions

end Grammar

end Frontend
