import Frontend.Proofs.Parser.Coverage

/-!
# Spans of parsed trees

The span of a node goes from its first to its last token. In a token stream whose offsets increase,
the spans of a parsed tree are nested like the tree: the span of a node holds those of the nodes
directly below it, and these come one after the other.

The spans are put together from different tokens, and parentheses have none. What all phrases have
in common is `Grammar.Before`: a node that has been read ends before every token that is left.
-/

namespace Frontend

/-! ### Nodes below a node -/

namespace Node

/-- The nodes directly below a node, in the order of the source. -/
def children : Node → List Node
  | .module _ body             => body
  | .classBlock _ _ body       => body
  | .traitBlock _ _ body       => body
  | .implBlock _ _ body        => body
  | .definition _ _ _ body _ _ => body
  | .assign _ _ value          => [value]
  | .binary _ _ left right     => [left, right]
  | .call _ _ args             => args
  | .send _ recv msg           => [recv, msg]
  | .localVar _ _ _            => []
  | .int _ _                   => []
  | .string _ _                => []
  | .selfRef _                 => []

/-- A node is the root of a tree or stands somewhere below it. -/
inductive Holds (root : Node) : Node → Prop
  | root : Holds root root
  | child {n c : Node} (h : Holds root n) (hc : c ∈ n.children) : Holds root c

/-- A node does not end before it starts, the nodes directly below it are inside of it, and each of
them ends before the next one starts. -/
structure Ordered (n : Node) : Prop where
  le : n.start ≤ n.stop
  inside : ∀ c ∈ n.children, n.start ≤ c.start ∧ c.stop ≤ n.stop
  apart : n.children.Pairwise fun a b => a.stop < b.start

/-- All nodes of a tree are ordered, and they start and end at good offsets. -/
inductive Placed (good : Int → Prop) : Node → Prop
  | mk {n : Node} (ho : n.Ordered) (hs : good n.start) (ht : good n.stop)
      (hc : ∀ c ∈ n.children, Placed good c) : Placed good n

section

variable {good better : Int → Prop} {n : Node}

lemma Placed.ordered (h : n.Placed good) : n.Ordered := by
  cases h with
  | mk ho => exact ho

lemma Placed.le (h : n.Placed good) : n.start ≤ n.stop := h.ordered.le

lemma Placed.good_start (h : n.Placed good) : good n.start := by
  cases h with
  | mk _ hs => exact hs

lemma Placed.good_stop (h : n.Placed good) : good n.stop := by
  cases h with
  | mk _ _ ht => exact ht

lemma Placed.mono (h : n.Placed good) (hg : ∀ p, good p → better p) : n.Placed better := by
  induction h with
  | mk ho hs ht _ ih => exact .mk ho (hg _ hs) (hg _ ht) ih

lemma Placed.of_holds {m : Node} (h : n.Placed good) (hm : n.Holds m) : m.Placed good := by
  induction hm with
  | root => exact h
  | child _ hc ih =>
    cases ih with
    | mk _ _ _ hcs => exact hcs _ hc

/-- A node without nodes below it. -/
lemma placed_of_leaf (hc : n.children = []) (he : n.start = n.stop) (hg : good n.start) :
    n.Placed good := by
  refine .mk ⟨he.le, ?_, ?_⟩ hg (he ▸ hg) ?_
  · simp [hc]
  · simp [hc]
  · simp [hc]

end

end Node

namespace Grammar

/-! ### Offsets -/

/-- The offsets of the tokens increase. -/
def Increasing (ts : List Token) : Prop := ts.Pairwise fun t u => t.pos < u.pos

/-- An offset lies before all tokens. -/
def Before (p : Int) (ts : List Token) : Prop := ∀ t ∈ ts, p < t.pos

/-- An offset is that of a token that is not whitespace. -/
def Marks (ts : List Token) (p : Int) : Prop := ∃ t ∈ ts, t.isWhitespace = false ∧ t.pos = p

section

variable {ts us : List Token} {t : Token} {p : Int}

lemma Increasing.of_suffix (h : Increasing ts) (hs : us <:+ ts) : Increasing us :=
  List.Pairwise.sublist hs.sublist h

lemma Increasing.of_cons (h : Increasing (t :: ts)) : Before t.pos ts ∧ Increasing ts :=
  List.pairwise_cons.1 h

lemma Before.of_suffix (h : Before p ts) (hs : us <:+ ts) : Before p us :=
  fun t ht => h t (hs.subset ht)

lemma Before.of_cons (h : Before p (t :: ts)) : p < t.pos ∧ Before p ts :=
  List.forall_mem_cons.1 h

lemma Before.of_skip (h : Before p ts) (hs : skip ts = t :: us) : p < t.pos ∧ Before p us :=
  Before.of_cons (hs ▸ h.of_suffix (skip_suffix ts))

end

/-! ### Expressions -/

/-- The offsets of the tokens increase, and those of tokens that are not whitespace are good. -/
structure Laid (good : Int → Prop) (ts : List Token) : Prop where
  increasing : Increasing ts
  good_pos : ∀ t ∈ ts, t.isWhitespace = false → good t.pos

/-- What a phrase has read before ends before the tokens that it goes on with. -/
def Phrase.Placed (good : Int → Prop) (ts : List Token) : Phrase → Prop
  | .sends recv      => recv.Placed good ∧ Before recv.stop ts
  | .binary _ left   => left.Placed good ∧ Before left.stop ts
  | .args pos _ done => good pos ∧ Before pos ts ∧ (done.Pairwise fun a b => b.stop < a.start) ∧
      ∀ x ∈ done, x.Placed good ∧ pos < x.start ∧ Before x.stop ts
  | _                => True

/-- Where a node starts that is read as a phrase from some tokens. -/
def Phrase.Starts (ts : List Token) (x : Node) : Phrase → Prop
  | .sends recv    => x.start = recv.start
  | .binary _ left => x.start = left.start
  | .args pos _ _  => x.start = pos
  | _              => ∀ p, Before p ts → p < x.start

section Expressions

variable {good : Int → Prop} {ts us : List Token} {t : Token}

lemma laid_marks (h : Increasing ts) : Laid (Marks ts) ts :=
  ⟨h, fun t ht hw => ⟨t, ht, hw, rfl⟩⟩

lemma Laid.of_suffix (h : Laid good ts) (hs : us <:+ ts) : Laid good us :=
  ⟨h.increasing.of_suffix hs, fun t ht => h.good_pos t (hs.subset ht)⟩

lemma Laid.of_cons (h : Laid good (t :: ts)) (ht : t.isWhitespace = false) :
    good t.pos ∧ Before t.pos ts ∧ Laid good ts :=
  ⟨h.good_pos t List.mem_cons_self ht, h.increasing.of_cons.1, h.of_suffix (List.suffix_cons t ts)⟩

lemma Laid.of_skip (h : Laid good ts) (hs : skip ts = t :: us) (ht : t.isWhitespace = false) :
    good t.pos ∧ Before t.pos us ∧ Laid good us :=
  Laid.of_cons (hs ▸ h.of_suffix (skip_suffix ts)) ht

/-- A node around two others that come one after the other. -/
lemma placed_pair {n a b : Node} (hc : n.children = [a, b]) (hs : n.start = a.start)
    (ht : n.stop = b.stop) (ha : a.Placed good) (hb : b.Placed good) (h : a.stop < b.start) :
    n.Placed good := by
  have hla := ha.le
  have hlb := hb.le
  refine .mk ⟨by omega, ?_, ?_⟩ (hs ▸ ha.good_start) (ht ▸ hb.good_stop) ?_
  · simp only [hc, List.forall_mem_cons, List.not_mem_nil, false_implies, implies_true, and_true]
    omega
  · simpa [hc] using h
  · simpa [hc] using ⟨ha, hb⟩

/-- A node that starts before the node below it and ends with it. -/
lemma placed_over {n a : Node} (hc : n.children = [a]) (ht : n.stop = a.stop) (ha : a.Placed good)
    (hg : good n.start) (h : n.start < a.start) : n.Placed good := by
  have hla := ha.le
  refine .mk ⟨by omega, ?_, ?_⟩ hg (ht ▸ ha.good_stop) ?_
  · simp only [hc, List.forall_mem_cons, List.not_mem_nil, false_implies, implies_true, and_true]
    omega
  · simp [hc]
  · simpa [hc] using ha

/-- A call between its name and its closing parenthesis, with arguments given in reverse. -/
lemma placed_call {pos stop : Int} {fn : Text} {done : List Node} (hp : good pos) (hs : good stop)
    (hlt : pos < stop) (ho : done.Pairwise fun a b => b.stop < a.start)
    (hd : ∀ x ∈ done, x.Placed good ∧ pos < x.start ∧ x.stop < stop) :
    (Node.call ⟨pos, stop⟩ fn done.reverse).Placed good := by
  refine .mk ⟨hlt.le, ?_, List.pairwise_reverse.2 ho⟩ hp hs ?_
  · intro c hc
    obtain ⟨-, h₁, h₂⟩ := hd c (List.mem_reverse.1 hc)
    exact ⟨h₁.le, h₂.le⟩
  · intro c hc
    exact (hd c (List.mem_reverse.1 hc)).1

/-- One more argument has been read. -/
lemma Phrase.Placed.cons_arg {pos : Int} {fn : Text} {done : List Node} {x : Node}
    (h : (Phrase.args pos fn done).Placed good ts) (hs : us <:+ ts) (hx : x.Placed good)
    (hb : Before x.stop us) (ha : ∀ p, Before p (skip ts) → p < x.start) :
    (Phrase.args pos fn (x :: done)).Placed good us := by
  obtain ⟨hpos, hlt, ho, hd⟩ := h
  refine ⟨hpos, hlt.of_suffix hs, List.pairwise_cons.2 ⟨fun d h => ?_, ho⟩,
    List.forall_mem_cons.2 ⟨⟨hx, ?_, hb⟩, fun d h => ?_⟩⟩
  · exact ha _ ((hd d h).2.2.of_suffix (skip_suffix ts))
  · exact ha _ (hlt.of_suffix (skip_suffix ts))
  · obtain ⟨hd', hlo, hhi⟩ := hd d h
    exact ⟨hd', hlo, hhi.of_suffix hs⟩

/-- An operand has been read: it is placed well, ends before the tokens that are left, and starts
behind everything that is before it. -/
def ReadOperand (good : Int → Prop) (ts : List Token) (x : Node) (rest : List Token) : Prop :=
  x.Placed good ∧ Before x.stop rest ∧ ∀ p, Before p ts → p < x.start

variable {rest : List Token} {x y : Node}

lemma readOperand_literal (hl : Laid good (t :: ts)) (hx : Parser.literal? t.pos t.kind = some x) :
    ReadOperand good (t :: ts) x ts := by
  have hw : t.isWhitespace = false := by
    rcases literal?_cases hx with ⟨v, hk, -⟩ | ⟨v, hk, -⟩ | ⟨hk, -⟩ <;>
      simp [Token.isWhitespace, hk, Kind.isWhitespace]
  obtain ⟨hpos, hlt, -⟩ := hl.of_cons hw
  have hxs : x.Placed good ∧ x.start = t.pos ∧ x.stop = t.pos := by
    rcases literal?_cases hx with ⟨v, -, rfl⟩ | ⟨v, -, rfl⟩ | ⟨-, rfl⟩ <;>
      exact ⟨Node.placed_of_leaf rfl rfl hpos, rfl, rfl⟩
  obtain ⟨hx', hstart, hstop⟩ := hxs
  exact ⟨hx', hstop ▸ hlt, fun p h => hstart ▸ h.of_cons.1⟩

/-- Parentheses leave no trace, so the operand starts behind the opening one. -/
lemma ReadOperand.paren {pos pos' : Int} (hx : ReadOperand good ts x us)
    (hr : skip us = ⟨.rightParen, pos'⟩ :: rest) :
    ReadOperand good (⟨.leftParen, pos⟩ :: ts) x rest :=
  ⟨hx.1, (hx.2.1.of_skip hr).2, fun p h => hx.2.2 p h.of_cons.2⟩

/-- What goes on behind an operand, with messages or operators, starts where the operand does. -/
lemma ReadOperand.go_on (hx : ReadOperand good ts x us) (hl : Laid good us)
    (hy : Laid good (skip us) → x.Placed good ∧ Before x.stop (skip us) →
      y.Placed good ∧ Before y.stop rest ∧ y.start = x.start) :
    ReadOperand good ts y rest := by
  obtain ⟨hx, hb, hs⟩ := hx
  obtain ⟨hy, hb', hstart⟩ :=
    hy (hl.of_suffix (skip_suffix us)) ⟨hx, hb.of_suffix (skip_suffix us)⟩
  exact ⟨hy, hb', fun p h => hstart ▸ hs p h⟩

/-- The arguments of a call are closed. -/
lemma Phrase.Placed.close {pos stop : Int} {fn : Text} {done : List Node}
    (h : (Phrase.args pos fn done).Placed good ts) (hl : Laid good ts)
    (hr : skip ts = ⟨.rightParen, stop⟩ :: rest) :
    (Node.call ⟨pos, stop⟩ fn done.reverse).Placed good ∧ Before stop rest := by
  obtain ⟨hpos, hlt, ho, hd⟩ := h
  obtain ⟨hstop, hrest, -⟩ := hl.of_skip hr rfl
  refine ⟨placed_call hpos hstop (hlt.of_skip hr).1 ho fun d h => ?_, hrest⟩
  obtain ⟨hd', hlo, hhi⟩ := hd d h
  exact ⟨hd', hlo, (hhi.of_skip hr).1⟩

/-- The arguments of a call are about to be read. -/
lemma placed_args_nil {pos : Int} (fn : Text) (hpos : good pos) (hlt : Before pos ts) :
    (Phrase.args pos fn []).Placed good ts :=
  ⟨hpos, hlt, .nil, by simp⟩

/-- What is read starts where it should, is placed well and ends before the tokens that are
left. -/
theorem Reads.placed {prec : Precedence} {s : Scope} {g : Phrase} (h : Reads prec s g ts x rest)
    (hl : Laid good ts) (hp : g.Placed good ts) :
    x.Placed good ∧ Before x.stop rest ∧ g.Starts ts x := by
  induction h with
  -- operands: what they start with decides where they start
  | expr hx _ ihx ihy | name hx _ ihx ihy =>
    exact ReadOperand.go_on (ihx hl trivial) (hl.of_suffix hx.suffix) ihy
  | @operator ts _ x op pos hx ihx =>
    obtain ⟨hpos, hlt, hl⟩ := hl.of_cons rfl
    obtain ⟨hx', hb, hs⟩ := ihx hl trivial
    exact ⟨placed_over rfl rfl hx' hpos (hs _ hlt), hb, fun p h => h.of_cons.1⟩
  | operand _ ihx => exact ihx hl trivial
  | literal hx _ ihy =>
    exact (readOperand_literal hl hx).go_on (hl.of_suffix (List.suffix_cons _ _)) ihy
  | paren hx hr _ _ ihx ihy =>
    obtain ⟨-, -, hl⟩ := hl.of_cons rfl
    have hx' : ReadOperand good _ _ _ := ihx hl trivial
    exact (hx'.paren hr).go_on (hl.of_suffix ((suffix_of_skip hr).trans hx.suffix)) ihy
  -- messages: the one that is read comes behind the receiver
  | sent => exact ⟨hp.1, hp.2, rfl⟩
  | @send ts ts₁ _ recv msg y _ hm _ ihm ihy =>
    obtain ⟨-, -, hl⟩ := hl.of_cons rfl
    obtain ⟨hm', hb, hs⟩ := ihm hl trivial
    have hn : (Node.send ⟨recv.start, msg.stop⟩ recv msg).Placed good :=
      placed_pair rfl rfl rfl hp.1 hm' (hs _ hp.2.of_cons.2)
    exact ihy (hl.of_suffix ((skip_suffix ts₁).trans hm.suffix))
      ⟨hn, hb.of_suffix (skip_suffix ts₁)⟩
  -- names: calls, assignments and local variables start with them
  | @callNone _ _ _ fn pos _ stop ho hr =>
    obtain ⟨hpos, hlt, hl⟩ := hl.of_cons rfl
    obtain ⟨-, -, hl⟩ := hl.of_skip ho rfl
    obtain ⟨hcall, hb⟩ := (placed_args_nil fn hpos (hlt.of_skip ho).2).close hl hr
    exact ⟨hcall, hb, fun p h => h.of_cons.1⟩
  | @call ts ts₁ _ x fn pos _ ho _ ihx =>
    obtain ⟨hpos, hlt, hl⟩ := hl.of_cons rfl
    obtain ⟨-, -, hl⟩ := hl.of_skip ho rfl
    have hlt := (hlt.of_skip ho).2.of_suffix (skip_suffix ts₁)
    obtain ⟨hx', hb, hs⟩ :=
      ihx (hl.of_suffix (skip_suffix ts₁)) (placed_args_nil fn hpos hlt)
    refine ⟨hx', hb, fun p h => ?_⟩
    rw [show x.start = pos from hs]
    exact h.of_cons.1
  | @assign ts ts₁ _ v _ pos _ ha _ ihv =>
    obtain ⟨hpos, hlt, hl⟩ := hl.of_cons rfl
    obtain ⟨-, -, hl⟩ := hl.of_skip ha rfl
    obtain ⟨hv', hb, hs⟩ := ihv (hl.of_suffix (skip_suffix ts₁)) trivial
    have hlt := (hlt.of_skip ha).2.of_suffix (skip_suffix ts₁)
    exact ⟨placed_over rfl rfl hv' hpos (hs _ hlt), hb, fun p h => h.of_cons.1⟩
  | localVar =>
    obtain ⟨hpos, hlt, -⟩ := hl.of_cons rfl
    exact ⟨Node.placed_of_leaf rfl rfl hpos, hlt.of_suffix (skip_suffix _), fun p h => h.of_cons.1⟩
  -- arguments: each comes behind those that have been read before
  | @lastArg ts ts₁ _ x done fn pos stop hx hr ihx =>
    have hl := hl.of_suffix (skip_suffix ts)
    obtain ⟨hx', hb, hs⟩ := ihx hl trivial
    have hargs := hp.cons_arg (hx.suffix.trans (skip_suffix ts)) hx' hb hs
    obtain ⟨hcall, hrest⟩ := hargs.close (hl.of_suffix hx.suffix) hr
    exact ⟨hcall, hrest, rfl⟩
  | @arg ts ts₁ ts₂ _ x _ done fn pos _ hx hr _ ihx ihy =>
    have hsuf := ((suffix_of_skip hr).trans hx.suffix).trans (skip_suffix ts)
    obtain ⟨hx', hb, hs⟩ := ihx (hl.of_suffix (skip_suffix ts)) trivial
    exact ihy (hl.of_suffix hsuf) (hp.cons_arg hsuf hx' (hb.of_skip hr).2 hs)
  -- operators: the right operand comes behind the left one
  | combined => exact ⟨hp.1, hp.2, rfl⟩
  | @looser ts ts₁ _ x left y least op pos _ hx _ _ ihx ihy =>
    have hsuf := (skip_suffix ts).trans (List.suffix_cons ⟨.operator op, pos⟩ ts)
    obtain ⟨hx', hb, hs⟩ := ihx (hl.of_suffix hsuf) trivial
    have hn : (Node.binary ⟨left.start, x.stop⟩ op left x).Placed good :=
      placed_pair rfl rfl rfl hp.1 hx' (hs _ (hp.2.of_suffix hsuf))
    exact ihy (hl.of_suffix ((skip_suffix ts₁).trans (hx.suffix.trans hsuf)))
      ⟨hn, hb.of_suffix (skip_suffix ts₁)⟩
  | @tighter ts ts₁ ts₂ _ x right left y least op pos _ hx _ hr _ ihx ihr ihy =>
    have hsuf := (skip_suffix ts).trans (List.suffix_cons ⟨.operator op, pos⟩ ts)
    have hl := hl.of_suffix hsuf
    have hx' : ReadOperand good _ _ _ := ihx hl trivial
    obtain ⟨hr', hb, hs⟩ := hx'.go_on (hl.of_suffix hx.suffix) ihr
    have hn : (Node.binary ⟨left.start, right.stop⟩ op left right).Placed good :=
      placed_pair rfl rfl rfl hp.1 hr' (hs _ (hp.2.of_suffix hsuf))
    exact ihy (hl.of_suffix (hr.suffix.trans ((skip_suffix ts₁).trans hx.suffix))) ⟨hn, hb⟩

end Expressions

/-! ### Definitions -/

/-- Nodes that are read one after the other from some tokens up to a rest. -/
structure Row (good : Int → Prop) (ts : List Token) (xs : List Node) (rest : List Token) :
    Prop where
  placed : ∀ x ∈ xs, x.Placed good
  after : ∀ x ∈ xs, ∀ p, Before p ts → p < x.start
  before : ∀ x ∈ xs, Before x.stop rest
  apart : xs.Pairwise fun a b => a.stop < b.start

section Definitions

variable {good : Int → Prop} {prec : Precedence} {ts us rest : List Token} {xs ys : List Node}

lemma Row.nil : Row good ts [] rest := ⟨by simp, by simp, by simp, .nil⟩

lemma Row.of_suffix (h : Row good us xs rest) (hs : us <:+ ts) : Row good ts xs rest :=
  ⟨h.placed, fun x hx p hp => h.after x hx p (hp.of_suffix hs), h.before, h.apart⟩

/-- Good offsets may be other ones than those of tokens. -/
lemma Row.mono (h : Row (Marks ts) ts xs rest) (hl : Laid good ts) : Row good ts xs rest := by
  refine ⟨fun x hx => (h.placed x hx).mono ?_, h.after, h.before, h.apart⟩
  rintro p ⟨t, ht, hw, rfl⟩
  exact hl.good_pos t ht hw

lemma Row.append (h : Row good ts xs us) (h' : Row good us ys rest) (hs : us <:+ ts)
    (hr : rest <:+ us) : Row good ts (xs ++ ys) rest := by
  refine ⟨List.forall_mem_append.2 ⟨h.placed, h'.placed⟩,
    List.forall_mem_append.2 ⟨h.after, (h'.of_suffix hs).after⟩,
    List.forall_mem_append.2 ⟨fun x hx => (h.before x hx).of_suffix hr, h'.before⟩, ?_⟩
  refine List.pairwise_append.2 ⟨h.apart, h'.apart, fun x hx y hy => ?_⟩
  exact h'.after y hy _ (h.before x hx)

lemma row_singleton {x : Node} (hx : x.Placed good) (hs : ∀ p, Before p ts → p < x.start)
    (hb : Before x.stop rest) : Row good ts [x] rest :=
  ⟨List.forall_mem_singleton.2 hx, List.forall_mem_singleton.2 hs, List.forall_mem_singleton.2 hb,
    List.pairwise_singleton _ _⟩

lemma ReadsBody.row {params : List Param} {done : List Node}
    (h : ReadsBody prec params done ts xs rest) (hl : Laid good ts) : Row good ts xs rest := by
  induction h with
  | bodyless | closed => exact .nil
  | @statement ts ts₁ rest x _ _ hx hxs ih =>
    have hl := hl.of_suffix (skip_suffix ts)
    obtain ⟨hx', hb, hs⟩ := hx.placed hl trivial
    have hrow := (row_singleton hx' hs hb).append (ih (hl.of_suffix hx.suffix)) hx.suffix hxs.suffix
    exact hrow.of_suffix (skip_suffix ts)

/-- No token that is not whitespace lies behind the last one. -/
lemma le_lastPos {used : List Token} {p : Int} (hi : Increasing (used ++ rest))
    (hp : Marks (used ++ rest) p) (hb : Before p rest) : p ≤ lastPos used := by
  obtain ⟨u, hu, hn, rfl⟩ := hp
  have hmem : u ∈ used := by
    rcases List.mem_append.1 hu with h | h
    · exact h
    · exact absurd (hb u h) (lt_irrefl _)
  obtain ⟨us, t, ws, rfl, -, hl, hw⟩ := exists_last ⟨u, hmem, hn⟩
  rw [hl]
  have hpair := (List.pairwise_append.1 (List.pairwise_append.1 hi).1).1
  rcases List.mem_append.1 hmem with h | h
  · rcases List.mem_append.1 h with h | h
    · exact ((List.pairwise_append.1 hpair).2.2 u h t List.mem_cons_self).le
    · rw [List.mem_singleton.1 h]
  · rw [hw u h] at hn
    cases hn

lemma ReadsDefinition.row {className implName : Text} {d : Definition}
    (h : ReadsDefinition prec className implName ts d rest) (hi : Increasing ts) :
    Row (Marks ts) ts [d.toNode] rest := by
  cases h with
  | @mk ts ts₁ used _ pos proto body hp hb hu =>
    obtain ⟨hlt, hi'⟩ := hi.of_cons
    have hsuf : ts₁ <:+ ⟨.defWord, pos⟩ :: ts := hp.suffix.trans (List.suffix_cons _ _)
    have hrow := hb.row ((laid_marks hi).of_suffix hsuf)
    obtain ⟨used', rfl, -⟩ := exists_used (hb.suffix.trans hp.suffix) hu
    have hword : ∃ t ∈ (⟨.defWord, pos⟩ :: used' : List Token), t.isWhitespace = false :=
      ⟨_, List.mem_cons_self, rfl⟩
    -- a definition stops at the last token that is not whitespace
    obtain ⟨us, t, ws, he, hn, hl, -⟩ := exists_last hword
    have hmem : t ∈ (⟨.defWord, pos⟩ :: used' : List Token) := by simp [he]
    have hlast : ∀ p, Marks (⟨.defWord, pos⟩ :: ts) p → Before p rest →
        p ≤ lastPos (⟨.defWord, pos⟩ :: used') := by
      rw [hu] at hi ⊢
      exact fun p => le_lastPos hi
    have hstop : Before (lastPos (⟨.defWord, pos⟩ :: used')) rest := by
      rw [hl]
      rw [hu] at hi
      exact (List.pairwise_append.1 hi).2.2 t hmem
    have hdef : Marks (⟨.defWord, pos⟩ :: ts) pos := ⟨_, List.mem_cons_self, rfl, rfl⟩
    -- all of its parts start behind its keyword and stop in front of what is left
    refine row_singleton (.mk ⟨?_, ?_, hrow.apart⟩ hdef ?_ hrow.placed) (fun p hp => hp.of_cons.1)
      hstop
    · exact hlast pos hdef (hlt.of_suffix (hb.suffix.trans hp.suffix))
    · intro x hx
      refine ⟨(hrow.after x hx pos (hlt.of_suffix hp.suffix)).le, ?_⟩
      exact hlast _ (hrow.placed x hx).good_stop (hrow.before x hx)
    · refine ⟨t, ?_, hn, hl.symm⟩
      rw [hu]
      exact List.mem_append_left _ hmem

lemma ReadsBlock.row {b : Block} {ds : List Definition} (h : ReadsBlock prec b ts ds rest)
    (hl : Laid good ts) : Row good ts (ds.map Definition.toNode) rest := by
  induction h with
  | finished | closed => exact .nil
  | @definition b ts ts₁ rest d ds hd hds ih =>
    have hl := hl.of_suffix (skip_suffix ts)
    have hrow := (hd.row hl.increasing).mono hl
    exact (hrow.append (ih (hl.of_suffix hd.suffix)) hd.suffix hds.suffix).of_suffix
      (skip_suffix ts)
  | nested hw _ hn hds hes ihd ihe =>
    have hsuf := hn.suffix.trans (suffix_of_skip hw)
    have hrow := (ihd (hl.of_suffix hsuf)).append (ihe (hl.of_suffix (hds.suffix.trans hsuf)))
      hds.suffix hes.suffix
    rw [List.map_append]
    exact hrow.of_suffix hsuf

end Definitions

/-! ### Modules -/

/-- A module spans all of its tokens. -/
lemma span_ofTokens {ts : List Token} (hi : Increasing ts) {t : Token} (ht : t ∈ ts) :
    (Span.ofTokens ts).start ≤ t.pos ∧ t.pos ≤ (Span.ofTokens ts).stop := by
  have hne : ts ≠ [] := List.ne_nil_of_mem ht
  have hspan : Span.ofTokens ts = ⟨(ts.head hne).pos, (ts.getLast hne).pos⟩ := by
    rw [Span.ofTokens, List.head?_eq_some_head hne, List.getLast?_eq_some_getLast hne]
  rw [hspan]
  constructor
  · obtain ⟨u, us, rfl⟩ := List.exists_cons_of_ne_nil hne
    rcases List.mem_cons.1 ht with rfl | h
    · exact le_rfl
    · exact (hi.of_cons.1 t h).le
  · rw [← List.dropLast_append_getLast hne] at hi ht
    rcases List.mem_append.1 ht with h | h
    · exact ((List.pairwise_append.1 hi).2.2 t h _ List.mem_cons_self).le
    · rw [List.mem_singleton.1 h]

lemma span_of_parse {prec : Precedence} {ts : List Token} {m : Module}
    (h : parse prec ts = .ok m) : m.span = .ofTokens ts := by
  have h' := parse_of_reads (reads_of_parse h)
  rw [h] at h'
  exact congrArg Module.span (Except.ok.inj h')

/-- Where the offsets of the tokens increase, the spans of a parsed tree are nested like the tree:
every node starts before it ends, holds the spans of the nodes directly below it and has these one
after the other; and all nodes below the module start and end at tokens that are not whitespace. -/
theorem parse_ordered {prec : Precedence} {ts : List Token} {m : Module} (hi : Increasing ts)
    (hm : parse prec ts = .ok m) :
    (∀ n, m.toNode.Holds n → n.Ordered) ∧
      ∀ d ∈ m.toNode.children, ∀ n, d.Holds n → Marks ts n.start ∧ Marks ts n.stop := by
  have hrow := (reads_of_parse hm).row (laid_marks hi)
  have hspan : m.toNode.span = .ofTokens ts := span_of_parse hm
  have hin : ∀ p, Marks ts p → m.toNode.start ≤ p ∧ p ≤ m.toNode.stop := by
    rintro p ⟨t, ht, -, rfl⟩
    simpa only [Node.start, Node.stop, hspan] using span_ofTokens hi ht
  -- the module itself, which need not start or stop at a solid token
  have hroot : m.toNode.Ordered := by
    refine ⟨?_, fun d hd => ?_, hrow.apart⟩
    · match ts with
      | []      => simp [Node.start, Node.stop, hspan, Span.ofTokens]
      | t :: ts =>
        have := span_ofTokens hi (t := t) List.mem_cons_self
        simp only [Node.start, Node.stop, hspan]
        omega
    · have hd' := hrow.placed d hd
      exact ⟨(hin _ hd'.good_start).1, (hin _ hd'.good_stop).2⟩
  refine ⟨fun n hn => ?_, fun d hd n hn => ?_⟩
  · -- any other node lies below a definition
    have hall : n = m.toNode ∨ n.Placed (Marks ts) := by
      induction hn with
      | root => exact .inl rfl
      | child _ hc ih =>
        rcases ih with rfl | ih
        · exact .inr (hrow.placed _ hc)
        · exact .inr (ih.of_holds (.child .root hc))
    rcases hall with rfl | h
    · exact hroot
    · exact h.ordered
  · have h := (hrow.placed d hd).of_holds hn
    exact ⟨h.good_start, h.good_stop⟩

/-- A method with a call, a message and parentheses, and a bodyless one behind it. -/
theorem parse_ordered_methods : ∃ ts m,
    Lexer.tokens (Text.ofString
      "class A\n def f(x Int)\n  y = -x.g(1, (2)) + 3\n end\n def h\nend\n") 0 = .ok ts ∧
    Increasing ts ∧ parse .builtin ts = .ok m ∧ m.defs.length = 2 ∧
    (∀ n, m.toNode.Holds n → n.Ordered) ∧
      ∀ d ∈ m.toNode.children, ∀ n, d.Holds n → Marks ts n.start ∧ Marks ts n.stop := by
  obtain ⟨ts, ht, hi, m, hm, hl⟩ : ∃ ts, Lexer.tokens (Text.ofString
      "class A\n def f(x Int)\n  y = -x.g(1, (2)) + 3\n end\n def h\nend\n") 0 = .ok ts ∧
      Increasing ts ∧ ∃ m, parse .builtin ts = .ok m ∧ m.defs.length = 2 :=
    ⟨_, by cbv, by unfold Increasing; decide, _, by rfl, by rfl⟩
  exact ⟨ts, m, ht, hi, hm, hl, parse_ordered hi hm⟩

end Grammar

end Frontend
