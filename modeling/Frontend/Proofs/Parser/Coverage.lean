import Frontend.Proofs.Tree.Shape

/-!
# No token is lost

The tokens with a meaning of their own, in the order in which they stand in the source, are what a
definition consists of: `Definition.contents` reads them off the tree. `Covers` cuts a token stream
into the tokens of its definitions and the gaps between them, where only whitespace, block keywords
with the names of their blocks, and `end`s can stand.

The proofs count the word `def` among the tokens with a meaning, so that one invariant tells both
what a definition is made of and that there is no other definition inside it.
-/

namespace Frontend

open Lexer (isIdentifier IsSpelled Spelled)

/-! ### Contents -/

/-- The kinds of tokens that names, literals and operators are written with. -/
def Kind.isContent : Kind → Bool
  | .constant _ | .identifier _ | .number _ | .string _ | .operator _ | .selfWord => true
  | _                                                                             => false

/-- A parameter as the names it is written with. -/
def Param.contents (p : Param) : List Kind := [.identifier p.name, .constant (classNameOf p.type)]

/-- A signature as the names it is written with. -/
def Prototype.contents (p : Prototype) : List Kind :=
  .identifier p.name :: (p.params.flatMap Param.contents ++
    p.result.toList.map fun type => .constant type.className)

namespace Node

mutual

/-- A tree as the names, literals and operators it is written with, from left to right. -/
def contents : Node → List Kind
  | .module _ body                 => contentsAll body
  | .classBlock _ name body        => .constant name :: contentsAll body
  | .traitBlock _ name body        => .constant name :: contentsAll body
  | .implBlock _ name body         => .constant name :: contentsAll body
  | .definition _ _ proto body _ _ => proto.contents ++ contentsAll body
  | .assign _ name value           => .identifier name :: value.contents
  | .localVar _ name _             => [.identifier name]
  | .binary _ op left right        => left.contents ++ .operator op :: right.contents
  | .call _ fn args                =>
    match prefixOperator? fn args with
    | some op => .operator op.toNat :: contentsAll args
    | none    => .identifier fn :: contentsAll args
  | .send _ recv msg               => recv.contents ++ msg.contents
  | .int _ value                   => [.number value]
  | .string _ value                => [.string value]
  | .selfRef _                     => [.selfWord]

/-- Trees as what they are written with. -/
def contentsAll : List Node → List Kind
  | []      => []
  | n :: ns => n.contents ++ contentsAll ns

end

@[simp] lemma contentsAll_eq_flatMap (ns : List Node) : contentsAll ns = ns.flatMap contents := by
  induction ns with
  | nil => rfl
  | cons n ns ih => rw [contentsAll, ih, List.flatMap_cons]

end Node

/-- A definition as what it is written with behind its `def`. -/
def Definition.contents (d : Definition) : List Kind :=
  d.proto.contents ++ d.body.flatMap Node.contents

namespace Grammar

/-- The names, literals and operators among some tokens. -/
def contents (ts : List Token) : List Kind := (ts.map Token.kind).filter Kind.isContent

/-! ### Ranges and gaps -/

/-- The tokens of a definition: from its `def`, the only one among them, to the token at its last
offset. -/
structure Range (ts : List Token) (d : Definition) : Prop where
  first : ts.head? = some ⟨.defWord, d.span.start⟩
  last : ∃ t, ts.getLast? = some t ∧ t.isWhitespace = false ∧ t.pos = d.span.stop
  once : ∀ t ∈ ts.tail, t.kind ≠ .defWord
  contents : contents ts = d.contents

/-- Tokens that belong to no definition. -/
inductive Gap : List Token → Prop
  | nil : Gap []
  | whitespace {t : Token} {ts : List Token} (ht : t.isWhitespace = true) (h : Gap ts) :
      Gap (t :: ts)
  | close {pos : Int} {ts : List Token} (h : Gap ts) : Gap (⟨.endWord, pos⟩ :: ts)
  /-- The keyword and the name of a block. -/
  | block {word : Kind} {name : Text} {pos pos' : Int} {blank ts : List Token}
      (hw : word ∈ [Kind.classWord, .traitWord, .implWord]) (hb : ∀ t ∈ blank, t.kind = .space)
      (h : Gap ts) : Gap (⟨word, pos⟩ :: (blank ++ ⟨.constant name, pos'⟩ :: ts))

/-- A token stream consists of the tokens of some definitions, in their order, and of gaps. -/
inductive Covers : List Token → List Definition → Prop
  | gap {ts : List Token} (h : Gap ts) : Covers ts []
  | range {gap ts us : List Token} {d : Definition} {ds : List Definition} (hg : Gap gap)
      (hd : Range ts d) (h : Covers us ds) : Covers (gap ++ ts ++ us) (d :: ds)

lemma Gap.append {ts us : List Token} (h : Gap ts) (h' : Gap us) : Gap (ts ++ us) := by
  induction h with
  | nil => exact h'
  | whitespace ht _ ih => exact .whitespace ht ih
  | close _ ih => exact .close ih
  | block hw hb _ ih =>
    rw [List.cons_append, List.append_assoc, List.cons_append]
    exact .block hw hb ih

lemma gap_of_whitespace {ts : List Token} (h : ∀ t ∈ ts, t.isWhitespace = true) : Gap ts := by
  induction ts with
  | nil => exact .nil
  | cons t ts ih =>
    obtain ⟨ht, h⟩ := List.forall_mem_cons.1 h
    exact .whitespace ht (ih h)

lemma Covers.of_gap {ts us : List Token} {ds : List Definition} (hg : Gap ts) (h : Covers us ds) :
    Covers (ts ++ us) ds := by
  cases h with
  | gap h => exact .gap (hg.append h)
  | range hg' hd h =>
    rw [← List.append_assoc, ← List.append_assoc]
    exact .range (hg.append hg') hd h

lemma Covers.append {ts us : List Token} {ds es : List Definition} (h : Covers ts ds)
    (h' : Covers us es) : Covers (ts ++ us) (ds ++ es) := by
  induction h with
  | gap h => exact h'.of_gap h
  | range hg hd _ ih =>
    rw [List.append_assoc]
    exact .range hg hd ih

lemma Gap.kind_ne_defWord {ts : List Token} (h : Gap ts) : ∀ t ∈ ts, t.kind ≠ .defWord := by
  induction h with
  | nil => simp
  | @whitespace t _ ht _ ih =>
    refine List.forall_mem_cons.2 ⟨fun hk => ?_, ih⟩
    simp [Token.isWhitespace, hk, Kind.isWhitespace] at ht
  | close _ ih => exact List.forall_mem_cons.2 ⟨by simp, ih⟩
  | @block word _ _ _ blank _ hw hb _ ih =>
    refine List.forall_mem_cons.2 ⟨?_, List.forall_mem_append.2 ⟨fun t ht => ?_, ?_⟩⟩
    · rintro rfl
      simp at hw
    · simp [hb t ht]
    · exact List.forall_mem_cons.2 ⟨by simp, ih⟩

lemma filter_eq_nil_of_kind_ne {ts : List Token} (h : ∀ t ∈ ts, t.kind ≠ .defWord) :
    (ts.filter fun t => t.kind = .defWord) = [] := by
  rw [List.filter_eq_nil_iff]
  exact fun t ht => by simpa using h t ht

/-- The `def`s of a stream are those that its definitions start with. -/
lemma Covers.filter_eq {ts : List Token} {ds : List Definition} (h : Covers ts ds) :
    (ts.filter fun t => t.kind = .defWord) = ds.map fun d => ⟨.defWord, d.start⟩ := by
  induction h with
  | gap h => exact filter_eq_nil_of_kind_ne h.kind_ne_defWord
  | @range gap ts us d ds hg hd _ ih =>
    obtain ⟨t, ts, rfl⟩ : ∃ t u, ts = t :: u := by
      cases ts with
      | nil => simpa using hd.first
      | cons t u => exact ⟨t, u, rfl⟩
    obtain rfl : t = ⟨.defWord, d.span.start⟩ := Option.some.inj hd.first
    have h₁ := filter_eq_nil_of_kind_ne hg.kind_ne_defWord
    have h₂ := filter_eq_nil_of_kind_ne hd.once
    simp only [List.tail_cons] at h₂
    simp [List.filter_append, ih, h₁, h₂, Definition.start]

/-- There are as many `def`s as definitions. -/
lemma Covers.length_filter {ts : List Token} {ds : List Definition} (h : Covers ts ds) :
    (ts.filter fun t => t.kind = .defWord).length = ds.length := by
  rw [h.filter_eq, List.length_map]

/-! ### Expressions -/

/-- A kind that is kept: contents and the word `def`. -/
def isMarked (kind : Kind) : Bool := kind.isContent || kind = .defWord

/-- The kept kinds of some tokens. -/
def marked (ts : List Token) : List Kind := (ts.map Token.kind).filter isMarked

section

variable {ts us : List Token} {t : Token}

lemma marked_append (ts us : List Token) : marked (ts ++ us) = marked ts ++ marked us := by
  simp [marked]

lemma marked_cons (h : isMarked t.kind = true) : marked (t :: ts) = t.kind :: marked ts := by
  simp [marked, h]

lemma marked_cons_of_not (h : isMarked t.kind = false) : marked (t :: ts) = marked ts := by
  simp [marked, h]

lemma isMarked_of_isWhitespace (h : t.isWhitespace = true) : isMarked t.kind = false := by
  obtain ⟨kind, pos⟩ := t
  cases kind with
  | space | newline => rfl
  | _ => cases h

lemma marked_of_whitespace (h : ∀ t ∈ ts, t.isWhitespace = true) : marked ts = [] := by
  induction ts with
  | nil => rfl
  | cons t ts ih =>
    obtain ⟨ht, h⟩ := List.forall_mem_cons.1 h
    rw [marked_cons_of_not (isMarked_of_isWhitespace ht), ih h]

@[simp] lemma marked_skip (ts : List Token) : marked (skip ts) = marked ts := by
  obtain ⟨ws, he, hw⟩ := exists_whitespace ts
  conv_rhs => rw [he, marked_append, marked_of_whitespace hw, List.nil_append]

lemma marked_of_skip (h : skip ts = t :: us) : marked ts = marked (t :: us) := by
  rw [← marked_skip, h]

lemma marked_of_skipBlank (h : skipBlank ts = t :: us) : marked ts = marked (t :: us) := by
  rcases skipBlank_eq_cons h with rfl | ⟨pos, rfl⟩
  · rfl
  · exact marked_cons_of_not rfl

end

/-- What a phrase has read before. -/
def Phrase.pending : Phrase → List Kind
  | .sends recv     => recv.contents
  | .args _ fn done => .identifier fn :: done.reverse.flatMap Node.contents
  | .binary _ left  => left.contents
  | _               => []

/-- The arguments of a phrase are those of a name. -/
def Phrase.Calls : Phrase → Prop
  | .args _ fn _ => isIdentifier fn = true
  | _            => True

lemma contents_call {span : Span} {fn : Text} (h : isIdentifier fn = true) (args : List Node) :
    (Node.call span fn args).contents = .identifier fn :: args.flatMap Node.contents := by
  simp [Node.contents, prefixOperator?_of_isIdentifier h]

section Expressions

variable {ts rest : List Token} {x : Node} {name : Text} {word : Kind} {pos pos' op : Int}

lemma marked_literal {t : Token} (hx : Parser.literal? t.pos t.kind = some x) :
    marked (t :: ts) = x.contents ++ marked ts := by
  obtain ⟨kind, pos⟩ := t
  rcases literal?_cases hx with ⟨v, rfl, rfl⟩ | ⟨v, rfl, rfl⟩ | ⟨rfl, rfl⟩ <;> rfl

/-- An operator in front of its operand is the name of a call in the tree. -/
lemma contents_unary {span : Span} (hop : ∃ b, Lexer.isOperator b = true ∧ op = b.toNat) :
    (Node.call span (unaryWord ++ Text.ofCodePoint op) [x]).contents =
      .operator op :: x.contents := by
  obtain ⟨b, hb, rfl⟩ := hop
  rw [ofCodePoint_of_isOperator hb]
  simp [Node.contents, prefixOperator?_unary hb]

/-- A name and the punctuation behind it, of which the name is kept. -/
lemma marked_name (hw : skip ts = ⟨word, pos'⟩ :: rest) (hm : isMarked word = false) :
    marked (⟨.identifier name, pos⟩ :: ts) = .identifier name :: marked rest := by
  rw [marked_cons rfl, marked_of_skip hw, marked_cons_of_not hm]

/-- What is read is what was there: reading moves tokens from the stream into the tree. -/
theorem Reads.marked_eq {prec : Precedence} {s : Scope} {g : Phrase} (h : Reads prec s g ts x rest)
    (ht : Spelled ts) (hg : g.Calls) : g.pending ++ marked ts = x.contents ++ marked rest := by
  induction h with
  -- operands: what has been read of one is pending for what goes on behind it
  | expr hx _ ihx ihy | name hx _ ihx ihy =>
    have hy := ihy (ht.of_suffix ((skip_suffix _).trans hx.suffix)) trivial
    rw [marked_skip] at hy
    exact (ihx ht trivial).trans hy
  | operator hx ihx =>
    obtain ⟨hop, ht⟩ := ht.of_cons
    have hx := ihx ht trivial
    simp only [Phrase.pending, List.nil_append] at hx ⊢
    rw [contents_unary hop, marked_cons rfl, hx, List.cons_append]
  | operand _ ihx => exact ihx ht trivial
  | literal hx _ ihy =>
    have hy := ihy (ht.of_suffix ((skip_suffix _).trans (List.suffix_cons _ _))) trivial
    rw [marked_skip] at hy
    exact (marked_literal hx).trans hy
  | paren hx hr _ _ ihx ihy =>
    have ht := ht.of_cons.2
    obtain ⟨-, ht'⟩ := spelled_of_skip (ht.of_suffix hx.suffix) hr
    have hx' := ihx ht trivial
    have hy := ihy (ht'.of_suffix (skip_suffix _)) trivial
    rw [marked_skip] at hy
    rw [marked_of_skip hr, marked_cons_of_not rfl] at hx'
    rw [marked_cons_of_not rfl]
    exact hx'.trans hy
  -- messages: the dot is dropped
  | sent => rfl
  | send hm _ ihm ihy =>
    have ht := ht.of_cons.2
    have hm' := ihm ht trivial
    have hy := ihy (ht.of_suffix ((skip_suffix _).trans hm.suffix)) trivial
    rw [marked_skip] at hy
    simp only [Phrase.pending, Node.contents, List.nil_append, List.append_assoc] at hm' hy ⊢
    rw [marked_cons_of_not rfl, hm', hy]
  -- names: the name is kept, and parentheses and equals signs are dropped
  | callNone hl hr =>
    simp only [Phrase.pending, List.nil_append]
    rw [marked_name hl rfl, marked_of_skip hr, marked_cons_of_not rfl, contents_call ht.of_cons.1]
    rfl
  | call hl _ ihx =>
    obtain ⟨hn, ht⟩ := ht.of_cons
    obtain ⟨-, ht⟩ := spelled_of_skip ht hl
    have hx := ihx (ht.of_suffix (skip_suffix _)) hn
    rw [marked_skip] at hx
    rw [← hx, marked_name hl rfl]
    rfl
  | assign ha _ ihv =>
    obtain ⟨-, ht⟩ := ht.of_cons
    obtain ⟨-, ht⟩ := spelled_of_skip ht ha
    have hv := ihv (ht.of_suffix (skip_suffix _)) trivial
    simp only [Phrase.pending, List.nil_append, marked_skip] at hv ⊢
    rw [marked_name ha rfl, hv]
    rfl
  | localVar =>
    simp only [Phrase.pending, List.nil_append, marked_skip]
    rw [marked_cons rfl]
    rfl
  -- arguments: the last one ends the call, and commas are dropped
  | lastArg hx hr ihx =>
    have hx' := ihx (ht.of_suffix (skip_suffix _)) trivial
    simp only [Phrase.pending, List.nil_append, marked_skip] at hx' ⊢
    rw [hx', marked_of_skip hr, marked_cons_of_not rfl, contents_call hg]
    simp
  | arg hx hr _ ihx ihy =>
    have ht := ht.of_suffix (skip_suffix _)
    have hx' := ihx ht trivial
    have hy := ihy (spelled_of_skip (ht.of_suffix hx.suffix) hr).2 hg
    simp only [Phrase.pending, List.nil_append, marked_skip] at hx' hy ⊢
    rw [hx', marked_of_skip hr, marked_cons_of_not rfl, ← hy]
    simp
  -- operators: they stand between the contents of their operands
  | combined => rfl
  | looser _ hx _ _ ihx ihy =>
    have ht := ht.of_cons.2.of_suffix (skip_suffix _)
    have hx' := ihx ht trivial
    have hy := ihy (ht.of_suffix ((skip_suffix _).trans hx.suffix)) trivial
    simp only [Phrase.pending, Node.contents, List.nil_append, marked_skip] at hx' hy ⊢
    rw [marked_cons rfl, hx', ← hy]
    simp
  | tighter _ hx _ hr _ ihx ihr ihy =>
    have ht := ht.of_cons.2.of_suffix (skip_suffix _)
    have ht' := ht.of_suffix ((skip_suffix _).trans hx.suffix)
    have hx' := ihx ht trivial
    have hr' := ihr ht' trivial
    have hy := ihy (ht'.of_suffix hr.suffix) trivial
    simp only [Phrase.pending, Node.contents, List.nil_append, marked_skip] at hx' hr' hy ⊢
    rw [marked_cons rfl, hx', hr', ← hy]
    simp

end Expressions

/-! ### Definitions -/

section Definitions

variable {prec : Precedence} {ts rest : List Token}

lemma ReadsParams.marked_eq {ps : List Param} (h : ReadsParams ts ps rest) :
    marked ts = ps.flatMap Param.contents ++ marked rest := by
  induction h with
  | last hn ht hr =>
    rw [marked_of_skip hn, marked_cons rfl, marked_of_skipBlank ht, marked_cons rfl,
      marked_of_skip hr, marked_cons_of_not rfl]
    simp [Param.contents, classNameOf, className_named]
  | cons hn ht hc _ ih =>
    rw [marked_of_skip hn, marked_cons rfl, marked_of_skipBlank ht, marked_cons rfl,
      marked_of_skip hc, marked_cons_of_not rfl, ih]
    simp [Param.contents, classNameOf, className_named]

lemma ReadsResult.marked_eq {r : Option BaseType} (h : ReadsResult ts r rest) :
    marked ts = (r.toList.map fun type => .constant type.className) ++ marked rest := by
  cases h with
  | none hn =>
    rw [marked_of_skipBlank hn, marked_cons_of_not rfl]
    rfl
  | tight =>
    rw [marked_cons_of_not rfl, marked_cons rfl]
    simp [className_named]
  | spaced ht =>
    rw [marked_cons_of_not rfl, marked_cons_of_not rfl, marked_of_skipBlank ht, marked_cons rfl]
    simp [className_named]

lemma ReadsPrototype.marked_eq {p : Prototype} (h : ReadsPrototype ts p rest) :
    marked ts = p.contents ++ marked rest := by
  cases h with
  | bare hn =>
    rw [marked_cons_of_not rfl, marked_cons rfl, marked_of_skipBlank hn, marked_cons_of_not rfl]
    rfl
  | empty hl hr ht =>
    rw [marked_cons_of_not rfl, marked_cons rfl, marked_of_skipBlank hl, marked_cons_of_not rfl,
      marked_of_skip hr, marked_cons_of_not rfl, ht.marked_eq]
    rfl
  | full hl hp ht =>
    rw [marked_cons_of_not rfl, marked_cons rfl, marked_of_skipBlank hl, marked_cons_of_not rfl,
      hp.marked_eq, ht.marked_eq]
    simp [Prototype.contents]

lemma ReadsBody.marked_eq {params : List Param} {done xs : List Node}
    (h : ReadsBody prec params done ts xs rest) (ht : Spelled ts) :
    marked ts = xs.flatMap Node.contents ++ marked rest := by
  induction h with
  | bodyless he => exact marked_of_skip he
  | closed he =>
    rw [marked_of_skip he, marked_cons_of_not rfl]
    rfl
  | statement hx _ ih =>
    have ht := ht.of_suffix (skip_suffix _)
    have hx' := hx.marked_eq ht trivial
    rw [marked_skip, ih (ht.of_suffix hx.suffix)] at hx'
    rw [List.flatMap_cons, List.append_assoc]
    exact hx'

end Definitions

lemma isContent_of_mem_prototype (p : Prototype) : ∀ k ∈ p.contents, k.isContent = true := by
  refine List.forall_mem_cons.2 ⟨rfl, List.forall_mem_append.2 ⟨?_, ?_⟩⟩
  · simp only [List.mem_flatMap, Param.contents, List.mem_cons, List.not_mem_nil, or_false]
    rintro k ⟨q, -, rfl | rfl⟩ <;> rfl
  · simp only [List.mem_map]
    rintro k ⟨type, -, rfl⟩
    rfl

mutual

/-- What a tree is written with are names, literals and operators. -/
lemma isContent_of_mem_contents (n : Node) : ∀ k ∈ n.contents, k.isContent = true := by
  match n with
  | .module _ body => exact isContent_of_mem_contentsAll body
  | .classBlock _ _ body | .traitBlock _ _ body | .implBlock _ _ body =>
    exact List.forall_mem_cons.2 ⟨rfl, isContent_of_mem_contentsAll body⟩
  | .definition _ _ proto body _ _ =>
    exact List.forall_mem_append.2 ⟨isContent_of_mem_prototype proto,
      isContent_of_mem_contentsAll body⟩
  | .assign _ _ value => exact List.forall_mem_cons.2 ⟨rfl, isContent_of_mem_contents value⟩
  | .binary _ _ left right =>
    exact List.forall_mem_append.2 ⟨isContent_of_mem_contents left,
      List.forall_mem_cons.2 ⟨rfl, isContent_of_mem_contents right⟩⟩
  | .call _ fn args =>
    simp only [Node.contents]
    split
    · exact List.forall_mem_cons.2 ⟨rfl, isContent_of_mem_contentsAll args⟩
    · exact List.forall_mem_cons.2 ⟨rfl, isContent_of_mem_contentsAll args⟩
  | .send _ recv msg =>
    exact List.forall_mem_append.2 ⟨isContent_of_mem_contents recv, isContent_of_mem_contents msg⟩
  | .localVar _ _ _ | .int _ _ | .string _ _ | .selfRef _ =>
    exact List.forall_mem_singleton.2 rfl

lemma isContent_of_mem_contentsAll (ns : List Node) :
    ∀ k ∈ Node.contentsAll ns, k.isContent = true := by
  match ns with
  | [] => simp [Node.contentsAll]
  | n :: ns =>
    exact List.forall_mem_append.2 ⟨isContent_of_mem_contents n, isContent_of_mem_contentsAll ns⟩

end

/-- The tokens up to the last one that is not whitespace, and the whitespace behind it. -/
lemma exists_last {used : List Token} (h : ∃ t ∈ used, t.isWhitespace = false) :
    ∃ us t ws, used = us ++ [t] ++ ws ∧ t.isWhitespace = false ∧ lastPos used = t.pos ∧
      ∀ w ∈ ws, w.isWhitespace = true := by
  obtain ⟨t, ht, hw⟩ := h
  obtain ⟨u, hu⟩ : ∃ u, used.reverse.find? (fun t => !t.isWhitespace) = some u :=
    Option.isSome_iff_exists.1 (List.find?_isSome.2 ⟨t, List.mem_reverse.2 ht, by simp [hw]⟩)
  obtain ⟨hn, ws, us, he, hws⟩ := List.find?_eq_some_iff_append.1 hu
  refine ⟨us.reverse, u, ws.reverse, ?_, by simpa using hn, by simp [lastPos, hu], ?_⟩
  · rw [← List.reverse_reverse used, he]
    simp
  · simpa using hws

/-- The kept tokens of a definition decide its range. -/
lemma range_of_marked {d : Definition} {us : List Token} {t u : Token}
    (hm : marked (us ++ [u]) = .defWord :: d.contents) (hf : (us ++ [u]).head? = some t)
    (ht : t = ⟨.defWord, d.span.start⟩) (hu : u.isWhitespace = false) (hp : u.pos = d.span.stop) :
    Range (us ++ [u]) d := by
  have hd : ∀ k ∈ d.contents, k.isContent = true := List.forall_mem_append.2
    ⟨isContent_of_mem_prototype d.proto, Node.contentsAll_eq_flatMap d.body ▸
      isContent_of_mem_contentsAll d.body⟩
  refine ⟨ht ▸ hf, ⟨u, by simp, hu, hp⟩, ?_, ?_⟩
  · intro v hv hk
    obtain ⟨w, ws, he⟩ : ∃ w ws, us ++ [u] = w :: ws := List.exists_cons_of_ne_nil (by simp)
    rw [he] at hm hf hv
    obtain rfl := Option.some.inj hf
    rw [ht, marked_cons rfl] at hm
    have hmem : Kind.defWord ∈ marked ws :=
      List.mem_filter.2 ⟨List.mem_map.2 ⟨v, hv, hk⟩, rfl⟩
    rw [(List.cons.inj hm).2] at hmem
    cases hd _ hmem
  · have hc : contents (us ++ [u]) = (marked (us ++ [u])).filter Kind.isContent := by
      simp only [contents, marked, List.filter_filter, isMarked, Bool.and_or_distrib_left]
      congr 1
      funext k
      cases k.isContent <;> simp
    rw [hc, hm]
    exact (List.filter_cons_of_neg Bool.false_ne_true).trans (List.filter_eq_self.2 hd)

lemma ReadsDefinition.exists_range {prec : Precedence} {className implName : Text}
    {ts rest : List Token} {d : Definition} (h : ReadsDefinition prec className implName ts d rest)
    (ht : Spelled ts) :
    ∃ us ws, ts = us ++ ws ++ rest ∧ Range us d ∧ ∀ w ∈ ws, w.isWhitespace = true := by
  cases h with
  | @mk ts ts₁ used _ pos proto body hp hb hu =>
    have ht := ht.of_cons.2
    have hm : marked used = .defWord :: (proto.contents ++ body.flatMap Node.contents) := by
      have key : marked used ++ marked rest =
          .defWord :: (proto.contents ++ body.flatMap Node.contents) ++ marked rest := by
        rw [← marked_append, ← hu, marked_cons rfl, hp.marked_eq,
          hb.marked_eq (ht.of_suffix hp.suffix)]
        simp
      exact List.append_cancel_right key
    obtain ⟨used', rfl, -⟩ := exists_used (hb.suffix.trans hp.suffix) hu
    have hdef : ∃ t ∈ (⟨.defWord, pos⟩ :: used' : List Token), t.isWhitespace = false :=
      ⟨_, List.mem_cons_self, rfl⟩
    obtain ⟨us, u, ws, he, hn, hl, hw⟩ := exists_last hdef
    rw [hu, hl, he]
    refine ⟨us ++ [u], ws, rfl, range_of_marked ?_ ?_ rfl hn rfl, hw⟩
    · rw [he, marked_append _ ws, marked_of_whitespace hw, List.append_nil] at hm
      exact hm
    · have hh := congrArg List.head? he
      rw [List.head?_append_of_ne_nil _ (by simp)] at hh
      exact hh.symm

/-! ### Blocks -/

lemma exists_gap_of_skipBlank {ts us : List Token} {t : Token} (h : skipBlank ts = t :: us) :
    ∃ blank, ts = blank ++ t :: us ∧ ∀ b ∈ blank, b.kind = .space := by
  rcases skipBlank_eq_cons h with rfl | ⟨pos, rfl⟩
  · exact ⟨[], rfl, by simp⟩
  · exact ⟨[⟨.space, pos⟩], rfl, by simp⟩

/-- The keyword, the name and the line end of a block are a gap. -/
lemma ReadsName.exists_gap {ts rest : List Token} {name : Text} {word : Kind} {b b' : Block}
    (h : ReadsName ts name rest) (ho : Opens b word name b') (pos : Int) :
    ∃ gap, ⟨word, pos⟩ :: ts = gap ++ rest ∧ Gap gap := by
  obtain ⟨ts₁, pos', pos'', hn, hl⟩ := h
  obtain ⟨u, rfl, hu⟩ := exists_gap_of_skipBlank hn
  obtain ⟨v, rfl, hv⟩ := exists_gap_of_skipBlank hl
  have hw : word ∈ [Kind.classWord, .traitWord, .implWord] := by
    cases ho <;> simp
  refine ⟨⟨word, pos⟩ :: (u ++ ⟨.constant name, pos'⟩ :: (v ++ [⟨.newline, pos''⟩])), by simp,
    .block hw hu (gap_of_whitespace ?_)⟩
  refine List.forall_mem_append.2 ⟨fun t ht => ?_, List.forall_mem_singleton.2 rfl⟩
  simp [Token.isWhitespace, hv t ht, Kind.isWhitespace]

/-- The tokens of a block up to its end are those of its definitions and gaps. -/
theorem ReadsBlock.exists_covers {prec : Precedence} {b : Block} {ts rest : List Token}
    {ds : List Definition} (h : ReadsBlock prec b ts ds rest) (ht : Spelled ts) :
    ∃ used, ts = used ++ rest ∧ Covers used ds := by
  induction h with
  | @finished ts he =>
    obtain ⟨ws, hts, hw⟩ := exists_whitespace ts
    exact ⟨ts, by simp, .gap (gap_of_whitespace (by rwa [hts, he, List.append_nil]))⟩
  | @closed b ts rest pos _ he =>
    obtain ⟨ws, hts, hw⟩ := exists_whitespace ts
    refine ⟨ws ++ [⟨.endWord, pos⟩], by rw [hts, he]; simp, .gap ?_⟩
    exact (gap_of_whitespace hw).append (.close .nil)
  -- whitespace in front of a definition and behind its last token belongs to the gaps
  | @definition b ts ts₁ rest d ds hd _ ih =>
    have ht := ht.of_suffix (skip_suffix ts)
    obtain ⟨ws, hts, hw⟩ := exists_whitespace ts
    obtain ⟨us, vs, he, hr, hv⟩ := hd.exists_range ht
    obtain ⟨used, rfl, hc⟩ := ih (ht.of_suffix hd.suffix)
    refine ⟨ws ++ us ++ (vs ++ used), by rw [hts, he]; simp, ?_⟩
    exact .range (gap_of_whitespace hw) hr (hc.of_gap (gap_of_whitespace hv))
  | @nested b b' ts ts₁ ts₂ ts₃ rest word pos name ds es hw ho hn hds _ ihd ihe =>
    obtain ⟨ws, hts, hws⟩ := exists_whitespace ts
    obtain ⟨-, ht⟩ := spelled_of_skip ht hw
    have ht := ht.of_suffix hn.suffix
    obtain ⟨gap, hg, hgap⟩ := hn.exists_gap ho pos
    obtain ⟨us, rfl, hus⟩ := ihd ht
    obtain ⟨vs, rfl, hvs⟩ := ihe (ht.of_suffix hds.suffix)
    refine ⟨ws ++ gap ++ (us ++ vs), by rw [hts, hw, hg]; simp, ?_⟩
    exact (hus.append hvs).of_gap ((gap_of_whitespace hws).append hgap)

/-- No token of a stream is lost, invented or moved by parsing it: every `def` is that of one
definition, in their order; the names, literals and operators between it and the token at the last
offset of the definition are what the definition is written with; and between definitions there are
only gaps. -/
theorem parse_covers {files : List (Text × Int)} {ts : List Token} {prec : Precedence} {m : Module}
    (hs : Lexer.stream files = .ok ts) (hm : parse prec ts = .ok m) :
    (ts.filter fun t => t.kind = .defWord).length = m.defs.length ∧ Covers ts m.defs := by
  obtain ⟨used, he, hc⟩ := (reads_of_parse hm).exists_covers (Lexer.spelled_of_stream hs)
  obtain rfl : ts = used := by rw [he, List.append_nil]
  exact ⟨hc.length_filter, hc⟩

/-- A method and a bodyless one behind it. -/
theorem parse_covers_methods : ∃ ts m,
    Lexer.stream [(Text.ofString "class A\n def f(x Int)\n  -x.g(1) + 2\n end\n def h\nend", 0)] =
      .ok ts ∧ parse .builtin ts = .ok m ∧ m.defs.length = 2 ∧ Covers ts m.defs := by
  obtain ⟨ts, hs, m, hm, hl⟩ : ∃ ts, Lexer.stream
      [(Text.ofString "class A\n def f(x Int)\n  -x.g(1) + 2\n end\n def h\nend", 0)] = .ok ts ∧
      ∃ m, parse .builtin ts = .ok m ∧ m.defs.length = 2 :=
    ⟨_, by cbv, _, by rfl, by rfl⟩
  exact ⟨ts, m, hs, hm, hl, (parse_covers hs hm).2⟩

end Grammar

end Frontend
