import Frontend.Proofs.Parser.Blocks
import Frontend.Proofs.Token.Lexemes

/-!
# The shape of parsed trees

Not every tree can be the result of parsing a text. `Node.Fits` says which expressions can: their
names are identifiers, their operators single operator characters that may stand between operands,
the message of a send is a name with what belongs to it, and every local variable has the type that
its scope gives it. `Definition.Fits` is the same for definitions.

What is read from tokens that a text can spell fits, which is what the rest of the theory of trees
starts from.
-/

namespace Frontend

open Lexer (isIdentifier isConstant isOperator isWordByte IsSpelled Spelled)

/-! ### Calls of operators -/

lemma isNameByte_eq (b : UInt8) : isNameByte b = isWordByte b := by
  simp only [isNameByte, isWordByte, Lexer.isLetter, Lexer.isCapital, Lexer.isDigit]
  ac_rfl

section Operators

variable {b : UInt8}

lemma forall_isOperator {p : UInt8 → Prop} (h : ∀ b ∈ Lexer.operators, p b)
    (hb : isOperator b = true) : p b :=
  h b (by simpa [isOperator] using hb)

lemma ofCodePoint_of_isOperator (hb : isOperator b = true) : Text.ofCodePoint b.toNat = [b] := by
  refine forall_isOperator (p := fun b => Text.ofCodePoint b.toNat = [b]) ?_ hb
  rw [Lexer.operators_eq]
  decide +kernel

lemma isWordByte_of_isOperator (hb : isOperator b = true) : isWordByte b = false := by
  refine forall_isOperator (p := fun b => isWordByte b = false) ?_ hb
  rw [Lexer.operators_eq]
  decide +kernel

lemma isBlank_of_isOperator (hb : isOperator b = true) : Lexer.isBlank b = false := by
  refine forall_isOperator (p := fun b => Lexer.isBlank b = false) ?_ hb
  rw [Lexer.operators_eq]
  decide +kernel

/-- The name of an operator in front of its operand shows the operator. -/
lemma prefixOperator?_unary (hb : isOperator b = true) (x : Node) :
    prefixOperator? (unaryWord ++ [b]) [x] = some b := by
  have hd : (unaryWord ++ [b]).drop unaryWord.length = [b] := List.drop_left
  have hp : unaryWord.isPrefixOf (unaryWord ++ [b]) = true := by simp
  simp only [prefixOperator?, hd, hp, isNameByte_eq, isWordByte_of_isOperator hb]
  rfl

lemma mem_isWordByte {t : Text} (h : isIdentifier t = true) : ∀ b ∈ t, isWordByte b = true := by
  simp only [isIdentifier, Bool.and_eq_true] at h
  exact Lexer.isWordByte_of_isWord h.1.1

/-- An identifier is not the name of an operator. -/
lemma prefixOperator?_of_isIdentifier {fn : Text} (h : isIdentifier fn = true) (args : List Node) :
    prefixOperator? fn args = none := by
  match args with
  | [] => rfl
  | [x] =>
    simp only [prefixOperator?]
    split
    case h_1 op hd =>
      have hop : op ∈ fn := List.mem_of_mem_drop (hd ▸ List.mem_singleton_self op)
      simp [isNameByte_eq, mem_isWordByte h op hop]
    case h_2 => rfl
  | _ :: _ :: _ => rfl

end Operators

/-! ### Trees without offsets -/

namespace Node

mutual

/-- A tree with all its offsets forgotten. -/
def erase : Node → Node
  | .module _ body                      => .module ⟨-1, -1⟩ (eraseAll body)
  | .classBlock _ name body             => .classBlock ⟨-1, -1⟩ name (eraseAll body)
  | .traitBlock _ name body             => .traitBlock ⟨-1, -1⟩ name (eraseAll body)
  | .implBlock _ name body              => .implBlock ⟨-1, -1⟩ name (eraseAll body)
  | .definition _ isMain proto body c i => .definition ⟨-1, -1⟩ isMain proto (eraseAll body) c i
  | .assign _ name value                => .assign ⟨-1, -1⟩ name value.erase
  | .localVar _ name type               => .localVar ⟨-1, -1⟩ name type
  | .binary _ op left right             => .binary ⟨-1, -1⟩ op left.erase right.erase
  | .call _ fn args                     => .call ⟨-1, -1⟩ fn (eraseAll args)
  | .send _ recv msg                    => .send ⟨-1, -1⟩ recv.erase msg.erase
  | .int _ value                        => .int ⟨-1, -1⟩ value
  | .string _ value                     => .string ⟨-1, -1⟩ value
  | .selfRef _                          => .selfRef ⟨-1, -1⟩

/-- Trees with all their offsets forgotten. -/
def eraseAll : List Node → List Node
  | []      => []
  | n :: ns => n.erase :: eraseAll ns

end

@[simp] lemma eraseAll_eq_map (ns : List Node) : eraseAll ns = ns.map erase := by
  induction ns with
  | nil => rfl
  | cons n ns ih => rw [eraseAll, ih, List.map_cons]

mutual

/-- The operators between two operands in a tree. -/
def operators : Node → List Int
  | .module _ body             => operatorsAll body
  | .classBlock _ _ body       => operatorsAll body
  | .traitBlock _ _ body       => operatorsAll body
  | .implBlock _ _ body        => operatorsAll body
  | .definition _ _ _ body _ _ => operatorsAll body
  | .assign _ _ value          => value.operators
  | .localVar _ _ _            => []
  | .binary _ op left right    => op :: (left.operators ++ right.operators)
  | .call _ _ args             => operatorsAll args
  | .send _ recv msg           => recv.operators ++ msg.operators
  | .int _ _                   => []
  | .string _ _                => []
  | .selfRef _                 => []

/-- The operators between two operands in trees. -/
def operatorsAll : List Node → List Int
  | []      => []
  | n :: ns => n.operators ++ operatorsAll ns

end

@[simp] lemma operatorsAll_eq_flatMap (ns : List Node) :
    operatorsAll ns = ns.flatMap operators := by
  induction ns with
  | nil => rfl
  | cons n ns ih => rw [operatorsAll, ih, List.flatMap_cons]

/-- A tree can be a message: it is a name with what belongs to it. -/
def isMessage : Node → Bool
  | .localVar _ _ _ => true
  | .assign _ _ _   => true
  | .call _ fn args => (prefixOperator? fn args).isNone
  | _               => false

end Node

/-- A definition with all its offsets forgotten. -/
def Definition.erase (d : Definition) : Definition :=
  { d with span := ⟨-1, -1⟩, body := d.body.map Node.erase }

/-- A definition without offsets, and with what parsing makes of its name: whether a program starts
there. -/
def Definition.remade (d : Definition) : Definition :=
  { d.erase with isMain := d.proto.name = Parser.mainName }

/-- Nothing is remade of a definition that says of itself what its name says. -/
lemma Definition.remade_eq_erase {d : Definition}
    (h : d.isMain = decide (d.proto.name = Parser.mainName)) : d.remade = d.erase := by
  obtain ⟨span, isMain, proto, body, c, i⟩ := d
  obtain rfl : isMain = decide (proto.name = Parser.mainName) := h
  rfl

/-! ### Expressions -/

/-- An expression that can be read where operators between operands must be `ok` and local
variables have the given classes. -/
inductive Node.Fits (ok : Int → Prop) (classOf : Text → Except Cause Text) : Node → Prop
  | int (span : Span) (value : UInt64) : Fits ok classOf (.int span value)
  | string (span : Span) (value : Text) : Fits ok classOf (.string span value)
  | selfRef (span : Span) : Fits ok classOf (.selfRef span)
  | localVar (span : Span) {name className : Text} (hn : isIdentifier name = true)
      (hc : classOf name = .ok className) :
      Fits ok classOf (.localVar span name (some (.undef className)))
  | assign (span : Span) {name : Text} {value : Node} (hn : isIdentifier name = true)
      (hv : Fits ok classOf value) : Fits ok classOf (.assign span name value)
  | call (span : Span) {fn : Text} {args : List Node} (hn : isIdentifier fn = true)
      (hx : ∀ x ∈ args, Fits ok classOf x) : Fits ok classOf (.call span fn args)
  | unary (span : Span) {b : UInt8} {x : Node} (hb : isOperator b = true)
      (hx : Fits ok classOf x) : Fits ok classOf (.call span (unaryWord ++ [b]) [x])
  | binary (span : Span) {b : UInt8} {left right : Node} (hb : isOperator b = true)
      (ho : ok b.toNat) (hl : Fits ok classOf left) (hr : Fits ok classOf right) :
      Fits ok classOf (.binary span b.toNat left right)
  | send (span : Span) {recv msg : Node} (hr : Fits ok classOf recv) (hm : Fits ok classOf msg)
      (hn : msg.isMessage = true) : Fits ok classOf (.send span recv msg)

section Expressions

variable {ok : Int → Prop} {classOf : Text → Except Cause Text} {x : Node}

lemma Node.Fits.forall_operators (h : x.Fits ok classOf) : ∀ op ∈ x.operators, ok op := by
  induction h with
  | int | string | selfRef | localVar => simp [Node.operators]
  | assign _ _ _ ih => exact ih
  | call _ _ _ ih =>
    simp only [Node.operators, Node.operatorsAll_eq_flatMap, List.mem_flatMap]
    rintro op ⟨y, hy, hop⟩
    exact ih y hy op hop
  | unary _ _ _ ih => simpa [Node.operators] using ih
  | binary _ _ ho _ _ ihl ihr =>
    exact List.forall_mem_cons.2 ⟨ho, List.forall_mem_append.2 ⟨ihl, ihr⟩⟩
  | send _ _ _ _ ihr ihm => exact List.forall_mem_append.2 ⟨ihr, ihm⟩

/-- Which operators may stand between operands only matters for those that do. -/
lemma Node.Fits.of_operators {ok' : Int → Prop} (h : x.Fits ok classOf)
    (ho : ∀ op ∈ x.operators, ok' op) : x.Fits ok' classOf := by
  induction h with
  | int span value => exact .int span value
  | string span value => exact .string span value
  | selfRef span => exact .selfRef span
  | localVar span hn hc => exact .localVar span hn hc
  | assign span hn _ ih => exact .assign span hn (ih ho)
  | call span hn _ ih =>
    simp only [Node.operators, Node.operatorsAll_eq_flatMap, List.mem_flatMap] at ho
    exact .call span hn fun y hy => ih y hy fun op hop => ho op ⟨y, hy, hop⟩
  | unary span hb _ ih => exact .unary span hb (ih (by simpa [Node.operators] using ho))
  | binary span hb _ _ _ ihl ihr =>
    obtain ⟨hop, ho⟩ := List.forall_mem_cons.1 ho
    obtain ⟨hl, hr⟩ := List.forall_mem_append.1 ho
    exact .binary span hb hop (ihl hl) (ihr hr)
  | send span _ _ hn ihr ihm =>
    obtain ⟨hr, hm⟩ := List.forall_mem_append.1 ho
    exact .send span (ihr hr) (ihm hm) hn

end Expressions

namespace Grammar

section

variable {ts u : List Token} {t : Token}

lemma spelled_of_skip (h : Spelled ts) (hs : skip ts = t :: u) : IsSpelled t.kind ∧ Spelled u :=
  Spelled.of_cons (hs ▸ h.of_suffix (skip_suffix ts))

lemma spelled_of_skipBlank (h : Spelled ts) (hs : skipBlank ts = t :: u) :
    IsSpelled t.kind ∧ Spelled u :=
  Spelled.of_cons (hs ▸ h.of_suffix (skipBlank_suffix ts))

end

/-- What a phrase has read before fits. -/
def Phrase.Fits (prec : Precedence) (s : Scope) : Phrase → Prop
  | .sends recv        => recv.Fits (0 ≤ prec.of ·) s.classOf
  | .args _ fn done    => isIdentifier fn = true ∧ ∀ x ∈ done, x.Fits (0 ≤ prec.of ·) s.classOf
  | .binary least left => 0 ≤ least ∧ left.Fits (0 ≤ prec.of ·) s.classOf
  | _                  => True

/-- A phrase starts with a name. -/
def Phrase.Named : Phrase → Prop
  | .named | .args _ _ _ => True
  | _                    => False

/-- What is read from tokens that a text can spell fits. -/
theorem Reads.fits {prec : Precedence} {s : Scope} {g : Phrase} {ts rest : List Token} {x : Node}
    (h : Reads prec s g ts x rest) (ht : Spelled ts) (hg : g.Fits prec s) :
    x.Fits (0 ≤ prec.of ·) s.classOf ∧ (g.Named → x.isMessage = true) := by
  induction h with
  -- operands: what is read behind one fits if the operand does
  | expr hx hy ihx ihy =>
    obtain ⟨hx', -⟩ := ihx ht trivial
    exact ⟨(ihy (ht.of_suffix ((skip_suffix _).trans hx.suffix)) ⟨le_rfl, hx'⟩).1, False.elim⟩
  | operator hx ihx =>
    obtain ⟨⟨b, hb, hop⟩, ht⟩ := ht.of_cons
    rw [hop, ofCodePoint_of_isOperator hb]
    exact ⟨.unary _ hb (ihx ht trivial).1, False.elim⟩
  | operand _ ihx => exact ⟨(ihx ht trivial).1, False.elim⟩
  | literal hx _ ihy =>
    refine ⟨(ihy (ht.of_suffix ((skip_suffix _).trans (List.suffix_cons _ _))) ?_).1, False.elim⟩
    rcases literal?_cases hx with ⟨v, -, rfl⟩ | ⟨v, -, rfl⟩ | ⟨-, rfl⟩
    · exact .int _ v
    · exact .string _ v
    · exact .selfRef _
  | name hx _ ihx ihy =>
    obtain ⟨hx', -⟩ := ihx ht trivial
    exact ⟨(ihy (ht.of_suffix ((skip_suffix _).trans hx.suffix)) hx').1, False.elim⟩
  | paren hx hr _ _ ihx ihy =>
    have ht := ht.of_suffix (List.suffix_cons _ _)
    obtain ⟨hx', -⟩ := ihx ht trivial
    have hs := ((skip_suffix _).trans (suffix_of_skip hr)).trans hx.suffix
    exact ⟨(ihy (ht.of_suffix hs) hx').1, False.elim⟩
  -- messages: each is a call, an assignment or a variable, and these have names
  | sent => exact ⟨hg, False.elim⟩
  | send hm _ ihm ihy =>
    have ht := ht.of_suffix (List.suffix_cons _ _)
    obtain ⟨hm', hn⟩ := ihm ht trivial
    exact ⟨(ihy (ht.of_suffix ((skip_suffix _).trans hm.suffix)) (.send _ hg hm' (hn trivial))).1,
      False.elim⟩
  -- names: all three forms start with an identifier of the stream
  | callNone =>
    exact ⟨.call _ ht.of_cons.1 (by simp), fun _ => by simp [Node.isMessage, prefixOperator?]⟩
  | call hl hx ihx =>
    obtain ⟨hn, ht⟩ := ht.of_cons
    have ht := (spelled_of_skip ht hl).2
    obtain ⟨hx', hm⟩ := ihx (ht.of_suffix (skip_suffix _)) ⟨hn, by simp⟩
    exact ⟨hx', fun _ => hm trivial⟩
  | assign ha hv ihv =>
    obtain ⟨hn, ht⟩ := ht.of_cons
    have ht := (spelled_of_skip ht ha).2
    exact ⟨.assign _ hn (ihv (ht.of_suffix (skip_suffix _)) trivial).1, fun _ => rfl⟩
  | localVar _ _ hc => exact ⟨.localVar _ ht.of_cons.1 hc, fun _ => rfl⟩
  -- arguments: those collected so far fit already
  | lastArg hx hr ihx =>
    obtain ⟨hn, hd⟩ := hg
    obtain ⟨hx', -⟩ := ihx (ht.of_suffix (skip_suffix _)) trivial
    refine ⟨.call _ hn ?_, fun _ => by simp [Node.isMessage, prefixOperator?_of_isIdentifier hn]⟩
    simpa only [List.mem_reverse, List.forall_mem_cons] using ⟨hx', hd⟩
  | arg hx hr _ ihx ihy =>
    obtain ⟨hn, hd⟩ := hg
    obtain ⟨hx', -⟩ := ihx (ht.of_suffix (skip_suffix _)) trivial
    have hs := ((suffix_of_skip hr).trans hx.suffix).trans (skip_suffix _)
    exact ihy (ht.of_suffix hs) ⟨hn, List.forall_mem_cons.2 ⟨hx', hd⟩⟩
  -- operators: an operator that is combined binds at least as tightly as was asked for
  | combined => exact ⟨hg.2, False.elim⟩
  | looser hl hx _ _ ihx ihy =>
    obtain ⟨⟨b, hb, hop⟩, ht'⟩ := ht.of_cons
    subst hop
    obtain ⟨hx', -⟩ := ihx (ht'.of_suffix (skip_suffix _)) trivial
    have hs := ((skip_suffix _).trans hx.suffix).trans (skip_suffix _)
    exact ⟨(ihy (ht'.of_suffix hs) ⟨hg.1, .binary _ hb (hg.1.trans hl) hg.2 hx'⟩).1, False.elim⟩
  | tighter hl hx _ hr _ ihx ihr ihy =>
    obtain ⟨⟨b, hb, hop⟩, ht'⟩ := ht.of_cons
    subst hop
    obtain ⟨hx', -⟩ := ihx (ht'.of_suffix (skip_suffix _)) trivial
    have hs := ((skip_suffix _).trans hx.suffix).trans (skip_suffix _)
    have hop := hg.1.trans hl
    obtain ⟨hr', -⟩ := ihr (ht'.of_suffix hs) ⟨by omega, hx'⟩
    exact ⟨(ihy (ht'.of_suffix (hr.suffix.trans hs)) ⟨hg.1, .binary _ hb hop hg.2 hr'⟩).1,
      False.elim⟩

end Grammar

/-! ### Definitions -/

/-- Statements that can be read one after the other, behind those read so far in reverse. -/
def BodyFits (ok : Int → Prop) (params : List Param) : List Node → List Node → Prop
  | _,    []      => True
  | done, x :: xs => x.Fits ok (Scope.classOf ⟨params, done⟩) ∧ BodyFits ok params (x :: done) xs

lemma className_named (name : Text) : (BaseType.named name).className = name := by
  unfold BaseType.named
  split
  case isTrue h => exact h.symm
  case isFalse =>
    split
    case isTrue h => exact h.symm
    case isFalse => rfl

/-- A type that is written by its name. -/
def BaseType.Fits (type : BaseType) : Prop := ∃ name, isConstant name = true ∧ type = .named name

/-- A signature that can be read. -/
structure Prototype.Fits (p : Prototype) : Prop where
  name : isIdentifier p.name = true
  params : ∀ q ∈ p.params, isIdentifier q.name = true ∧ ∃ type, q.type = some type ∧ type.Fits
  result : ∀ type ∈ p.result, type.Fits
  isOperator : p.isOperator = false
  precedence : p.precedence = 0

/-- A definition that can be read, apart from the blocks it is in. -/
structure Definition.Fits (ok : Int → Prop) (d : Definition) : Prop where
  proto : d.proto.Fits
  body : BodyFits ok d.proto.params [] d.body

namespace Grammar

variable {prec : Precedence} {ts rest : List Token}

lemma ReadsParams.fits {ps : List Param} (h : ReadsParams ts ps rest) (ht : Spelled ts) :
    ∀ q ∈ ps, isIdentifier q.name = true ∧ ∃ type, q.type = some type ∧ type.Fits := by
  induction h with
  | @last _ _ _ _ name type _ _ _ hn hc _ =>
    obtain ⟨hn', ht⟩ := spelled_of_skip ht hn
    obtain ⟨hc', -⟩ := spelled_of_skipBlank ht hc
    exact List.forall_mem_singleton.2 ⟨hn', _, rfl, type, hc', rfl⟩
  | @cons _ _ _ _ _ _ name type _ _ _ hn hc hr _ ih =>
    obtain ⟨hn', ht⟩ := spelled_of_skip ht hn
    obtain ⟨hc', ht⟩ := spelled_of_skipBlank ht hc
    exact List.forall_mem_cons.2 ⟨⟨hn', _, rfl, type, hc', rfl⟩, ih (spelled_of_skip ht hr).2⟩

lemma ReadsResult.fits {r : Option BaseType} (h : ReadsResult ts r rest) (ht : Spelled ts) :
    ∀ type ∈ r, type.Fits := by
  cases h with
  | none => simp
  | @tight _ type =>
    have hc : isConstant type = true := ht.of_cons.2.of_cons.1
    simpa using ⟨type, hc, rfl⟩
  | @spaced _ _ type _ _ _ hc =>
    have hc' : isConstant type = true := (spelled_of_skipBlank ht.of_cons.2.of_cons.2 hc).1
    simpa using ⟨type, hc', rfl⟩

lemma ReadsPrototype.fits {p : Prototype} (h : ReadsPrototype ts p rest) (ht : Spelled ts) :
    p.Fits := by
  cases h with
  | bare => exact ⟨ht.of_cons.2.of_cons.1, by simp, by simp, rfl, rfl⟩
  | empty hl hr hres =>
    obtain ⟨hn, ht⟩ := ht.of_cons.2.of_cons
    have ht := (spelled_of_skip (spelled_of_skipBlank ht hl).2 hr).2
    exact ⟨hn, by simp, hres.fits ht, rfl, rfl⟩
  | full hl hp hres =>
    obtain ⟨hn, ht⟩ := ht.of_cons.2.of_cons
    have ht := (spelled_of_skipBlank ht hl).2
    exact ⟨hn, hp.fits ht, hres.fits (ht.of_suffix hp.suffix), rfl, rfl⟩

lemma ReadsBody.fits {params : List Param} {done xs : List Node}
    (h : ReadsBody prec params done ts xs rest) (ht : Spelled ts) :
    BodyFits (0 ≤ prec.of ·) params done xs := by
  induction h with
  | bodyless | closed => trivial
  | statement hx _ ih =>
    have ht := ht.of_suffix (skip_suffix _)
    exact ⟨(hx.fits ht trivial).1, ih (ht.of_suffix hx.suffix)⟩

lemma ReadsDefinition.fits {className implName : Text} {d : Definition}
    (h : ReadsDefinition prec className implName ts d rest) (ht : Spelled ts) :
    d.Fits (0 ≤ prec.of ·) := by
  cases h with
  | mk hp hb _ =>
    have ht := ht.of_cons.2
    exact ⟨hp.fits ht, hb.fits (ht.of_suffix hp.suffix)⟩

end Grammar

/-! ### Modules -/

/-- A definition as parsing leaves it. The names of its blocks are constants, the one of its impl
block only stands behind that of a class, and at the top level it has statements. -/
structure Definition.Parsed (ok : Int → Prop) (d : Definition) : Prop extends d.Fits ok where
  isMain : d.isMain = decide (d.proto.name = Parser.mainName)
  className : d.className ≠ [] → isConstant d.className = true
  implName : d.implName ≠ [] → isConstant d.implName = true
  top : d.className = [] → d.implName = [] ∧ d.body ≠ []

section Modules

variable {ok ok' : Int → Prop}

lemma BodyFits.forall_operators {params : List Param} {done xs : List Node}
    (h : BodyFits ok params done xs) : ∀ op ∈ xs.flatMap Node.operators, ok op := by
  induction xs generalizing done with
  | nil => simp
  | cons x xs ih => exact List.forall_mem_append.2 ⟨h.1.forall_operators, ih h.2⟩

lemma BodyFits.of_operators {params : List Param} {done xs : List Node}
    (h : BodyFits ok params done xs) (ho : ∀ op ∈ xs.flatMap Node.operators, ok' op) :
    BodyFits ok' params done xs := by
  induction xs generalizing done with
  | nil => trivial
  | cons x xs ih =>
    obtain ⟨hx, hxs⟩ := List.forall_mem_append.1 ho
    exact ⟨h.1.of_operators hx, ih h.2 hxs⟩

lemma Definition.Parsed.of_operators {d : Definition} (h : d.Parsed ok)
    (ho : ∀ op ∈ d.toNode.operators, ok' op) : d.Parsed ok' := by
  rw [Definition.toNode, Node.operators, Node.operatorsAll_eq_flatMap] at ho
  exact ⟨⟨h.proto, h.body.of_operators ho⟩, h.isMain, h.className, h.implName, h.top⟩

end Modules

namespace Grammar

variable {prec : Precedence} {ts rest : List Token}

/-- The names of a block are constants. -/
def Block.Fits : Block → Prop
  | .top           => True
  | .inClass c     => isConstant c = true
  | .inTrait c     => isConstant c = true
  | .inImpl c name => isConstant c = true ∧ isConstant name = true

lemma ne_nil_of_isConstant {name : Text} (h : isConstant name = true) : name ≠ [] := by
  rintro rfl
  cases h

section

variable {b : Block} (hb : b.Fits)
include hb

lemma Block.Fits.className (hc : b.className ≠ []) : isConstant b.className = true := by
  cases b with
  | top => exact absurd rfl hc
  | inClass => exact hb
  | inTrait => exact hb
  | inImpl => exact hb.1

lemma Block.Fits.implName (hi : b.implName ≠ []) : isConstant b.implName = true := by
  cases b with
  | inImpl => exact hb.2
  | _ => exact absurd rfl hi

lemma Block.Fits.eq_top (hc : b.className = []) : b = .top := by
  cases b with
  | top => rfl
  | inClass => exact absurd hc (ne_nil_of_isConstant hb)
  | inTrait => exact absurd hc (ne_nil_of_isConstant hb)
  | inImpl => exact absurd hc (ne_nil_of_isConstant hb.1)

end

lemma ReadsName.isConstant {name : Text} (h : ReadsName ts name rest) (ht : Spelled ts) :
    isConstant name = true := by
  obtain ⟨_, _, _, hn, -⟩ := h
  exact (spelled_of_skipBlank ht hn).1

lemma Opens.fits {b b' : Block} {word : Kind} {name : Text} (h : Opens b word name b')
    (hb : b.Fits) (hn : isConstant name = true) : b'.Fits := by
  cases h with
  | ofClass => exact hn
  | ofTrait => exact hn
  | ofImpl => exact ⟨hb, hn⟩

/-- No item of a module starts with an `end`. -/
lemma not_readsBlock_endWord {pos : Int} {ds : List Definition} :
    ¬ ReadsBlock prec .top (⟨.endWord, pos⟩ :: ts) ds rest := by
  have hs : skip (⟨.endWord, pos⟩ :: ts) = ⟨.endWord, pos⟩ :: ts :=
    skip_cons_of_not_whitespace rfl ts
  intro h
  cases h with
  | finished h => rw [hs] at h; cases h
  | closed hb _ => exact hb rfl
  | definition hd _ => rw [hs] at hd; cases hd
  | nested hw ho _ _ _ =>
    rw [hs] at hw
    obtain ⟨hk, -⟩ := List.cons_eq_cons.1 hw
    cases ho <;> cases hk

lemma ReadsDefinition.parsed {b : Block} {d : Definition} {ds : List Definition}
    {ts₁ : List Token} (h : ReadsDefinition prec b.className b.implName ts d ts₁)
    (hds : ReadsBlock prec b ts₁ ds rest) (hb : b.Fits) (ht : Spelled ts) :
    d.Parsed (0 ≤ prec.of ·) := by
  have hf := h.fits ht
  cases h with
  | mk hp hbody _ =>
    refine ⟨hf, rfl, hb.className, hb.implName, fun hc => ?_⟩
    obtain rfl := hb.eq_top hc
    refine ⟨rfl, ?_⟩
    rintro rfl
    cases hbody with
    | bodyless => exact not_readsBlock_endWord hds

/-- What is read in a block is as parsing leaves it. -/
lemma ReadsBlock.parsed {b : Block} {ds : List Definition} (h : ReadsBlock prec b ts ds rest)
    (hb : b.Fits) (ht : Spelled ts) : ∀ d ∈ ds, d.Parsed (0 ≤ prec.of ·) := by
  induction h with
  | finished | closed => simp
  | definition hd hds ih =>
    have ht := ht.of_suffix (skip_suffix _)
    exact List.forall_mem_cons.2 ⟨hd.parsed hds hb ht, ih hb (ht.of_suffix hd.suffix)⟩
  | nested hw ho hn hds _ ihd ihe =>
    obtain ⟨-, ht⟩ := spelled_of_skip ht hw
    have hc := hn.isConstant ht
    have ht := ht.of_suffix hn.suffix
    exact List.forall_mem_append.2 ⟨ihd (ho.fits hb hc) ht, ihe hb (ht.of_suffix hds.suffix)⟩

end Grammar

/-- The definitions of a module are as parsing leaves them. -/
theorem parsed_of_parse {prec : Precedence} {files : List (Text × Int)} {ts : List Token}
    {m : Module} (hs : Lexer.stream files = .ok ts) (hm : parse prec ts = .ok m) :
    ∀ d ∈ m.defs, d.Parsed (0 ≤ prec.of ·) :=
  (Grammar.reads_of_parse hm).parsed (b := .top) trivial (Lexer.spelled_of_stream hs)

end Frontend
