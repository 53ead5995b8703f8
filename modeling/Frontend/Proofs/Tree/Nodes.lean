import Frontend.Proofs.Parser.Concatenation
import Frontend.Proofs.Tree.Anchors

/-!
# Nodes of parsed trees

Trees that are built by hand can nest all nodes in any way. Parsing makes only some of them: below
a module there are definitions, below these expressions, and these have one of a few forms
(`Node.Regular`). A call is made from the token that it starts at, which is an operator or a name,
and this is what `prefixOperator?` finds out from the call alone.

Offsets do not tell the tokens of a stream apart when its texts share some of them, so the last
statement is about the stream with the tokens counted through: `Grammar.numbered`.
-/

namespace Frontend

open Lexer (isConstant)

/-! ### Expressions -/

/-- What all nodes of a tree have, all nodes below its root have. -/
lemma Node.Everywhere.child {P : Node → Prop} {root c : Node} (h : root.Everywhere P)
    (hc : c ∈ root.children) : c.Everywhere P := by
  intro n hn
  have hroot : root.Holds n := by
    induction hn with
    | root => exact .child .root hc
    | child _ hd ih => exact .child ih hd
  exact h n hroot

/-- A node below a definition is one that parsing makes. -/
def Node.Regular (prec : Precedence) : Node → Prop
  | .localVar _ _ type => ∃ className, className ≠ [] ∧ type = some (.undef className)
  | .binary _ op _ _   => 0 ≤ prec.of op
  | .send _ _ msg      => msg.isMessage = true
  | .assign .. | .call .. | .int .. | .string .. | .selfRef .. => True
  | .module .. | .classBlock .. | .traitBlock .. | .implBlock .. | .definition .. => False

section Expressions

variable {prec : Precedence} {params : List Param} {done : List Node} {x : Node}

lemma Node.Fits.regular {classOf : Text → Except Cause Text}
    (h : x.Fits (0 ≤ prec.of ·) classOf)
    (hc : ∀ name className, classOf name = .ok className → className ≠ []) :
    x.Everywhere (Node.Regular prec) := by
  induction h with
  | int | string | selfRef => exact .mk trivial (by simp [Node.children])
  | localVar _ _ hn => exact .mk ⟨_, hc _ _ hn, rfl⟩ (by simp [Node.children])
  | assign _ _ _ ih => exact .mk trivial (List.forall_mem_singleton.2 ih)
  | call _ _ _ ih => exact .mk trivial ih
  | unary _ _ _ ih => exact .mk trivial (List.forall_mem_singleton.2 ih)
  | binary _ _ ho _ _ ihl ihr =>
    exact .mk ho (List.forall_mem_cons.2 ⟨ihl, List.forall_mem_singleton.2 ihr⟩)
  | send _ _ _ hm ihr ihm =>
    exact .mk hm (List.forall_mem_cons.2 ⟨ihr, List.forall_mem_singleton.2 ihm⟩)

lemma Scope.classOfValue_ne_nil {value : Node} {className : Text} (hv : value.Regular prec)
    (h : classOfValue value = .ok className) : className ≠ [] := by
  cases value with
  | int =>
    obtain rfl := Except.ok.inj h
    decide
  | string =>
    obtain rfl := Except.ok.inj h
    decide
  | localVar =>
    obtain ⟨c, hc, rfl⟩ := hv
    obtain rfl := Except.ok.inj h
    exact hc
  | _ => cases h

/-- A class that is known has a name, if the parameters have types that are written and the
statements so far are regular. -/
lemma Scope.classOf_ne_nil {name className : Text}
    (hp : ∀ q ∈ params, ∃ type, q.type = some type ∧ type.Fits)
    (hd : ∀ y ∈ done, y.Everywhere (Node.Regular prec))
    (h : Scope.classOf ⟨params, done⟩ name = .ok className) : className ≠ [] := by
  rw [classOf] at h
  split at h
  case h_1 value hv =>
    obtain ⟨y, hy, ha⟩ := List.exists_of_findSome?_eq_some hv
    cases y with
    | assign span other v =>
      simp only [assigned?, Option.ite_none_right_eq_some, Option.some.injEq] at ha
      obtain ⟨-, rfl⟩ := ha
      exact classOfValue_ne_nil (hd _ hy v (.child .root (List.mem_singleton_self v))) h
    | _ => cases ha
  case h_2 =>
    split at h
    case h_1 q hq =>
      obtain ⟨type, ht, c, hc, rfl⟩ := hp q (List.mem_of_find?_eq_some hq)
      obtain rfl := Except.ok.inj h
      rw [ht, classNameOf, className_named]
      exact Grammar.ne_nil_of_isConstant hc
    case h_2 => cases h

lemma BodyFits.regular {xs : List Node} (h : BodyFits (0 ≤ prec.of ·) params done xs)
    (hp : ∀ q ∈ params, ∃ type, q.type = some type ∧ type.Fits)
    (hd : ∀ y ∈ done, y.Everywhere (Node.Regular prec)) :
    ∀ x ∈ xs, x.Everywhere (Node.Regular prec) := by
  induction xs generalizing done with
  | nil => simp
  | cons x xs ih =>
    have hx := h.1.regular fun _ _ => Scope.classOf_ne_nil hp hd
    exact List.forall_mem_cons.2 ⟨hx, ih h.2 (List.forall_mem_cons.2 ⟨hx, hd⟩)⟩

end Expressions

/-! ### Definitions -/

/-- A definition is one that parsing makes: it knows whether a program starts there, it is in an
impl block only inside of a class, it has statements unless a block can declare it without, and
these are regular. -/
structure Definition.Regular (prec : Precedence) (d : Definition) : Prop where
  main : d.isMain = true ↔ d.proto.name = Text.ofString "main"
  impl : d.implName ≠ [] → d.className ≠ []
  top : d.className = [] → d.body ≠ []
  body : ∀ x ∈ d.body, x.Everywhere (Node.Regular prec)

lemma Definition.Parsed.regular {prec : Precedence} {d : Definition}
    (h : d.Parsed (0 ≤ prec.of ·)) : d.Regular prec where
  main := by rw [h.isMain, decide_eq_true_iff, Parser.mainName]
  impl := mt fun hc => (h.top hc).1
  top hc := (h.top hc).2
  body := h.body.regular (fun q hq => (h.proto.params q hq).2) (by simp)

/-! ### Calls -/

/-- A call is made from a token: from an operator, which is then the one that it shows in front of
its operand, or else from the name that it calls. -/
structure Kind.Makes (kind : Kind) (fn : Text) (args : List Node) : Prop where
  operator : (prefixOperator? fn args).map (fun b => (b.toNat : Int)) = kind.operator?
  name : kind.operator? = none → kind = .identifier fn

/-- A call is made from the token of the stream at the place where it starts. -/
def Node.MadeFrom (ts : List Token) : Node → Prop
  | .call s fn args => ∃ i t, s.start = (i : Nat) ∧ ts[i]? = some t ∧ t.kind.Makes fn args
  | _               => True

namespace Grammar

/-- A stream with the tokens counted through: each has its place in the stream as its offset. -/
def numbered (ts : List Token) : List Token := ts.mapIdx fun i t => ⟨t.kind, (i : Nat)⟩

/-- The offset of the token at a place of a stream. -/
def offsetAt (ts : List Token) (i : Int) : Int :=
  if i < 0 then -1 else ((ts[i.toNat]?).map Token.pos).getD (-1)

variable {ts : List Token} {prec : Precedence} {m : Module}

/-- The counted tokens have their offsets back when each place is replaced by the offset there. -/
lemma numbered_relocate (ts : List Token) :
    (numbered ts).map (Token.relocate (offsetAt ts)) = ts := by
  refine List.ext_getElem (by simp [numbered]) fun i h _ => ?_
  have hi : i < ts.length := by simpa [numbered] using h
  have hp : ¬(i : Int) < 0 := by omega
  simp [numbered, Token.relocate, offsetAt, hi, hp]

/-- The tree of a stream is that of its counted tokens, with the places replaced by offsets. -/
lemma exists_parse_numbered (h : parse prec ts = .ok m) :
    ∃ m', parse prec (numbered ts) = .ok m' ∧
      m.defs = m'.defs.map (Definition.relocate (offsetAt ts)) := by
  have hmoved := parse_map_relocate prec (f := offsetAt ts) rfl (numbered ts)
  rw [numbered_relocate, h] at hmoved
  cases hp : parse prec (numbered ts) with
  | error e =>
    rw [hp] at hmoved
    cases hmoved
  | ok m' =>
    rw [hp] at hmoved
    obtain rfl := Except.ok.inj hmoved
    exact ⟨m', rfl, rfl⟩

/-- A kind of token stands at a place of a stream. -/
def StandsAt (ts : List Token) (kind : Kind) (p : Int) : Prop :=
  ∃ i t, p = (i : Nat) ∧ ts[i]? = some t ∧ t.kind = kind

lemma legible_numbered (hs : Lexer.Spelled ts) : Legible (StandsAt ts) (numbered ts) := by
  constructor
  · intro t ht
    obtain ⟨i, hi, rfl⟩ := List.mem_mapIdx.1 ht
    exact ⟨i, ts[i], rfl, by simp [hi], rfl⟩
  · intro t ht
    obtain ⟨i, hi, rfl⟩ := List.mem_mapIdx.1 ht
    exact hs ts[i] (List.getElem_mem hi)

/-- What a counted token says about the call that starts there. -/
lemma madeFrom_of_anchored {whole : List Token} {x : Node}
    (h : x.Anchored (StandsAt ts) whole) : x.MadeFrom ts := by
  cases x with
  | call span fn args =>
    simp only [Node.Anchored] at h
    cases hop : prefixOperator? fn args with
    | some b =>
      simp only [hop] at h
      obtain ⟨⟨i, t, hi, ht, hk⟩, -⟩ := h
      refine ⟨i, t, hi, ht, ?_, ?_⟩
      · rw [hop, hk]
        rfl
      · rw [hk]
        intro hn
        cases hn
    | none =>
      simp only [hop] at h
      obtain ⟨⟨i, t, hi, ht, hk⟩, -⟩ := h
      refine ⟨i, t, hi, ht, ?_, fun _ => hk⟩
      rw [hop, hk]
      rfl
  | _ => trivial

/-- A parsed tree has the nodes that parsing makes. Below the module there are definitions, and
below these regular expressions. A call shows an operator exactly if it is made from one, and then
it shows this one. -/
theorem parse_regular {files : List (Text × Int)} (hs : Lexer.stream files = .ok ts)
    (hm : parse prec ts = .ok m) :
    (∀ n ∈ m.toNode.children, ∃ d : Definition, n = d.toNode ∧ d.Regular prec) ∧
      ∃ m', parse prec (numbered ts) = .ok m' ∧
        m.defs = m'.defs.map (Definition.relocate (offsetAt ts)) ∧
        ∀ d ∈ m'.defs, ∀ x ∈ d.body, x.Everywhere (Node.MadeFrom ts) := by
  have hspelled := Lexer.spelled_of_stream hs
  constructor
  · intro n hn
    obtain ⟨d, hd, rfl⟩ := List.mem_map.1 hn
    exact ⟨d, rfl, (parsed_of_parse hs hm d hd).regular⟩
  · obtain ⟨m', hm', hdefs⟩ := exists_parse_numbered hm
    refine ⟨m', hm', hdefs, fun d hd x hx n hn => ?_⟩
    have hall := (reads_of_parse hm').anchored (legible_numbered hspelled) List.suffix_rfl d hd
    exact madeFrom_of_anchored (hall.child hx n hn)

/-- Two texts that share their offsets. The first one has operators in front of operands, the second
one a method without statements. -/
theorem parse_regular_overlapping : ∃ files ts m,
    files =
      [(Text.ofString "class A\n impl B\n  def main(x Int)\n   -x.f(!x, 1+2)\n end end end\n", 0),
        (Text.ofString "trait C\n def g\nend", 0)] ∧
    Lexer.stream files = .ok ts ∧ parse .builtin ts = .ok m ∧ m.defs.length = 2 ∧
    (∀ n ∈ m.toNode.children, ∃ d : Definition, n = d.toNode ∧ d.Regular .builtin) ∧
    ∃ m', parse .builtin (numbered ts) = .ok m' ∧
      m.defs = m'.defs.map (Definition.relocate (offsetAt ts)) ∧
      ∀ d ∈ m'.defs, ∀ x ∈ d.body, x.Everywhere (Node.MadeFrom ts) := by
  obtain ⟨files, hf⟩ : ∃ files : List (Text × Int), files =
    [(Text.ofString "class A\n impl B\n  def main(x Int)\n   -x.f(!x, 1+2)\n end end end\n", 0),
      (Text.ofString "trait C\n def g\nend", 0)] := ⟨_, rfl⟩
  obtain ⟨ts, hs, m, hm, hl⟩ : ∃ ts, Lexer.stream files = .ok ts ∧
      ∃ m, parse .builtin ts = .ok m ∧ m.defs.length = 2 := by
    subst hf
    exact ⟨_, by cbv, _, by rfl, by rfl⟩
  exact ⟨files, ts, m, hf, hs, hm, hl, parse_regular hs hm⟩

end Grammar

end Frontend
