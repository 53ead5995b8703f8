import Frontend.Proofs.Parser.Sightings
import Frontend.Proofs.Tree.Anchors

/-!
# Inference of types

The parser gives a local variable its type by looking back from its use, over the statements that
have been read and then over the parameters. The same types come from an `Environment` that is
carried forward: it starts with the parameters, and each statement that is an assignment updates it.

`inference_eq_environment` says so of all variables in parsed definitions, and of all variables that
the parser fails at.
-/

namespace Frontend

open Grammar (skip front)

/-! ### Environments -/

/-- What is known of a variable: the name of its class, or that it has been assigned something that
gives it none. -/
inductive Binding
  | ofClass (className : Text)
  | unsupported
  deriving DecidableEq, Repr

/-- What an assigned value makes known of its variable. -/
def Binding.ofValue : Node → Binding
  | .int _ _           => .ofClass (Text.ofString "Int")
  | .string _ _        => .ofClass (Text.ofString "Str")
  | .localVar _ _ type => .ofClass (classNameOf type)
  | _                  => .unsupported

/-- What is known of the variables at some statement of a definition. -/
abbrev Environment := Text → Option Binding

namespace Environment

/-- Of the parameters with the same name, the first one counts. -/
def ofParams : List Param → Environment
  | []      => fun _ => none
  | p :: ps => Function.update (ofParams ps) p.name (some (.ofClass (classNameOf p.type)))

/-- The environment behind a statement. Only a statement that is itself an assignment changes it. -/
def after (env : Environment) : Node → Environment
  | .assign _ name value => Function.update env name (some (.ofValue value))
  | _                    => env

end Environment

/-- The environment behind some statements of a definition with the given parameters. -/
def environment (params : List Param) (statements : List Node) : Environment :=
  statements.foldl Environment.after (.ofParams params)

section Environments

variable {params : List Param} {name className : Text}

lemma environment_concat (params : List Param) (xs : List Node) (x : Node) :
    environment params (xs ++ [x]) = (environment params xs).after x := by
  rw [environment, environment, List.foldl_append, List.foldl_cons, List.foldl_nil]

namespace Scope

/-- What the environment says of a variable, as the parser says it. -/
def ofBinding : Option Binding → Except Cause Text
  | some (.ofClass className) => .ok className
  | some .unsupported         => .error .unsupportedAssignment
  | none                      => .error .notAssigned

lemma classOfValue_eq (value : Node) :
    classOfValue value = ofBinding (some (.ofValue value)) := by
  cases value <;> rfl

lemma classOf_cons (params : List Param) (x : Node) (done : List Node) (name : Text) :
    classOf ⟨params, x :: done⟩ name =
      match assigned? name x with
      | some value => classOfValue value
      | none       => classOf ⟨params, done⟩ name := by
  simp only [classOf, List.findSome?_cons]
  cases assigned? name x <;> rfl

lemma classOf_nil (params : List Param) (name : Text) :
    classOf ⟨params, []⟩ name = ofBinding (Environment.ofParams params name) := by
  induction params with
  | nil => rfl
  | cons p ps ih =>
    by_cases h : p.name = name
    · simp [classOf, Environment.ofParams, h, ofBinding]
    · have hp : classOf ⟨p :: ps, []⟩ name = classOf ⟨ps, []⟩ name := by simp [classOf, h]
      rw [hp, ih, Environment.ofParams, Function.update_of_ne (Ne.symm h)]

/-- Looking back finds what the environment has kept. -/
theorem classOf_eq_environment (params : List Param) (done : List Node) (name : Text) :
    classOf ⟨params, done⟩ name = ofBinding (environment params done.reverse name) := by
  induction done with
  | nil => exact classOf_nil params name
  | cons x done ih =>
    rw [classOf_cons, List.reverse_cons, environment_concat, ih]
    cases x with
    | assign span other value =>
      by_cases h : other = name
      · subst h
        rw [assigned?, if_pos rfl, Environment.after, Function.update_self]
        exact classOfValue_eq value
      · rw [assigned?, if_neg h, Environment.after, Function.update_of_ne (Ne.symm h)]
    | _ => rfl

lemma classOf_eq_ok {done : List Node} : classOf ⟨params, done⟩ name = .ok className ↔
    environment params done.reverse name = some (.ofClass className) := by
  rw [classOf_eq_environment]
  cases environment params done.reverse name with
  | none => simp [ofBinding]
  | some b => cases b <;> simp [ofBinding]

lemma exists_classOf_eq_error {done : List Node} :
    (∃ cause, classOf ⟨params, done⟩ name = .error cause) ↔
      environment params done.reverse name = none ∨
        environment params done.reverse name = some .unsupported := by
  rw [classOf_eq_environment]
  cases environment params done.reverse name with
  | none => simp [ofBinding]
  | some b => cases b <;> simp [ofBinding]

end Scope

end Environments

/-! ### Types of variables -/

/-- The class names that variables of a definition with the given parameters can have. -/
def IsClassIn (params : List Param) (className : Text) : Prop :=
  className = Text.ofString "Int" ∨ className = Text.ofString "Str" ∨
    ∃ p ∈ params, className = classNameOf p.type

/-- A node has the type that an environment says, if it is a variable. -/
def Node.TypedBy (env : Environment) : Node → Prop
  | .localVar _ name type =>
    ∃ className, type = some (.undef className) ∧ env name = some (.ofClass className)
  | _ => True

/-- The variables in the statements of a definition have the types that the environment in front of
the statement says, whatever they are nested in. -/
def Definition.Inferred (d : Definition) : Prop :=
  ∀ i x, d.body[i]? = some x → ∀ span name type, x.Holds (.localVar span name type) →
    ∃ className, type = some (.undef className) ∧
      environment d.proto.params (d.body.take i) name = some (.ofClass className) ∧
      IsClassIn d.proto.params className

lemma IsClassIn.of_ofParams {params : List Param} {name className : Text}
    (h : Environment.ofParams params name = some (.ofClass className)) :
    IsClassIn params className := by
  induction params with
  | nil => cases h
  | cons p ps ih =>
    by_cases hn : name = p.name
    · subst hn
      rw [Environment.ofParams, Function.update_self] at h
      cases h
      exact .inr (.inr ⟨p, List.mem_cons_self, rfl⟩)
    · rw [Environment.ofParams, Function.update_of_ne hn] at h
      refine (ih h).imp_right fun h => h.imp_right ?_
      rintro ⟨q, hq, rfl⟩
      exact ⟨q, List.mem_cons_of_mem p hq, rfl⟩

/-- All classes that an environment knows can be classes of variables. -/
def Environment.KnownIn (env : Environment) (params : List Param) : Prop :=
  ∀ name className, env name = some (.ofClass className) → IsClassIn params className

lemma Environment.KnownIn.after {env : Environment} {params : List Param} {x : Node}
    (h : env.KnownIn params) (hx : x.Everywhere (Node.TypedBy env)) :
    (env.after x).KnownIn params := by
  cases x with
  | assign span other value =>
    intro name className hc
    by_cases hn : name = other
    · subst hn
      rw [Environment.after, Function.update_self] at hc
      cases value with
      | int =>
        cases hc
        exact .inl rfl
      | string =>
        cases hc
        exact .inr (.inl rfl)
      | localVar span source type =>
        have hv : Node.TypedBy env (.localVar span source type) :=
          hx _ (.child .root (List.mem_singleton_self _))
        obtain ⟨c, rfl, hs⟩ := hv
        cases hc
        exact h source c hs
      | _ => cases hc
    · rw [Environment.after, Function.update_of_ne hn] at hc
      exact h name className hc
  | _ => exact h

namespace Grammar

open Frontend.Parser

section Typed

variable {prec : Precedence} {s : Scope} {g : Phrase} {ts rest : List Token} {x : Node}

/-- The variables in a phrase have the types that the environment of its scope says. -/
lemma Reads.typedBy (h : Reads prec s g ts x rest)
    (hg : g.Anchored (Node.TypedBy (environment s.params s.done.reverse))) :
    g.Anchors (Node.TypedBy (environment s.params s.done.reverse)) x := by
  induction h with
  | expr _ _ ihx ihy | name _ _ ihx ihy | paren _ _ _ _ ihx ihy => exact ihy (ihx trivial)
  | operator _ ihx => exact .mk trivial (List.forall_mem_singleton.2 (ihx trivial))
  | operand _ ihx => exact ihx trivial
  | literal hx _ ihy =>
    refine ihy ?_
    rcases literal?_cases hx with ⟨v, -, rfl⟩ | ⟨v, -, rfl⟩ | ⟨-, rfl⟩ <;>
      exact Node.Everywhere.mk trivial (by simp [Node.children])
  -- messages and names: only a variable has a type to be checked
  | sent => exact hg
  | send _ _ ihm ihy =>
    refine ihy (.mk trivial (List.forall_mem_cons.2 ⟨hg, ?_⟩))
    exact List.forall_mem_singleton.2 (ihm trivial)
  | callNone => exact .mk trivial (by simp [Node.children])
  | call _ _ ihx =>
    obtain ⟨stop, args, rfl, hargs⟩ := ihx (by simp [Phrase.Anchored])
    exact .mk trivial hargs
  | assign _ _ ihv => exact .mk trivial (List.forall_mem_singleton.2 (ihv trivial))
  | localVar _ _ hc =>
    exact .mk ⟨_, rfl, Scope.classOf_eq_ok.1 hc⟩ (by simp [Node.children])
  | @lastArg _ _ _ x done _ _ _ _ _ ihx =>
    refine ⟨_, _, rfl, fun c hc => ?_⟩
    rcases List.mem_cons.1 (List.mem_reverse.1 hc) with rfl | hc
    · exact ihx trivial
    · exact hg c hc
  | arg _ _ _ ihx ihy => exact ihy (List.forall_mem_cons.2 ⟨ihx trivial, hg⟩)
  | combined => exact hg
  | looser _ _ _ _ ihx ihy =>
    refine ihy (.mk trivial (List.forall_mem_cons.2 ⟨hg, ?_⟩))
    exact List.forall_mem_singleton.2 (ihx trivial)
  | tighter _ _ _ _ _ ihx ihr ihy =>
    refine ihy (.mk trivial (List.forall_mem_cons.2 ⟨hg, ?_⟩))
    exact List.forall_mem_singleton.2 (ihr (ihx trivial))

/-- The statements of a body are typed by the environments in front of them, which know no other
classes than those of literals and parameters. -/
lemma ReadsBody.typedBy {params : List Param} {done xs : List Node}
    (h : ReadsBody prec params done ts xs rest)
    (hd : (environment params done.reverse).KnownIn params) :
    ∀ i x, xs[i]? = some x →
      x.Everywhere (Node.TypedBy (environment params (done.reverse ++ xs.take i))) ∧
        (environment params (done.reverse ++ xs.take i)).KnownIn params := by
  induction h with
  | bodyless | closed => simp
  | @statement ts ts₁ rest x done xs hx _ ih =>
    have hx : x.Everywhere (Node.TypedBy (environment params done.reverse)) := hx.typedBy trivial
    intro i y hy
    cases i with
    | zero =>
      obtain rfl : x = y := by simpa using hy
      simpa using And.intro hx hd
    | succ i =>
      rw [List.reverse_cons, environment_concat] at ih
      have hrest := ih (hd.after hx) i y (by simpa using hy)
      rwa [List.append_assoc, List.singleton_append] at hrest

lemma inferred_of_body {proto : Prototype} {body : List Node} {span : Span} {isMain : Bool}
    {className implName : Text} (h : ReadsBody prec proto.params [] ts body rest) :
    (Definition.mk span isMain proto body className implName).Inferred := by
  intro i x hx span name type hn
  obtain ⟨hall, hknown⟩ := h.typedBy (fun _ _ hc => .of_ofParams hc) i x hx
  obtain ⟨c, ht, hc⟩ : Node.TypedBy _ (.localVar span name type) := hall _ hn
  exact ⟨c, ht, hc, hknown name c hc⟩

/-- The variables in a definition that has been parsed have their types from the environment. -/
theorem inferred_of_definition {className implName : Text} {c c' : Cursor} {d : Definition}
    (h : definition prec className implName c = .ok d c') : d.Inferred := by
  simp only [definition, routine_eq, bind_eq_ok, token_eq_ok, next_eq_ok, skipWhitespace_eq_ok,
    lastPos_eq_ok, pure_eq_ok] at h
  obtain ⟨t, c₁, -, -, c₂, rfl, proto, c₃, -, -, c₄, rfl, body, c₅, hb, stop, c₆, -, rfl, -⟩ := h
  obtain ⟨body, rfl, hb, -⟩ := reads_of_statements hb
  exact inferred_of_body hb

lemma ReadsDefinition.inferred {className implName : Text} {d : Definition}
    (h : ReadsDefinition prec className implName ts d rest) : d.Inferred := by
  cases h with
  | mk _ hb _ => exact inferred_of_body hb

lemma ReadsBlock.inferred {b : Block} {ds : List Definition} (h : ReadsBlock prec b ts ds rest) :
    ∀ d ∈ ds, d.Inferred := by
  induction h with
  | finished | closed => simp
  | definition hd _ ih => exact List.forall_mem_cons.2 ⟨hd.inferred, ih⟩
  | nested _ _ _ _ _ ihd ihe => exact List.forall_mem_append.2 ⟨ihd, ihe⟩

end Typed

/-! ### Inference -/

/-- The parse fails since it cannot find the type of the variable at an offset, in front of the
given rest of the stream. -/
def MissesTypeAt (prec : Precedence) (ts : List Token) (pos : Int) (rest : List Token) : Prop :=
  ∃ cause c, cause.kind = .inference ∧ parse prec ts = .error ⟨cause, pos⟩ ∧
    definitions prec (Cursor.ofTokens ts) = .error ⟨cause, pos⟩ c ∧ c.rest = rest

lemma missesTypeAt_iff {prec : Precedence} {ts rest : List Token} {pos : Int} :
    MissesTypeAt prec ts pos rest ↔
      ∃ cause c, Misses (definitions prec) (.ofTokens ts) ⟨cause, pos⟩ c ∧ c.rest = rest := by
  constructor
  · rintro ⟨cause, c, hk, -, hd, hc⟩
    exact ⟨cause, c, ⟨hd, hk⟩, hc⟩
  · rintro ⟨cause, c, ⟨hd, hk⟩, hc⟩
    exact ⟨cause, c, hk, by rw [parse, hd], hd, hc⟩

/-- Types are inferred from environments. In a parsed definition, each variable has the class that
the environment in front of its statement says. And of the variables that the parser comes to, it
fails at those of which the environment knows nothing, or no class; these are the only ones whose
types it misses. -/
theorem inference_eq_environment (prec : Precedence) (ts : List Token) :
    (∀ className implName (c : Cursor) d c',
        definition prec className implName c = .ok d c' → d.Inferred) ∧
      (∀ m, parse prec ts = .ok m → ∀ d ∈ m.defs, d.Inferred) ∧
      (∀ s name pos us, Sees prec s (⟨.identifier name, pos⟩ :: us) .top ts →
        front (skip us) ≠ .leftParen → front (skip us) ≠ .assign →
          (MissesTypeAt prec ts pos (skip us) ↔
            environment s.params s.done.reverse name = none ∨
              environment s.params s.done.reverse name = some .unsupported)) ∧
      ∀ pos rest, MissesTypeAt prec ts pos rest →
        ∃ s name us, Sees prec s (⟨.identifier name, pos⟩ :: us) .top ts ∧
          front (skip us) ≠ .leftParen ∧ front (skip us) ≠ .assign ∧ skip us = rest := by
  refine ⟨fun _ _ _ _ _ h => inferred_of_definition h, fun m hm => (reads_of_parse hm).inferred,
    ?_, ?_⟩
  · -- a variable that the parser comes to is refused by its scope or not at all
    intro s name pos us hsees hl ha
    rw [missesTypeAt_iff, hsees.misses_iff hl ha]
    exact Scope.exists_classOf_eq_error
  · -- a type that is missed is missed at a variable, since nothing else looks one up
    intro pos rest h
    obtain ⟨cause, c, hm, rfl⟩ := missesTypeAt_iff.1 h
    have hrun : Misses (withBudget fun n => Block.top.run prec n []) (.ofTokens ts)
      ⟨cause, pos⟩ c := hm
    obtain ⟨s, us, hsees, hu⟩ := exists_sees_of_misses (misses_withBudget.1 hrun)
    generalize he : SyntaxError.mk cause pos = e at hu
    generalize hc : c.rest = rest at hu
    cases hu with
    | @mk us name pos' cause' hl ha hc' =>
      cases he
      exact ⟨s, name, us, hsees, hl, ha, rfl⟩

/-- Names in a definition that is parsed, of which one has a type from a parameter and one from a
number, and a name that is assigned nowhere as the right operand of an operator. -/
theorem inference_eq_environment_operand :
    (∃ ts d c m, Lexer.tokens
        (Text.ofString "def f(a Str, a Int)\n  b = a\n  a = 1\n  b.g(a)\nend\n") 0 = .ok ts ∧
      (definition .builtin [] [] (Cursor.ofTokens ts) = .ok d c ∧ d.Inferred) ∧
      d.body.getLast? = some (.send ⟨38, 43⟩
        (.localVar ⟨38, 38⟩ (Text.ofString "b") (some (.undef (Text.ofString "Str"))))
        (.call ⟨40, 43⟩ (Text.ofString "g")
          [.localVar ⟨42, 42⟩ (Text.ofString "a") (some (.undef (Text.ofString "Int")))])) ∧
      parse .builtin ts = .ok m ∧ ∀ d ∈ m.defs, d.Inferred) ∧
    ∃ ts s us, Lexer.tokens (Text.ofString "def f(a Str)\n  b = a\n  b + c\nend\n") 0 = .ok ts ∧
      Sees .builtin s (⟨.identifier (Text.ofString "c"), 27⟩ :: us) .top ts ∧
      environment s.params s.done.reverse (Text.ofString "c") = none ∧
      MissesTypeAt .builtin ts 27 (skip us) ∧
      ∃ s' name us', Sees .builtin s' (⟨.identifier name, 27⟩ :: us') .top ts ∧
        front (skip us') ≠ .leftParen ∧ front (skip us') ≠ .assign ∧ skip us' = skip us := by
  constructor
  · -- the types of the variables in the last statement
    obtain ⟨ts, ht, d, c, hd, hb, m, hm⟩ : ∃ ts, Lexer.tokens
        (Text.ofString "def f(a Str, a Int)\n  b = a\n  a = 1\n  b.g(a)\nend\n") 0 = .ok ts ∧
        ∃ d c, definition .builtin [] [] (Cursor.ofTokens ts) = .ok d c ∧
        d.body.getLast? = some (.send ⟨38, 43⟩
          (.localVar ⟨38, 38⟩ (Text.ofString "b") (some (.undef (Text.ofString "Str"))))
          (.call ⟨40, 43⟩ (Text.ofString "g")
            [.localVar ⟨42, 42⟩ (Text.ofString "a") (some (.undef (Text.ofString "Int")))])) ∧
        ∃ m, parse .builtin ts = .ok m := ⟨_, by cbv, _, _, by rfl, by rfl, _, by rfl⟩
    obtain ⟨hdef, hall, -⟩ := inference_eq_environment .builtin ts
    exact ⟨ts, d, c, m, ht, ⟨hd, hdef _ _ _ _ _ hd⟩, hb, hm, hall m hm⟩
  · -- the steps of the parser up to the right operand in the second statement
    obtain ⟨params, hparams⟩ : ∃ params : List Param,
        params = [⟨Text.ofString "a", some .string⟩] := ⟨_, rfl⟩
    obtain ⟨x, hx⟩ : ∃ x : Node, x = .assign ⟨15, 19⟩ (Text.ofString "b")
        (.localVar ⟨19, 19⟩ (Text.ofString "a") (some (.undef (Text.ofString "Str")))) := ⟨_, rfl⟩
    obtain ⟨us, hus⟩ : ∃ us : List Token,
        us = [⟨.newline, 28⟩, ⟨.endWord, 29⟩, ⟨.newline, 32⟩] := ⟨_, rfl⟩
    obtain ⟨vs, hvs⟩ : ∃ vs : List Token, vs = ⟨.identifier (Text.ofString "b"), 23⟩ ::
        ⟨.space, 24⟩ :: ⟨.operator 0x2B, 25⟩ :: ⟨.space, 26⟩ ::
        ⟨.identifier (Text.ofString "c"), 27⟩ :: us := ⟨_, rfl⟩
    have hvalue : Reads .builtin ⟨params, []⟩ .expr
        (⟨.identifier (Text.ofString "a"), 19⟩ :: ⟨.newline, 20⟩ :: ⟨.space, 21⟩ :: vs)
        (.localVar ⟨19, 19⟩ (Text.ofString "a") (some (.undef (Text.ofString "Str")))) vs := by
      subst hvs hus hparams
      exact .expr (.operand (.name (.localVar (by decide) (by decide) rfl) (.sent (by decide))))
        (.combined (.inr (.inl (by decide))))
    have hassign : Reads .builtin ⟨params, []⟩ .expr
        (⟨.identifier (Text.ofString "b"), 15⟩ :: ⟨.space, 16⟩ :: ⟨.assign, 17⟩ :: ⟨.space, 18⟩ ::
          ⟨.identifier (Text.ofString "a"), 19⟩ :: ⟨.newline, 20⟩ :: ⟨.space, 21⟩ :: vs) x vs := by
      subst hvs hus hx
      exact .expr (.operand (.name (.assign rfl hvalue) (.sent (by decide))))
        (.combined (.inr (.inl (by decide))))
    have hvisits : Visits .builtin ⟨params, [x]⟩ .named
        (⟨.identifier (Text.ofString "c"), 27⟩ :: us) .expr vs := by
      subst hvs hx hus
      refine .call (.operators (.operand (.name (.localVar (by decide) (by decide) rfl)
        (.sent (by decide))))) ?_
      exact .call (.rightOperand (by decide) (by simp)) (.call (.primary rfl) (.call .named .here))
    obtain ⟨ts, ht, hsees⟩ : ∃ ts,
        Lexer.tokens (Text.ofString "def f(a Str)\n  b = a\n  b + c\nend\n") 0 = .ok ts ∧
        Sees .builtin ⟨params, [x]⟩ (⟨.identifier (Text.ofString "c"), 27⟩ :: us) .top ts := by
      refine ⟨_, by cbv, ?_⟩
      have hstart : Statement .builtin ⟨params, [x]⟩ vs ⟨params, [x]⟩ vs := by
        subst hvs
        exact .here rfl (by simp)
      subst hparams hvs hus
      exact .here rfl (.full rfl (.last rfl rfl rfl) (.none rfl))
        ⟨_, .behind hassign hstart, hvisits⟩
    have hnone : environment params [x] (Text.ofString "c") = none := by
      subst hparams hx
      cbv
    obtain ⟨-, -, hiff, hall⟩ := inference_eq_environment .builtin ts
    have hmisses :=
      (hiff _ _ _ _ hsees (by subst hus; decide) (by subst hus; decide)).2 (.inl hnone)
    exact ⟨ts, ⟨params, [x]⟩, us, ht, hsees, hnone, hmisses, hall _ _ hmisses⟩

end Grammar

end Frontend
