import Frontend.Parser.Module
import Frontend.Proofs.Parser.Phrases
import Frontend.Proofs.Parser.Signatures

/-!
# The grammar of modules

The bodies of definitions, and the blocks around them. A module, a class, a trait and an impl block
differ only in what may stand in them and in how they end, so one relation `ReadsBlock` speaks of
all four; `Opens` says which keyword leads from which block into which other.

As for expressions, the parser computes these relations: `reads_of_parse` and `parse_of_reads` are
what the other modules use.
-/

namespace Frontend

open Grammar (skip skipBlank front)

namespace Grammar

/-! ### Relations -/

/-- The statements up to the end of a definition, behind those read so far, the latest first. -/
inductive ReadsBody (prec : Precedence) (params : List Param) :
    List Node → List Token → List Node → List Token → Prop
  /-- Without statements the `end` is left to the block around the definition. -/
  | bodyless {ts rest : List Token} {pos : Int} (he : skip ts = ⟨.endWord, pos⟩ :: rest) :
      ReadsBody prec params [] ts [] (⟨.endWord, pos⟩ :: rest)
  | closed {ts rest : List Token} {pos : Int} {x : Node} {done : List Node}
      (he : skip ts = ⟨.endWord, pos⟩ :: rest) : ReadsBody prec params (x :: done) ts [] rest
  | statement {ts ts₁ rest : List Token} {x : Node} {done xs : List Node}
      (hx : Reads prec ⟨params, done⟩ .expr (skip ts) x ts₁)
      (hxs : ReadsBody prec params (x :: done) ts₁ xs rest) :
      ReadsBody prec params done ts (x :: xs) rest

/-- The offset of the last token that is not whitespace. -/
def lastPos (ts : List Token) : Int :=
  match ts.reverse.find? (fun t => !t.isWhitespace) with
  | some t => t.pos
  | none   => -1

/-- A definition in the blocks of the given names. -/
inductive ReadsDefinition (prec : Precedence) (className implName : Text) :
    List Token → Definition → List Token → Prop
  | mk {ts ts₁ used rest : List Token} {pos : Int} {proto : Prototype} {body : List Node}
      (hp : ReadsPrototype ts proto ts₁) (hb : ReadsBody prec proto.params [] ts₁ body rest)
      (hu : ⟨.defWord, pos⟩ :: ts = used ++ rest) :
      ReadsDefinition prec className implName (⟨.defWord, pos⟩ :: ts)
        ⟨⟨pos, lastPos used⟩, proto.name = Parser.mainName, proto, body, className, implName⟩ rest

/-- The name of a block and the line end behind it. -/
def ReadsName (ts : List Token) (name : Text) (rest : List Token) : Prop :=
  ∃ ts₁ pos pos', skipBlank ts = ⟨.constant name, pos⟩ :: ts₁ ∧
    skipBlank ts₁ = ⟨.newline, pos'⟩ :: rest

/-- What definitions stand in. -/
inductive Block
  | top
  | inClass (className : Text)
  | inTrait (traitName : Text)
  | inImpl (className implName : Text)
  deriving DecidableEq

/-- The name of the class or trait that a block is in, empty at the top level. -/
def Block.className : Block → Text
  | .top              => []
  | .inClass name     => name
  | .inTrait name     => name
  | .inImpl name _    => name

/-- The name of the impl block that a block is, empty for other blocks. -/
def Block.implName : Block → Text
  | .inImpl _ name => name
  | _              => []

/-- A keyword and a name open a block inside another one. -/
inductive Opens : Block → Kind → Text → Block → Prop
  | ofClass (name : Text) : Opens .top .classWord name (.inClass name)
  | ofTrait (name : Text) : Opens .top .traitWord name (.inTrait name)
  | ofImpl (className name : Text) :
      Opens (.inClass className) .implWord name (.inImpl className name)

/-- The definitions up to the end of a block. -/
inductive ReadsBlock (prec : Precedence) :
    Block → List Token → List Definition → List Token → Prop
  | finished {ts : List Token} (h : skip ts = []) : ReadsBlock prec .top ts [] []
  | closed {b : Block} {ts rest : List Token} {pos : Int} (hb : b ≠ .top)
      (he : skip ts = ⟨.endWord, pos⟩ :: rest) : ReadsBlock prec b ts [] rest
  | definition {b : Block} {ts ts₁ rest : List Token} {d : Definition} {ds : List Definition}
      (hd : ReadsDefinition prec b.className b.implName (skip ts) d ts₁)
      (hds : ReadsBlock prec b ts₁ ds rest) : ReadsBlock prec b ts (d :: ds) rest
  | nested {b b' : Block} {ts ts₁ ts₂ ts₃ rest : List Token} {word : Kind} {pos : Int}
      {name : Text} {ds es : List Definition} (hw : skip ts = ⟨word, pos⟩ :: ts₁)
      (ho : Opens b word name b') (hn : ReadsName ts₁ name ts₂)
      (hds : ReadsBlock prec b' ts₂ ds ts₃) (hes : ReadsBlock prec b ts₃ es rest) :
      ReadsBlock prec b ts (ds ++ es) rest

/-! ### Progress -/

section Progress

variable {prec : Precedence} {ts rest : List Token}

lemma ReadsBody.suffix {params : List Param} {done xs : List Node}
    (h : ReadsBody prec params done ts xs rest) : rest <:+ ts := by
  induction h with
  | @bodyless ts _ _ he => exact he ▸ skip_suffix ts
  | closed he => exact suffix_of_skip he
  | statement hx _ ih => exact (ih.trans hx.suffix).trans (skip_suffix _)

lemma ReadsDefinition.suffix {className implName : Text} {d : Definition}
    (h : ReadsDefinition prec className implName ts d rest) : rest <:+ ts := by
  cases h with
  | mk _ _ hu => exact ⟨_, hu.symm⟩

lemma ReadsDefinition.length_lt {className implName : Text} {d : Definition}
    (h : ReadsDefinition prec className implName ts d rest) : rest.length < ts.length := by
  cases h with
  | mk hp hb _ => exact Nat.lt_succ_of_le (hb.suffix.trans hp.suffix).length_le

lemma ReadsDefinition.exists_cons {className implName : Text} {d : Definition}
    (h : ReadsDefinition prec className implName ts d rest) :
    ∃ pos us, ts = ⟨.defWord, pos⟩ :: us := by
  cases h with
  | mk => exact ⟨_, _, rfl⟩

lemma ReadsName.suffix {name : Text} (h : ReadsName ts name rest) : rest <:+ ts := by
  obtain ⟨ts₁, pos, pos', hn, hl⟩ := h
  exact (suffix_of_skipBlank hl).trans (suffix_of_skipBlank hn)

lemma ReadsBlock.suffix {b : Block} {ds : List Definition} (h : ReadsBlock prec b ts ds rest) :
    rest <:+ ts := by
  induction h with
  | finished => exact List.nil_suffix
  | closed _ he => exact suffix_of_skip he
  | definition hd _ ih => exact (ih.trans hd.suffix).trans (skip_suffix _)
  | nested hw _ hn _ _ ihd ihe =>
    exact ((ihe.trans ihd).trans hn.suffix).trans (suffix_of_skip hw)

end Progress

/-! ### Bodies -/

section Bodies

variable {prec : Precedence} {params : List Param} {done xs : List Node} {ts rest : List Token}
  {c c' : Cursor}

open Frontend.Parser

lemma readsBody_skip :
    ReadsBody prec params done (skip ts) xs rest ↔ ReadsBody prec params done ts xs rest := by
  constructor
  · intro h
    cases h with
    | bodyless he => exact .bodyless (skip_skip ts ▸ he)
    | closed he => exact .closed (skip_skip ts ▸ he)
    | statement hx hxs => exact .statement (skip_skip ts ▸ hx) hxs
  · intro h
    cases h with
    | bodyless he => exact .bodyless ((skip_skip ts).trans he)
    | closed he => exact .closed ((skip_skip ts).trans he)
    | statement hx hxs => exact .statement ((skip_skip ts).symm ▸ hx) hxs

/-- An expression starts with a token that is neither whitespace nor an `end`. -/
lemma Reads.start {prec : Precedence} {s : Scope} {g : Phrase} {x : Node}
    (h : Reads prec s g ts x rest)
    (hg : g = .expr ∨ g = .unary ∨ g = .primary ∨ g = .named) :
    ∃ t u, ts = t :: u ∧ t.isWhitespace = false ∧ t.kind ≠ .endWord := by
  induction h with
  | expr _ _ ih => exact ih (by simp)
  | operand _ ih => exact ih (by simp)
  | name _ _ ih => exact ih (by simp)
  | literal hx =>
    rcases literal?_cases hx with ⟨v, hk, -⟩ | ⟨v, hk, -⟩ | ⟨hk, -⟩ <;>
      exact ⟨_, _, rfl, by simp [Token.isWhitespace, hk, Kind.isWhitespace], by simp [hk]⟩
  | operator | paren | callNone | call | assign | localVar =>
    exact ⟨_, _, rfl, rfl, by simp⟩
  | sent | send | lastArg | arg | combined | looser | tighter => simp at hg

lemma Reads.skip_eq {prec : Precedence} {s : Scope} {g : Phrase} {x : Node}
    (h : Reads prec s g ts x rest)
    (hg : g = .expr ∨ g = .unary ∨ g = .primary ∨ g = .named) : skip ts = ts := by
  obtain ⟨t, u, rfl, ht, -⟩ := h.start hg
  exact skip_cons_of_not_whitespace ht u

lemma expression_eq_ok {s : Scope} {x : Node} (h : expression prec s c = .ok x c') :
    Reads prec s .expr c.rest x c'.rest ∧ c.Reaches c' :=
  reads_of_run (g := .expr) h

lemma exists_expression {s : Scope} {x : Node} (h : Reads prec s .expr c.rest x rest) :
    ∃ c', expression prec s c = .ok x c' ∧ c'.rest = rest :=
  exists_run_of_reads h (6 * c.rest.length + 6) c rfl (by simp only [Phrase.slack]; omega)

lemma reads_of_statements {n : Nat} {proto : Prototype}
    (h : statements prec n proto done c = .ok xs c') :
    ∃ ys, xs = done.reverse ++ ys ∧ ReadsBody prec proto.params done c.rest ys c'.rest ∧
      c.Reaches c' := by
  induction n generalizing done c with
  | zero => simp only [statements, fail_eq_ok] at h
  | succ n ih =>
    simp only [statements, bind_eq_ok, skipWhitespace_eq_ok, current_eq_ok] at h
    obtain ⟨-, c₁, rfl, ⟨kind, pos⟩, c₂, ⟨⟨ts, hr⟩, rfl⟩, h⟩ := h
    have hs : skip c.rest = ⟨kind, pos⟩ :: ts := by rw [← Cursor.rest_skipWhitespace, hr]
    dsimp only at h
    split at h
    -- `end`: a body without statements leaves it to the block
    case h_1 =>
      cases done with
      | nil =>
        obtain ⟨rfl, rfl⟩ := pure_eq_ok.1 h
        rw [hr]
        exact ⟨[], rfl, .bodyless hs, c.reaches_skipWhitespace⟩
      | cons x done =>
        simp only [bind_eq_ok, next_eq_ok, pure_eq_ok] at h
        obtain ⟨-, c₁, rfl, rfl, rfl⟩ := h
        rw [Cursor.rest_next hr]
        exact ⟨[], by simp, .closed hs, c.reaches_skipWhitespace.trans (Cursor.reaches_next hr)⟩
    case h_2 =>
      simp only [bind_eq_ok] at h
      obtain ⟨x, c₁, hx, h⟩ := h
      obtain ⟨hx, r₁⟩ := expression_eq_ok hx
      obtain ⟨ys, rfl, hys, r₂⟩ := ih h
      rw [Cursor.rest_skipWhitespace] at hx
      exact ⟨x :: ys, by simp, .statement hx hys, (c.reaches_skipWhitespace.trans r₁).trans r₂⟩

lemma exists_statements {n : Nat} {proto : Prototype}
    (h : ReadsBody prec proto.params done ts xs rest) (hc : c.rest = ts) (hn : ts.length ≤ n) :
    ∃ c', statements prec n proto done c = .ok (done.reverse ++ xs) c' ∧ c'.rest = rest := by
  induction h generalizing n c with
  | @bodyless ts rest pos he =>
    obtain ⟨n, rfl⟩ : ∃ m, n = m + 1 := ⟨n - 1, by have := length_of_skip he; omega⟩
    rw [← hc, ← Cursor.rest_skipWhitespace] at he
    refine ⟨c.skipWhitespace, ?_, he⟩
    simp only [statements, bind_eq_ok, skipWhitespace_eq_ok, current_eq_ok]
    exact ⟨(), _, rfl, _, _, ⟨⟨_, he⟩, rfl⟩, rfl⟩
  | @closed ts rest pos x done he =>
    obtain ⟨n, rfl⟩ : ∃ m, n = m + 1 := ⟨n - 1, by have := length_of_skip he; omega⟩
    rw [← hc, ← Cursor.rest_skipWhitespace] at he
    refine ⟨c.skipWhitespace.next, ?_, Cursor.rest_next he⟩
    simp only [statements, bind_eq_ok, skipWhitespace_eq_ok, current_eq_ok]
    refine ⟨(), _, rfl, _, _, ⟨⟨_, he⟩, rfl⟩, ?_⟩
    simp only [bind_eq_ok, next_eq_ok, pure_eq_ok]
    exact ⟨(), _, rfl, by simp, rfl⟩
  | @statement ts ts₁ rest x done xs hx _ ih =>
    have hlen := hx.length_lt trivial
    have hskip := length_skip_le ts
    obtain ⟨n, rfl⟩ : ∃ m, n = m + 1 := ⟨n - 1, by omega⟩
    rw [← hc, ← Cursor.rest_skipWhitespace] at hx
    obtain ⟨t, u, hr, -, he⟩ := hx.start (by simp)
    obtain ⟨c₁, h₁, rfl⟩ := exists_expression hx
    obtain ⟨c', h₂, rfl⟩ := ih (n := n) rfl (by omega)
    refine ⟨c', ?_, rfl⟩
    simp only [statements, bind_eq_ok, skipWhitespace_eq_ok, current_eq_ok]
    refine ⟨(), _, rfl, _, _, ⟨⟨_, hr⟩, rfl⟩, ?_⟩
    rw [List.reverse_cons, List.append_assoc] at h₂
    generalize t.kind = kind at he ⊢
    split
    case h_1 => exact absurd rfl he
    case h_2 => exact bind_eq_ok.2 ⟨x, c₁, h₁, h₂⟩

end Bodies

/-! ### Definitions -/

section Definitions

variable {prec : Precedence} {className implName : Text} {d : Definition} {rest : List Token}
  {c c' : Cursor}

open Frontend.Parser

lemma lastPos_of_past {used : List Token} (hu : ∃ t ∈ used, t.isWhitespace = false)
    (hp : c'.past = used.reverse ++ c.past) : c'.lastPos = lastPos used := by
  obtain ⟨t, ht, hw⟩ := hu
  obtain ⟨u, hf⟩ : ∃ u, used.reverse.find? (fun t => !t.isWhitespace) = some u :=
    Option.isSome_iff_exists.1 (List.find?_isSome.2 ⟨t, List.mem_reverse.2 ht, by simp [hw]⟩)
  simp only [Cursor.lastPos, hp, List.find?_append, lastPos, hf, Option.some_or]

/-- The tokens that a definition is read from start with its `def`. -/
lemma exists_used {pos : Int} {ts used : List Token} (h : rest <:+ ts)
    (hu : ⟨.defWord, pos⟩ :: ts = used ++ rest) :
    ∃ used', used = ⟨.defWord, pos⟩ :: used' ∧ ts = used' ++ rest := by
  match used with
  | [] =>
    have := h.length_le
    rw [← List.nil_append rest, ← hu, List.length_cons] at this
    omega
  | t :: used' =>
    obtain ⟨rfl, rfl⟩ := List.cons.inj hu
    exact ⟨used', rfl, rfl⟩

lemma reads_of_definition {pos : Int} {ts : List Token} (hr : c.rest = ⟨.defWord, pos⟩ :: ts)
    (h : definition prec className implName c = .ok d c') :
    ReadsDefinition prec className implName c.rest d c'.rest ∧ c.Reaches c' := by
  simp only [definition, routine_eq, bind_eq_ok, token_eq_ok, next_eq_ok, skipWhitespace_eq_ok,
    lastPos_eq_ok, pure_eq_ok] at h
  obtain ⟨t, c₁, ⟨rfl, rfl⟩, -, c₂, rfl, proto, c₃, hp, -, c₄, rfl, body, c₅, hb, stop, c₆,
    ⟨rfl, rfl⟩, rfl, rfl⟩ := h
  obtain ⟨hp, r₁⟩ := reader_prototype.sound hp
  obtain ⟨body, rfl, hb, r₂⟩ := reads_of_statements hb
  rw [Cursor.rest_next hr] at hp
  rw [Cursor.rest_skipWhitespace, readsBody_skip] at hb
  have r₃ := (r₁.trans c₃.reaches_skipWhitespace).trans r₂
  have r := (Cursor.reaches_next hr).trans r₃
  refine ⟨?_, r⟩
  obtain ⟨used, hu, hpast, -⟩ := r
  have hsuf := r₃.suffix
  rw [Cursor.rest_next hr] at hsuf
  obtain ⟨used', rfl, -⟩ := exists_used hsuf (hr ▸ hu)
  rw [lastPos_of_past ⟨_, List.mem_cons_self, rfl⟩ hpast, Cursor.token_of_rest hr, hr]
  exact .mk hp hb (hr ▸ hu)

lemma exists_definition (h : ReadsDefinition prec className implName c.rest d rest) :
    ∃ c', definition prec className implName c = .ok d c' ∧ c'.rest = rest := by
  generalize hr : c.rest = ts at h
  cases h with
  | @mk ts ts₁ used _ pos proto body hp hb hu =>
    rw [← Cursor.rest_next hr] at hp
    obtain ⟨c₁, h₁, rfl⟩ := reader_prototype.complete hp
    rw [← readsBody_skip, ← Cursor.rest_skipWhitespace] at hb
    obtain ⟨c', h₂, rfl⟩ := exists_statements (n := 6 * c₁.skipWhitespace.rest.length + 6) hb rfl
      (by omega)
    have r₃ := ((reader_prototype.sound h₁).2.trans c₁.reaches_skipWhitespace).trans
      (reads_of_statements h₂).choose_spec.2.2
    obtain ⟨used', hu', hpast, -⟩ := (Cursor.reaches_next hr).trans r₃
    obtain rfl : used' = used := List.append_cancel_right (hu'.symm.trans (hr.trans hu))
    have hsuf := r₃.suffix
    rw [Cursor.rest_next hr] at hsuf
    obtain ⟨u, rfl, -⟩ := exists_used hsuf hu
    refine ⟨c', ?_, rfl⟩
    simp only [definition, routine_eq, bind_eq_ok, token_eq_ok, next_eq_ok, skipWhitespace_eq_ok,
      lastPos_eq_ok, pure_eq_ok]
    refine ⟨_, _, ⟨Cursor.token_of_rest hr, rfl⟩, (), _, rfl, _, _, h₁, (), _, rfl, _, _, h₂, _, _,
      ⟨lastPos_of_past ⟨_, List.mem_cons_self, rfl⟩ hpast, rfl⟩, rfl, rfl⟩

end Definitions

/-! ### Names of blocks -/

section Names

variable {c c' : Cursor} {name : Text} {noName noNewline : Cause}

open Frontend.Parser

lemma reads_of_blockName (h : blockName noName noNewline c = .ok name c') :
    ReadsName c.rest name c'.rest ∧ c.Reaches c' := by
  simp only [blockName, bind_eq_ok, skipSpace_eq_ok, current_eq_ok] at h
  obtain ⟨-, c₁, rfl, ⟨kind, pos⟩, c₂, ⟨⟨ts, hr⟩, rfl⟩, h⟩ := h
  dsimp only at h
  split at h
  case h_2 => exact (fail_eq_ok.1 h).elim
  case h_1 name' =>
    simp only [bind_eq_ok, advance_eq_ok, skipSpace_eq_ok, token_eq_ok] at h
    obtain ⟨-, c₁, ⟨-, rfl⟩, -, c₂, rfl, t, c₃, ⟨rfl, rfl⟩, h⟩ := h
    generalize hk : c.skipSpace.next.skipSpace.token.kind = kind at h
    split at h
    case h_2 => exact (fail_eq_ok.1 h).elim
    case h_1 =>
      obtain ⟨pos', ts', hr'⟩ := exists_cons_of_front hk (by simp)
      simp only [bind_eq_ok, next_eq_ok, pure_eq_ok] at h
      obtain ⟨-, c₁, rfl, rfl, rfl⟩ := h
      have r := (c.reaches_skipSpace.trans (Cursor.reaches_next hr)).trans
        (Cursor.reaches_skipSpace _)
      refine ⟨⟨ts, pos, pos', ?_, ?_⟩, r.trans (Cursor.reaches_next hr')⟩
      · rw [← Cursor.rest_skipSpace, hr]
      · rw [Cursor.rest_next hr', ← hr', Cursor.rest_skipSpace, Cursor.rest_next hr]

lemma exists_blockName {rest : List Token} (h : ReadsName c.rest name rest) :
    ∃ c', blockName noName noNewline c = .ok name c' ∧ c'.rest = rest := by
  obtain ⟨ts, pos, pos', hn, hl⟩ := h
  rw [← Cursor.rest_skipSpace] at hn
  have hr := Cursor.rest_next hn
  have hne := ne_nil_of_skipBlank hl
  rw [← hr, ← Cursor.rest_skipSpace] at hl
  refine ⟨c.skipSpace.next.skipSpace.next, ?_, Cursor.rest_next hl⟩
  simp only [blockName, bind_eq_ok, skipSpace_eq_ok, current_eq_ok]
  refine ⟨(), _, rfl, _, _, ⟨⟨_, hn⟩, rfl⟩, ?_⟩
  simp only [bind_eq_ok, advance_eq_ok, skipSpace_eq_ok, token_eq_ok]
  refine ⟨(), _, ⟨hr ▸ hne, rfl⟩, (), _, rfl, _, _, ⟨Cursor.token_of_rest hl, rfl⟩, ?_⟩
  simp only [bind_eq_ok, next_eq_ok, pure_eq_ok]
  exact ⟨(), _, rfl, trivial, rfl⟩

lemma reader_blockName (noName noNewline : Cause) :
    Reader (blockName noName noNewline) ReadsName :=
  ⟨reads_of_blockName, exists_blockName⟩

end Names

/-! ### Entries of blocks -/

section Entries

variable {prec : Precedence} {b : Block} {done ds : List Definition} {ts : List Token}
  {c c₁ : Cursor} {n : Nat} {word : Kind} {noName noNewline : Cause} {inner : Text → Block}

open Frontend.Parser

/-- The parser of what is in a block, behind the definitions read so far in reverse. -/
def Block.run (prec : Precedence) (n : Nat) (done : List Definition) :
    Block → Parser (List Definition)
  | .top              => items prec n done
  | .inClass name     => classMembers prec name n done
  | .inTrait name     => members prec name [] .expectedTraitMember n done
  | .inImpl name impl => members prec name impl .expectedImplMember n done

/-- The parser of a block from its keyword on. -/
def opening (prec : Precedence) (noName noNewline : Cause) (inner : Text → Block) :
    Parser (List Definition) := do
  next
  let name ← blockName noName noNewline
  withBudget fun n => (inner name).run prec n []

/-- What a token that is no whitespace means in a block. -/
inductive Entry
  | definition
  | ending
  /-- The errors are those of a missing name and of a missing line end behind it. -/
  | nested (noName noNewline : Cause) (inner : Text → Block)
  | stray (cause : Cause)

/-- What the kinds of tokens mean in a block. -/
def Block.entry : Block → Kind → Entry
  | _,             .defWord   => .definition
  | .top,          .classWord => .nested .expectedClassName .newlineAfterClassName .inClass
  | .top,          .traitWord => .nested .expectedTraitName .newlineAfterTraitName .inTrait
  | .top,          _          => .stray .expectedItem
  | .inClass name, .implWord  => .nested .expectedImplName .newlineAfterImplName (.inImpl name)
  | _,             .endWord   => .ending
  | .inClass _,    _          => .stray .expectedClassMember
  | .inTrait _,    _          => .stray .expectedTraitMember
  | .inImpl _ _,   _          => .stray .expectedImplMember

/-- The parser of an entry and of what follows it in the block. -/
def Block.enter (prec : Precedence) (n : Nat) (done : List Definition) (b : Block) :
    Entry → Parser (List Definition)
  | .definition => do
    let d ← Parser.definition prec b.className b.implName
    b.run prec n (d :: done)
  | .ending => do
    next
    return done.reverse
  | .nested noName noNewline inner => do
    let ds ← opening prec noName noNewline inner
    b.run prec n (ds.reverse ++ done)
  | .stray cause => fail cause

lemma Block.run_zero (b : Block) (done : List Definition) :
    b.run prec 0 done = fail .outOfBudget := by
  cases b <;> rfl

/-- Every block is parsed entry by entry; only a module may end without an `end`. -/
lemma Block.run_succ (b : Block) (n : Nat) (done : List Definition) :
    b.run prec (n + 1) done = (do
      skipWhitespace
      let finished ← atEnd
      if b = .top ∧ finished = true then return done.reverse
      else do
        let t ← current
        b.enter prec n done (b.entry t.kind)) := by
  funext c
  cases b with
  | top =>
    change (if c.skipWhitespace.atEnd = true then _ else _ : Parser _) c.skipWhitespace =
      (if _ ∧ c.skipWhitespace.atEnd = true then _ else _ : Parser _) c.skipWhitespace
    generalize c.skipWhitespace = c₁
    obtain ⟨past, _ | ⟨⟨kind, pos⟩, rest⟩, beyond⟩ := c₁
    · rfl
    · cases kind <;> rfl
  | inClass name | inTrait name | inImpl name impl =>
    simp only [reduceCtorEq, false_and, if_false]
    change (current >>= _) c.skipWhitespace = (current >>= _) c.skipWhitespace
    generalize c.skipWhitespace = c₁
    obtain ⟨past, _ | ⟨⟨kind, pos⟩, rest⟩, beyond⟩ := c₁
    · rfl
    · cases kind <;> rfl

lemma defWord_of_entry (h : b.entry word = .definition) : word = .defWord := by
  cases b <;> cases word <;> cases h <;> rfl

lemma endWord_of_entry (h : b.entry word = .ending) : b ≠ .top ∧ word = .endWord := by
  cases b <;> cases word <;> cases h <;> simp

lemma kind_of_entry {cause : Cause} (h : b.entry word = .stray cause) :
    cause.kind = .structural := by
  unfold Block.entry at h
  split at h <;> cases h <;> rfl

lemma kinds_of_entry (h : b.entry word = .nested noName noNewline inner) :
    noName.kind = .token ∧ noNewline.kind = .structural := by
  unfold Block.entry at h
  split at h <;> cases h <;> exact ⟨rfl, rfl⟩

lemma opens_of_entry (h : b.entry word = .nested noName noNewline inner) (name : Text) :
    Opens b word name (inner name) := by
  unfold Block.entry at h
  split at h <;> simp only [Entry.nested.injEq, reduceCtorEq] at h
  · obtain ⟨-, -, rfl⟩ := h
    exact .ofClass name
  · obtain ⟨-, -, rfl⟩ := h
    exact .ofTrait name
  · obtain ⟨-, -, rfl⟩ := h
    exact .ofImpl _ name

lemma entry_of_opens {b' : Block} {name : Text} (ho : Opens b word name b') :
    ∃ noName noNewline inner, b.entry word = .nested noName noNewline inner ∧ inner name = b' := by
  cases ho with
  | ofClass => exact ⟨_, _, _, rfl, rfl⟩
  | ofTrait => exact ⟨_, _, _, rfl, rfl⟩
  | ofImpl => exact ⟨_, _, _, rfl, rfl⟩

/-- What holds of a block if it holds of the blocks that can be opened in it holds of every
block. -/
lemma Block.nesting_induction {P : Block → Prop}
    (step : ∀ b, (∀ word name b', Opens b word name b' → P b') → P b) (b : Block) : P b := by
  have inImpl (name impl : Text) : P (.inImpl name impl) := step _ nofun
  have inTrait (name : Text) : P (.inTrait name) := step _ nofun
  have inClass (name : Text) : P (.inClass name) := step _ fun
    | _, _, _, .ofImpl _ impl => inImpl name impl
  cases b with
  | inImpl name impl => exact inImpl name impl
  | inTrait name => exact inTrait name
  | inClass name => exact inClass name
  | top =>
    exact step _ fun
      | _, _, _, .ofClass name => inClass name
      | _, _, _, .ofTrait name => inTrait name

/-- A block goes on with the entry at the cursor. -/
lemma run_of_rest {t : Token} (hr : c.skipWhitespace.rest = t :: ts) :
    b.run prec (n + 1) done c = b.enter prec n done (b.entry t.kind) c.skipWhitespace := by
  have hskip : skipWhitespace c = .ok () c.skipWhitespace := rfl
  have hend : atEnd c.skipWhitespace = .ok false c.skipWhitespace := by
    rw [atEnd_apply, Cursor.atEnd_of_rest hr]
  have hcur : current c.skipWhitespace = .ok t c.skipWhitespace :=
    current_eq_ok.2 ⟨⟨ts, hr⟩, rfl⟩
  rw [Block.run_succ, bind_of_ok hskip, bind_of_ok hend, if_neg (by simp), bind_of_ok hcur]

/-- Inside a block, an `end` closes it. -/
lemma run_of_endWord (hb : b ≠ .top) {pos : Int}
    (hr : c.skipWhitespace.rest = ⟨.endWord, pos⟩ :: ts) :
    b.run prec (n + 1) done c = .ok done.reverse c.skipWhitespace.next := by
  rw [run_of_rest hr]
  cases b with
  | top => exact absurd rfl hb
  | _ => rfl

/-- A definition in a block, in front of the other members. -/
lemma run_of_definition {d : Definition} {pos : Int}
    (hr : c.skipWhitespace.rest = ⟨.defWord, pos⟩ :: ts)
    (hd : definition prec b.className b.implName c.skipWhitespace = .ok d c₁) :
    b.run prec (n + 1) done c = b.run prec n (d :: done) c₁ := by
  have he : b.entry .defWord = .definition := by cases b <;> rfl
  rw [run_of_rest hr, he]
  exact bind_of_ok hd

/-- A nested block, in front of the other members of the block around it. -/
lemma run_of_opening {pos : Int} (he : b.entry word = .nested noName noNewline inner)
    (hr : c.skipWhitespace.rest = ⟨word, pos⟩ :: ts)
    (hd : opening prec noName noNewline inner c.skipWhitespace = .ok ds c₁) :
    b.run prec (n + 1) done c = b.run prec n (ds.reverse ++ done) c₁ := by
  rw [run_of_rest hr, he]
  exact bind_of_ok hd

end Entries

/-! ### Blocks -/

section Blocks

variable {prec : Precedence} {b : Block} {ds : List Definition} {ts rest : List Token}
  {c c' : Cursor} {noName noNewline : Cause} {inner : Text → Block}

open Frontend.Parser

/-- The runs of a block that succeed are described by the grammar. -/
def Block.Sound (prec : Precedence) (b : Block) : Prop :=
  ∀ (n : Nat) (done ds : List Definition) (c c' : Cursor), b.run prec n done c = .ok ds c' →
    ∃ es, ds = done.reverse ++ es ∧ ReadsBlock prec b c.rest es c'.rest ∧ c.Reaches c'

lemma sound_opening {word : Kind} {pos : Int} (hi : ∀ name, (inner name).Sound prec)
    (hr : c.rest = ⟨word, pos⟩ :: ts)
    (h : opening prec noName noNewline inner c = .ok ds c') :
    ∃ name ts₁, ReadsName ts name ts₁ ∧ ReadsBlock prec (inner name) ts₁ ds c'.rest ∧
      c.Reaches c' := by
  simp only [opening, bind_eq_ok, next_eq_ok] at h
  obtain ⟨-, c₁, rfl, name, c₂, hn, h⟩ := h
  obtain ⟨hn, r₁⟩ := (reader_blockName _ _).sound hn
  obtain ⟨ds, rfl, hds, r₂⟩ := hi name _ _ _ _ _ h
  rw [Cursor.rest_next hr] at hn
  exact ⟨name, c₂.rest, hn, hds, ((Cursor.reaches_next hr).trans r₁).trans r₂⟩

/-- Every block is described by the grammar. -/
theorem Block.sound (b : Block) : b.Sound prec := by
  -- the blocks inside are taken care of by the nesting, the entries by the budget
  induction b using Block.nesting_induction with
  | step b ihb =>
    intro n
    induction n with
    | zero =>
      intro done ds c c' h
      rw [Block.run_zero] at h
      exact (fail_eq_ok.1 h).elim
    | succ n ih =>
      intro done ds c c' h
      have hskip := c.reaches_skipWhitespace
      rcases hr : c.skipWhitespace.rest with _ | ⟨⟨kind, pos⟩, ts⟩
      · simp only [Block.run_succ, bind_eq_ok, skipWhitespace_eq_ok, atEnd_eq_ok] at h
        obtain ⟨-, c₁, rfl, finished, c₂, ⟨-, rfl⟩, h⟩ := h
        split_ifs at h with hf
        · obtain ⟨rfl, rfl⟩ := pure_eq_ok.1 h
          obtain ⟨rfl, -⟩ := hf
          have he := hr
          rw [Cursor.rest_skipWhitespace] at he
          rw [hr]
          exact ⟨[], by simp, .finished he, hskip⟩
        · simp only [bind_eq_ok, current_eq_ok, hr] at h
          obtain ⟨t, c₁, ⟨⟨ts, ht⟩, -⟩, -⟩ := h
          cases ht
      have hs : skip c.rest = ⟨kind, pos⟩ :: ts := by rw [← Cursor.rest_skipWhitespace, hr]
      rw [run_of_rest hr] at h
      cases he : b.entry kind with
      | definition =>
        obtain rfl := defWord_of_entry he
        rw [he] at h
        obtain ⟨d, c₁, hd, h⟩ := bind_eq_ok.1 h
        obtain ⟨hd, r₁⟩ := reads_of_definition hr hd
        obtain ⟨es, rfl, hes, r₂⟩ := ih _ _ _ _ h
        rw [Cursor.rest_skipWhitespace] at hd
        exact ⟨d :: es, by simp, .definition hd hes, (hskip.trans r₁).trans r₂⟩
      | ending =>
        obtain ⟨hb, rfl⟩ := endWord_of_entry he
        rw [he] at h
        simp only [Block.enter, bind_eq_ok, next_eq_ok, pure_eq_ok] at h
        obtain ⟨-, c₁, rfl, rfl, rfl⟩ := h
        rw [Cursor.rest_next hr]
        exact ⟨[], by simp, .closed hb hs, hskip.trans (Cursor.reaches_next hr)⟩
      | nested noName noNewline inner =>
        have ho := opens_of_entry he
        rw [he] at h
        obtain ⟨ds, c₁, hd, h⟩ := bind_eq_ok.1 h
        obtain ⟨name, ts₁, hn, hds, r₁⟩ :=
          sound_opening (fun name => ihb _ name _ (ho name)) hr hd
        obtain ⟨es, rfl, hes, r₂⟩ := ih _ _ _ _ h
        exact ⟨ds ++ es, by simp, .nested hs (ho name) hn hds hes, (hskip.trans r₁).trans r₂⟩
      | stray cause =>
        rw [he] at h
        exact (fail_eq_ok.1 h).elim

lemma reads_of_opening {word : Kind} {pos : Int} (hr : c.rest = ⟨word, pos⟩ :: ts)
    (h : opening prec noName noNewline inner c = .ok ds c') :
    ∃ name ts₁, ReadsName ts name ts₁ ∧ ReadsBlock prec (inner name) ts₁ ds c'.rest ∧
      c.Reaches c' :=
  sound_opening (fun name => (inner name).sound) hr h

/-- The runs of a block that the grammar asks for are there. -/
def Block.Complete (prec : Precedence) (b : Block) (ts : List Token) (ds : List Definition)
    (rest : List Token) : Prop :=
  ∀ (n : Nat) (done : List Definition) (c : Cursor), c.rest = ts → ts.length < n →
    ∃ c', b.run prec n done c = .ok (done.reverse ++ ds) c' ∧ c'.rest = rest

lemma exists_opening (noName noNewline : Cause) (inner : Text → Block) {word : Kind} {pos : Int}
    {name : Text} {ts₁ : List Token} (hr : c.rest = ⟨word, pos⟩ :: ts)
    (hn : ReadsName ts name ts₁) (h : (inner name).Complete prec ts₁ ds rest) :
    ∃ c', opening prec noName noNewline inner c = .ok ds c' ∧ c'.rest = rest := by
  rw [← Cursor.rest_next hr] at hn
  obtain ⟨c₁, h₁, rfl⟩ := (reader_blockName noName noNewline).complete hn
  obtain ⟨c', h₂, rfl⟩ := h (6 * c₁.rest.length + 6) [] c₁ rfl (by omega)
  refine ⟨c', ?_, rfl⟩
  simp only [opening, bind_eq_ok, next_eq_ok]
  exact ⟨(), _, rfl, name, c₁, h₁, h₂⟩

/-- Every block of the grammar is found by a run with a budget for its tokens. -/
lemma exists_run_of_readsBlock (h : ReadsBlock prec b ts ds rest) : b.Complete prec ts ds rest := by
  induction h with
  -- the induction gives a run for every budget, since the rest of a block is run with less
  | @finished ts he =>
    intro n done c hc hn
    obtain ⟨n, rfl⟩ : ∃ m, n = m + 1 := ⟨n - 1, by omega⟩
    have hr : c.skipWhitespace.rest = [] := by rw [Cursor.rest_skipWhitespace, hc, he]
    refine ⟨c.skipWhitespace, ?_, hr⟩
    simp only [Block.run_succ, bind_eq_ok, skipWhitespace_eq_ok, atEnd_eq_ok]
    refine ⟨(), _, rfl, true, _, ⟨by simp [Cursor.atEnd, hc, he], rfl⟩, ?_⟩
    rw [if_pos ⟨trivial, rfl⟩, List.append_nil]
    rfl
  | closed hb he =>
    intro n done c hc hn
    obtain ⟨n, rfl⟩ : ∃ m, n = m + 1 := ⟨n - 1, by omega⟩
    rw [← hc, ← Cursor.rest_skipWhitespace] at he
    exact ⟨_, by rw [run_of_endWord hb he, List.append_nil], Cursor.rest_next he⟩
  | @definition b ts ts₁ rest d ds hd _ ih =>
    intro n done c hc hn
    obtain ⟨n, rfl⟩ : ∃ m, n = m + 1 := ⟨n - 1, by omega⟩
    have hlen := hd.length_lt
    have hskip := length_skip_le ts
    rw [← hc, ← Cursor.rest_skipWhitespace] at hd
    obtain ⟨pos, u, hr⟩ := hd.exists_cons
    obtain ⟨c₁, h₁, rfl⟩ := exists_definition hd
    obtain ⟨c', h₂, rfl⟩ := ih n (d :: done) c₁ rfl (by omega)
    refine ⟨c', ?_, rfl⟩
    rw [run_of_definition hr h₁, h₂, List.reverse_cons, List.append_assoc]
    rfl
  | @nested b b' ts ts₁ ts₂ ts₃ rest word pos name ds es hw ho hn hds _ ihd ihe =>
    intro n done c hc hlt
    obtain ⟨n, rfl⟩ : ∃ m, n = m + 1 := ⟨n - 1, by omega⟩
    have hlen := (hds.suffix.trans hn.suffix).length_le
    have hskip := length_of_skip hw
    rw [← hc, ← Cursor.rest_skipWhitespace] at hw
    obtain ⟨noName, noNewline, inner, he, rfl⟩ := entry_of_opens ho
    obtain ⟨c₁, h₁, rfl⟩ := exists_opening noName noNewline inner hw hn ihd
    obtain ⟨c', h₂, rfl⟩ := ihe n (ds.reverse ++ done) c₁ rfl (by omega)
    refine ⟨c', ?_, rfl⟩
    rw [run_of_opening he hw h₁, h₂, List.reverse_append, List.reverse_reverse, List.append_assoc]

lemma ReadsBlock.rest_eq_nil (h : ReadsBlock prec .top ts ds rest) : rest = [] := by
  generalize hb : Block.top = b at h
  induction h with
  | finished => rfl
  | closed hne => exact absurd hb.symm hne
  | definition _ _ ih => exact ih hb
  | nested _ _ _ _ _ _ ih => exact ih hb

/-- What is parsed is described by the grammar. -/
theorem reads_of_parse {m : Module} (h : parse prec ts = .ok m) :
    ReadsBlock prec .top ts m.defs [] := by
  unfold parse at h
  split at h
  case h_1 ds c' hr =>
    obtain rfl := Except.ok.inj h
    obtain ⟨es, rfl, hes, -⟩ := Block.top.sound _ [] _ _ _ hr
    rwa [hes.rest_eq_nil] at hes
  case h_2 => cases h

/-- What is described by the grammar is parsed. -/
theorem parse_of_reads (h : ReadsBlock prec .top ts ds []) :
    parse prec ts = .ok ⟨.ofTokens ts, ds⟩ := by
  obtain ⟨c', hr, -⟩ := exists_run_of_readsBlock h (6 * ts.length + 6) [] (.ofTokens ts) rfl
    (by omega)
  have hd : definitions prec (Cursor.ofTokens ts) = .ok ds c' := hr
  rw [parse, hd]

end Blocks

end Grammar

end Frontend
