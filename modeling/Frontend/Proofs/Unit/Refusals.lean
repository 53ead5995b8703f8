import Frontend.Proofs.Tree.Reading
import Frontend.Proofs.Unit.Diagnostics

/-!
# Files that are refused

A file that is refused leaves no trace in what is parsed. One with a lexical error takes up its
offsets, so the tokens behind it stand at other offsets than without it; but their kinds are the
same, and so are their locations. The parser looks at nothing else.

The units with and without the refused files are kept in step: `Mirrors` is what one file preserves,
whether it is refused or not.
-/

namespace Frontend

/-! ### Offsets that have moved -/

/-- A text without lexical errors has none at any offset. -/
lemma Lexer.tokens_of_zero {text : Text} {ts : List Token} (h : tokens text 0 = .ok ts) {o : Int} :
    tokens text o = .ok (ts.map (Token.relocate (· + o))) := by
  obtain ⟨ls, hc, rfl⟩ := exists_cut_of_tokens h
  rw [tokens_of_cut_nil hc, ← place_add, zero_add]

lemma Node.erase_relocate (f : Int → Int) (n : Node) : (n.relocate f).erase = n.erase := by
  rw [Grammar.erase_eq_relocate, Grammar.erase_eq_relocate, Node.relocate_relocate]
  rfl

lemma Definition.erase_relocate (f : Int → Int) (d : Definition) :
    (d.relocate f).erase = d.erase := by
  simp only [erase, relocate, List.map_map, Function.comp_def, Node.erase_relocate]

lemma Span.ofTokens_map {f : Int → Int} (hf : f (-1) = -1) (ts : List Token) :
    Span.ofTokens (ts.map (Token.relocate f)) = (Span.ofTokens ts).relocate f := by
  simp only [ofTokens, List.head?_map, List.getLast?_map]
  cases ts.head? with
  | none => simp [relocate, hf]
  | some t =>
    cases ts.getLast? with
    | none => simp [relocate, hf]
    | some u => rfl

/-- Every node of a parsed tree starts at a token, unless there is none. -/
lemma exists_start_of_parse {prec : Precedence} {ts : List Token} {m : Module} {n : Node}
    (hi : Grammar.Increasing ts) (hm : parse prec ts = .ok m) (hn : m.toNode.Holds n) :
    (∃ t ∈ ts, n.start = t.pos) ∨ n.start = -1 := by
  have hrow := (Grammar.reads_of_parse hm).row (Grammar.laid_marks hi)
  have hall : n = m.toNode ∨ n.Placed (Grammar.Marks ts) := by
    induction hn with
    | root => exact .inl rfl
    | child _ hc ih =>
      rcases ih with rfl | ih
      · exact .inr (hrow.placed _ hc)
      · exact .inr (ih.of_holds (.child .root hc))
  rcases hall with rfl | h
  · have hspan : m.toNode.start = (Span.ofTokens ts).start :=
      congrArg Span.start (Grammar.span_of_parse hm)
    rw [hspan]
    match ts with
    | []      => exact .inr rfl
    | t :: ts =>
      refine .inl ⟨t, List.mem_cons_self, ?_⟩
      rw [Span.ofTokens, List.head?_cons, List.getLast?_cons]
  · obtain ⟨t, ht, -, hp⟩ := h.good_start
    exact .inl ⟨t, ht, hp.symm⟩

/-- An offset that is not known has no location. -/
lemma SourceFiles.at?_unknown (fs : SourceFiles) : fs.at? (-1) = none := by
  rw [at?, locate?, if_pos (.inl (by decide))]

namespace CompilationUnit

/-! ### Adding many files -/

/-- The unit after files were added one after the other, some of which may be refused. -/
def addAll (u : CompilationUnit) (inputs : List Input) : CompilationUnit :=
  inputs.foldl (fun u input => (u.addInput input).1) u

/-- The files that are not refused when they are added one after the other. -/
def accepted (u : CompilationUnit) : List Input → List Input
  | []              => []
  | input :: inputs =>
    match u.addInput input with
    | (u, none)   => input :: accepted u inputs
    | (u, some _) => accepted u inputs

/-! ### Units in step -/

/-- An offset of a byte of the files, and its location. -/
structure Locates (fs : SourceFiles) (p : Int) (l : Location) : Prop where
  nonneg : 0 ≤ p
  lt : p < fs.length
  at?_eq : fs.at? p = some l

/-- The second unit has the tokens of the first one at other offsets, where the locations are the
same. -/
structure Mirrors (f : Int → Int) (u v : CompilationUnit) : Prop where
  unknown : f (-1) = -1
  tokens_eq : v.tokens = u.tokens.map (Token.relocate f)
  increasing : Grammar.Increasing u.tokens
  located : ∀ t ∈ u.tokens, ∃ l, Locates u.files t.pos l ∧ Locates v.files (f t.pos) l

variable {f : Int → Int} {u v : CompilationUnit} {path text : Text} {ts : List Token}

lemma Locates.add {fs : SourceFiles} {p : Int} {l : Location} (h : Locates fs p l)
    (path text : Text) : Locates (fs.add path text) p l := by
  refine ⟨h.nonneg, ?_, ?_⟩
  · rw [SourceFiles.length_add]
    push_cast
    exact lt_of_lt_of_le h.lt (by omega)
  · rw [SourceFiles.at?_add_of_lt path text h.nonneg h.lt, h.at?_eq]

lemma locates_add (fs : SourceFiles) (path : Text) {k : Nat} (hk : k < text.length) :
    Locates (fs.add path text) (k + fs.length) (.ofByte path text k) := by
  refine ⟨by omega, ?_, fs.at?_add path hk.le⟩
  rw [SourceFiles.length_add]
  push_cast
  omega

/-- A file that adds no tokens to the first unit need not be added to the second one. -/
lemma Mirrors.refuse (h : Mirrors f u v) (path text : Text) :
    Mirrors f ⟨u.files.add path text, u.tokens⟩ v := by
  refine ⟨h.unknown, h.tokens_eq, h.increasing, ?_⟩
  intro t ht
  obtain ⟨l, hu, hv⟩ := h.located t ht
  exact ⟨l, hu.add path text, hv⟩

/-- Offsets move as before up to the end of the files that are there, and behind it as far as this
end has moved. -/
def moveBehind (f : Int → Int) (stop stop' : Nat) (p : Int) : Int :=
  if p < stop then f p else p - stop + stop'

lemma moveBehind_of_lt {stop stop' : Nat} {p : Int} (h : p < stop) :
    moveBehind f stop stop' p = f p := if_pos h

lemma moveBehind_add {stop stop' k : Nat} : moveBehind f stop stop' (k + stop) = k + stop' := by
  rw [moveBehind, if_neg (by omega)]
  omega

/-- The tokens of a file stand at bytes of it. -/
lemma exists_pos_of_tokens (ht : Lexer.tokens text 0 = .ok ts) {t : Token} (h : t ∈ ts) :
    ∃ k, k < text.length ∧ t.pos = (k : Nat) := by
  obtain ⟨k, hk, hp⟩ := exists_byte_of_tokens (o := 0) ht h
  exact ⟨k, hk, by simpa using hp⟩

/-- A file that adds its tokens to the first unit adds them to the second one. -/
lemma Mirrors.accept (h : Mirrors f u v) (path : Text) (ht : Lexer.tokens text 0 = .ok ts) :
    Mirrors (moveBehind f u.files.length v.files.length)
      ⟨u.files.add path text, u.tokens ++ ts.map (Token.relocate (· + (u.files.length : Int)))⟩
      ⟨v.files.add path text, v.tokens ++ ts.map (Token.relocate (· + (v.files.length : Int)))⟩
    where
  unknown := by
    rw [moveBehind_of_lt (by omega), h.unknown]
  -- old tokens keep their places, those of the file move with it
  tokens_eq := by
    simp only [List.map_append, h.tokens_eq, List.map_map]
    congr 1
    · apply List.map_congr_left
      intro t hmem
      obtain ⟨l, hu, -⟩ := h.located t hmem
      rw [Token.relocate, Token.relocate, moveBehind_of_lt hu.lt]
    · apply List.map_congr_left
      intro t hmem
      obtain ⟨k, -, hp⟩ := exists_pos_of_tokens ht hmem
      simp only [Function.comp_apply, Token.relocate, hp, moveBehind_add]
  -- every place of the old tokens is below the length at which the file begins
  increasing := by
    refine List.pairwise_append.2 ⟨h.increasing, ?_, ?_⟩
    · refine List.pairwise_map.2 ((Lexer.pos_of_tokens ht).1.imp ?_)
      intro a b hab
      simpa using hab
    · intro a ha b hb
      obtain ⟨l, hu, -⟩ := h.located a ha
      obtain ⟨t, hmem, rfl⟩ := List.mem_map.1 hb
      obtain ⟨k, -, hp⟩ := exists_pos_of_tokens ht hmem
      rw [Token.pos_relocate, hp]
      exact lt_of_lt_of_le hu.lt (by omega)
  located := by
    intro t hmem
    rcases List.mem_append.1 hmem with hold | hnew
    · obtain ⟨l, hu, hv⟩ := h.located t hold
      refine ⟨l, hu.add path text, ?_⟩
      rw [moveBehind_of_lt hu.lt]
      exact hv.add path text
    · obtain ⟨t, ht', rfl⟩ := List.mem_map.1 hnew
      obtain ⟨k, hk, hp⟩ := exists_pos_of_tokens ht ht'
      refine ⟨.ofByte path text k, ?_, ?_⟩
      · rw [Token.pos_relocate, hp]
        exact locates_add u.files path hk
      · rw [Token.pos_relocate, hp, moveBehind_add]
        exact locates_add v.files path hk

/-- Whether a file is refused does not depend on what was added before it. One that is refused is
left out of the second unit, and one that is not is added to both. -/
lemma Mirrors.addInput (h : Mirrors f u v) (input : Input) :
    (∀ e, (u.addInput input).2 = some e → Mirrors f (u.addInput input).1 v) ∧
      ((u.addInput input).2 = none → ∃ g, Mirrors g (u.addInput input).1 (v.addInput input).1) := by
  obtain ⟨path, content⟩ := input
  cases content with
  | error e =>
    refine ⟨fun _ _ => h, ?_⟩
    intro hn
    cases hn
  | ok text =>
    simp only [CompilationUnit.addInput, CompilationUnit.add]
    cases ht : Lexer.tokens text u.files.length with
    | error e =>
      refine ⟨fun _ _ => h.refuse path text, ?_⟩
      intro hn
      cases hn
    | ok ts =>
      refine ⟨?_, fun _ => ?_⟩
      · intro e he
        cases he
      obtain ⟨us, hus, rfl⟩ := Lexer.exists_tokens_of_offset ht
      rw [Lexer.tokens_of_zero hus]
      exact ⟨_, h.accept path hus⟩

/-- The units with and without the files that are refused stay in step. -/
theorem exists_mirrors (inputs : List Input) (h : Mirrors f u v) :
    ∃ g, Mirrors g (addAll u inputs) (addAll v (accepted u inputs)) := by
  induction inputs generalizing f u v with
  | nil => exact ⟨f, h⟩
  | cons input inputs ih =>
    obtain ⟨hrefuse, haccept⟩ := h.addInput input
    rw [accepted]
    rcases hr : u.addInput input with ⟨u', _ | e⟩
    · obtain ⟨g, hg⟩ := haccept (by rw [hr])
      rw [hr] at hg
      simpa [addAll, hr] using ih hg
    · have hg := hrefuse e (by rw [hr])
      rw [hr] at hg
      simpa [addAll, hr] using ih hg

/-! ### Parsing units in step -/

section Parsing

variable {prec : Precedence}

/-- Nodes have the same locations in units that are in step. -/
lemma Mirrors.at?_start (h : Mirrors f u v) {m : Module}
    (hm : Frontend.parse prec u.tokens = .ok m) {n : Node} (hn : m.toNode.Holds n) :
    v.files.at? (n.relocate f).start = u.files.at? n.start := by
  rw [Node.start_relocate]
  rcases exists_start_of_parse h.increasing hm hn with ⟨t, ht, hp⟩ | hp
  · obtain ⟨l, hu, hv⟩ := h.located t ht
    rw [hp, hu.at?_eq, hv.at?_eq]
  · rw [hp, h.unknown, SourceFiles.at?_unknown, SourceFiles.at?_unknown]

lemma Mirrors.exists_parse (h : Mirrors f u v) {m : Module} (hm : u.parse prec = .ok m) :
    ∃ m', v.parse prec = .ok m' ∧ m'.toNode = m.toNode.relocate f ∧
      m'.defs.map Definition.erase = m.defs.map Definition.erase := by
  rw [parse_eq_ok] at hm
  have hv := Grammar.parse_map_relocate prec h.unknown u.tokens
  rw [← h.tokens_eq, hm] at hv
  refine ⟨_, parse_eq_ok.2 hv, ?_, ?_⟩
  · rw [Module.toNode, Module.toNode, Node.relocate, h.tokens_eq, Span.ofTokens_map h.unknown,
      ← Grammar.span_of_parse hm]
    simp [Definition.toNode_relocate, Function.comp_def]
  · simp [Definition.erase_relocate, Function.comp_def]

lemma Mirrors.exists_failure (h : Mirrors f u v) {e : Failure} (he : u.parse prec = .error e) :
    ∃ e' kind, v.parse prec = .error e' ∧ e.kind? = some kind ∧ e'.kind? = some kind ∧
      e.isLocated = true ∧ e'.isLocated = true ∧ e'.message = e.message := by
  cases hp : Frontend.parse prec u.tokens with
  | ok m => simp [CompilationUnit.parse, hp] at he
  | error err =>
    have hv := Grammar.parse_map_relocate prec h.unknown u.tokens
    rw [← h.tokens_eq, hp] at hv
    obtain ⟨t, ht, hpos⟩ := Grammar.exists_token_of_parse_error hp
    obtain ⟨l, hu, hl⟩ := h.located t ht
    rw [hpos] at hu hl
    rw [parse_mk_of_error u.files hp, SourceFiles.locate_eq rfl hu.nonneg hu.at?_eq] at he
    obtain rfl := Except.error.inj he
    refine ⟨_, err.cause.kind, parse_mk_of_error v.files hv, rfl, ?_⟩
    rw [SourceFiles.locate_eq (p := f err.pos) rfl hl.nonneg hl.at?_eq]
    exact ⟨rfl, rfl, rfl, rfl⟩

end Parsing

/-- A file that is refused leaves no trace. With and without the files that are refused, a unit is
parsed as the same tree but for its offsets, each node of which has the same location; or it is
refused for the same reason, with the same message. -/
theorem parse_accepted (prec : Precedence) (inputs : List Input) :
    (∃ m m' f, (addAll {} inputs).parse prec = .ok m ∧
      (addAll {} (accepted {} inputs)).parse prec = .ok m' ∧
      m'.defs.map Definition.erase = m.defs.map Definition.erase ∧
      m'.toNode = m.toNode.relocate f ∧
      ∀ n, m.toNode.Holds n → (addAll {} (accepted {} inputs)).files.at? (n.relocate f).start =
        (addAll {} inputs).files.at? n.start) ∨
    ∃ e e' kind, (addAll {} inputs).parse prec = .error e ∧
      (addAll {} (accepted {} inputs)).parse prec = .error e' ∧ e.kind? = some kind ∧
      e'.kind? = some kind ∧ e.isLocated = true ∧ e'.isLocated = true ∧
      e'.message = e.message := by
  have hstart : Mirrors id {} {} := ⟨rfl, rfl, .nil, nofun⟩
  obtain ⟨f, h⟩ := exists_mirrors inputs hstart
  cases hp : (addAll {} inputs).parse prec with
  | ok m =>
    obtain ⟨m', hm', hn, hd⟩ := h.exists_parse hp
    exact .inl ⟨m, m', f, rfl, hm', hd, hn, fun n => h.at?_start (parse_eq_ok.1 hp)⟩
  | error e =>
    obtain ⟨e', kind, hrest⟩ := h.exists_failure hp
    exact .inr ⟨e, e', kind, rfl, hrest⟩

end CompilationUnit

end Frontend
