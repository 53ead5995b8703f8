import Frontend.Unit
import Frontend.Proofs.Parser.Concatenation
import Frontend.Proofs.Token.Lexemes
import Frontend.Proofs.Tree.Spans
import Frontend.Proofs.Unit.Locations

/-!
# Files of a unit

The files of a unit are parsed as one stream of tokens and share one range of offsets, and still
each of them is parsed as if it were alone. A file moves its tokens by its offset, and an offset in
the unit has the line and column that it has in its file.
-/

namespace Frontend

/-! ### Tokens at another offset -/

namespace Lexer

variable {text : Text} {ts : List Token}

lemma place_add (ls : List Lexeme) (pos o : Int) :
    place (pos + o) ls = (place pos ls).map (Token.relocate (· + o)) := by
  induction ls generalizing pos with
  | nil => rfl
  | cons l ls ih =>
    obtain ⟨p, kind⟩ := l
    have hpos : pos + o + p.length = pos + p.length + o := by omega
    cases kind with
    | none => rw [place, place, hpos, ih]
    | some kind => rw [place, place, hpos, ih, List.map_cons]; rfl

/-- The tokens of a text do not depend on its offset, but for their own. -/
lemma exists_tokens_of_offset {o : Int} (h : tokens text o = .ok ts) :
    ∃ us, tokens text 0 = .ok us ∧ ts = us.map (Token.relocate (· + o)) := by
  obtain ⟨ls, hc, rfl⟩ := exists_cut_of_tokens h
  refine ⟨place 0 ls, tokens_of_cut_nil hc 0, ?_⟩
  rw [← place_add, zero_add]

lemma Cut.source_eq {t rest : Text} {ls : List Lexeme} (h : Cut t ls rest) :
    t = source ls ++ rest := by
  induction h with
  | nil => rfl
  | cons _ _ ih => rw [source_cons, List.append_assoc, ← ih]

lemma pos_lt_of_mem_place {ls : List Lexeme} (h : ∀ l ∈ ls, l.text ≠ []) {pos : Int} :
    ∀ t ∈ place pos ls, t.pos < pos + (source ls).length := by
  induction ls generalizing pos with
  | nil => simp [place]
  | cons l ls ih =>
    obtain ⟨p, kind⟩ := l
    obtain ⟨hp, hls⟩ := List.forall_mem_cons.1 h
    have hlen := List.length_pos_of_ne_nil hp
    have hrest : ∀ t ∈ place (pos + p.length) ls,
        t.pos < pos + (source (⟨p, kind⟩ :: ls)).length := by
      intro t ht
      have hlt := ih hls t ht
      rw [source_cons, List.length_append]
      push_cast
      omega
    cases kind with
    | none => exact hrest
    | some kind =>
      refine List.forall_mem_cons.2 ⟨?_, hrest⟩
      rw [source_cons, List.length_append]
      push_cast
      simp only at hlen ⊢
      omega

/-- The tokens of a text stand at its bytes, one after the other. -/
lemma pos_of_tokens (h : tokens text 0 = .ok ts) :
    Grammar.Increasing ts ∧ ∀ t ∈ ts, 0 ≤ t.pos ∧ t.pos < text.length := by
  obtain ⟨ls, hc, rfl⟩ := exists_cut_of_tokens h
  refine ⟨pairwise_place hc.text_ne_nil 0, fun t ht => ⟨le_pos_of_mem_place t ht, ?_⟩⟩
  have hlt := pos_lt_of_mem_place hc.text_ne_nil t ht
  rw [hc.source_eq, List.append_nil]
  omega

end Lexer

/-! ### Trees at another offset -/

section

variable {f g : Int → Int} {good : Int → Prop}

lemma Node.Placed.relocate_congr {n : Node} (h : n.Placed good) (hfg : ∀ p, good p → f p = g p) :
    n.relocate f = n.relocate g := by
  induction h with
  | @mk n _ hs ht _ ih =>
    have hspan : n.span.relocate f = n.span.relocate g :=
      congrArg₂ Span.mk (hfg _ hs) (hfg _ ht)
    have hall : n.children.map (Node.relocate f) = n.children.map (Node.relocate g) :=
      List.map_congr_left ih
    cases n with
    | module | classBlock | traitBlock | implBlock | definition | call =>
      simp only [Node.span, Node.children] at hspan hall
      simp only [Node.relocate, relocateAll_eq_map, hspan, hall]
    | assign | binary | send =>
      simp only [Node.span, Node.children, List.map_cons, List.cons.injEq] at hspan hall
      simp only [Node.relocate, hspan, hall]
    | localVar | int | string | selfRef =>
      simp only [Node.span] at hspan
      simp only [Node.relocate, hspan]

lemma Definition.toNode_relocate (d : Definition) (f : Int → Int) :
    (d.relocate f).toNode = d.toNode.relocate f := by
  simp [Definition.toNode, Definition.relocate, Node.relocate]

lemma Definition.relocate_congr {d : Definition} (h : d.toNode.Placed good)
    (hfg : ∀ p, good p → f p = g p) : d.relocate f = d.relocate g := by
  have hnode : (d.relocate f).toNode = (d.relocate g).toNode := by
    rw [toNode_relocate, toNode_relocate, h.relocate_congr hfg]
  exact Option.some.inj (congrArg Node.toDefinition? hnode)

end

/-! ### Files alone -/

/-- The kind of error that a failure of the parser is about. -/
def Failure.kind? (failure : Failure) : Option ErrorKind :=
  match failure.root with
  | .parse kind _ _ => some kind
  | _               => none

namespace CompilationUnit

/-- Adds a file, given by its path and text, that must have no lexical error. -/
def extend (u : CompilationUnit) (file : Text × Text) : Except Failure CompilationUnit :=
  match u.add file.1 file.2 with
  | (u', none)  => .ok u'
  | (_, some e) => .error e

/-- The unit of some files. -/
def ofFiles (files : List (Text × Text)) : Except Failure CompilationUnit := files.foldlM extend {}

/-- The unit of a file alone. -/
def ofFile (file : Text × Text) : CompilationUnit := (({} : CompilationUnit).add file.1 file.2).1

variable {prec : Precedence} {u u' : CompilationUnit} {file : Text × Text} {ts : List Token}

/-- A file without lexical errors adds the tokens that it has alone, moved by its offset. -/
lemma exists_tokens_of_extend (h : u.extend file = .ok u') :
    ∃ ts, Lexer.tokens file.2 0 = .ok ts ∧ u' = ⟨u.files.add file.1 file.2,
      u.tokens ++ ts.map (Token.relocate (· + (u.files.length : Int)))⟩ := by
  rw [extend, add] at h
  cases ht : Lexer.tokens file.2 u.files.length with
  | error e => simp [ht] at h
  | ok ts =>
    obtain ⟨us, hus, rfl⟩ := Lexer.exists_tokens_of_offset ht
    simp only [ht, Except.ok.injEq] at h
    exact ⟨us, hus, h.symm⟩

lemma ofFile_of_tokens (h : Lexer.tokens file.2 0 = .ok ts) :
    ofFile file = ⟨SourceFiles.add {} file.1 file.2, ts⟩ := by
  have h' : Lexer.tokens file.2 (({} : CompilationUnit).files.length : Nat) = .ok ts := h
  rw [ofFile, add, h']
  rfl

/-- Moves the offsets of a file, which are not negative. -/
def shift (o : Nat) (p : Int) : Int := if p < 0 then p else p + o

lemma shift_of_nonneg {o : Nat} {p : Int} (h : 0 ≤ p) : shift o p = p + o := by
  rw [shift, if_neg (by omega)]

lemma map_shift (h : Lexer.tokens file.2 0 = .ok ts) (o : Nat) :
    ts.map (Token.relocate (· + (o : Int))) = ts.map (Token.relocate (shift o)) := by
  refine List.map_congr_left fun t ht => ?_
  have hp := ((Lexer.pos_of_tokens h).2 t ht).1
  rw [Token.relocate, Token.relocate, shift_of_nonneg hp]

/-- All offsets of the tree of a file are those of bytes of the file. -/
lemma placed_of_parse {m : Module} (h : Lexer.tokens file.2 0 = .ok ts)
    (hm : Frontend.parse prec ts = .ok m) :
    ∀ d ∈ m.defs, d.toNode.Placed fun p => 0 ≤ p ∧ p < file.2.length := by
  obtain ⟨hi, hb⟩ := Lexer.pos_of_tokens h
  have hlaid : Grammar.Laid (fun p => 0 ≤ p ∧ p < (file.2.length : Int)) ts :=
    ⟨hi, fun t ht _ => hb t ht⟩
  have hrow := (Grammar.reads_of_parse hm).row hlaid
  intro d hd
  exact hrow.placed _ (List.mem_map_of_mem hd)

/-- An error in a file is about a byte of the file. -/
lemma pos_of_parse_error {e : SyntaxError} (h : Lexer.tokens file.2 0 = .ok ts)
    (he : Frontend.parse prec ts = .error e) : 0 ≤ e.pos ∧ e.pos < file.2.length := by
  obtain ⟨t, ht, hp⟩ := Grammar.exists_token_of_parse_error he
  rw [← hp]
  exact (Lexer.pos_of_tokens h).2 t ht

/-! ### One more file -/

lemma parse_eq_ok {m : Module} : u.parse prec = .ok m ↔ Frontend.parse prec u.tokens = .ok m := by
  rw [parse]
  cases Frontend.parse prec u.tokens with
  | ok m' => simp only [Except.ok.injEq]
  | error e => simp only [reduceCtorEq]

lemma parse_mk_of_error {e : SyntaxError} (fs : SourceFiles)
    (h : Frontend.parse prec ts = .error e) :
    (CompilationUnit.mk fs ts).parse prec = .error (fs.locate e.toFailure) := by
  rw [parse, h]

lemma parse_ofFile_eq_ok (ht : Lexer.tokens file.2 0 = .ok ts) {m : Module} :
    (ofFile file).parse prec = .ok m ↔ Frontend.parse prec ts = .ok m := by
  rw [ofFile_of_tokens ht, parse_eq_ok]

/-- The tokens of a unit that is a module, with those of another file behind them. -/
lemma parse_tokens_append {m : Module} (hu : u.parse prec = .ok m)
    (ht : Lexer.tokens file.2 0 = .ok ts) : ∃ whole,
    Frontend.parse prec (u.tokens ++ ts.map (Token.relocate (· + (u.files.length : Int)))) =
      Grammar.joined whole m.defs (shift u.files.length) (Frontend.parse prec ts) := by
  rw [map_shift ht]
  exact ⟨_, Grammar.parse_append_relocate rfl (parse_eq_ok.1 hu)⟩

/-- A file that is parsed alone is parsed behind the files of a unit. -/
lemma exists_parse_of_extend {m m' : Module} (hu : u.parse prec = .ok m)
    (he : u.extend file = .ok u') (hf : (ofFile file).parse prec = .ok m') :
    ∃ whole, u'.parse prec = .ok whole ∧
      whole.defs = m.defs ++ m'.defs.map (Definition.relocate (· + (u.files.length : Int))) := by
  obtain ⟨ts, ht, rfl⟩ := exists_tokens_of_extend he
  obtain ⟨span, hp⟩ := parse_tokens_append hu ht
  rw [parse_ofFile_eq_ok ht] at hf
  rw [hf] at hp
  refine ⟨_, parse_eq_ok.2 hp, congrArg (m.defs ++ ·) (List.map_congr_left fun d hd => ?_)⟩
  exact Definition.relocate_congr (placed_of_parse ht hf d hd) fun p hp => shift_of_nonneg hp.1

/-- A failure at a byte of a file is located in it, whatever files are in front of it. -/
lemma locate_add (fs : SourceFiles) (path : Text) (cause : Cause) {text : Text} {p : Int}
    (h₀ : 0 ≤ p) (h : p < text.length) : ∃ l,
    (fs.add path text).locate (.parse cause.kind (p + fs.length) cause.message) =
        .located (some l) (.parse cause.kind (p + fs.length) cause.message) ∧
      (SourceFiles.add {} path text).locate (.parse cause.kind p cause.message) =
        .located (some l) (.parse cause.kind p cause.message) := by
  obtain ⟨l, hl, hl'⟩ := fs.at?_add_of_le path h₀ h
  refine ⟨l, ?_, ?_⟩
  · simp only [SourceFiles.locate, Failure.offset?, Failure.root]
    rw [if_neg (by omega), hl]
  · simp only [SourceFiles.locate, Failure.offset?, Failure.root]
    rw [if_neg (by omega), hl']

/-- A file that is refused alone is refused in the same way behind the files of a unit. -/
lemma exists_failure_of_extend {m : Module} {e : Failure} (hu : u.parse prec = .ok m)
    (he : u.extend file = .ok u') (hf : (ofFile file).parse prec = .error e) :
    ∃ e' kind, u'.parse prec = .error e' ∧ e.kind? = some kind ∧ e'.kind? = some kind ∧
      e.isLocated = true ∧ e'.message = e.message := by
  obtain ⟨ts, ht, rfl⟩ := exists_tokens_of_extend he
  obtain ⟨span, hp⟩ := parse_tokens_append hu ht
  rw [ofFile_of_tokens ht] at hf
  cases hr : Frontend.parse prec ts with
  | ok m' =>
    rw [parse, hr] at hf
    cases hf
  | error err =>
    rw [parse_mk_of_error _ hr] at hf
    obtain rfl := Except.error.inj hf
    rw [hr] at hp
    obtain ⟨h₀, h⟩ := pos_of_parse_error ht hr
    obtain ⟨l, hl, hl'⟩ := locate_add u.files file.1 err.cause h₀ h
    have hmoved : (err.relocate (shift u.files.length)).toFailure =
        .parse err.cause.kind (err.pos + u.files.length) err.cause.message := by
      rw [SyntaxError.toFailure, SyntaxError.relocate, shift_of_nonneg h₀]
    refine ⟨_, err.cause.kind, parse_mk_of_error _ hp, ?_⟩
    rw [hmoved, hl, SyntaxError.toFailure, hl']
    exact ⟨rfl, rfl, rfl, rfl⟩

/-! ### All files -/

/-- A file of a unit, and what it is in the unit: it is parsed alone as a module, and the location
of each of its definitions is the one that it has there. -/
structure SameAlone (prec : Precedence) (u : CompilationUnit) (file : Text × Text)
    (part : SourceFile × Module) : Prop where
  file_eq : part.1 = SourceFile.ofText file.1 part.1.offset file.2
  inside : part.1.offset + file.2.length ≤ u.files.length
  parses : (ofFile file).parse prec = .ok part.2
  starts : ∀ d ∈ part.2.defs, 0 ≤ d.start ∧ d.start < file.2.length
  located : ∀ d ∈ part.2.defs, ∃ l, u.files.at? (d.start + part.1.offset) = some l ∧
    (ofFile file).files.at? d.start = some l

/-- A module is put together from files of a unit that are parsed alone: its definitions are theirs,
one file after the other, moved by the offsets of the files. -/
def Joins (prec : Precedence) (u : CompilationUnit) (files : List (Text × Text)) (whole : Module) :
    Prop :=
  ∃ parts : List (SourceFile × Module), parts.map Prod.fst = u.files.files ∧
    List.Forall₂ (SameAlone prec u) files parts ∧
    whole.defs = parts.flatMap fun part =>
      part.2.defs.map (Definition.relocate (· + (part.1.offset : Int)))

/-- A file stays in the unit what it is alone when another file is added. -/
lemma SameAlone.extend {part : SourceFile × Module} {other : Text × Text}
    (h : SameAlone prec u file part) (he : u.extend other = .ok u') :
    SameAlone prec u' file part := by
  obtain ⟨ts, -, rfl⟩ := exists_tokens_of_extend he
  have hin := h.inside
  refine ⟨h.file_eq, ?_, h.parses, h.starts, fun d hd => ?_⟩
  · rw [SourceFiles.length_add]
    omega
  · obtain ⟨l, hl, hl'⟩ := h.located d hd
    obtain ⟨h₀, hlt⟩ := h.starts d hd
    refine ⟨l, ?_, hl'⟩
    rw [SourceFiles.at?_add_of_lt _ _ (by omega) (by omega), hl]

/-- The last file of a unit is in it what it is alone. -/
lemma sameAlone_of_extend {m : Module} (he : u.extend file = .ok u')
    (hf : (ofFile file).parse prec = .ok m) :
    SameAlone prec u' file (SourceFile.ofText file.1 u.files.length file.2, m) := by
  obtain ⟨ts, ht, rfl⟩ := exists_tokens_of_extend he
  have hm := (parse_ofFile_eq_ok ht).1 hf
  have hstart : ∀ d ∈ m.defs, 0 ≤ d.start ∧ d.start < file.2.length :=
    fun d hd => (placed_of_parse ht hm d hd).good_start
  refine ⟨rfl, ?_, hf, hstart, fun d hd => ?_⟩
  · rw [SourceFiles.length_add]
    rfl
  · rw [ofFile_of_tokens ht]
    exact u.files.at?_add_of_le file.1 (hstart d hd).1 (hstart d hd).2

lemma ofFiles_append_eq_ok {files : List (Text × Text)} :
    ofFiles (files ++ [file]) = .ok u' ↔ ∃ u, ofFiles files = .ok u ∧ u.extend file = .ok u' := by
  rw [ofFiles, List.foldlM_append, ← ofFiles]
  simp only [List.foldlM_cons, List.foldlM_nil, bind_pure]
  cases ofFiles files with
  | ok u => simp only [bind, Except.bind, Except.ok.injEq, exists_eq_left']
  | error e => simp [bind, Except.bind]

/-- Files that are modules alone are a module together. -/
theorem exists_joins {files : List (Text × Text)} (hu : ofFiles files = .ok u)
    (hf : ∀ file ∈ files, ∃ m, (ofFile file).parse prec = .ok m) :
    ∃ whole, u.parse prec = .ok whole ∧ Joins prec u files whole := by
  induction files using List.reverseRecOn generalizing u with
  | nil =>
    obtain rfl : {} = u := Except.ok.inj hu
    exact ⟨⟨.ofTokens [], []⟩, rfl, [], rfl, .nil, rfl⟩
  | append_singleton files last ih =>
    obtain ⟨u₀, hu₀, he⟩ := ofFiles_append_eq_ok.1 hu
    obtain ⟨m, hm, parts, hfiles, hparts, hdefs⟩ :=
      ih hu₀ fun file hfile => hf file (List.mem_append_left _ hfile)
    obtain ⟨m', hm'⟩ := hf last (by simp)
    obtain ⟨whole, hwhole, hall⟩ := exists_parse_of_extend hm he hm'
    refine ⟨whole, hwhole, parts ++ [(SourceFile.ofText last.1 u₀.files.length last.2, m')], ?_, ?_,
      ?_⟩
    · obtain ⟨ts, -, rfl⟩ := exists_tokens_of_extend he
      rw [List.map_append, hfiles]
      rfl
    · have hfirst : List.Forall₂ (SameAlone prec u) files parts :=
        hparts.imp fun _ _ h => h.extend he
      exact List.rel_append hfirst (.cons (sameAlone_of_extend he hm') .nil)
    · rw [hall, hdefs, List.flatMap_append, List.flatMap_singleton]
      rfl

/-- The files of a unit are independent. If all but the last one are modules alone, then the last
one decides: where it is a module alone, the unit is the module that is put together from all of
them, and where it is refused, the unit is refused for the same reason at the same place of the
file. -/
theorem parse_ofFiles {files : List (Text × Text)} {last : Text × Text}
    (hu : ofFiles (files ++ [last]) = .ok u)
    (hf : ∀ file ∈ files, ∃ m, (ofFile file).parse prec = .ok m) :
    (∀ m, (ofFile last).parse prec = .ok m →
      ∃ whole, u.parse prec = .ok whole ∧ Joins prec u (files ++ [last]) whole) ∧
    ∀ e, (ofFile last).parse prec = .error e →
      ∃ e' kind, u.parse prec = .error e' ∧ e.kind? = some kind ∧ e'.kind? = some kind ∧
        e.isLocated = true ∧ e'.message = e.message := by
  constructor
  · intro m hm
    refine exists_joins hu fun file hfile => ?_
    rcases List.mem_append.1 hfile with h | h
    · exact hf file h
    · rw [List.mem_singleton.1 h]
      exact ⟨m, hm⟩
  · intro e he
    obtain ⟨u₀, hu₀, hlast⟩ := ofFiles_append_eq_ok.1 hu
    obtain ⟨m, hm, -⟩ := exists_joins hu₀ hf
    exact exists_failure_of_extend hm hlast he

/-- A definition and an empty file in front of a class, and in front of a stray parenthesis. -/
theorem parse_ofFiles_three : ∃ files good bad,
    files = [(Text.ofString "a", Text.ofString "def f\n  1\nend\n\n"), (Text.ofString "b", [])] ∧
    good = (Text.ofString "c", Text.ofString "\nclass A\n def g\n  2\n end\nend") ∧
    bad = (Text.ofString "d", Text.ofString "def h\n  )") ∧
    (∀ file ∈ files, ∃ m, (ofFile file).parse .builtin = .ok m) ∧
    (∃ u m whole, ofFiles (files ++ [good]) = .ok u ∧ (ofFile good).parse .builtin = .ok m ∧
      u.parse .builtin = .ok whole ∧ Joins .builtin u (files ++ [good]) whole) ∧
    ∃ u e e', ofFiles (files ++ [bad]) = .ok u ∧ (ofFile bad).parse .builtin = .error e ∧
      e.message = Text.ofString "d:2.3: unknown expression" ∧ u.parse .builtin = .error e' ∧
      e'.message = e.message := by
  obtain ⟨files, h₁⟩ : ∃ files, files =
    [(Text.ofString "a", Text.ofString "def f\n  1\nend\n\n"), (Text.ofString "b", [])] := ⟨_, rfl⟩
  obtain ⟨good, h₂⟩ : ∃ good, good =
    (Text.ofString "c", Text.ofString "\nclass A\n def g\n  2\n end\nend") := ⟨_, rfl⟩
  obtain ⟨bad, h₃⟩ : ∃ bad, bad = (Text.ofString "d", Text.ofString "def h\n  )") := ⟨_, rfl⟩
  have alone : ∀ file ∈ good :: files, ∃ m, (ofFile file).parse .builtin = .ok m := by
    have key : ∀ file ∈ good :: files, ∃ ts, Lexer.tokens file.2 0 = .ok ts ∧
        ∃ m, Frontend.parse .builtin ts = .ok m := by
      subst h₁ h₂
      simp only [List.forall_mem_cons]
      exact ⟨⟨_, by cbv, _, by rfl⟩, ⟨_, by cbv, _, by rfl⟩, ⟨_, by cbv, _, by rfl⟩, nofun⟩
    intro file hfile
    obtain ⟨ts, ht, m, hm⟩ := key file hfile
    exact ⟨m, (parse_ofFile_eq_ok ht).2 hm⟩
  obtain ⟨⟨m, hgood⟩, hfiles⟩ := List.forall_mem_cons.1 alone
  obtain ⟨ts, ht, err, herr, hmsg⟩ : ∃ ts, Lexer.tokens bad.2 0 = .ok ts ∧
      ∃ err, Frontend.parse .builtin ts = .error err ∧
        ((SourceFiles.add {} bad.1 bad.2).locate err.toFailure).message =
          Text.ofString "d:2.3: unknown expression" := by
    subst h₃
    exact ⟨_, by cbv, _, by rfl, by cbv⟩
  have hbad := parse_mk_of_error (SourceFiles.add {} bad.1 bad.2) herr
  rw [← ofFile_of_tokens ht] at hbad
  -- the files in front of each of the other two are added with it
  obtain ⟨u, hu⟩ : ∃ u, ofFiles (files ++ [good]) = .ok u := by
    subst h₁ h₂
    exact ⟨_, by cbv⟩
  obtain ⟨v, hv⟩ : ∃ v, ofFiles (files ++ [bad]) = .ok v := by
    subst h₁ h₃
    exact ⟨_, by cbv⟩
  obtain ⟨whole, hw, hj⟩ := (parse_ofFiles hu hfiles).1 m hgood
  obtain ⟨e', -, he', -, -, -, hm⟩ := (parse_ofFiles hv hfiles).2 _ hbad
  exact ⟨files, good, bad, h₁, h₂, h₃, hfiles, ⟨u, m, whole, hu, hgood, hw, hj⟩,
    v, _, e', hv, hbad, hmsg, he', hm⟩

end CompilationUnit

end Frontend
