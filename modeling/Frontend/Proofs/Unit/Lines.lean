import Frontend.Proofs.Unit.Sources

/-!
# Texts cut at line ends

No token reaches across the end of a line, so a text may be cut there and its parts lexed one after
the other. What goes on behind a line feed changes no piece in front of it, and a place where
nothing can be cut off stays such a place, though the reason can become another one: a literal that
a backslash at the end of the line leaves open is looked for in the next line.

With that, files that end with a line feed make the same stream of tokens as one file that holds
all of them.
-/

namespace Frontend

namespace Lexer

/-- A text is empty or ends with a line feed. -/
def EndsLine (t : Text) : Prop := t = [] ∨ [0x0A] <:+ t

variable {a b p t u rest : Text} {kind : Option Kind} {ls : List Lexeme} {o : Int}

lemma EndsLine.append (ht : EndsLine t) (hu : EndsLine u) : EndsLine (t ++ u) := by
  rcases hu with rfl | hu
  · rw [List.append_nil]
    exact ht
  · exact .inr (hu.trans (List.suffix_append t u))

lemma EndsLine.of_append (h : EndsLine (t ++ u)) : EndsLine u := by
  by_cases hu : u = []
  · exact .inl hu
  · rcases h with h | h
    · exact absurd (List.append_eq_nil_iff.1 h).2 hu
    · have hlen : ([0x0A] : Text).length ≤ u.length := List.length_pos_of_ne_nil hu
      exact .inr (List.suffix_of_suffix_length_le h (List.suffix_append t u) hlen)

lemma EndsLine.mem (h : EndsLine t) (ht : t ≠ []) : 0x0A ∈ t := by
  rcases h with h | h
  · exact absurd h ht
  · exact h.subset List.mem_cons_self

/-! ### Pieces in front of more text -/

lemma stops_of_append {f : UInt8 → Bool} (h : Stops f (u ++ b)) : Stops f u := by
  cases u with
  | nil => simp [Stops]
  | cons c u => exact h

/-- Text behind the byte that follows a piece does not matter to the piece. -/
lemma Spells.append (h : Spells p kind u) (hu : u ≠ []) (b : Text) : Spells p kind (u ++ b) := by
  cases h with
  | newline => exact .newline _
  | space hne hp hr => exact .space hne hp (stops_append hr hu b)
  | comment hp hr => exact .comment hp (stops_append hr hu b)
  | keyword hp hr => exact .keyword hp (stops_append hr hu b)
  | constant hp hr => exact .constant hp (stops_append hr hu b)
  | identifier hp hr => exact .identifier hp (stops_append hr hu b)
  | number hne hp hv hr => exact .number hne hp hv (stops_append hr hu b)
  | string _ hn hb => exact .string _ hn hb
  | arrow => exact .arrow _
  | punctuation _ hb => exact .punctuation _ hb
  | operator hb hr =>
    refine .operator hb ?_
    rwa [List.head?_append_of_ne_nil u hu]

/-- A piece in front of some text is one in front of less of it. -/
lemma Spells.of_append (h : Spells p kind (u ++ b)) : Spells p kind u := by
  cases h with
  | newline => exact .newline _
  | space hne hp hr => exact .space hne hp (stops_of_append hr)
  | comment hp hr => exact .comment hp (stops_of_append hr)
  | keyword hp hr => exact .keyword hp (stops_of_append hr)
  | constant hp hr => exact .constant hp (stops_of_append hr)
  | identifier hp hr => exact .identifier hp (stops_of_append hr)
  | number hne hp hv hr => exact .number hne hp hv (stops_of_append hr)
  | string _ hn hb => exact .string _ hn hb
  | arrow => exact .arrow _
  | punctuation _ hb => exact .punctuation _ hb
  | operator hb hr =>
    refine .operator hb ?_
    rintro ⟨hc, hu⟩
    exact hr ⟨hc, by rw [List.head?_append, hu, Option.some_or]⟩

lemma not_isWord_of_mem (h : 0x0A ∈ p) : ¬isWord p = true := by
  intro hw
  have hbyte := isWordByte_of_isWord hw _ h
  revert hbyte
  decide

/-- A line feed is part of no piece but its own. -/
lemma Spells.eq_newline (h : Spells p kind rest) (hp : 0x0A ∈ p) :
    p = [0x0A] ∧ kind = some .newline := by
  cases h with
  -- a line feed is neither blank nor in a word or a number, and it ends comments
  | newline => exact ⟨rfl, rfl⟩
  | space _ hall => exact absurd (hall _ hp) (by decide)
  | comment hall =>
    rcases List.mem_cons.1 hp with h | h
    · exact absurd h (by decide)
    · exact absurd rfl (hall _ h)
  | keyword hk => exact absurd (forall_mem_keywords _ hk).1 (not_isWord_of_mem hp)
  | constant hc => exact absurd (Bool.and_eq_true_iff.1 hc).1 (not_isWord_of_mem hp)
  | identifier hi =>
    simp only [isIdentifier, Bool.and_eq_true] at hi
    exact absurd hi.1.1 (not_isWord_of_mem hp)
  | number _ hall => exact absurd (hall _ hp) (by decide)
  | string _ hn =>
    simp only [List.mem_cons, List.mem_append, List.not_mem_nil, or_false] at hp
    rcases hp with h | h | h
    · exact absurd h (by decide)
    · exact absurd rfl (hn _ h)
    · exact absurd h (by decide)
  -- it is no sign of its own
  | arrow => exact absurd hp (by decide)
  | punctuation _ hb =>
    obtain rfl := List.mem_singleton.1 hp
    have hc : ByteClass.newline = .punctuation _ := classOf_punctuation hb
    cases hc
  | operator hb =>
    obtain rfl := List.mem_singleton.1 hp
    have hc : ByteClass.newline = .operator := classOf_operator hb
    cases hc

/-! ### Lines -/

/-- Pieces that end with a line are the same in front of more text. -/
lemma Cut.append_right (h : Cut a ls rest) (ha : EndsLine a) (b : Text) :
    Cut (a ++ b) ls (rest ++ b) := by
  induction h with
  | nil => exact .nil _
  | @cons p u rest kind ls hp _ ih =>
    rw [List.append_assoc]
    refine .cons ?_ (ih ha.of_append)
    by_cases hu : u = []
    · subst hu
      rw [List.append_nil] at ha
      obtain ⟨rfl, rfl⟩ := hp.eq_newline (ha.mem (ne_nil_of_spells hp))
      exact .newline _
    · exact hp.append hu b

/-- Where no piece can be cut off in front of the end of a line, none can be with more text. -/
lemma Stuck.append (h : Stuck t) (ht : EndsLine t) (b : Text) : Stuck (t ++ b) := by
  refine ⟨List.append_ne_nil_of_left_ne_nil h.1 b, ?_⟩
  intro p kind v he hp
  rcases List.append_eq_append_iff.1 he with ⟨w, rfl, rfl⟩ | ⟨w, rfl, rfl⟩
  · -- the piece would reach over the line feed, so it would be the line feed
    obtain ⟨hw, rfl⟩ := hp.eq_newline (List.mem_append_left w (ht.mem h.1))
    obtain ⟨c, t, rfl⟩ := List.exists_cons_of_ne_nil h.1
    obtain ⟨rfl, hnil⟩ := List.cons.inj hw
    exact h.2 [0x0A] (some .newline) t rfl (.newline t)
  · exact h.2 p kind w rfl hp.of_append

/-- A text behind the end of a line is lexed as if it stood alone. -/
theorem tokens_append_of_ok {us : List Token} (ha : EndsLine a) (h : tokens a o = .ok us)
    (b : Text) : tokens (a ++ b) o = (tokens b (o + a.length)).map (us ++ ·) := by
  obtain ⟨ls, hc, rfl⟩ := exists_cut_of_tokens h
  have hsource : source ls = a := by rw [hc.source_eq, List.append_nil]
  rw [tokens_of_cut (hc.append_right ha b), hsource, List.nil_append]

/-- An error in front of the end of a line is at the same place with more text. -/
theorem tokens_append_of_error {e : LexError} (ha : EndsLine a) (h : tokens a o = .error e)
    (b : Text) : ∃ cause, tokens (a ++ b) o = .error ⟨cause, e.pos⟩ := by
  obtain ⟨ls, rest, hc, rfl | hr⟩ := exists_cut a
  · rw [tokens_of_cut_nil hc] at h
    cases h
  · have hrest : EndsLine rest := by
      rw [hc.source_eq] at ha
      exact ha.of_append
    obtain ⟨cause, he⟩ := tokens_of_stuck hr (o + (source ls).length)
    obtain ⟨cause', he'⟩ := tokens_of_stuck (hr.append hrest b) (o + (source ls).length)
    rw [tokens_of_cut hc, he] at h
    obtain rfl := Except.error.inj h
    exact ⟨cause', by rw [tokens_of_cut (hc.append_right ha b), he']; rfl⟩

end Lexer

/-! ### Files that end with a line -/

lemma SourceFiles.root_locate (fs : SourceFiles) (failure : Failure) :
    (fs.locate failure).root = failure.root := by
  rw [locate]
  split
  · rfl
  · split
    · rfl
    · split <;> rfl

lemma SourceFiles.offset?_locate (fs : SourceFiles) (failure : Failure) :
    (fs.locate failure).offset? = failure.offset? := by
  rw [Failure.offset?, root_locate, Failure.offset?]

namespace CompilationUnit

open Lexer (EndsLine)

variable {u : CompilationUnit} {file : Text × Text} {files : List (Text × Text)}

lemma extend_of_ok {ts : List Token} (h : Lexer.tokens file.2 u.files.length = .ok ts) :
    u.extend file = .ok ⟨u.files.add file.1 file.2, u.tokens ++ ts⟩ := by
  rw [extend, add, h]

lemma extend_of_error {e : LexError} (h : Lexer.tokens file.2 u.files.length = .error e) :
    ∃ failure, u.extend file = .error failure ∧ failure.offset? = some e.pos := by
  refine ⟨(u.files.add file.1 file.2).locate e.toFailure, ?_, SourceFiles.offset?_locate _ _⟩
  rw [extend, add, h]

/-- A tree, or an error apart from its location, depends only on the tokens of a unit. -/
lemma mapError_parse (u : CompilationUnit) (prec : Precedence) :
    (u.parse prec).mapError Failure.root =
      (Frontend.parse prec u.tokens).mapError SyntaxError.toFailure := by
  rw [parse]
  cases Frontend.parse prec u.tokens with
  | ok m => rfl
  | error e => exact congrArg Except.error (u.files.root_locate e.toFailure)

lemma endsLine_source (hf : ∀ file ∈ files, EndsLine file.2) : EndsLine (source files) := by
  induction files with
  | nil => exact .inl rfl
  | cons file files ih =>
    rw [List.forall_mem_cons] at hf
    exact hf.1.append (ih hf.2)

/-- The answer to adding files and the answer of the lexer to a text are the same tokens, or errors
at the same offset. -/
inductive SameStream : Except Failure CompilationUnit → Except LexError (List Token) → Prop
  | ok (u : CompilationUnit) : SameStream (.ok u) (.ok u.tokens)
  | error {failure : Failure} {e : LexError} (h : failure.offset? = some e.pos) :
      SameStream (.error failure) (.error e)

lemma SameStream.exists_ok {stream : Except LexError (List Token)}
    {answer : Except Failure CompilationUnit} (h : SameStream (.ok u) stream)
    (h' : SameStream answer stream) : ∃ v, answer = .ok v ∧ v.tokens = u.tokens := by
  cases h
  generalize hts : u.tokens = ts at h' ⊢
  cases h' with
  | ok v => exact ⟨v, rfl, rfl⟩

lemma SameStream.exists_error {failure : Failure} {stream : Except LexError (List Token)}
    {answer : Except Failure CompilationUnit} (h : SameStream (.error failure) stream)
    (h' : SameStream answer stream) :
    ∃ failure', answer = .error failure' ∧ failure'.offset? = failure.offset? := by
  cases h with
  | error hoff =>
    cases h' with
    | error hoff' => exact ⟨_, rfl, hoff'.trans hoff.symm⟩

/-- One more file adds the tokens that its text has at the end of the source. -/
lemma sameStream_extend (u : CompilationUnit) (file : Text × Text) :
    SameStream (u.extend file) ((Lexer.tokens file.2 u.files.length).map (u.tokens ++ ·)) := by
  cases h : Lexer.tokens file.2 u.files.length with
  | ok ts =>
    rw [extend_of_ok h]
    exact .ok _
  | error e =>
    obtain ⟨failure, he, hoff⟩ := extend_of_error h
    rw [he]
    exact .error hoff

lemma sameStream_singleton (path text : Text) :
    SameStream (ofFiles [(path, text)]) (Lexer.tokens text 0) := by
  have h := sameStream_extend {} (path, text)
  rw [ofFiles, List.foldlM_cons]
  simp only [List.foldlM_nil, bind_pure]
  have hid : (Lexer.tokens text 0).map ([] ++ ·) = Lexer.tokens text 0 := by
    cases Lexer.tokens text 0 <;> rfl
  rw [← hid]
  exact h

/-- Files that end with a line are lexed like their source. -/
theorem sameStream_ofFiles (hf : ∀ file ∈ files, EndsLine file.2) :
    SameStream (ofFiles files) (Lexer.tokens (source files) 0) := by
  induction files using List.reverseRecOn with
  | nil =>
    have h : Lexer.tokens (source []) 0 = .ok [] := by rw [source, List.flatMap_nil, Lexer.tokens]
    rw [h]
    exact .ok {}
  | append_singleton files file ih =>
    have hfiles : ∀ f ∈ files, EndsLine f.2 := by
      intro f hmem
      exact hf f (List.mem_append_left _ hmem)
    have hsource : source (files ++ [file]) = source files ++ file.2 := by
      rw [source_append]
      exact congrArg (source files ++ ·) (List.append_nil file.2)
    have hends := endsLine_source hfiles
    rw [hsource, ofFiles, List.foldlM_append, ← ofFiles]
    simp only [List.foldlM_cons, List.foldlM_nil, bind_pure]
    have hsame := ih hfiles
    generalize hu : ofFiles files = answer at hsame ⊢
    generalize ht : Lexer.tokens (source files) 0 = stream at hsame
    -- the last file is lexed behind a source that ends with a line
    cases hsame with
    | ok u =>
      rw [Lexer.tokens_append_of_ok hends ht, zero_add, ← length_files_of_ofFiles hu]
      exact sameStream_extend u file
    | error hoff =>
      obtain ⟨cause, he⟩ := Lexer.tokens_append_of_error hends ht file.2
      rw [he]
      exact .error hoff

/-- Lines are lexed independently. A text behind the end of a line is lexed as if it stood alone,
and the first error of the two texts stays where it is. Files that end with a line can therefore be
put together to one file: it has the same tokens and the same tree, or is refused at the same
offset. -/
theorem ofFiles_source {a : Text} (ha : EndsLine a) (b : Text) (o : Int)
    (hf : ∀ file ∈ files, EndsLine file.2) (path : Text) :
    (∀ ts, Lexer.tokens (a ++ b) o = .ok ts ↔ ∃ us vs, Lexer.tokens a o = .ok us ∧
        Lexer.tokens b (o + a.length) = .ok vs ∧ ts = us ++ vs) ∧
      (∀ e, Lexer.tokens a o = .error e →
        ∃ cause, Lexer.tokens (a ++ b) o = .error ⟨cause, e.pos⟩) ∧
      (∀ us e, Lexer.tokens a o = .ok us → Lexer.tokens b (o + a.length) = .error e →
        Lexer.tokens (a ++ b) o = .error e) ∧
      (∀ u, ofFiles files = .ok u → ∃ v, ofFiles [(path, source files)] = .ok v ∧
        v.tokens = u.tokens ∧
        ∀ prec, (v.parse prec).mapError Failure.root = (u.parse prec).mapError Failure.root) ∧
      ∀ failure, ofFiles files = .error failure →
        ∃ failure', ofFiles [(path, source files)] = .error failure' ∧
          failure'.offset? = failure.offset? := by
  have hall := sameStream_ofFiles hf
  have hone := sameStream_singleton path (source files)
  refine ⟨?_, ?_, ?_, ?_, ?_⟩
  · intro ts
    cases hus : Lexer.tokens a o with
    | ok us =>
      rw [Lexer.tokens_append_of_ok ha hus b]
      cases hvs : Lexer.tokens b (o + a.length) with
      | ok vs => simp [Except.map, eq_comm]
      | error e => simp [Except.map]
    | error e =>
      obtain ⟨cause, he⟩ := Lexer.tokens_append_of_error ha hus b
      simp [he]
  · intro e he
    exact Lexer.tokens_append_of_error ha he b
  · intro us e hus he
    rw [Lexer.tokens_append_of_ok ha hus b, he]
    rfl
  · intro u hu
    rw [hu] at hall
    obtain ⟨v, hv, htokens⟩ := hall.exists_ok hone
    refine ⟨v, hv, htokens, ?_⟩
    intro prec
    rw [mapError_parse, mapError_parse, htokens]
  · intro failure he
    rw [he] at hall
    exact hall.exists_error hone

/-- A literal that is left open behind a backslash at the end of its line, and a definition that
goes on in the next file, with a comment at the cut and an empty file behind it. -/
theorem ofFiles_source_split : ∃ a b path files,
    a = Text.ofString "x \"q\\\n" ∧ b = Text.ofString "\"y" ∧ path = Text.ofString "c" ∧
    files = [(Text.ofString "a", Text.ofString "def f # \"\n"),
      (Text.ofString "b", Text.ofString " g(1,\n 2)\nend\n"), (path, [])] ∧
    EndsLine a ∧ (∀ file ∈ files, EndsLine file.2) ∧
    (∃ e cause, Lexer.tokens a 7 = .error e ∧ e = ⟨.unterminated, 9⟩ ∧
      Lexer.tokens (a ++ b) 7 = .error ⟨cause, e.pos⟩ ∧ cause ≠ e.cause) ∧
    ∃ u v m, ofFiles files = .ok u ∧ u.parse .builtin = .ok m ∧
      ofFiles [(path, source files)] = .ok v ∧ v.tokens = u.tokens ∧ v.parse .builtin = .ok m := by
  obtain ⟨a, h₁⟩ : ∃ a, a = Text.ofString "x \"q\\\n" := ⟨_, rfl⟩
  obtain ⟨b, h₂⟩ : ∃ b, b = Text.ofString "\"y" := ⟨_, rfl⟩
  obtain ⟨path, h₃⟩ : ∃ path, path = Text.ofString "c" := ⟨_, rfl⟩
  obtain ⟨files, h₄⟩ : ∃ files, files = [(Text.ofString "a", Text.ofString "def f # \"\n"),
    (Text.ofString "b", Text.ofString " g(1,\n 2)\nend\n"), (path, [])] := ⟨_, rfl⟩
  have ha : EndsLine a := .inr (by subst h₁; decide)
  have hf : ∀ file ∈ files, EndsLine file.2 := by
    subst h₄
    simp only [List.forall_mem_cons]
    exact ⟨.inr (by decide), .inr (by decide), .inl rfl, by simp⟩
  -- the error of the first text alone has another cause
  obtain ⟨e, he, hopen⟩ : ∃ e, Lexer.tokens a 7 = .error e ∧ e = ⟨.unterminated, 9⟩ := by
    subst h₁
    exact ⟨_, by cbv, rfl⟩
  obtain ⟨e', he', hclosed⟩ : ∃ e', Lexer.tokens (a ++ b) 7 = .error e' ∧
      e'.cause ≠ .unterminated := by
    subst h₁ h₂
    exact ⟨_, by cbv, by decide⟩
  -- the files, and the one file they are put together to
  obtain ⟨u, hu, m, hm⟩ : ∃ u, ofFiles files = .ok u ∧ ∃ m, u.parse .builtin = .ok m := by
    subst h₃ h₄
    exact ⟨_, by cbv, _, by rfl⟩
  obtain ⟨-, hfirst, -, hall, -⟩ := ofFiles_source ha b 7 hf path
  obtain ⟨cause, hab⟩ := hfirst e he
  have hcause : cause ≠ e.cause := by
    rw [he'] at hab
    obtain rfl := Except.error.inj hab
    rw [hopen]
    exact hclosed
  obtain ⟨v, hv, htokens, -⟩ := hall u hu
  have hparse : v.parse .builtin = .ok m := by
    rw [parse_eq_ok, htokens]
    exact parse_eq_ok.1 hm
  exact ⟨a, b, path, files, h₁, h₂, h₃, h₄, ha, hf, ⟨e, cause, he, hopen, hab, hcause⟩,
    u, v, m, hu, hm, hv, htokens, hparse⟩

end CompilationUnit

end Frontend
