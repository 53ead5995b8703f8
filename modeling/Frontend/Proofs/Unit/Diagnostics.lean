import Frontend.Proofs.Unit.Independence

/-!
# Where failures are located

A unit is put together by a sequence of calls. Files can be refused on the way: one that cannot be
read leaves nothing behind, and one with a lexical error takes up its offsets and adds no tokens.
Whatever was called before, a failure of the lexer is located at the piece of the new file that
cannot be cut, and a failure of the parser at a byte of a file that was added in full.
-/

namespace Frontend

/-- Where the lexer fails, it has come to a place where no piece can be cut. -/
lemma Lexer.exists_stuck_of_tokens {text : Text} {o : Int} {e : LexError}
    (h : tokens text o = .error e) :
    ∃ ls rest, Cut text ls rest ∧ Stuck rest ∧ e.pos = o + (source ls).length := by
  obtain ⟨ls, rest, hc, rfl | hr⟩ := exists_cut text
  · rw [tokens_of_cut_nil hc] at h
    cases h
  · obtain ⟨cause, he⟩ := tokens_of_stuck hr (o + (source ls).length)
    rw [tokens_of_cut hc, he] at h
    obtain rfl := Except.error.inj h
    exact ⟨ls, rest, hc, hr, rfl⟩

lemma SourceFiles.locate_eq {fs : SourceFiles} {failure : Failure} {p : Int} {l : Location}
    (ho : failure.offset? = some p) (h₀ : 0 ≤ p) (h : fs.at? p = some l) :
    fs.locate failure = .located (some l) failure := by
  simp only [locate, ho, if_neg (not_lt.2 h₀), h]

namespace CompilationUnit

/-! ### Calls -/

/-- What can be asked of a unit. -/
inductive Call
  | add (input : Input)
  | parse

/-- The unit after a call, and the failure that the call returns. -/
def answer (prec : Precedence) (u : CompilationUnit) : Call → CompilationUnit × Option Failure
  | .add input => u.addInput input
  | .parse     =>
    match u.parse prec with
    | .ok _    => (u, none)
    | .error e => (u, some e)

/-- The unit after some calls, which starts without files. -/
def after (prec : Precedence) (calls : List Call) : CompilationUnit :=
  calls.foldl (fun u call => (u.answer prec call).1) {}

/-- How many bytes a call takes up in the range of offsets. -/
def Call.size : Call → Nat
  | .add ⟨_, .ok text⟩ => text.length
  | _                  => 0

/-- How many bytes some calls take up in the range of offsets. -/
def size (calls : List Call) : Nat := (calls.map Call.size).sum

/-- An offset is that of a byte of a file that was added without a failure. -/
def LiesIn (calls : List Call) (p : Int) (path text : Text) (k : Nat) : Prop :=
  ∃ before later ts, calls = before ++ .add ⟨path, .ok text⟩ :: later ∧
    Lexer.tokens text (size before) = .ok ts ∧ k < text.length ∧ p = size before + k

variable {prec : Precedence} {calls : List Call} {u : CompilationUnit} {path text : Text}

lemma after_append (call : Call) :
    after prec (calls ++ [call]) = ((after prec calls).answer prec call).1 := by
  rw [after, List.foldl_append]
  rfl

lemma size_append (before later : List Call) :
    size (before ++ later) = size before + size later := by
  rw [size, List.map_append, List.sum_append]
  rfl

lemma size_cons (call : Call) (later : List Call) : size (call :: later) = call.size + size later :=
  rfl

section LiesIn

variable {p : Int} {k : Nat}

lemma LiesIn.append (h : LiesIn calls p path text k) (call : Call) :
    LiesIn (calls ++ [call]) p path text k := by
  obtain ⟨before, later, ts, rfl, ht, hk, hp⟩ := h
  exact ⟨before, later ++ [call], ts, by simp, ht, hk, hp⟩

lemma LiesIn.bounds (h : LiesIn calls p path text k) : 0 ≤ p ∧ p < size calls := by
  obtain ⟨before, later, ts, rfl, -, hk, rfl⟩ := h
  rw [size_append, size_cons, Call.size]
  push_cast
  constructor <;> omega

/-- A file that starts later starts behind all bytes of an earlier one. -/
lemma lt_size_of_append {before later middle : List Call} {call : Call} {k : Nat}
    (hk : k < text.length) (h : .add ⟨path, .ok text⟩ :: later = middle ++ call :: before)
    (hm : middle ≠ []) : k < size middle := by
  obtain ⟨c, cs, rfl⟩ := List.exists_cons_of_ne_nil hm
  obtain ⟨rfl, -⟩ := List.cons.inj h
  rw [size_cons, Call.size]
  omega

/-- An offset lies in one file only. -/
lemma LiesIn.unique {path' text' : Text} {k' : Nat} (h : LiesIn calls p path text k)
    (h' : LiesIn calls p path' text' k') : path' = path ∧ text' = text ∧ k' = k := by
  obtain ⟨before, later, ts, he, -, hk, hp⟩ := h
  obtain ⟨before', later', ts', he', -, hk', hp'⟩ := h'
  -- the file that starts later would start behind the end of the earlier one
  have hsame : ∀ middle, middle ≠ [] → before' ≠ before ++ middle ∧ before ≠ before' ++ middle := by
    intro middle hm
    constructor
    · rintro rfl
      rw [he, List.append_assoc] at he'
      have := lt_size_of_append hk (List.append_cancel_left he') hm
      rw [size_append] at hp'
      omega
    · rintro rfl
      rw [he', List.append_assoc] at he
      have := lt_size_of_append hk' (List.append_cancel_left he) hm
      rw [size_append] at hp
      omega
  have heq : before' = before := by
    rcases List.append_eq_append_iff.1 (he.symm.trans he') with ⟨m, hm, -⟩ | ⟨m, hm, -⟩
    · by_contra hne
      refine (hsame m ?_).1 hm
      rintro rfl
      exact hne (by simpa using hm)
    · by_contra hne
      refine (hsame m ?_).2 hm
      rintro rfl
      exact hne (by simpa using hm.symm)
  subst heq
  rw [he] at he'
  have hcall := (List.cons.inj (List.append_cancel_left he')).1
  simp only [Call.add.injEq, Input.mk.injEq, Except.ok.injEq] at hcall
  exact ⟨hcall.1.symm, hcall.2.symm, by omega⟩

end LiesIn

/-! ### The units that calls lead to -/

/-- What calls leave behind: the offsets of all files that could be read, and tokens at bytes of the
files that were added in full. -/
structure Built (calls : List Call) (u : CompilationUnit) : Prop where
  length_files : u.files.length = size calls
  token : ∀ t ∈ u.tokens, ∃ path text k, LiesIn calls t.pos path text k ∧
    u.files.at? t.pos = some (.ofByte path text k)

lemma Built.call_of_size_eq_zero (h : Built calls u) {call : Call} (hs : call.size = 0) :
    Built (calls ++ [call]) u := by
  constructor
  · rw [h.length_files, size_append, size_cons, hs]
    rfl
  · intro t ht
    obtain ⟨path, text, k, hl, ha⟩ := h.token t ht
    exact ⟨path, text, k, hl.append call, ha⟩

/-- The tokens so far keep their places when a file is added. -/
lemma Built.add (h : Built calls u) (path text : Text) :
    Built (calls ++ [.add ⟨path, .ok text⟩]) ⟨u.files.add path text, u.tokens⟩ := by
  constructor
  · rw [SourceFiles.length_add, h.length_files, size_append]
    rfl
  · intro t ht
    obtain ⟨path', text', k, hl, ha⟩ := h.token t ht
    obtain ⟨h₀, hlt⟩ := hl.bounds
    rw [← h.length_files] at hlt
    refine ⟨path', text', k, hl.append _, ?_⟩
    rw [SourceFiles.at?_add_of_lt path text h₀ hlt, ha]

/-- The tokens of a file without lexical errors stand at its bytes. -/
lemma exists_byte_of_tokens {o : Nat} {ts : List Token} (ht : Lexer.tokens text o = .ok ts)
    {t : Token} (h : t ∈ ts) : ∃ k, k < text.length ∧ t.pos = k + o := by
  obtain ⟨us, hus, rfl⟩ := Lexer.exists_tokens_of_offset ht
  obtain ⟨v, hv, rfl⟩ := List.mem_map.1 h
  obtain ⟨h₀, hlt⟩ := (Lexer.pos_of_tokens hus).2 v hv
  obtain ⟨k, hk⟩ := Int.eq_ofNat_of_zero_le h₀
  rw [hk] at hlt
  refine ⟨k, by exact_mod_cast hlt, ?_⟩
  rw [Token.pos_relocate, hk]

/-- One more call leaves behind what it should. -/
lemma Built.answer (h : Built calls u) (call : Call) :
    Built (calls ++ [call]) (u.answer prec call).1 := by
  match call with
  | .parse =>
    have hu : (u.answer prec .parse).1 = u := by
      rw [CompilationUnit.answer]
      split <;> rfl
    rw [hu]
    exact h.call_of_size_eq_zero rfl
  | .add ⟨path, .error e⟩ => exact h.call_of_size_eq_zero rfl
  | .add ⟨path, .ok text⟩ =>
    have hadd := h.add path text
    simp only [CompilationUnit.answer, addInput, CompilationUnit.add]
    cases ht : Lexer.tokens text u.files.length with
    | error e => exact hadd
    | ok ts =>
      refine ⟨hadd.length_files, ?_⟩
      intro t hmem
      rcases List.mem_append.1 hmem with hold | hnew
      · exact hadd.token t hold
      · obtain ⟨k, hk, hp⟩ := exists_byte_of_tokens ht hnew
        refine ⟨path, text, k, ⟨calls, [], ts, rfl, h.length_files ▸ ht, hk, ?_⟩, ?_⟩
        · rw [hp, h.length_files, add_comm]
        · rw [hp, u.files.at?_add path hk.le]

/-- All calls leave behind what they should. -/
theorem built_after (prec : Precedence) (calls : List Call) : Built calls (after prec calls) := by
  induction calls using List.reverseRecOn with
  | nil => exact ⟨rfl, nofun⟩
  | append_singleton calls call ih =>
    rw [after_append]
    exact ih.answer call

/-! ### Failures -/

/-- A file that is refused although it could be read has a lexical error, which is located in it at
the piece that cannot be cut. -/
lemma located_of_add (h : Built calls u) {failure : Failure}
    (ha : (u.add path text).2 = some failure) : ∃ e ls rest,
      Lexer.tokens text (size calls) = .error e ∧ Lexer.Cut text ls rest ∧ Lexer.Stuck rest ∧
      e.pos = size calls + (Lexer.source ls).length ∧
      failure = .located (some (.ofByte path text (Lexer.source ls).length)) e.toFailure := by
  rw [CompilationUnit.add] at ha
  cases ht : Lexer.tokens text u.files.length with
  | ok ts => simp [ht] at ha
  | error e =>
    simp only [ht, Option.some.injEq] at ha
    rw [h.length_files] at ht
    obtain ⟨ls, rest, hc, hs, hp⟩ := Lexer.exists_stuck_of_tokens ht
    refine ⟨e, ls, rest, ht, hc, hs, hp, ?_⟩
    have hle : (Lexer.source ls).length ≤ text.length := by
      rw [hc.source_eq, List.length_append]
      exact Nat.le_add_right _ _
    have hat := u.files.at?_add path hle
    rw [h.length_files, add_comm, ← hp] at hat
    rw [← ha]
    exact SourceFiles.locate_eq rfl (by omega) hat

/-- An error of the parser is located at a byte of a file that was added in full. -/
lemma located_of_parse (h : Built calls u) {failure : Failure}
    (hf : u.parse prec = .error failure) : ∃ e path text k,
      Frontend.parse prec u.tokens = .error e ∧ (∃ t ∈ u.tokens, t.pos = e.pos) ∧
      LiesIn calls e.pos path text k ∧
      failure = .located (some (.ofByte path text k)) e.toFailure := by
  rw [CompilationUnit.parse] at hf
  cases hp : Frontend.parse prec u.tokens with
  | ok m => simp [hp] at hf
  | error e =>
    simp only [hp, Except.error.injEq] at hf
    obtain ⟨t, ht, hpos⟩ := Grammar.exists_token_of_parse_error hp
    obtain ⟨path, text, k, hl, hat⟩ := h.token t ht
    rw [hpos] at hl hat
    refine ⟨e, path, text, k, rfl, ⟨t, ht, hpos⟩, hl, ?_⟩
    rw [← hf]
    exact SourceFiles.locate_eq rfl hl.bounds.1 hat

/-- Every failure of the lexer or the parser is located truthfully, whatever was called before. A
file that could be read is refused for a lexical error, at the first byte that could not be cut; an
error of the parser is about a token, at the byte of the file that was added in full and has it. -/
theorem answer_located {call : Call} {failure : Failure}
    (h : ((after prec calls).answer prec call).2 = some failure) :
    (∀ path text, call = .add ⟨path, .ok text⟩ → ∃ e ls rest,
      Lexer.tokens text (size calls) = .error e ∧ Lexer.Cut text ls rest ∧ Lexer.Stuck rest ∧
      e.pos = size calls + (Lexer.source ls).length ∧
      failure = .located (some (.ofByte path text (Lexer.source ls).length)) e.toFailure) ∧
    (call = .parse → ∃ e path text k,
      Frontend.parse prec (after prec calls).tokens = .error e ∧
      (∃ t ∈ (after prec calls).tokens, t.pos = e.pos) ∧ LiesIn calls e.pos path text k ∧
      (∀ path' text' k', LiesIn calls e.pos path' text' k' →
        path' = path ∧ text' = text ∧ k' = k) ∧
      failure = .located (some (.ofByte path text k)) e.toFailure) := by
  have hb := built_after prec calls
  constructor
  · rintro path text rfl
    exact located_of_add hb h
  · rintro rfl
    have hf : (after prec calls).parse prec = .error failure := by
      rw [answer] at h
      cases hp : (after prec calls).parse prec with
      | ok m => simp [hp] at h
      | error e => simpa [hp] using h
    obtain ⟨e, path, text, k, hp, ht, hl, rfl⟩ := located_of_parse hb hf
    exact ⟨e, path, text, k, hp, ht, hl, fun _ _ _ => hl.unique, rfl⟩

/-- Two files that are refused, an empty one, and a stray parenthesis behind them; then a literal
that is not closed. -/
theorem answer_located_refused : ∃ calls text failure failure',
    calls = [.add ⟨Text.ofString "a", .ok (Text.ofString "def f\n  1\nend\n")⟩,
      .add ⟨Text.ofString "b", .ok (Text.ofString "\"x\n")⟩,
      .add ⟨Text.ofString "c", .error (.plain (Text.ofString "read failed"))⟩,
      .add ⟨Text.ofString "d", .ok []⟩,
      .add ⟨Text.ofString "e", .ok (Text.ofString "\ndef g\n  )")⟩] ∧
    text = Text.ofString "1\n \"2" ∧
    ((after .builtin calls).answer .builtin .parse).2 = some failure ∧
    failure.message = Text.ofString "e:3.3: unknown expression" ∧
    (∃ (e : SyntaxError) (path text : Text) (k : Nat), LiesIn calls e.pos path text k ∧
      failure = .located (some (.ofByte path text k)) e.toFailure) ∧
    ((after .builtin calls).answer .builtin (.add ⟨Text.ofString "f", .ok text⟩)).2 =
      some failure' ∧
    failure'.message = Text.ofString "f:2.2: unterminated string literal" ∧
    ∃ (e : LexError) (ls : List Lexer.Lexeme), e.pos = size calls + (Lexer.source ls).length ∧
      failure' = .located (some (.ofByte (Text.ofString "f") text (Lexer.source ls).length))
        e.toFailure := by
  obtain ⟨calls, hc⟩ : ∃ calls : List Call, calls =
    [.add ⟨Text.ofString "a", .ok (Text.ofString "def f\n  1\nend\n")⟩,
      .add ⟨Text.ofString "b", .ok (Text.ofString "\"x\n")⟩,
      .add ⟨Text.ofString "c", .error (.plain (Text.ofString "read failed"))⟩,
      .add ⟨Text.ofString "d", .ok []⟩,
      .add ⟨Text.ofString "e", .ok (Text.ofString "\ndef g\n  )")⟩] := ⟨_, rfl⟩
  obtain ⟨text, ht⟩ : ∃ text, text = Text.ofString "1\n \"2" := ⟨_, rfl⟩
  obtain ⟨u, hu, failure, hf, hm, failure', hf', hm'⟩ : ∃ u, after .builtin calls = u ∧
      ∃ failure, (u.answer .builtin .parse).2 = some failure ∧
        failure.message = Text.ofString "e:3.3: unknown expression" ∧
      ∃ failure', (u.answer .builtin (.add ⟨Text.ofString "f", .ok text⟩)).2 = some failure' ∧
        failure'.message = Text.ofString "f:2.2: unterminated string literal" := by
    subst hc ht
    exact ⟨_, by cbv, _, by rfl, by cbv, _, by cbv, by cbv⟩
  rw [← hu] at hf hf'
  obtain ⟨e, path, t, k, -, -, hl, -, he⟩ := (answer_located hf).2 rfl
  obtain ⟨e', ls, rest, -, -, -, hp, he'⟩ := (answer_located hf').1 _ _ rfl
  exact ⟨calls, text, failure, failure', hc, ht, hf, hm, ⟨e, path, t, k, hl, he⟩, hf', hm',
    e', ls, hp, he'⟩

end CompilationUnit

end Frontend
