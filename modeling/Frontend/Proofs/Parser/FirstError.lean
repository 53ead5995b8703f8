import Frontend.Failure
import Frontend.Token.Lexer
import Frontend.Proofs.Parser.Progress

/-!
# The first error

The budget of the parser is never used up, so an error is an error of the grammar. If it is found
before the end of the input, it does not depend on what follows: the same tokens in front of others
are refused in the same way.

Where the input has ended, an error that says otherwise is about a local variable without a type, or
comes from one of the reads that take the end-of-input token for one of the wrong kind.
-/

namespace Frontend

namespace Grammar

open Frontend.Parser

variable {prec : Precedence} {ts : List Token} {e : SyntaxError} {c c' : Cursor}

/-- An error of a module is right about the tokens at the cursor. -/
lemma objects_of_error (h : definitions prec c = .error e c') : e.cause.Objects c'.rest :=
  Logged.follows_definitions.objects h

/-! ### Input behind an error -/

/-- A cursor whose index is that of a token of the stream has a token ahead. -/
lemma rest_ne_nil_of_index (hl : (Cursor.ofTokens ts).LeadsTo c) (hi : c.index < ts.length) :
    c.rest ≠ [] := by
  obtain ⟨used, hr, hp⟩ := hl
  intro h
  have hu : ts = used := by simpa [Cursor.ofTokens, h] using hr
  have hlen : c.past.length = ts.length := by simp [hp, hu, Cursor.ofTokens]
  rw [Cursor.index] at hi
  omega

/-- An error is about a token of the stream. -/
lemma exists_token_of_parse_error (h : parse prec ts = .error e) : ∃ t ∈ ts, t.pos = e.pos := by
  have hne : (Cursor.ofTokens ts).stream ≠ [] := by
    rintro (rfl : ts = [])
    cases h
  unfold parse at h
  split at h
  case h_1 => cases h
  case h_2 e' c' hd =>
    obtain rfl := Except.error.inj h
    exact (framed_definitions (F := .followedBy []) prec _ (.inl rfl)).knows hne _ _ hd

/-- An error that is found before the end of the input is found whatever follows. -/
theorem parse_append_of_error (h : definitions prec (Cursor.ofTokens ts) = .error e c)
    (hi : c.index < ts.length) (us : List Token) :
    parse prec ts = .error e ∧ parse prec (ts ++ us) = .error e := by
  have hf : (Frame.followedBy us).Fits (.ofTokens ts) := .inl rfl
  obtain ⟨hl, -, hrun⟩ := framed_definitions prec (Cursor.ofTokens ts) hf
  rw [h] at hl hrun
  have hd : (Frame.followedBy us).Decides (.error e c : EStateM.Result _ _ (List Definition)) := by
    constructor
    · exact .inr (rest_ne_nil_of_index hl hi)
    · exact (objects_of_error h).ne_outOfBudget
  have h' := hrun hd
  rw [Frame.cursor_followedBy] at h'
  constructor
  · rw [parse, h]
  · rw [parse, h']
    rfl

/-- A closing parenthesis where a parameter is missing, behind a definition that is whole. -/
theorem parse_append_of_error_param : ∃ ts c,
    Lexer.tokens (Text.ofString "def f\n  1\nend\ndef g(a Int,)\n  a\nend\n") 0 = .ok ts ∧
    definitions .builtin (Cursor.ofTokens ts) = .error ⟨.expectedParamName, 26⟩ c ∧
    c.index < ts.length ∧ ∀ us, parse .builtin ts = .error ⟨.expectedParamName, 26⟩ ∧
      parse .builtin (ts ++ us) = .error ⟨.expectedParamName, 26⟩ := by
  obtain ⟨ts, ht, c, hc, hi⟩ : ∃ ts,
      Lexer.tokens (Text.ofString "def f\n  1\nend\ndef g(a Int,)\n  a\nend\n") 0 = .ok ts ∧
      ∃ c, definitions .builtin (Cursor.ofTokens ts) = .error ⟨.expectedParamName, 26⟩ c ∧
        c.index < ts.length :=
    ⟨_, by cbv, _, by rfl, by decide⟩
  exact ⟨ts, c, ht, hc, hi, parse_append_of_error hc hi⟩

/-! ### Errors at the end of the input -/

/-- For a cause, a text that ends too early to be a module and is refused for it, and a text that
completes the first one. -/
def cutOff : Cause → Text × Text
  | .newlineAfterClassName => (Text.ofString "class A ", Text.ofString "\nend\n")
  | .newlineAfterTraitName => (Text.ofString "trait A ", Text.ofString "\nend\n")
  | .newlineAfterImplName => (Text.ofString "class A\nimpl B ", Text.ofString "\nend\nend\n")
  | .expectedDefName => (Text.ofString "def ", Text.ofString "f\n1\nend\n")
  | .afterDefName => (Text.ofString "def f ", Text.ofString "\n1\nend\n")
  | .expectedParamName => (Text.ofString "def f(", Text.ofString "a A)\n1\nend\n")
  | .expectedParamType => (Text.ofString "def f(a ", Text.ofString "A)\n1\nend\n")
  | .afterParam => (Text.ofString "def f(a A ", Text.ofString ")\n1\nend\n")
  | .expectedArrow => (Text.ofString "def f() ", Text.ofString "-> A\n1\nend\n")
  | .expectedResultType => (Text.ofString "def f() ->", Text.ofString " A\n1\nend\n")
  | .expectedMessage => (Text.ofString "def f\n1.", Text.ofString "g()\nend\n")
  | .afterArgument => (Text.ofString "def f\ng(1 ", Text.ofString ")\nend\n")
  | .notAssigned => (Text.ofString "def f\nx", Text.ofString " = 1\nend\n")
  | .unsupportedAssignment => (Text.ofString "def f\nx = g()\nx", Text.ofString " = 1\nend\n")
  | _ => ([], [])

lemma exists_cutOff {cause : Cause} (h : cause.isUnchecked = true ∨ cause.kind = .inference) :
    ∃ ts us e c m, Lexer.tokens (cutOff cause).1 0 = .ok ts ∧
      Lexer.tokens ((cutOff cause).1 ++ (cutOff cause).2) 0 = .ok (ts ++ us) ∧
      definitions .builtin (Cursor.ofTokens ts) = .error e c ∧ c.atEnd = true ∧ e.cause = cause ∧
      parse .builtin (ts ++ us) = .ok m := by
  cases cause <;> first
    | exact absurd h (by decide)
    | exact ⟨_, _, _, _, _, by cbv, by cbv, by rfl, by rfl, by rfl, by rfl⟩

/-- Where the input has ended, an error says so unless it is about a local variable without a type,
or comes from one of the reads that do not ask whether there is a token. An error of these kinds is
given for some text that only has to go on. -/
theorem isEndOfInput_iff_of_error (h : definitions prec (Cursor.ofTokens ts) = .error e c)
    (hc : c.atEnd = true) : parse prec ts = .error e ∧
    (e.toFailure.isEndOfInput = true ↔
      ¬(e.cause.isUnchecked = true ∨ e.cause.kind = .inference)) ∧
    (e.cause.isUnchecked = true ∨ e.cause.kind = .inference →
      ∃ ts us e' c m, Lexer.tokens (cutOff e.cause).1 0 = .ok ts ∧
        Lexer.tokens ((cutOff e.cause).1 ++ (cutOff e.cause).2) 0 = .ok (ts ++ us) ∧
        definitions .builtin (Cursor.ofTokens ts) = .error e' c ∧ c.atEnd = true ∧
        e'.cause = e.cause ∧ parse .builtin (ts ++ us) = .ok m) := by
  refine ⟨by rw [parse, h], ?_, exists_cutOff⟩
  have hobjects := objects_of_error h
  rw [List.isEmpty_iff.1 hc] at hobjects
  have hkind : e.toFailure.isEndOfInput = true ↔ e.cause.kind = .endOfInput := by
    simp [SyntaxError.toFailure, Failure.isEndOfInput, Failure.root]
  exact hkind.trans hobjects.kind_iff

/-- A class of which only the name is there. -/
theorem isEndOfInput_iff_of_error_name : ∃ ts e c,
    Lexer.tokens (Text.ofString "class Foo") 0 = .ok ts ∧
    definitions .builtin (Cursor.ofTokens ts) = .error e c ∧ c.atEnd = true ∧
    parse .builtin ts = .error e ∧ e.toFailure.isEndOfInput = true := by
  obtain ⟨ts, ht, c, h, hc⟩ : ∃ ts, Lexer.tokens (Text.ofString "class Foo") 0 = .ok ts ∧
      ∃ c, definitions .builtin (Cursor.ofTokens ts) = .error ⟨.unexpectedEnd, 6⟩ c ∧
        c.atEnd = true :=
    ⟨_, by cbv, _, by rfl, by rfl⟩
  obtain ⟨hp, hiff, -⟩ := isEndOfInput_iff_of_error h hc
  exact ⟨ts, _, c, ht, h, hc, hp, hiff.2 (by decide)⟩

/-- Behind the name of a class there is a blank, and the input ends where the line should. -/
theorem not_isEndOfInput_behind_name : ∃ ts us e c m,
    Lexer.tokens (Text.ofString "class Foo ") 0 = .ok ts ∧
    Lexer.tokens (Text.ofString "class Foo \nend\n") 0 = .ok (ts ++ us) ∧
    definitions .builtin (Cursor.ofTokens ts) = .error e c ∧ c.atEnd = true ∧
    parse .builtin (ts ++ us) = .ok m ∧ e.toFailure.isEndOfInput = false :=
  ⟨_, _, _, _, _, by cbv, by cbv, by rfl, by rfl, by rfl, by rfl⟩

end Grammar

end Frontend
