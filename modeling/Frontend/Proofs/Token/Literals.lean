import Frontend.Proofs.Token.Layout
import Frontend.Tree.Printer

/-!
# String literals

A quoted text is one token wherever it stands, and its value is the text that was quoted. Nothing
behind the closing quote can reach into it. This holds for every byte string, valid UTF-8 or not.

Three functions have to agree for that: the one that quotes, the search of the lexer for the
closing quote, which knows no more of escapes than that a backslash takes the next byte along, and
the one that reads what the search has cut out. They do so because what is quoted is read back, and
what can be read is a `Closed` text, on which the search ends at the right quote.

Which characters are printable is left open. Of all choices only those that show the line feed fail,
since a literal ends with its line.
-/

namespace Frontend.Lexer

/-- Wherever a text stands, it is lexed as one token of a kind, and what follows is lexed from the
offset behind it, with the same tokens or the same error as without the text. -/
def LexedAs (t : Text) (kind : Kind) : Prop :=
  ∀ (rest : Text) (offs : Int), tokens (t ++ rest) offs =
    (tokens rest (offs + t.length)).map (⟨kind, offs⟩ :: ·)

lemma LexedAs.of_spells {t : Text} {kind : Kind} (h : ∀ rest, Spells t (some kind) rest) :
    LexedAs t kind :=
  fun rest offs => tokens_append_of_spells (h rest) offs

section Printable

variable {printable : Nat → Bool}

/-- A line feed that counts as printable stands unescaped between the quotes. -/
lemma encode_newline (hp : printable 0x0A = true) :
    Text.Quoted.encode printable [0x0A] = [0x22, 0x0A, 0x22] := by
  have hs : Text.pieces [0x0A] = [.scalar 0x0A] := by cbv
  have he : Text.Quoted.escape printable 0x22 0x0A = [0x0A] := by
    rw [Text.Quoted.escape, if_neg (by decide), if_pos hp]
    rfl
  simp only [Text.Quoted.encode, Text.Quoted.body, hs, List.flatMap_singleton,
    Text.Quoted.escapePiece, he, List.cons_append, List.nil_append]

/-- Quoted texts are lexed as literals exactly if the line feed is not printable. -/
lemma lexedAs_encode_iff :
    (∀ value, LexedAs (Text.Quoted.encode printable value) (.string value)) ↔
      printable 0x0A = false := by
  constructor
  · intro h
    by_contra hp
    have unterminated : tokens [0x22, 0x0A, 0x22] 0 = .error ⟨.unterminated, 0⟩ := by cbv
    have hl := h [0x0A] [] 0
    rw [encode_newline (by simpa using hp), List.append_nil, unterminated, tokens] at hl
    cases hl
  · exact fun hp value => .of_spells (spells_encode hp value)

end Printable

/-- A quoted text is lexed as the one string literal with that value, and lexing goes on right
behind it, whatever bytes the value has, whatever follows, and whichever characters apart from the
control characters are printable. What a string token and a string node print are such texts. -/
theorem tokens_quoted (value : Text) :
    (∀ printable, Text.ExcludesControls printable →
        LexedAs (Text.Quoted.encode printable value) (.string value)) ∧
      LexedAs (Kind.string value).text (.string value) ∧
      ∀ span, LexedAs (Node.string span value).render (.string value) := by
  have quoted : ∀ printable, Text.ExcludesControls printable →
      LexedAs (Text.Quoted.encode printable value) (.string value) :=
    fun _ hp => lexedAs_encode_iff.2 hp.newline value
  have shown : LexedAs value.quote (.string value) :=
    quoted Text.isPrintable Text.excludesControls_isPrintable
  exact ⟨quoted, shown, fun _ => shown⟩

/-- Control characters, a quote, a backslash, a stray byte, the bytes of a surrogate, the
replacement character and a sequence that the closing quote breaks off, with a second literal right
behind. -/
theorem tokens_quoted_bytes : ∃ value quoted : Text,
    value = [0x0A, 0x22, 0x5C, 0x07, 0x00, 0x7F, 0xFF, 0xED, 0xA0, 0x80, 0xEF, 0xBF, 0xBD, 0xE2,
      0x82] ∧
    quoted =
      Text.ofString "\"\\n\\\"\\\\\\a\\x00\\x7f\\xff\\xed\\xa0\\x80\uFFFD\\xe2\\x82\"" ∧
    Text.ExcludesControls Text.isPrintable ∧
    Text.Quoted.encode Text.isPrintable value = quoted ∧
    tokens (quoted ++ Text.ofString "\"a\"") 7 =
      .ok [⟨.string value, 7⟩, ⟨.string (Text.ofString "a"), 52⟩] := by
  have controls := Text.excludesControls_isPrintable
  refine ⟨_, _, rfl, rfl, controls, (and_iff_left_of_imp fun hq => ?tokens).2 ?quoted⟩
  case quoted =>
    unfold Text.isPrintable
    simp only [← Array.any_toList]
    decide +kernel
  case tokens =>
    have behind : tokens (Text.ofString "\"a\"") 52 = .ok [⟨.string (Text.ofString "a"), 52⟩] := by
      cbv
    rw [← hq, (tokens_quoted _).1 _ controls, hq]
    exact congrArg (Except.map _) behind

end Frontend.Lexer
