import Frontend.Proofs.Parser.Cursor

/-!
# What errors object to

An error of the parser says what should have been at the cursor. It is right about that if the token
there is of another kind, or if there is no token. Four errors are never right, since what they are
about has been looked at before.

At the end of the input the reads of the parser differ. Some ask whether there is a token, and say
that the input has ended if there is none. The others take the end-of-input token for one of the
wrong kind, though the input may only have to go on. `Cause.Objects.kind_iff` tells them apart.
-/

namespace Frontend

namespace Cause

/-- The read that gives the error does not ask whether there is a token. -/
def isUnchecked : Cause → Bool
  | .newlineAfterClassName | .newlineAfterTraitName | .newlineAfterImplName | .expectedDefName
  | .afterDefName | .expectedParamName | .expectedParamType | .afterParam | .expectedArrow
  | .expectedResultType | .expectedMessage | .afterArgument => true
  | _ => false

/-- What the error is about has been looked at before. -/
def isExcluded : Cause → Bool
  | .peekedAtEnd | .expectedIdentifier | .expectedOpenParen | .invalidOperator => true
  | _ => false

/-- A token of the kind would have been right. -/
def accepts : Cause → Kind → Bool
  | .expectedItem => (· matches .classWord | .traitWord | .defWord)
  | .expectedClassName | .expectedTraitName | .expectedImplName | .expectedParamType
  | .expectedResultType => (· matches .constant _)
  | .newlineAfterClassName | .newlineAfterTraitName | .newlineAfterImplName =>
    (· matches .newline)
  | .expectedClassMember => (· matches .defWord | .implWord | .endWord)
  | .expectedTraitMember | .expectedImplMember => (· matches .defWord | .endWord)
  | .spaceAfterDef => (· matches .space)
  | .expectedDefName | .expectedParamName | .expectedMessage => (· matches .identifier _)
  | .afterDefName => (· matches .leftParen | .newline)
  | .afterParam | .afterArgument => (· matches .rightParen | .comma)
  | .expectedArrow => (· matches .arrow | .newline)
  | .afterParams => (· matches .newline | .arrow | .space)
  | .unknownExpression =>
    (· matches .identifier _ | .leftParen | .number _ | .string _ | .selfWord)
  | .expectedCloseParen => (· matches .rightParen)
  | _ => fun _ => false

/-- The error is about a token, and one of the kind is wrong. -/
def refuses (cause : Cause) (kind : Kind) : Bool :=
  (cause.kind == .structural || cause.kind == .token) && !cause.isExcluded && !cause.accepts kind

/-- What an error says about the tokens from the cursor on. -/
inductive Objects : Cause → List Token → Prop
  /-- The input has ended. -/
  | ended {cause : Cause} (h : cause = .pastLastToken ∨ cause = .unexpectedEnd) : Objects cause []
  /-- The token is of the wrong kind. -/
  | token {cause : Cause} {t : Token} {ts : List Token} (h : cause.refuses t.kind = true) :
      Objects cause (t :: ts)
  /-- The end of the input is taken for a token of the wrong kind. -/
  | unchecked {cause : Cause} (h : cause.isUnchecked = true) : Objects cause []
  /-- The error is about a local variable before the cursor. -/
  | untyped {cause : Cause} {ts : List Token} (h : cause.kind = .inference) : Objects cause ts

section Objects

variable {cause : Cause} {ts : List Token}

lemma Objects.isExcluded (h : cause.Objects ts) : cause.isExcluded = false := by
  cases h with
  | ended h => rcases h with rfl | rfl <;> rfl
  | token h => cases cause <;> first | rfl | cases h
  | unchecked h => cases cause <;> first | rfl | cases h
  | untyped h => cases cause <;> first | rfl | cases h

/-- A budget that is used up is no matter of the tokens. -/
lemma Objects.ne_outOfBudget (h : cause.Objects ts) : cause ≠ .outOfBudget := by
  rintro rfl
  cases h with
  | ended h => rcases h with h | h <;> cases h
  | token h | unchecked h | untyped h => cases h

lemma kind_of_isUnchecked (h : cause.isUnchecked = true) : cause.kind ≠ .endOfInput := by
  cases cause <;> first | decide | cases h

/-- At the end of the input, an error says so or comes from a read that does not ask. -/
lemma Objects.kind_iff (h : cause.Objects []) :
    cause.kind = .endOfInput ↔ ¬(cause.isUnchecked = true ∨ cause.kind = .inference) := by
  cases h with
  | ended h => rcases h with rfl | rfl <;> simp [kind, isUnchecked]
  | unchecked h => simp [h, kind_of_isUnchecked h]
  | untyped h => simp [h]

end Objects

end Cause

end Frontend
