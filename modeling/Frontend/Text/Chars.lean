import Frontend.Text.Utf8

/-!
# Characters of a text

Texts that must be valid UTF-8 are worked on as lists of characters.
-/

namespace Frontend.Text

/-- The characters of a text, if it is valid UTF-8. -/
def chars? (t : Text) : Option (List Char) :=
  (pieces t).mapM fun
    | .scalar c => some (Char.ofNat c)
    | .stray _  => none

/-- The text with the given characters. -/
def ofChars (cs : List Char) : Text := cs.flatMap fun c => encodeScalar c.toNat

/-- The value of a digit in the bases up to sixteen. -/
def digitValue? (c : Char) : Option Nat :=
  if '0' ≤ c ∧ c ≤ '9' then some (c.toNat - 0x30)
  else if 'a' ≤ c ∧ c ≤ 'f' then some (c.toNat - 0x57)
  else if 'A' ≤ c ∧ c ≤ 'F' then some (c.toNat - 0x37)
  else none

/-- The value of a non-empty list of digits in a base. -/
def natOfDigits? (base : Nat) (cs : List Char) : Option Nat :=
  if cs = [] then none
  else cs.foldlM (fun n c =>
    match digitValue? c with
    | some d => if d < base then some (base * n + d) else none
    | none   => none) 0

/-- The least number above all integers of 64 bits. -/
def int64Bound : Int := 0x8000000000000000

/-- The integer fits into 64 bits. -/
def fitsInt64 (n : Int) : Bool := -int64Bound ≤ n && n < int64Bound

end Frontend.Text
