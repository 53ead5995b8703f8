import Frontend.Text

/-!
# Operator precedence

A table gives binary operators their precedence; a higher one binds tighter. Operators that are
not in the table all have the same precedence, and a negative one keeps an operator from being
used between two operands.
-/

namespace Frontend

/-- A table of operator precedences. Operators are code points and precedences 64-bit words. -/
structure Precedence where
  entries : List (Int × Int64)
  deriving DecidableEq, Repr

namespace Precedence

/-- The precedence of an operator that is not in the table. -/
def unlisted : Int := 100

/-- The precedence of an operator. -/
def of (table : Precedence) (op : Int) : Int :=
  match table.entries.lookup op with
  | some level => level.toInt
  | none       => unlisted

/-- The precedences of the built-in operators `<`, `+`, `-` and `*`. -/
def builtin : Precedence := ⟨[(0x3C, 10), (0x2B, 20), (0x2D, 20), (0x2A, 40)]⟩

end Precedence

end Frontend
