/-!
# Byte strings

Source text, names, messages and output are byte strings. Nothing promises that they are valid
UTF-8, and every offset into them counts bytes.
-/

namespace Frontend

/-- A byte string. -/
abbrev Text := List UInt8

namespace Text

/-- The UTF-8 bytes of a string, used for the fixed words and messages of the program. -/
def ofString (s : String) : Text := s.toByteArray.data.toList

/-! ### Decimal numbers -/

/-- The byte of a decimal digit. -/
def digit (d : Nat) : UInt8 := (0x30 + d).toUInt8

/-- A natural number in decimal, without leading zeros. -/
def ofNat (n : Nat) : Text :=
  if n < 10 then [digit n] else ofNat (n / 10) ++ [digit (n % 10)]
termination_by n
decreasing_by omega

/-- An integer in decimal, with a minus sign when it is negative. -/
def ofInt : Int → Text
  | .ofNat n   => ofNat n
  | .negSucc n => 0x2D :: ofNat (n + 1)

/-- The value of a run of decimal digits. -/
def value (digits : Text) : Nat :=
  digits.foldl (fun n d => 10 * n + (d.toNat - 0x30)) 0

@[simp] theorem value_nil : value [] = 0 := rfl

/-- A further digit is one of ones, and those before it count ten times as much. -/
theorem value_append (t : Text) (b : UInt8) :
    value (t ++ [b]) = 10 * value t + (b.toNat - 0x30) := by
  simp [value]

/-! ### Ends and separators -/

/-- A text without the given ending, or unchanged when it does not end so. -/
def stripEnding (ending t : Text) : Text :=
  if ending.isSuffixOf t then t.take (t.length - ending.length) else t

/-- The texts joined with a separator between neighbours. -/
def join (separator : Text) : List Text → Text
  | []           => []
  | [t]          => t
  | t :: u :: ts => t ++ separator ++ join separator (u :: ts)

/-- The text before the first occurrence of a byte and the text after it. -/
def cut? (b : UInt8) (t : Text) : Option (Text × Text) :=
  match t.dropWhile (· != b) with
  | []        => none
  | _ :: rest => some (t.takeWhile (· != b), rest)

/-- The parts of a text between occurrences of a byte; there is always at least one. -/
def split (b : UInt8) : Text → List Text
  | []     => [[]]
  | c :: t =>
    if c = b then [] :: split b t
    else match split b t with
      | []          => [[c]]
      | part :: ps => (c :: part) :: ps

/-! ### Order -/

/-- Byte strings are sorted bytewise, a proper beginning before its extensions. -/
def sorted (ts : List Text) : List Text := ts.mergeSort fun a b => decide (a ≤ b)

end Text

end Frontend
