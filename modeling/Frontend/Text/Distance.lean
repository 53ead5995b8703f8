import Frontend.Text.Utf8

/-!
# Edit distance

How far a word is from another one: the least number of bytes to put in, take out or replace that
turn the first into the second. It is computed row by row, where a row holds the distances of one
beginning of the first word to all beginnings of the second.
-/

namespace Frontend.Text

/-- The rest of a row for one more byte of the first word. The row before is given from the place
above the last distance on. -/
def nextRow (c : UInt8) : Text → List Nat → Nat → List Nat
  | b :: t, corner :: above :: row, left =>
    let d := if b = c then corner else 1 + min left (min above corner)
    d :: nextRow c t (above :: row) d
  | _, _, _ => []

/-- The row for one more byte of the first word. -/
def stepRow (t : Text) (row : List Nat) (c : UInt8) : List Nat :=
  let first := row.headD 0 + 1
  first :: nextRow c t row first

/-- The edit distance of two words. -/
def distance (s t : Text) : Nat :=
  (s.foldl (stepRow t) (List.range (t.length + 1))).getLastD 0

/-! ### Without regard to case -/

/-- The capital letters outside ASCII whose small letters have another length in UTF-8. -/
def resizedSmall : List (Nat × Nat) :=
  [(0x130, 0x69), (0x23A, 0x2C65), (0x23E, 0x2C66), (0x1E9E, 0xDF), (0x2126, 0x3C9),
   (0x212A, 0x6B), (0x212B, 0xE5), (0x2C62, 0x26B), (0x2C64, 0x27D), (0x2C6D, 0x251),
   (0x2C6E, 0x271), (0x2C6F, 0x250), (0x2C70, 0x252), (0x2C7E, 0x23F), (0x2C7F, 0x240),
   (0xA78D, 0x265), (0xA7AA, 0x266), (0xA7AB, 0x25C), (0xA7AC, 0x261), (0xA7AD, 0x26C),
   (0xA7AE, 0x26A), (0xA7B0, 0x29E), (0xA7B1, 0x287), (0xA7B2, 0x29D), (0xA7C5, 0x282)]

/-- The small form of a character, for comparison with ASCII words: a letter outside ASCII that
keeps its length equals none of their letters in either case, so it is left as it is. -/
def smallOf (c : Nat) : Nat :=
  if 0x41 ≤ c ∧ c ≤ 0x5A then c + 0x20 else (resizedSmall.lookup c).getD c

/-- A word in small letters, for comparison with ASCII words. Bytes that are no characters count
as replacement characters. -/
def small (t : Text) : Text := (pieces t).flatMap fun p => encodeScalar (smallOf p.code)

end Frontend.Text
