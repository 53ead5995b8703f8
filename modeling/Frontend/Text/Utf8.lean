import Frontend.Text

/-!
# UTF-8

Code points in and out of byte strings. A text that is not valid UTF-8 still falls into units:
each byte that starts no well-formed sequence is a stray unit of its own.
-/

namespace Frontend.Text

/-- The code point that stands for what cannot be decoded. -/
def replacement : Nat := 0xFFFD

/-- A scalar value is a code point that is not a surrogate. -/
def isScalar (c : Nat) : Bool := c < 0xD800 || (0xE000 ≤ c && c ≤ 0x10FFFF)

/-- The UTF-8 sequence of a scalar value. -/
def encodeScalar (c : Nat) : Text :=
  if c < 0x80 then [c.toUInt8]
  else if c < 0x800 then [(0xC0 + c / 64).toUInt8, (0x80 + c % 64).toUInt8]
  else if c < 0x10000 then
    [(0xE0 + c / 4096).toUInt8, (0x80 + c / 64 % 64).toUInt8, (0x80 + c % 64).toUInt8]
  else
    [(0xF0 + c / 262144).toUInt8, (0x80 + c / 4096 % 64).toUInt8,
      (0x80 + c / 64 % 64).toUInt8, (0x80 + c % 64).toUInt8]

/-- The UTF-8 sequence of a code point, that of `replacement` if it is no scalar value. -/
def ofCodePoint (c : Int) : Text :=
  if 0 ≤ c ∧ isScalar c.toNat then encodeScalar c.toNat else encodeScalar replacement

/-- Every byte of a sequence after the first lies in this range. -/
def isTail (b : UInt8) : Bool := 0x80 ≤ b && b ≤ 0xBF

/-- The six low bits that a later byte of a sequence carries. -/
def tailBits (b : UInt8) : Nat := b.toNat - 0x80

/-- The scalar value of a two-byte sequence. -/
def scalarOf2 (a b : UInt8) : Option Nat :=
  if isTail b then some ((a.toNat - 0xC0) * 64 + tailBits b) else none

/-- The scalar value of a three-byte sequence; overlong forms and surrogates are refused. -/
def scalarOf3 (a b c : UInt8) : Option Nat :=
  let code := (a.toNat - 0xE0) * 4096 + tailBits b * 64 + tailBits c
  if isTail b && isTail c && 0x800 ≤ code && isScalar code then some code else none

/-- The scalar value of a four-byte sequence; overlong forms and values above the last code
point are refused. -/
def scalarOf4 (a b c d : UInt8) : Option Nat :=
  let code := (a.toNat - 0xF0) * 262144 + tailBits b * 4096 + tailBits c * 64 + tailBits d
  if isTail b && isTail c && isTail d && 0x10000 ≤ code && isScalar code then some code else none

/-- The scalar value at the start of a text and what follows it. -/
def decode? : Text → Option (Nat × Text)
  | [] => none
  | a :: t =>
    if a < 0x80 then some (a.toNat, t)
    else if a < 0xC2 then none
    else if a < 0xE0 then
      match t with
      | b :: t => (scalarOf2 a b).map (·, t)
      | []     => none
    else if a < 0xF0 then
      match t with
      | b :: c :: t => (scalarOf3 a b c).map (·, t)
      | _           => none
    else if a < 0xF5 then
      match t with
      | b :: c :: d :: t => (scalarOf4 a b c d).map (·, t)
      | _                => none
    else none

theorem length_of_decode? {t rest : Text} {c : Nat} (h : decode? t = some (c, rest)) :
    rest.length < t.length := by
  unfold decode? at h
  split at h
  · simp at h
  · repeat' split at h
    all_goals simp at h
    all_goals grind

/-- A unit of a text: a scalar value, or a byte that belongs to none. -/
inductive Piece
  | scalar (code : Nat)
  | stray (byte : UInt8)
  deriving DecidableEq, Repr

/-- The code point a unit is read as. -/
def Piece.code : Piece → Nat
  | .scalar c => c
  | .stray _  => replacement

/-- The units of a text from left to right. -/
def pieces (t : Text) : List Piece :=
  match t with
  | []     => []
  | b :: t =>
    match _h : decode? (b :: t) with
    | some (c, rest) => .scalar c :: pieces rest
    | none           => .stray b :: pieces t
termination_by t.length
decreasing_by
  · exact length_of_decode? ‹_›
  · simp

end Frontend.Text
