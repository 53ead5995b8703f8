import Frontend.Text.Utf8
import Frontend.Text.Printable

/-!
# Quoted text

A quoted text stands between two quote bytes. Printable characters are written as they are, the
quote and the backslash behind a backslash, seven control characters by a letter, and all else by
its number in hexadecimal: a byte outside any UTF-8 sequence as `\xNN`, so that every byte string
has a quoted form.

Reading undoes this and also takes octal escapes. A byte outside any UTF-8 sequence that stands
unescaped is read as the replacement character.
-/

namespace Frontend.Text

namespace Quoted

/-! ### Writing -/

/-- The byte of a hexadecimal digit, in lower case. -/
def hexDigit (d : Nat) : UInt8 := if d < 10 then (0x30 + d).toUInt8 else (0x57 + d).toUInt8

/-- A number in hexadecimal with a fixed number of digits. -/
def hex : (width : Nat) → Nat → Text
  | 0,         _ => []
  | width + 1, n => hex width (n / 16) ++ [hexDigit (n % 16)]

/-- The letter that stands for a control character after a backslash. -/
def controlLetter? (c : Nat) : Option UInt8 :=
  match c with
  | 0x07 => some 0x61
  | 0x08 => some 0x62
  | 0x0C => some 0x66
  | 0x0A => some 0x6E
  | 0x0D => some 0x72
  | 0x09 => some 0x74
  | 0x0B => some 0x76
  | _    => none

/-- The form of a scalar value between quotes. -/
def escape (printable : Nat → Bool) (quote : UInt8) (c : Nat) : Text :=
  if c = quote.toNat ∨ c = 0x5C then [0x5C, c.toUInt8]
  else if printable c then encodeScalar c
  else match controlLetter? c with
    | some letter => [0x5C, letter]
    | none =>
      if c < 0x20 ∨ c = 0x7F then 0x5C :: 0x78 :: hex 2 c
      else if c < 0x10000 then 0x5C :: 0x75 :: hex 4 c
      else 0x5C :: 0x55 :: hex 8 c

/-- The form of a unit of text between quotes. -/
def escapePiece (printable : Nat → Bool) (quote : UInt8) : Piece → Text
  | .scalar c => escape printable quote c
  | .stray b  => 0x5C :: 0x78 :: hex 2 b.toNat

/-- What stands between the double quotes of a quoted text. -/
def body (printable : Nat → Bool) (t : Text) : Text :=
  (pieces t).flatMap (escapePiece printable 0x22)

/-- A text in double quotes. -/
def encode (printable : Nat → Bool) (t : Text) : Text := 0x22 :: body printable t ++ [0x22]

/-! ### Reading -/

/-- The value of a hexadecimal digit of either case. -/
def hexValue? (b : UInt8) : Option Nat :=
  if 0x30 ≤ b && b ≤ 0x39 then some (b.toNat - 0x30)
  else if 0x61 ≤ b && b ≤ 0x66 then some (b.toNat - 0x57)
  else if 0x41 ≤ b && b ≤ 0x46 then some (b.toNat - 0x37)
  else none

/-- The value of an octal digit. -/
def octalValue? (b : UInt8) : Option Nat :=
  if 0x30 ≤ b && b ≤ 0x37 then some (b.toNat - 0x30) else none

/-- A number of exactly so many digits at the start of a text, and what follows it. -/
def number? (base : Nat) (digit? : UInt8 → Option Nat) :
    (width : Nat) → (soFar : Nat) → Text → Option (Nat × Text)
  | 0,         n, t      => some (n, t)
  | _ + 1,     _, []     => none
  | width + 1, n, b :: t =>
    match digit? b with
    | some d => number? base digit? width (n * base + d) t
    | none   => none

/-- A scalar value given by so many hexadecimal digits. -/
def scalarEscape? (width : Nat) (t : Text) : Option (Text × Text) :=
  match number? 16 hexValue? width 0 t with
  | some (c, rest) => if isScalar c then some (encodeScalar c, rest) else none
  | none           => none

/-- A single byte given by so many digits, refused above 255. -/
def byteEscape? (base : Nat) (digit? : UInt8 → Option Nat) (width : Nat) (t : Text) :
    Option (Text × Text) :=
  match number? base digit? width 0 t with
  | some (n, rest) => if n < 256 then some ([n.toUInt8], rest) else none
  | none           => none

/-- What an escape stands for, read after its backslash, and what follows it. -/
def escaped? : Text → Option (Text × Text)
  | [] => none
  | b :: t =>
    match b with
    | 0x61 => some ([0x07], t)
    | 0x62 => some ([0x08], t)
    | 0x66 => some ([0x0C], t)
    | 0x6E => some ([0x0A], t)
    | 0x72 => some ([0x0D], t)
    | 0x74 => some ([0x09], t)
    | 0x76 => some ([0x0B], t)
    | 0x5C => some ([0x5C], t)
    | 0x22 => some ([0x22], t)
    | 0x78 => byteEscape? 16 hexValue? 2 t
    | 0x75 => scalarEscape? 4 t
    | 0x55 => scalarEscape? 8 t
    | _    => byteEscape? 8 octalValue? 3 (b :: t)

theorem length_of_number? {base : Nat} {digit? : UInt8 → Option Nat} {width m n : Nat}
    {t rest : Text} (h : number? base digit? width m t = some (n, rest)) :
    rest.length + width = t.length := by
  induction width generalizing m t with
  | zero => simp_all [number?]
  | succ width ih =>
    cases t with
    | nil => simp [number?] at h
    | cons b t =>
      simp only [number?] at h
      split at h
      · have := ih h
        simp only [List.length_cons]
        omega
      · simp at h

theorem length_of_byteEscape? {base : Nat} {digit? : UInt8 → Option Nat} {width : Nat}
    {t out rest : Text} (h : byteEscape? base digit? width t = some (out, rest)) :
    rest.length + width = t.length := by
  simp only [byteEscape?] at h
  repeat' split at h
  all_goals simp at h
  obtain ⟨-, rfl⟩ := h
  exact length_of_number? ‹_›

theorem length_of_scalarEscape? {width : Nat} {t out rest : Text}
    (h : scalarEscape? width t = some (out, rest)) : rest.length + width = t.length := by
  simp only [scalarEscape?] at h
  repeat' split at h
  all_goals simp at h
  obtain ⟨-, rfl⟩ := h
  exact length_of_number? ‹_›

theorem length_of_escaped? {t out rest : Text} (h : escaped? t = some (out, rest)) :
    rest.length < t.length := by
  cases t with
  | nil => simp [escaped?] at h
  | cons b t =>
    simp only [escaped?] at h
    split at h
    all_goals first
      | (simp only [Option.some.injEq, Prod.mk.injEq] at h
         simp [h.2])
      | (replace h := length_of_byteEscape? h
         simp only [List.length_cons] at *
         omega)
      | (replace h := length_of_scalarEscape? h
         simp only [List.length_cons] at *
         omega)

/-- The text that stands between double quotes in this form. A bare quote or line feed and an
unknown escape are refused. -/
def decode (t : Text) : Option Text :=
  match t with
  | []     => some []
  | b :: t =>
    if b = 0x22 ∨ b = 0x0A then none
    else if b = 0x5C then
      match _h : escaped? t with
      | some (out, rest) => (decode rest).map (out ++ ·)
      | none             => none
    else
      match _h : decode? (b :: t) with
      | some (c, rest) => (decode rest).map (encodeScalar c ++ ·)
      | none           => (decode t).map (encodeScalar replacement ++ ·)
termination_by t.length
decreasing_by
  · have := length_of_escaped? ‹_›
    simp only [List.length_cons]
    omega
  · exact length_of_decode? ‹_›
  · simp

end Quoted

/-- A text in double quotes as the program prints it. -/
def quote (t : Text) : Text := Quoted.encode isPrintable t

/-- A code point in single quotes; what is no scalar value is shown as the replacement. -/
def quoteChar (c : Nat) : Text :=
  let c := if isScalar c then c else replacement
  0x27 :: Quoted.escape isPrintable 0x27 c ++ [0x27]

end Frontend.Text
