import Frontend.Text.Chars

/-!
# The characters of a YAML text

A YAML text is in UTF-8, or in UTF-16 if it starts with a byte order mark of that. It is taken in
blocks of 512 bytes, and a block is only looked at when a character in it is needed: what is wrong
in a block does no harm as long as nobody asks for it.

Behind the last character there is no end to characters with code zero, which cannot occur
otherwise.
-/

namespace Frontend.Yaml

/-- The character that stands behind the end of a text. -/
def nul : Char := '\x00'

/-- The character whose encoding is the mark at the start of a text. -/
def byteOrderMark : Char := '\uFEFF'

/-- The code points that may occur in a text. -/
def isAllowed (n : Nat) : Bool :=
  n == 0x09 || n == 0x0A || n == 0x0D || (0x20 ≤ n && n ≤ 0x7E) || n == 0x85 ||
    (0xA0 ≤ n && n ≤ 0xFFFD) || 0x10000 ≤ n

/-- How the characters of a text are encoded. -/
inductive Encoding
  | utf8
  | utf16 (bigEndian : Bool)
  deriving DecidableEq, Repr

namespace Utf16

/-- The unit of two bytes. -/
def unit (bigEndian : Bool) (a b : UInt8) : Nat :=
  if bigEndian then 0x100 * a.toNat + b.toNat else a.toNat + 0x100 * b.toNat

/-- A unit that starts a pair, which is the code point of a character beyond the first 65536. -/
def isHigh (u : Nat) : Bool := 0xD800 ≤ u && u < 0xDC00

/-- A unit that ends a pair. Neither kind may occur alone. -/
def isLow (u : Nat) : Bool := 0xDC00 ≤ u && u < 0xE000

/-- The code point of a pair. -/
def codeOfPair (high low : Nat) : Nat := 0x10000 + 0x400 * (high - 0xD800) + (low - 0xDC00)

end Utf16

/-- What bytes start with. -/
inductive Start
  /-- A character that takes so many bytes. -/
  | char (c : Char) (width : Nat)
  /-- The first bytes of a character that takes more of them. -/
  | incomplete
  | invalid
  deriving DecidableEq, Repr

namespace Start

/-- A code point that takes so many bytes, if it may occur. -/
def ofCode (code width : Nat) : Start :=
  if isAllowed code then .char (Char.ofNat code) width else .invalid

/-- How many bytes the first byte of a character in UTF-8 announces. -/
def utf8Width? (b : UInt8) : Option Nat :=
  if b < 0x80 then some 1
  else if b < 0xC0 then none
  else if b < 0xE0 then some 2
  else if b < 0xF0 then some 3
  else if b < 0xF8 then some 4
  else none

/-- What bytes in UTF-8 start with. -/
def ofUtf8 (t : Text) : Start :=
  match t with
  | []     => .incomplete
  | b :: _ =>
    match utf8Width? b with
    | none       => .invalid
    | some width =>
      if (t.take width).length < width then .incomplete
      else match Text.decode? (t.take width) with
        | some (code, _) => ofCode code width
        | none           => .invalid

/-- What bytes in UTF-16 start with. -/
def ofUtf16 (bigEndian : Bool) : Text → Start
  | a :: b :: t =>
    let u := Utf16.unit bigEndian a b
    if Utf16.isLow u then .invalid
    else if Utf16.isHigh u then
      match t with
      | c :: d :: _ =>
        let v := Utf16.unit bigEndian c d
        if Utf16.isLow v then ofCode (Utf16.codeOfPair u v) 4 else .invalid
      | _ => .incomplete
    else ofCode u 2
  | _ => .incomplete

end Start

/-- What bytes start with. -/
def Encoding.start : Encoding → Text → Start
  | .utf8            => Start.ofUtf8
  | .utf16 bigEndian => Start.ofUtf16 bigEndian

/-! ### Blocks -/

/-- Some characters of a text in a row, or nothing if they are not valid. -/
abbrev Block := Option (List Char)

/-- The number of bytes that are looked at together. -/
def blockSize : Nat := 512

/-- Decodes bytes behind characters in reverse. A character that is not complete is left over. -/
def decodeBlock (e : Encoding) : Nat → Text → List Char → Option (List Char × Text)
  | 0,     t, done => some (done.reverse, t)
  | n + 1, t, done =>
    if t = [] then some (done.reverse, [])
    else match e.start t with
      | .char c width => decodeBlock e n (t.drop width) (c :: done)
      | .incomplete   => some (done.reverse, t)
      | .invalid      => none

/-- The blocks of a text, the first one of the given size. What is left over of a block belongs to
the next one, and at the end of the text it is not valid. -/
def blocks (e : Encoding) : Nat → (size : Nat) → Text → List Block
  | 0,     _,    _ => []
  | n + 1, size, t =>
    match decodeBlock e size (t.take size) [] with
    | none            => [none]
    | some (cs, left) =>
      match t.drop size with
      | []   => if left = [] then [some cs] else [some cs, none]
      | rest => some cs :: blocks e n blockSize (left ++ rest)

/-- The blocks of a text. A byte order mark counts for the size of the first one. -/
def blocksOf (t : Text) : List Block :=
  match t with
  | 0xFF :: 0xFE :: rest         => blocks (.utf16 false) (t.length + 1) (blockSize - 2) rest
  | 0xFE :: 0xFF :: rest         => blocks (.utf16 true) (t.length + 1) (blockSize - 2) rest
  | 0xEF :: 0xBB :: 0xBF :: rest => blocks .utf8 (t.length + 1) (blockSize - 3) rest
  | _                            => blocks .utf8 (t.length + 1) blockSize t

/-! ### Taking characters -/

/-- The characters of a text from some place on. -/
structure Source where
  /-- The characters that have been asked for and a few more. -/
  ahead : List Char := []
  /-- The blocks that nobody has asked for. -/
  later : List Block
  /-- The character that was next when characters were last asked for that were not at hand. -/
  anchor : Char := nul
  deriving Repr

namespace Source

/-- All characters of a text. -/
def ofText (t : Text) : Source := { later := blocksOf t }

/-- Takes blocks until so many characters are at hand. At the end of the text one character is
added each time. -/
def load (n : Nat) (ahead : List Char) : List Block → Option (List Char × List Block)
  | []               => some (ahead ++ [nul], [])
  | none :: _        => none
  | some cs :: later =>
    if n ≤ (ahead ++ cs).length then some (ahead ++ cs, later) else load n (ahead ++ cs) later

/-- Makes sure that a positive number of characters is at hand, if the text goes on that far. -/
def need (s : Source) (n : Nat) : Option Source :=
  match s.ahead.drop (n - 1) with
  | _ :: _ => some s
  | []     =>
    (load n s.ahead s.later).map fun (ahead, later) =>
      { ahead := ahead, later := later, anchor := ahead.headD nul }

/-- The character at some distance. -/
def get (s : Source) (i : Nat) : Char := s.ahead.getD i nul

/-- Steps over characters. -/
def drop (s : Source) (n : Nat) : Source := { s with ahead := s.ahead.drop n }

/-- A bound for the number of characters that are left. -/
def size (s : Source) : Nat :=
  s.later.foldl (fun n b => n + (b.getD []).length) s.ahead.length

end Source

end Frontend.Yaml
