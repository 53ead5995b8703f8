import Frontend.Text

/-!
# Base64

Bytes written with an alphabet of 64 letters, three bytes as four letters. The last group is
filled up with equals signs, and line ends between the letters do not count.
-/

namespace Frontend.Text.Base64

/-- The value of a letter. -/
def value? (b : UInt8) : Option Nat :=
  if 0x41 ≤ b ∧ b ≤ 0x5A then some (b.toNat - 0x41)
  else if 0x61 ≤ b ∧ b ≤ 0x7A then some (b.toNat - 0x61 + 26)
  else if 0x30 ≤ b ∧ b ≤ 0x39 then some (b.toNat - 0x30 + 52)
  else if b = 0x2B then some 62
  else if b = 0x2F then some 63
  else none

/-- The three bytes of a group of four letters. -/
def group? (a b c d : UInt8) : Option Text := do
  let n := 64 * (64 * (64 * (← value? a) + (← value? b)) + (← value? c)) + (← value? d)
  return [(n / 0x10000).toUInt8, (n / 0x100 % 0x100).toUInt8, (n % 0x100).toUInt8]

/-- The bytes of groups of four letters. Only the last one can end in equals signs, and those
stand for the bytes that are missing. -/
def groups? : Text → Option Text
  | []                     => some []
  | [a, b, 0x3D, 0x3D]     => (group? a b 0x41 0x41).map (·.take 1)
  | [a, b, c, 0x3D]        => (group? a b c 0x41).map (·.take 2)
  | a :: b :: c :: d :: ls => do
    let bytes ← group? a b c d
    let rest ← groups? ls
    return bytes ++ rest
  | _                      => none

/-- The bytes that a text stands for. -/
def decode? (t : Text) : Option Text := groups? (t.filter fun b => b != 0x0A && b != 0x0D)

end Frontend.Text.Base64
