import Frontend.Text.Chars

/-!
# Numbers in YAML

Integers have 64 bits, with or without a sign, and may be written in four bases. Numbers with a
fraction are taken as floating-point numbers of double precision. All that counts of one is the
integer it is truncated to, so that is how it is represented.
-/

namespace Frontend.Yaml

/-- The sign of a number, if it has one: whether it is negative, and what follows the sign. -/
def signed (cs : List Char) : Option Bool × List Char :=
  match cs with
  | '-' :: ds => (some true, ds)
  | '+' :: ds => (some false, ds)
  | ds        => (none, ds)

/-- An integer with its sign, if it fits into 64 bits. One bit more is there without a sign. -/
def fitted (sign : Option Bool) (n : Nat) : Option Int :=
  match sign with
  | some true  => if n ≤ Text.int64Bound then some (-(n : Int)) else none
  | some false => if n < Text.int64Bound then some n else none
  | none       => if n < UInt64.size then some n else none

/-- Digits in a base, behind a sign or not. -/
def integerIn? (base : Nat) (cs : List Char) : Option Int :=
  let (sign, ds) := signed cs
  (Text.natOfDigits? base ds).bind (fitted sign)

/-- Digits behind the mark of their base. A leading zero marks octal digits. -/
def basedDigits? : List Char → Option Nat
  | '0' :: 'x' :: ds => Text.natOfDigits? 16 ds
  | '0' :: 'X' :: ds => Text.natOfDigits? 16 ds
  | '0' :: 'o' :: ds => Text.natOfDigits? 8 ds
  | '0' :: 'O' :: ds => Text.natOfDigits? 8 ds
  | '0' :: 'b' :: ds => Text.natOfDigits? 2 ds
  | '0' :: 'B' :: ds => Text.natOfDigits? 2 ds
  | '0' :: d :: ds   => Text.natOfDigits? 8 (d :: ds)
  | ds               => Text.natOfDigits? 10 ds

/-- An integer without underscores. -/
def integer? (cs : List Char) : Option Int :=
  let (sign, ds) := signed cs
  (basedDigits? ds).bind (fitted sign)

/-- An integer whose sign stands behind the mark of its base. -/
def innerSigned? : List Char → Option Int
  | '0' :: 'b' :: cs => integerIn? 2 cs
  | '0' :: 'o' :: cs => integerIn? 8 cs
  | _                => none

/-! ### Floating-point numbers -/

/-- A fraction rounded to 53 significant bits, a half to the even neighbour, and then truncated. -/
def truncatedDouble (num den : Nat) : Nat :=
  if num = 0 ∨ den = 0 then 0
  else
    let guess : Int := (num.log2 : Int) - den.log2 - 52
    let scaled (k : Int) : Nat × Nat :=
      if 0 ≤ k then (num, den <<< k.toNat) else (num <<< (-k).toNat, den)
    let k := if (scaled guess).1 / (scaled guess).2 < 1 <<< 52 then guess - 1 else guess
    let n := (scaled k).1
    let d := (scaled k).2
    let q := n / d
    let r := n % d
    let rounded := if 2 * r > d ∨ (2 * r = d ∧ q % 2 = 1) then q + 1 else q
    if 0 ≤ k then rounded <<< k.toNat else rounded >>> (-k).toNat

/-- The integer that a floating-point number with a truncated magnitude is converted to: none
above 2^63, and the least one for all that is out of range otherwise. -/
def ofTruncated (negative : Bool) (n : Nat) : Option Int :=
  if negative then some (max (-(n : Int)) (-Text.int64Bound))
  else if n < Text.int64Bound then some n
  else if n = Text.int64Bound then some (-Text.int64Bound)
  else none

/-- The least number that is rounded to one beyond all floating-point numbers. -/
def doubleBound : Nat := (1 <<< 1024) - (1 <<< 970)

/-- A decimal fraction as a floating-point number: the integer that it is converted to, if there is
one. Nothing comes out if the number is too large. -/
def ofDecimal (negative : Bool) (digits : List Char) (shift : Int) : Option (Option Int) :=
  match Text.natOfDigits? 10 digits with
  | none   => none
  | some m =>
    let size := (digits.dropWhile (· == '0')).length + shift
    if m = 0 ∨ size < -1 then some (some 0)
    else if 310 < size then none
    else if 25 < size then
      let reaches : Bool :=
        if 0 ≤ shift then doubleBound ≤ m * Nat.pow 10 shift.toNat
        else doubleBound * Nat.pow 10 (-shift).toNat ≤ m
      if reaches then none else some (if negative then some (-Text.int64Bound) else none)
    else
      some (ofTruncated negative
        (if 0 ≤ shift then truncatedDouble (m * Nat.pow 10 shift.toNat) 1
         else truncatedDouble m (Nat.pow 10 (-shift).toNat)))

/-- A decimal number with a fraction or an exponent or both, without underscores. -/
def float? (cs : List Char) : Option (Option Int) :=
  let (sign, body) := signed cs
  let isE (c : Char) : Bool := c == 'e' || c == 'E'
  let mantissa := body.takeWhile fun c => !isE c
  let whole := mantissa.takeWhile (· != '.')
  let fraction := (mantissa.dropWhile (· != '.')).tail
  let exponent : Option Int :=
    match body.dropWhile fun c => !isE c with
    | []             => some 0
    | _ :: '-' :: ds => (Text.natOfDigits? 10 ds).map fun n => -(n : Int)
    | _ :: '+' :: ds => (Text.natOfDigits? 10 ds).map Int.ofNat
    | _ :: ds        => (Text.natOfDigits? 10 ds).map Int.ofNat
  exponent.bind fun e => ofDecimal (sign == some true) (whole ++ fraction) (e - fraction.length)

/-- Underscores only stand between two digits. -/
def spacedWell : (afterDigit : Bool) → List Char → Bool
  | _,          []        => true
  | afterDigit, '_' :: cs => afterDigit && (cs.headD ' ').isDigit && spacedWell false cs
  | _,          c :: cs   => spacedWell c.isDigit cs

end Frontend.Yaml
