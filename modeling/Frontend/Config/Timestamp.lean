import Frontend.Text.Chars

/-!
# Dates and times in config files

A date is a year of four digits, a month and a day, and there may be a time of day behind it. In
TOML all fields have their full width, a time may stand alone, and its zone may be missing. In YAML
the fields other than the year may have one digit. Behind the letter T the time has a zone there,
and behind blanks it has none.
-/

namespace Frontend.Timestamp

/-- A reader takes something from the start of some characters. -/
abbrev Reader (α : Type) := List Char → Option (α × List Char)

/-! ### Fields -/

/-- A number of at least so many digits and at most so many, between bounds. -/
def field (least most low high : Nat) : Reader Nat := fun cs =>
  let ds := (cs.take most).takeWhile Char.isDigit
  match Text.natOfDigits? 10 ds with
  | some n =>
    if least ≤ ds.length ∧ low ≤ n ∧ n ≤ high then some (n, cs.drop ds.length) else none
  | none   => none

/-- Drops a character that must be there. -/
def mark (accepted : List Char) : Reader Unit
  | c :: cs => if accepted.contains c then some ((), cs) else none
  | []      => none

/-- The number of days of a month. -/
def daysIn (year month : Nat) : Nat :=
  if month = 2 then
    if year % 4 = 0 ∧ (year % 100 ≠ 0 ∨ year % 400 = 0) then 29 else 28
  else if month = 4 ∨ month = 6 ∨ month = 9 ∨ month = 11 then 30
  else 31

/-- A date, whose month and day have at least so many digits. -/
def date (least : Nat) : Reader Unit := fun cs => do
  let (year, cs) ← field 4 4 0 9999 cs
  let (_, cs) ← mark ['-'] cs
  let (month, cs) ← field least 2 1 12 cs
  let (_, cs) ← mark ['-'] cs
  let (_, cs) ← field least 2 1 (daysIn year month) cs
  return ((), cs)

/-- Hours, minutes and seconds of at least so many digits. -/
def clock (least : Nat) : Reader Unit := fun cs => do
  let (_, cs) ← field least 2 0 23 cs
  let (_, cs) ← mark [':'] cs
  let (_, cs) ← field least 2 0 59 cs
  let (_, cs) ← mark [':'] cs
  let (_, cs) ← field least 2 0 59 cs
  return ((), cs)

/-- An offset from universal time in hours and minutes. -/
def offset : Reader Unit := fun cs => do
  let (_, cs) ← mark ['+', '-'] cs
  let (_, cs) ← field 2 2 0 24 cs
  let (_, cs) ← mark [':'] cs
  let (_, cs) ← field 2 2 0 60 cs
  return ((), cs)

/-! ### In TOML -/

/-- A time of day, with or without a fraction of a second. -/
def tomlTime : Reader Unit := fun cs => do
  let (_, cs) ← clock 2 cs
  match cs with
  | '.' :: cs =>
    if (cs.takeWhile Char.isDigit).isEmpty then none else return ((), cs.dropWhile Char.isDigit)
  | cs        => return ((), cs)

/-- The zone of a time, which may be missing. -/
def tomlZone : Reader Unit
  | []        => some ((), [])
  | 'Z' :: cs => some ((), cs)
  | 'z' :: cs => some ((), cs)
  | cs        => offset cs

/-- The characters are a date, a time, or both. -/
def isToml (cs : List Char) : Bool :=
  match date 2 cs with
  | some (_, [])  => true
  | some (_, cs)  =>
    let time := (mark ['T', 't', ' '] cs).bind fun (_, cs) => tomlTime cs
    match time.bind fun (_, cs) => tomlZone cs with
    | some (_, []) => true
    | _            => false
  | none          =>
    match tomlTime cs with
    | some (_, []) => true
    | _            => false

/-! ### In YAML -/

/-- Drops a fraction of a second, if there is one. -/
def skipFraction : List Char → List Char
  | c :: d :: cs =>
    if (c == '.' || c == ',') && d.isDigit then cs.dropWhile Char.isDigit else c :: d :: cs
  | cs           => cs

/-- A time of day, with or without a fraction of a second. -/
def yamlTime : Reader Unit := fun cs => do
  let (_, cs) ← clock 1 cs
  return ((), skipFraction cs)

/-- The zone of a time, which must be there. -/
def yamlZone : Reader Unit
  | 'Z' :: cs => some ((), cs)
  | cs        => offset cs

/-- The characters are a date or a date with a time. -/
def isYaml (cs : List Char) : Bool :=
  match date 1 cs with
  | none            => false
  | some (_, [])    => true
  | some (_, c :: cs) =>
    if c == 'T' || c == 't' then
      match yamlTime cs with
      | some (_, cs) => (yamlZone cs).any fun r => r.2 == []
      | none         => false
    else c == ' ' && (yamlTime (cs.dropWhile (· == ' '))).any fun r => r.2 == []

end Frontend.Timestamp
