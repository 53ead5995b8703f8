import Frontend.Config.Timestamp

/-!
# TOML documents

The grammar of TOML 1.0: a document is a list of statements, which define keys or open tables.
What the statements mean together is the matter of `Frontend.Config.Toml.Table`.

Readers take characters and give what they have read with the characters left, or nothing if the
text is not in the format.
-/

namespace Frontend.Toml

/-- A key is a list of names, which are written with dots between them. -/
abbrev Key := List Text

/-- A value as it is written. -/
inductive Value
  | string (text : Text)
  | integer (number : Int)
  | float (spelling : Text)
  | boolean (truth : Bool)
  | datetime (spelling : Text)
  | array (items : List Value)
  /-- A table between braces. -/
  | inlineTable (pairs : List (Key × Value))
  deriving Repr, Inhabited

/-- A statement of a document. -/
inductive Statement
  /-- A key with its value. -/
  | assign (key : Key) (value : Value)
  /-- The header of a table, which the keys behind it belong to. -/
  | table (key : Key)
  /-- The header of another element of an array of tables. -/
  | element (key : Key)
  deriving Repr, Inhabited

/-- A reader of something at the start of a text. -/
abbrev Reader (α : Type) := List Char → Option (α × List Char)

/-! ### Characters -/

/-- Blanks may stand between the parts of a statement. -/
def isBlank (c : Char) : Bool := c == ' ' || c == '\t'

/-- Either half of a line end. -/
def isLineEnd (c : Char) : Bool := c == '\n' || c == '\r'

/-- A character of a name that needs no quotes. -/
def isBare (c : Char) : Bool := c.isAlphanum || c == '_' || c == '-'

/-- Drops blanks. -/
def skipBlanks (cs : List Char) : List Char := cs.dropWhile isBlank

/-- No control characters but tabs and line ends, and no carriage return without a line feed. -/
def isClean : List Char → Bool
  | [] => true
  | '\r' :: '\n' :: cs => isClean cs
  | c :: cs =>
    (c == '\t' || c == '\n' || (0x20 ≤ c.toNat && c.toNat != 0x7F)) && isClean cs

/-! ### Strings -/

/-- A character given by so many hexadecimal digits. -/
def codePoint (width : Nat) : Reader Char := fun cs =>
  if (cs.take width).length < width then none
  else
    match Text.natOfDigits? 16 (cs.take width) with
    | some n => if Text.isScalar n then some (Char.ofNat n, cs.drop width) else none
    | none   => none

/-- The character that an escape stands for, behind the backslash. -/
def escape : Reader Char
  | 'b' :: cs  => some ('\x08', cs)
  | 't' :: cs  => some ('\t', cs)
  | 'n' :: cs  => some ('\n', cs)
  | 'f' :: cs  => some ('\x0c', cs)
  | 'r' :: cs  => some ('\r', cs)
  | '"' :: cs  => some ('"', cs)
  | '\\' :: cs => some ('\\', cs)
  | 'u' :: cs  => codePoint 4 cs
  | 'U' :: cs  => codePoint 8 cs
  | _          => none

/-- A string on one line up to its closing double quote. -/
def basicString : Nat → List Char → Reader (List Char)
  | 0,     _,    _  => none
  | n + 1, done, cs =>
    match cs with
    | []         => none
    | '"' :: cs  => some (done.reverse, cs)
    | '\\' :: cs =>
      match escape cs with
      | some (c, cs) => basicString n (c :: done) cs
      | none         => none
    | c :: cs    => if isLineEnd c then none else basicString n (c :: done) cs

/-- A string without escapes on one line up to its closing single quote. -/
def literalString (done : List Char) : Reader (List Char)
  | []         => none
  | '\'' :: cs => some (done.reverse, cs)
  | c :: cs    => if isLineEnd c then none else literalString (c :: done) cs

/-- Drops a line end at the start of a string of several lines. -/
def skipFirstLineEnd : List Char → List Char
  | '\n' :: cs         => cs
  | '\r' :: '\n' :: cs => cs
  | cs                 => cs

/-- A string of several lines up to three closing quotes, before which up to two more may stand, or
three behind an escaped backslash. Escapes are read if the quote is the double one; a backslash at
the end of a line takes the following whitespace away. -/
def multilineString (quote : Char) : Nat → (slash : Bool) → List Char → Reader (List Char)
  | 0,     _,     _,    _  => none
  | n + 1, slash, done, cs =>
    match cs with
    | []      => none
    | c :: cs =>
      if c = quote then
        let more := cs.takeWhile (· == quote)
        let rest := cs.dropWhile (· == quote)
        if more.length < 2 then multilineString quote n false (c :: more ++ done) rest
        else if more.length < (if slash then 6 else 5) then
          some ((List.replicate (more.length - 2) quote ++ done).reverse, rest)
        else none
      else if c = '\\' ∧ quote = '"' then
        let gap := cs.takeWhile fun c => isBlank c || isLineEnd c
        if gap.contains '\n' then
          multilineString quote n false done (cs.dropWhile fun c => isBlank c || isLineEnd c)
        else
          match escape cs with
          | some (e, rest) =>
            multilineString quote n (cs.head? == some '\\') (e :: done) rest
          | none           => none
      else multilineString quote n false (c :: done) cs

/-- A quoted name, or a string on one line. -/
def quoted : Reader Text
  | '"' :: cs  => (basicString (cs.length + 1) [] cs).map fun (s, cs) => (Text.ofChars s, cs)
  | '\'' :: cs => (literalString [] cs).map fun (s, cs) => (Text.ofChars s, cs)
  | _          => none

/-- A string of any form. -/
def string : Reader Text
  | '"' :: '"' :: '"' :: cs =>
    (multilineString '"' (cs.length + 1) false [] (skipFirstLineEnd cs)).map fun (s, cs) =>
      (Text.ofChars s, cs)
  | '\'' :: '\'' :: '\'' :: cs =>
    (multilineString '\'' (cs.length + 1) false [] (skipFirstLineEnd cs)).map fun (s, cs) =>
      (Text.ofChars s, cs)
  | cs => quoted cs

/-! ### Keys -/

/-- One name of a key. -/
def name : Reader Text := fun cs =>
  match cs with
  | '"' :: _  => quoted cs
  | '\'' :: _ => quoted cs
  | _         =>
    match cs.takeWhile isBare with
    | []    => none
    | bare => some (Text.ofChars bare, cs.dropWhile isBare)

/-- The names of a key with dots between them, and the blanks behind it. -/
def key : Nat → Reader Key
  | 0,     _  => none
  | n + 1, cs =>
    match name (skipBlanks cs) with
    | none           => none
    | some (part, cs) =>
      match skipBlanks cs with
      | '.' :: cs => (key n cs).map fun (parts, cs) => (part :: parts, cs)
      | cs        => some ([part], cs)

/-! ### Numbers and dates -/

/-- Each underscore stands between two digits. -/
def underscoresFit (isDigit : Char → Bool) : List Char → Bool
  | []          => false
  | [c]         => isDigit c
  | c :: d :: cs =>
    if d == '_' then isDigit c && underscoresFit isDigit (d :: cs)
    else (isDigit c || c == '_') && underscoresFit isDigit (d :: cs)

/-- The digits of a number without its underscores, if these are well placed. -/
def digits? (base : Nat) (cs : List Char) : Option (List Char) :=
  let isDigit c := match Text.digitValue? c with
    | some d => d < base
    | none   => false
  if underscoresFit isDigit cs && cs.head? != some '_' then some (cs.filter (· != '_')) else none

/-- A run of digits that does not start with a zero in front of others. -/
def wholeDigits? (cs : List Char) : Option (List Char) :=
  match digits? 10 cs with
  | some ('0' :: _ :: _) => none
  | ds                   => ds

/-- A sign and what follows it. -/
def splitSign : List Char → Bool × List Char
  | '-' :: cs => (true, cs)
  | '+' :: cs => (false, cs)
  | cs        => (false, cs)

/-- An integer in decimal, or behind its mark in another base. -/
def integer? (cs : List Char) : Option Int :=
  let number : Option Int :=
    match cs with
    | '0' :: 'x' :: ds => ((digits? 16 ds).bind (Text.natOfDigits? 16)).map Int.ofNat
    | '0' :: 'o' :: ds => ((digits? 8 ds).bind (Text.natOfDigits? 8)).map Int.ofNat
    | '0' :: 'b' :: ds => ((digits? 2 ds).bind (Text.natOfDigits? 2)).map Int.ofNat
    | _ =>
      let signed := splitSign cs
      ((wholeDigits? signed.2).bind (Text.natOfDigits? 10)).map fun n =>
        if signed.1 then -(n : Int) else n
  number.filter Text.fitsInt64

/-- A decimal with so many digits behind the point rounds to a finite double. -/
def isFinite (ds : List Char) (exponent : Int) : Bool :=
  match Text.natOfDigits? 10 ds with
  | none   => false
  | some m =>
    let size := (ds.dropWhile (· == '0')).length + exponent
    if m = 0 ∨ size < 300 then true
    else if 320 < size then false
    else
      let limit := ((1 <<< 54) - 1) <<< 970
      if 0 ≤ exponent then m * Nat.pow 10 exponent.toNat < limit
      else m < limit * Nat.pow 10 (-exponent).toNat

/-- The spelling is one of a floating-point number in range. -/
def isFloat (cs : List Char) : Bool :=
  let body := (splitSign cs).2
  if body = "inf".toList ∨ body = "nan".toList then true
  else
    let mantissa := body.takeWhile fun c => c != 'e' && c != 'E'
    let whole := mantissa.takeWhile (· != '.')
    let point := mantissa.dropWhile (· != '.')
    let power := body.dropWhile fun c => c != 'e' && c != 'E'
    let fraction := match point with
      | []      => some []
      | _ :: ds => digits? 10 ds
    let exponent := match power with
      | []      => some 0
      | _ :: cs =>
        let signed := splitSign cs
        ((digits? 10 signed.2).bind (Text.natOfDigits? 10)).map fun n =>
          if signed.1 then -(n : Int) else n
    match wholeDigits? whole, fraction, exponent with
    | some ds, some fs, some e =>
      (point != [] || power != []) && isFinite (ds ++ fs) (e - fs.length)
    | _,       _,       _      => false

/-- A character of a date or time behind its first digits. -/
def isDatetimeChar (c : Char) : Bool := c.isDigit || "-:Tt .Zz+".toList.contains c

/-- A character of a number. -/
def isNumberChar (c : Char) : Bool := c.isAlphanum || "_+-.".toList.contains c

/-- A number, a date, a truth value. -/
def plainValue : Reader Value := fun cs =>
  match cs.dropWhile Char.isDigit with
  | c :: _ =>
    if (c == '-' || c == ':') && (cs.headD ' ').isDigit then
      let spelling := ((cs.takeWhile isDatetimeChar).reverse.dropWhile (· == ' ')).reverse
      if Timestamp.isToml spelling then
        some (.datetime (Text.ofChars spelling), cs.dropWhile isDatetimeChar)
      else none
    else number cs
  | [] => number cs
where
  /-- What is neither a date nor a time. -/
  number (cs : List Char) : Option (Value × List Char) :=
    let spelling := cs.takeWhile isNumberChar
    let rest := cs.dropWhile isNumberChar
    if spelling = "true".toList then some (.boolean true, rest)
    else if spelling = "false".toList then some (.boolean false, rest)
    else match integer? spelling with
      | some n => some (.integer n, rest)
      | none   => if isFloat spelling then some (.float (Text.ofChars spelling), rest) else none

/-! ### Values and statements -/

/-- Drops a comment up to its line end. -/
def skipComment (cs : List Char) : List Char := cs.dropWhile fun c => !isLineEnd c

/-- Drops blanks, line ends and comments. -/
def skipLines : Nat → List Char → List Char
  | 0,     cs => cs
  | n + 1, cs =>
    match cs.dropWhile fun c => isBlank c || isLineEnd c with
    | '#' :: cs => skipLines n (skipComment cs)
    | cs        => cs

mutual

/-- A value. -/
def value : Nat → Reader Value
  | 0,     _  => none
  | n + 1, cs =>
    match cs with
    | '"' :: _    => (string cs).map fun (s, cs) => (.string s, cs)
    | '\'' :: _   => (string cs).map fun (s, cs) => (.string s, cs)
    | '[' :: cs   => (arrayItems n cs).map fun (vs, cs) => (.array vs, cs)
    | '\x7b' :: cs =>
      match skipBlanks cs with
      | '\x7d' :: cs => some (.inlineTable [], cs)
      | cs           => (tablePairs n cs).map fun (ps, cs) => (.inlineTable ps, cs)
    | _           => plainValue cs

/-- The values of an array up to its closing bracket. A comma may stand behind the last. -/
def arrayItems : Nat → Reader (List Value)
  | 0,     _  => none
  | n + 1, cs =>
    match skipLines cs.length cs with
    | ']' :: cs => some ([], cs)
    | cs        =>
      match value n cs with
      | none         => none
      | some (v, cs) =>
        match skipLines cs.length cs with
        | ',' :: cs => (arrayItems n cs).map fun (vs, cs) => (v :: vs, cs)
        | ']' :: cs => some ([v], cs)
        | _         => none

/-- The keys and values of an inline table up to its closing brace. -/
def tablePairs : Nat → Reader (List (Key × Value))
  | 0,     _  => none
  | n + 1, cs =>
    match key (cs.length + 1) cs with
    | some (k, '=' :: cs) =>
      match value n (skipBlanks cs) with
      | none         => none
      | some (v, cs) =>
        match skipBlanks cs with
        | ',' :: cs    => (tablePairs n cs).map fun (ps, cs) => ((k, v) :: ps, cs)
        | '\x7d' :: cs => some ([(k, v)], cs)
        | _            => none
    | _ => none

end

/-- What may follow a statement on its line: blanks and a comment. -/
def endOfLine (cs : List Char) : Option (List Char) :=
  match skipBlanks cs with
  | []        => some []
  | '#' :: cs => some (skipComment cs)
  | c :: cs   => if isLineEnd c then some cs else none

/-- One statement. -/
def statement : Reader Statement := fun cs =>
  match cs with
  | '[' :: '[' :: cs =>
    match key (cs.length + 1) cs with
    | some (k, ']' :: ']' :: cs) => some (.element k, cs)
    | _                          => none
  | '[' :: cs =>
    match key (cs.length + 1) cs with
    | some (k, ']' :: cs) => some (.table k, cs)
    | _                   => none
  | cs =>
    match key (cs.length + 1) cs with
    | some (k, '=' :: cs) =>
      (value (2 * cs.length + 2) (skipBlanks cs)).map fun (v, cs) => (.assign k v, cs)
    | _                   => none

/-- The statements of a document. -/
def statements : Nat → List Char → Option (List Statement)
  | 0,     _  => none
  | n + 1, cs =>
    match skipLines cs.length cs with
    | [] => some []
    | cs =>
      match statement cs with
      | none         => none
      | some (s, cs) => (endOfLine cs).bind fun cs => (statements n cs).map (s :: ·)

/-- The statements of a text. A byte order mark at its start is skipped. -/
def document (text : Text) : Option (List Statement) :=
  let body :=
    match text with
    | 0xEF :: 0xBB :: 0xBF :: rest => rest
    | 0xFF :: 0xFE :: rest         => rest
    | 0xFE :: 0xFF :: rest         => rest
    | _                            => text
  match Text.chars? body with
  | some cs => if isClean cs then statements (cs.length + 1) cs else none
  | none    => none

end Frontend.Toml
