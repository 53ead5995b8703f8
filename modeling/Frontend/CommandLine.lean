import Frontend.Command
import Frontend.Text.Distance

/-!
# The command line

A command line is a list of words and flags in any order. The first word that is not the value of
a flag names the command, and the other words are its arguments. Flags end at `--`.

While the command is not known yet, a flag that is not a known switch counts as one with a value,
so that the word behind it is not taken for the command.
-/

namespace Frontend

/-! ### Flags -/

/-- A flag. -/
inductive Flag
  | config
  | verbose
  | write
  | help
  deriving DecidableEq, Repr

namespace Flag

/-- The name of a flag, which stands behind two dashes. -/
def name : Flag → Text
  | .config  => Text.ofString "config"
  | .verbose => Text.ofString "verbose"
  | .write   => Text.ofString "write"
  | .help    => Text.ofString "help"

/-- The letter of a flag, which stands behind one dash. Flags with a letter are switches. -/
def letter? : Flag → Option UInt8
  | .config  => none
  | .verbose => some 0x76
  | .write   => some 0x77
  | .help    => some 0x68

/-- A switch is on or off; any other flag has a text for its value. -/
def isSwitch (f : Flag) : Bool := f != .config

/-- A flag as it is named in messages. -/
def render (f : Flag) : Text :=
  match f.letter? with
  | some letter => 0x2D :: letter :: Text.ofString ", --" ++ f.name
  | none        => Text.ofString "--" ++ f.name

/-- The flags that every command has. -/
def common : List Flag := [.config, .verbose, .help]

end Flag

/-- The texts for on and off. -/
def switchOf? (t : Text) : Option Bool :=
  if t ∈ ["1", "t", "T", "TRUE", "true", "True"].map Text.ofString then some true
  else if t ∈ ["0", "f", "F", "FALSE", "false", "False"].map Text.ofString then some false
  else none

/-- What the flags of a command line say. -/
structure FlagValues where
  options : Options := {}
  write : Bool := false
  help : Bool := false
  deriving DecidableEq, Repr

/-- What an argument turns out to be. -/
inductive Reading
  | word
  /-- A flag that has been taken in. -/
  | flag (v : FlagValues)
  /-- A flag whose value is the next argument. -/
  | valueless (f : Flag)
  | endOfFlags
  deriving DecidableEq, Repr

namespace FlagValues

/-- A switch put on or off. -/
def setSwitch (v : FlagValues) (b : Bool) : Flag → FlagValues
  | .config  => v
  | .verbose => { v with options.verbose := b }
  | .write   => { v with write := b }
  | .help    => { v with help := b }

/-- A flag set to a value; that of a switch must be one of the texts for on and off. -/
def set (v : FlagValues) (f : Flag) (value : Text) : Except Failure FlagValues :=
  if f.isSwitch then
    match switchOf? value with
    | some b => .ok (v.setSwitch b f)
    | none   => .error (.plain (Text.ofString "invalid argument " ++ value.quote ++
        Text.ofString " for " ++ f.render.quote ++
        Text.ofString " flag: strconv.ParseBool: parsing " ++ value.quote ++
        Text.ofString ": invalid syntax"))
  else .ok { v with options.config := value }

/-- Reads a group of flag letters, which may end in `=` and a value for the last of them. A group
that goes on with `test.` is left to test runners. -/
def readLetters (flags : List Flag) : Text → FlagValues → Except Failure FlagValues
  | [],          v => .ok v
  | c :: letters, v =>
    if (Text.ofString "test.").isPrefixOf (c :: letters) then .ok v
    else
      match flags.find? fun f => f.letter? == some c, letters with
      | none, _ => .error (.plain (Text.ofString "unknown shorthand flag: " ++
          Text.quoteChar c.toNat ++ Text.ofString " in -" ++ c :: letters))
      | some f, 0x3D :: b :: value => v.set f (b :: value)
      | some f, _ => readLetters flags letters (v.setSwitch true f)

/-- Reads a flag by its name, with or without a value behind `=`. -/
def readName (flags : List Flag) (text : Text) (v : FlagValues) : Except Failure Reading :=
  let (name, value?) := match Text.cut? 0x3D text with
    | some (name, value) => (name, some value)
    | none               => (text, none)
  match flags.find? (fun f => f.name == name), value? with
  | none, _         => .error (.plain (Text.ofString "unknown flag: --" ++ name))
  | some f, some value => Reading.flag <$> v.set f value
  | some f, none    => .ok (if f.isSwitch then .flag (v.setSwitch true f) else .valueless f)

/-- Reads one argument. -/
def readArgument (flags : List Flag) (arg : Text) (v : FlagValues) : Except Failure Reading :=
  match arg with
  | [0x2D, 0x2D] => .ok .endOfFlags
  | 0x2D :: 0x2D :: b :: text =>
    if b = 0x2D ∨ b = 0x3D then .error (.plain (Text.ofString "bad flag syntax: " ++ arg))
    else readName flags (b :: text) v
  | 0x2D :: b :: letters => Reading.flag <$> readLetters flags (b :: letters) v
  | _                    => .ok .word

/-- Reads the words and flags of a command line; the words are given in their order. -/
def read (flags : List Flag) : List Text → FlagValues → Except Failure (FlagValues × List Text)
  | [],          v => .ok (v, [])
  | arg :: args, v => do
    match ← readArgument flags arg v with
    | .endOfFlags  => return (v, args)
    | .flag v      => read flags args v
    | .valueless f =>
      match args with
      | []            => throw (.plain (Text.ofString "flag needs an argument: " ++ arg))
      | value :: rest => read flags rest (← v.set f value)
    | .word        =>
      let (v, words) ← read flags args v
      return (v, arg :: words)

end FlagValues

/-! ### Commands -/

/-- The name of a command. -/
inductive Verb
  | parse
  | check
  | format
  | find
  | watch
  | list
  deriving DecidableEq, Repr

namespace Verb

/-- All verbs in the order in which they are suggested. -/
def all : List Verb := [.parse, .check, .format, .find, .watch, .list]

/-- The word for a command. -/
def name : Verb → Text
  | .parse  => Text.ofString "parse"
  | .check  => Text.ofString "check"
  | .format => Text.ofString "fmt"
  | .find   => Text.ofString "find"
  | .watch  => Text.ofString "watch"
  | .list   => Text.ofString "list"

/-- The flags of a command. -/
def flags : Verb → List Flag
  | .format => .write :: Flag.common
  | _       => Flag.common

/-- The number of words that a command takes. -/
def arity : Verb → Nat
  | .find => 2
  | _     => 1

/-- The command with its words and flags. -/
def toCommand? (verb : Verb) (v : FlagValues) (words : List Text) : Option Command :=
  match verb, words with
  | .parse,  [path]        => some (.parse path)
  | .check,  [path]        => some (.check path)
  | .format, [path]        => some (.format v.write path)
  | .find,   [query, path] => some (.find query path)
  | .watch,  [path]        => some (.watch path)
  | .list,   [path]        => some (.list path)
  | _,       _             => none

end Verb

/-- What a command line asks for. -/
inductive Invocation
  /-- Help on the commands and their flags. -/
  | help
  | command (options : Options) (command : Command)
  deriving DecidableEq, Repr

namespace CommandLine

/-- While the command is not known, the next argument counts as the value of this one. -/
def expectsValue (arg : Text) : Bool :=
  !arg.contains 0x3D &&
    match arg with
    | 0x2D :: 0x2D :: name => name != Flag.verbose.name
    | [0x2D, letter]       => Flag.verbose.letter? != some letter
    | _                    => false

/-- The word that names the command, and the arguments without it. -/
def verbAndRest? : List Text → Option (Text × List Text)
  | []          => none
  | arg :: args =>
    if arg = [0x2D, 0x2D] then none
    else if expectsValue arg then
      match args with
      | value :: next :: rest =>
        (verbAndRest? (next :: rest)).map fun r => (r.1, arg :: value :: r.2)
      | _ => none
    else if arg ≠ [] ∧ arg.head? ≠ some 0x2D then some (arg, args)
    else (verbAndRest? args).map fun r => (r.1, arg :: r.2)

/-- The words that name no command of a module: help, and completions for shells. -/
def helpWords : List Text := ["help", "completion"].map Text.ofString

/-- The names that may have been meant by a word: those it begins, and those within two edits. -/
def suggestions (word : Text) : List Text :=
  (Verb.all.map Verb.name ++ [Text.ofString "completion"]).filter fun name =>
    word.small.distance name ≤ 2 || word.small.isPrefixOf name

/-- The failure for a word that names no command. -/
def unknownVerb (word : Text) : Failure :=
  .plain (Text.ofString "unknown command " ++ word.quote ++ Text.ofString " for \"nillac\"" ++
    match suggestions word with
    | []    => []
    | names => Text.ofString "\n\nDid you mean this?\n" ++
        names.flatMap fun name => 0x09 :: name ++ [0x0A])

/-- Reads the arguments of a command. -/
def readCommand (verb : Verb) (args : List Text) : Except Failure Invocation := do
  let (v, words) ← FlagValues.read verb.flags args {}
  if v.help then return .help
  match verb.toCommand? v words with
  | some command => return .command v.options command
  | none         =>
    throw (.plain (Text.ofString "accepts " ++ Text.ofNat verb.arity ++
      Text.ofString " arg(s), received " ++ Text.ofNat words.length))

/-- Reads a command line. -/
def read (args : List Text) : Except Failure Invocation :=
  match verbAndRest? args with
  | none              => do
    let _ ← FlagValues.read Flag.common args {}
    return .help
  | some (word, rest) =>
    match Verb.all.find? fun verb => verb.name == word with
    | some verb => readCommand verb rest
    | none      => if word ∈ helpWords then .ok .help else .error (unknownVerb word)

/-- Runs a command line. Help is given by whoever reads the command line. -/
def run (t : FileTree) (signals : List (FileTree × Signal)) (args : List Text) :
    Action (Option Edit) := do
  match ← ofExcept (read args) with
  | .help                    => return none
  | .command options command => command.run options t signals

end CommandLine

end Frontend
