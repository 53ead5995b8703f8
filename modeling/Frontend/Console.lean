import Frontend.Failure

/-!
# Actions on a console

What a command does to the outside, short of changing files, is to write. An `Action` writes to a
console and then finishes or fails; what was written before a failure stays written.
-/

namespace Frontend

/-- What has been written so far. -/
structure Console where
  /-- The answers of commands. -/
  out : Text := []
  /-- Notes about the progress of commands. -/
  notes : Text := []
  deriving DecidableEq, Repr, Inhabited

/-- A step that writes to a console and can fail. -/
abbrev Action := EStateM Failure Console

namespace Action

/-- Writes a text to the output. -/
def print (t : Text) : Action Unit := modify fun c => { c with out := c.out ++ t }

/-- Writes a text and a line end to the output. -/
def printLine (t : Text) : Action Unit := print (t ++ [0x0A])

/-- Writes a text and a line end to the notes, if notes are asked for. -/
def note (verbose : Bool) (t : Text) : Action Unit :=
  if verbose then modify fun c => { c with notes := c.notes ++ (t ++ [0x0A]) } else pure ()

/-- The value of a computation, or its failure in some context. -/
def ofExceptWithin {α : Type} (context : String) : Except Failure α → Action α
  | .ok a    => pure a
  | .error e => throw (.within (Text.ofString context) e)

/-- Runs an action on a console; what was written is given in both cases. -/
def runOn {α : Type} (a : Action α) (c : Console) : Except Failure α × Console :=
  match a c with
  | .ok x c    => (.ok x, c)
  | .error e c => (.error e, c)

end Action

end Frontend
