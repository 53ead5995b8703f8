import Frontend.Parser.Module

/-!
# Runs with a log

A run of the parser shows the cursor only when it is over. To speak of what happens on the way, the
parser can carry a log along with the cursor: every step is put down with the cursor behind it, and
so are the calls of the functions that are named after what they read, their successful returns, and
the sums that are formed of precedences.
-/

namespace Frontend

namespace Logged

/-- What can happen in a run. -/
inductive Event
  | step
  | called (r : Routine)
  /-- A call that was made at a cursor has succeeded. -/
  | returned (r : Routine) (start : Cursor)
  /-- One has been added to a precedence. -/
  | raised (level : Int)
  deriving DecidableEq

/-- An event and the cursor after it. -/
structure Record where
  event : Event
  cursor : Cursor
  deriving DecidableEq

/-- A cursor and what has been logged so far, the latest first. -/
structure Trace where
  cursor : Cursor
  log : List Record

/-- The trace with one more event at its cursor. -/
def Trace.put (t : Trace) (e : Event) : Trace := ⟨t.cursor, ⟨e, t.cursor⟩ :: t.log⟩

/-- A step is put down whether it succeeds or not, a return only if there is one. -/
instance : ParserState Trace where
  cursor t := t.cursor
  step p t :=
    match p t.cursor with
    | .ok x c    => .ok x (Trace.put ⟨c, t.log⟩ .step)
    | .error e c => .error e (Trace.put ⟨c, t.log⟩ .step)
  routine r l t :=
    match l (t.put (.called r)) with
    | .ok x t'    => .ok x (t'.put (.returned r t.cursor))
    | .error e t' => .error e t'
  raising level l t := l (t.put (.raised level))

variable {α : Type}

/-- The run over a token stream, from an empty log on. -/
def run (prec : Precedence) (tokens : List Token) :
    EStateM.Result SyntaxError Trace (List Definition) :=
  Parser.definitions prec (Trace.mk (.ofTokens tokens) [])

/-- A result without its log. -/
def forget : EStateM.Result SyntaxError Trace α → EStateM.Result SyntaxError Cursor α
  | .ok x t    => .ok x t.cursor
  | .error e t => .error e t.cursor

/-- What is left of a run, whether it has succeeded or not. -/
def traceOf : EStateM.Result SyntaxError Trace α → Trace
  | .ok _ t    => t
  | .error _ t => t

end Logged

/-- A step of parsing that carries a log. -/
abbrev Logged (α : Type) := ParserOver Logged.Trace α

namespace Logged

variable {α : Type} {l : Logged α} {p : Parser α} {r : Routine} {t t' : Trace} {c : Cursor}
  {x : α} {e : SyntaxError}

theorem step_of_ok (h : p t.cursor = .ok x c) :
    (ParserState.step p : Logged α) t = .ok x (Trace.put ⟨c, t.log⟩ .step) := by
  simp only [ParserState.step, h]

theorem step_of_error (h : p t.cursor = .error e c) :
    (ParserState.step p : Logged α) t = .error e (Trace.put ⟨c, t.log⟩ .step) := by
  simp only [ParserState.step, h]

theorem routine_of_ok (h : l (t.put (.called r)) = .ok x t') :
    ParserState.routine r l t = .ok x (t'.put (.returned r t.cursor)) := by
  simp only [ParserState.routine, h]

theorem routine_of_error (h : l (t.put (.called r)) = .error e t') :
    ParserState.routine r l t = .error e t' := by
  simp only [ParserState.routine, h]

end Logged

end Frontend
