import TreeWalk.Interpreter
import TreeWalk.Text.Blank
import TreeWalk.Value.Display

/-!
# The interactive shell

The shell reads its input line by line and runs each line in one scope that lasts for the session.
It answers with the value or the error of the line; an error does not end the session.  Blank lines
have no answer.  The session ends with the input, at the line `exit`, or at a line that is not
text.

A session is a list of events, so that what programs print and what the shell itself writes can be
told apart or taken together.
-/

set_option autoImplicit false

namespace TreeWalk.Shell

/-- What the shell writes before it reads a line. -/
def prompt : String := ">> "

/-- The line that ends the session. -/
def exitLine : String := "exit"

/-- Something that the user gets to see. -/
inductive Event
  /-- The shell asks for a line. -/
  | prompted
  /-- The program of a line prints a line. -/
  | printed (line : String)
  /-- The shell answers a line. -/
  | answered (text : String)
  deriving DecidableEq, Repr

/-- How a session ends. -/
inductive Ending
  | finished
  /-- A line is not valid UTF-8. -/
  | notText
  /-- The program of a line reached the bound on the depth. -/
  | outOfFuel
  deriving DecidableEq, Repr

/-- A session as the user sees it. -/
structure Transcript where
  events : List Event
  ending : Ending
  deriving DecidableEq, Repr

/-- The lines of an input.  A line end after the last line starts no further line. -/
def lines : List UInt8 → List (List UInt8)
  | [] => []
  | b :: rest =>
    if b = 10 then [] :: lines rest
    else
      match lines rest with
      | [] => [[b]]
      | l :: ls => (b :: l) :: ls

/-- A line as text, without the carriage returns at its end. -/
def decode? (line : List UInt8) : Option String :=
  (String.fromUTF8? ⟨line.toArray⟩).map fun s =>
    String.ofList (s.toList.reverse.dropWhile (· = '\r')).reverse

/-- What a line leads to. -/
inductive Reply
  /-- The session ends, after the given events. -/
  | stop (events : List Event) (ending : Ending)
  /-- The session goes on with the given store, after the given events. -/
  | next (events : List Event) (store : Store)

/-- Runs a line that is neither blank nor the last one. -/
def respond (fuel scope : Nat) (s : Store) (line : String) : Reply :=
  let r := run fuel line scope s
  let printed := r.output.map Event.printed
  match r.outcome with
  | .done v => .next (printed ++ [.answered v.display]) r.store
  | .failed e => .next (printed ++ [.answered e.message]) r.store
  | .outOfFuel => .stop printed .outOfFuel

/-- What the next line of the input leads to. -/
def step (fuel scope : Nat) (s : Store) (line : List UInt8) : Reply :=
  match decode? line with
  | none => .stop [] .notText
  | some line =>
    if line = exitLine then .stop [] .finished
    else if Text.allBlank line then .next [] s
    else respond fuel scope s line

/-- The rest of a session, from the next prompt on. -/
def session (fuel scope : Nat) : Store → List (List UInt8) → Transcript
  | _, [] => ⟨[.prompted], .finished⟩
  | s, l :: ls =>
    match step fuel scope s l with
    | .stop events ending => ⟨.prompted :: events, ending⟩
    | .next events s =>
      let later := session fuel scope s ls
      ⟨.prompted :: (events ++ later.events), later.ending⟩

/-- A whole session on an input. -/
def start (fuel : Nat) (input : List UInt8) : Transcript :=
  let (scope, s) := Store.empty.openGlobal
  session fuel scope s (lines input)

/-! ## What is written where -/

/-- What the shell itself writes. -/
def Event.written : Event → String
  | prompted => prompt
  | printed _ => ""
  | answered text => text ++ "\n"

/-- What programs print. -/
def Event.output : Event → String
  | printed line => line ++ "\n"
  | _ => ""

/-- What the shell itself writes in a session. -/
def Transcript.written (t : Transcript) : String := String.join (t.events.map Event.written)

/-- What programs print in a session. -/
def Transcript.output (t : Transcript) : String := String.join (t.events.map Event.output)

/-- What an event adds to the screen, where both go. -/
def Event.shown (e : Event) : String := e.written ++ e.output

/-- What the user sees of a session: both, in the order in which they come. -/
def Transcript.shown (t : Transcript) : String := String.join (t.events.map Event.shown)

/-- What is said of a line that is not text. -/
def notTextMessage : String := "stream did not contain valid UTF-8"

/-- What is said of a program that reached the bound on the depth. -/
def outOfFuelMessage : String := "Evaluation went too deep."

/-- The complaint with which a session ends, if it ends with one. -/
def Ending.complaint? : Ending → Option String
  | finished => none
  | notText => some notTextMessage
  | outOfFuel => some outOfFuelMessage

end TreeWalk.Shell
