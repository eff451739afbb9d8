import TreeWalk.Shell

/-!
# The command line

What a call of the program writes to the two output channels and the status that it ends with, as a
function of what it was asked and of the bytes that it reads.
-/

set_option autoImplicit false

namespace TreeWalk.CommandLine

/-- What is found at the path of a script. -/
inductive Script
  | missing
  /-- It is there but cannot be read, for the given reason. -/
  | unreadable (reason : String)
  | bytes (content : List UInt8)

/-- What the program is asked to do. -/
inductive Task
  /-- Run a source text. -/
  | source (text : String)
  /-- Run the script of that name. -/
  | script (name : String) (script : Script)
  /-- Run the shell on an input. -/
  | shell (input : List UInt8)

/-- What the arguments of a call ask for. -/
structure Request where
  /-- The source text to run. -/
  source? : Option String := none
  /-- The name of the script to run. -/
  script? : Option String := none
  /-- Whether the value of the program is shown. -/
  printResult : Bool := false
  deriving DecidableEq, Repr

/-- Adds arguments to a request. -/
def Request.add (r : Request) : List String → Except String Request
  | [] =>
    if r.source?.isSome && r.script?.isSome then
      .error "a source text cannot be combined with a script"
    else .ok r
  | "-p" :: rest => Request.add { r with printResult := true } rest
  | "--print-result" :: rest => Request.add { r with printResult := true } rest
  | "-e" :: source :: rest => Request.add { r with source? := some source } rest
  | "--eval" :: source :: rest => Request.add { r with source? := some source } rest
  | arg :: rest =>
    match (arg.dropPrefix? "--eval=").map toString with
    | some source => Request.add { r with source? := some source } rest
    | none =>
      if arg.startsWith "-" then .error ("unexpected argument '" ++ arg ++ "'")
      else if r.script?.isSome then .error ("unexpected argument '" ++ arg ++ "'")
      else Request.add { r with script? := some arg } rest

/-- What a call writes, and the status that it ends with. -/
structure Report where
  output : String
  errors : String
  status : Nat
  deriving DecidableEq, Repr

/-- A call that ends with a complaint. -/
def Report.complain (output message : String) : Report := ⟨output, message ++ "\n", 1⟩

/-- Lines, each closed by a line end. -/
def unlines (ls : List String) : String := String.join (ls.map (· ++ "\n"))

/-- Runs a source text.  Its value is shown only on demand. -/
def runSource (fuel : Nat) (printResult : Bool) (text : String) : Report :=
  let r := interpret fuel text
  let printed := unlines r.output
  match r.outcome with
  | .done v => ⟨if printResult then printed ++ v.display ++ "\n" else printed, "", 0⟩
  | .failed e => .complain printed e.message
  | .outOfFuel => .complain printed Shell.outOfFuelMessage

/-- The text of a script, or the reason why there is none. -/
def Script.text : Script → Except String String
  | missing => .error "No such file or directory (os error 2)"
  | unreadable reason => .error reason
  | bytes content =>
    match String.fromUTF8? ⟨content.toArray⟩ with
    | some text => .ok text
    | none => .error Shell.notTextMessage

/-- Carries out a task. -/
def Task.run (fuel : Nat) (printResult : Bool) : Task → Report
  | source text => runSource fuel printResult text
  | script name found =>
    match found.text with
    | .ok text => runSource fuel printResult text
    | .error reason =>
      .complain "" ("Failed to read the script '" ++ name ++ "': " ++ reason)
  | shell input =>
    let t := Shell.start fuel input
    match t.ending.complaint? with
    | none => ⟨t.shown, "", 0⟩
    | some message => .complain t.shown message

end TreeWalk.CommandLine
