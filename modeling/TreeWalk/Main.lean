import TreeWalk.CommandLine

/-!
# The program

Reads the arguments and the bytes that they ask for, and writes what `CommandLine.Task.run` or, line
by line, `Shell.step` gives.
-/

set_option autoImplicit false

namespace TreeWalk.Main

/-- What stands at the path of a script. -/
def readScript (name : String) : IO CommandLine.Script := do
  try
    return .bytes (← IO.FS.readBinFile name).toList
  catch
    | .noFileOrDirectory .. => return .missing
    | e => return .unreadable (toString e)

/-- Writes what a call has to write, and ends with its status. -/
def finish (report : CommandLine.Report) : IO UInt32 := do
  IO.print report.output
  (← IO.getStdout).flush
  IO.eprint report.errors
  return report.status.toUInt32

/-- The next line of the input, without its end, and what was read beyond it. -/
partial def readLine (input : IO.FS.Stream) (ahead : List UInt8) :
    IO (Option (List UInt8) × List UInt8) := do
  match ahead.dropWhile (· ≠ 10) with
  | _ :: rest => return (some (ahead.takeWhile (· ≠ 10)), rest)
  | [] =>
    let chunk ← input.read 65536
    if chunk.isEmpty then
      return (if ahead.isEmpty then none else some ahead, [])
    else
      readLine input (ahead ++ chunk.toList)

/-- Shows events at once. -/
def display (events : List Shell.Event) : IO Unit := do
  IO.print (String.join (events.map Shell.Event.shown))
  (← IO.getStdout).flush

/-- Runs the shell line by line. -/
partial def converse (input : IO.FS.Stream) (scope : Nat) (s : Store) (ahead : List UInt8) :
    IO UInt32 := do
  display [.prompted]
  match ← readLine input ahead with
  | (none, _) => return 0
  | (some line, ahead) =>
    match Shell.step defaultFuel scope s line with
    | .next events s =>
      display events
      converse input scope s ahead
    | .stop events ending =>
      display events
      match ending.complaint? with
      | none => return 0
      | some message =>
        IO.eprintln message
        return 1

end TreeWalk.Main

open TreeWalk Main in
/-- Runs a source text, a script, or the shell. -/
def main (args : List String) : IO UInt32 := do
  match ({} : CommandLine.Request).add args with
  | .error message =>
    IO.eprintln ("error: " ++ message)
    return 2
  | .ok request =>
    match request.source?, request.script? with
    | some source, _ =>
      finish ((CommandLine.Task.source source).run defaultFuel request.printResult)
    | none, some name =>
      let found ← readScript name
      finish ((CommandLine.Task.script name found).run defaultFuel request.printResult)
    | none, none =>
      let (scope, s) := Store.empty.openGlobal
      converse (← IO.getStdin) scope s []
