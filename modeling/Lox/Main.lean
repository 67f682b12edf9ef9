import Lox.CommandLine

/-!
# The program

Reads what a command needs, writes its report and ends with its code. The prompt answers each line
before it reads the next one. Once a line names the function that reads from the input, the rest of
the input is read first, since from then on a line can need more of it than it is.
-/

namespace Lox.Program

open CommandLine

/-- The bytes of a file, if it can be read. -/
def contentsOf (file : String) : IO (Option (List UInt8)) := do
  try
    return some (← IO.FS.readBinFile file).toList
  catch _ =>
    return none

/-- All that is left of the standard input. -/
def allInput : IO (List UInt8) := do
  return (← (← IO.getStdin).readBinToEnd).toList

/-- The next line of the standard input, behind the bytes that are read already. -/
partial def inputLine (read : List UInt8) : IO (List UInt8) := do
  match (← (← IO.getStdin).read 1).toList with
  | [] => return read.reverse
  | byte :: _ => if byte == 10 then return (byte :: read).reverse else inputLine (byte :: read)

/-- Writes a report and gives its code. -/
def deliver (report : Report) : IO UInt32 := do
  (← IO.getStdout).putStr report.output
  (← IO.getStdout).flush
  (← IO.getStderr).putStr report.errors
  return report.code.toUInt32

/-- Answers line after line until the input ends. `complete` holds once the session has all input. -/
partial def converse (session : Session) (complete : Bool) : IO UInt32 := do
  let _ ← deliver ⟨0, prompt, ""⟩
  let (line, rest) ← if complete then
      pure ((takeLine session.machine.world.input).getD ([], []))
    else
      pure (← inputLine [], [])
  if line.isEmpty then return ← deliver ⟨0, "\n", ""⟩
  let wanting := !complete && readsInput line
  let rest ← if wanting then allInput else pure rest
  match answer (session.withInput rest) line with
  | none => deliver unreadable
  | some (report, session) =>
    let _ ← deliver report
    converse session (complete || wanting)

/-- Answers the arguments. -/
def answerArguments (arguments : List String) : IO UInt32 := do
  match command? arguments with
  | some .repl => converse (CommandLine.session []) false
  | some command =>
    let contents ← match command.file? with
      | some file => contentsOf file
      | none => pure none
    let input ← if readsInput (contents.getD []) then allInput else pure []
    deliver (perform (fun _ => contents) input command)
  | none => deliver usage

end Lox.Program

/-- Answers the arguments. -/
def main (arguments : List String) : IO UInt32 := Lox.Program.answerArguments arguments
