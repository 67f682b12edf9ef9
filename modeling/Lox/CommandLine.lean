import Lox.Session
import Lox.Syntax.Printer
import Lox.Token.Text

/-!
# The command line

`tokenize`, `parse`, `evaluate` and `run` read a file; `repl`, which is also what happens without a
command, reads units from the input line by line. Everything that a command writes, and its exit
code, is a function of its arguments, the files and the input.
-/

namespace Lox.CommandLine

/-! ### Commands -/

/-- What can be asked for. -/
inductive Command where
  | tokenize (file : String) (asRecords : Bool)
  | parse (file : String)
  | evaluate (file : String)
  | run (file : String)
  | repl
  deriving Repr, DecidableEq

/-- The arguments without the options for logs, which may stand anywhere. -/
def withoutLogs : List String → List String
  | [] => []
  | "--log" :: rest => withoutLogs rest
  | "--log-file" :: _ :: rest => withoutLogs rest
  | argument :: rest =>
    if "--log-file=".isPrefixOf argument then withoutLogs rest
    else argument :: withoutLogs rest

/-- The command that arguments ask for. -/
def command? (arguments : List String) : Option Command :=
  match withoutLogs arguments with
  | [] => some .repl
  | ["repl"] => some .repl
  | ["tokenize", "--json", file] => some (.tokenize file true)
  | ["tokenize", file, "--json"] => some (.tokenize file true)
  | ["tokenize", file] => some (.tokenize file false)
  | ["parse", file] => some (.parse file)
  | ["evaluate", file] => some (.evaluate file)
  | ["run", file] => some (.run file)
  | _ => none

/-! ### Reports -/

/-- What a command writes, and its exit code. -/
structure Report where
  code : Nat
  output : String
  errors : String
  deriving Repr, DecidableEq

/-- Texts with an end of line behind each. -/
def lines (texts : List String) : String := String.join (texts.map (· ++ "\n"))

/-- The texts of diagnostics, one behind the other. -/
def errorLines (diagnostics : List Diagnostic) : String := lines (diagnostics.map Diagnostic.text)

/-- The report on what stands in the way of a command. -/
def obstacle (context cause : String) : Report :=
  ⟨1, "", "Error: " ++ context ++ "\n\nCaused by:\n    " ++ cause ++ "\n"⟩

/-- The report on arguments that ask for nothing. -/
def usage : Report := ⟨2, "", "error: unrecognized command line\n"⟩

/-- The fuel of a run: more than any run can use up in practice. -/
def fuel : Nat := Nat.pow 2 62

/-- What is reported of a unit that failed in a way that is no fault of the program. -/
def abnormal : Report := ⟨101, "", "resolved distance exceeds environment depth\n"⟩

/-- The report on a unit that printed something and came to an end. -/
def ofOutcome {α : Type} (printed : String) (last : α → String) : Outcome α → Report
  | .done value => ⟨0, printed ++ last value, ""⟩
  | .failed failure => ⟨failure.exitCode, printed, errorLines failure.diagnostics⟩
  | .strayed | .exhausted => { abnormal with output := printed }

/-! ### Commands on a file -/

/-- Lists the tokens of a source. -/
def tokenize (asRecords : Bool) (source : String) : Report :=
  let spell := if asRecords then Token.record else Token.text
  let errors := lexicalIssuesOf source
  ⟨if errors.isEmpty then 0 else 65, lines ((tokensOf source).map spell), errorLines errors⟩

/-- Prints the tree of a source, also if only its characters are at fault. -/
def parse (source : String) : Report :=
  let lexical := lexicalIssuesOf source
  let (statements, errors) := match (parseProgram 0 (tokensOf source)).result with
    | .ok statements => (statements, lexical)
    | .error errors => ([], lexical ++ errors.map SyntaxError.diagnostic)
  ⟨if errors.isEmpty then 0 else 65, lines (statements.map Stmt.text), errorLines errors⟩

/-- A session that reads this input. -/
def session (input : List UInt8) : Session := .start (.start (.start none) (.start input))

/-- Evaluates a source and prints the value. -/
def evaluate (input : List UInt8) (source : String) : Report :=
  let (outcome, after) := (session input).evaluate fuel source
  ofOutcome after.printed (fun value => value.text after.machine.heap ++ "\n") outcome

/-- Runs a source. -/
def run (input : List UInt8) (source : String) : Report :=
  let (outcome, after) := (session input).run fuel source
  ofOutcome after.printed (fun _ => "") outcome

/-- Does something with the text of a file. -/
def withSource (file : String) (contents : Option (List UInt8)) (action : String → Report) :
    Report :=
  match contents with
  | none => obstacle ("Failed to open file " ++ quoted file) "No such file or directory (os error 2)"
  | some bytes =>
    match Utf8.decode bytes with
    | .error issue => obstacle (quoted file ++ " is not valid UTF-8") issue.message
    | .ok source => action source

/-! ### The prompt -/

/-- What is written before each line. -/
def prompt : String := "> "

/-- The report on a line that is no text, which ends the dialogue. -/
def unreadable : Report :=
  obstacle "Failed to read from stdin" "stream did not contain valid UTF-8"

/-- Runs a line as a unit of its own. There is no answer to a line that is no text. -/
def answer (session : Session) (line : List UInt8) : Option (Report × Session) :=
  match Utf8.decode line with
  | .error _ => none
  | .ok source =>
    let (outcome, after) := session.run fuel source
    some (ofOutcome after.printed (fun _ => "") outcome, after)

/-- A session at the prompt, and what was written so far. -/
structure Dialogue where
  session : Session
  output : String
  errors : String

/-- Takes the next line of the input and goes on whatever comes of it. Functions of the host take their
lines from the same input. The dialogue ends with the input, or at a line that is no text. -/
def Dialogue.step (dialogue : Dialogue) : Report ⊕ Dialogue :=
  let output := dialogue.output ++ prompt
  match takeLine dialogue.session.machine.world.input with
  | none => .inl ⟨0, output ++ "\n", dialogue.errors⟩
  | some (line, rest) =>
    match answer (dialogue.session.withInput rest) line with
    | none => .inl ⟨unreadable.code, output, dialogue.errors ++ unreadable.errors⟩
    | some (report, session) =>
      .inr ⟨session, output ++ report.output, dialogue.errors ++ report.errors⟩

/-- Takes steps until the dialogue ends, but at most `bound`. -/
def Dialogue.finish : Nat → Dialogue → Report
  | 0, dialogue => ⟨0, dialogue.output, dialogue.errors⟩
  | bound + 1, dialogue =>
    match dialogue.step with
    | .inl report => report
    | .inr next => finish bound next

/-- Reads units from the input until it ends. Each takes a byte of it at least. -/
def repl (input : List UInt8) : Report :=
  Dialogue.finish (input.length + 1) ⟨session input, "", ""⟩

/-- Carries out a command, with what the files hold. -/
def perform (files : String → Option (List UInt8)) (input : List UInt8) : Command → Report
  | .tokenize file asRecords => withSource file (files file) (tokenize asRecords)
  | .parse file => withSource file (files file) parse
  | .evaluate file => withSource file (files file) (evaluate input)
  | .run file => withSource file (files file) (run input)
  | .repl => repl input

/-- Holds of a source that can read from the input while it runs: it names the function that does. -/
def readsInput (source : List UInt8) : Bool :=
  match Utf8.decode source with
  | .error _ => false
  | .ok text => (tokensOf text).any fun token => token.lexeme == HostOffer.readLine.name

/-- The file that a command reads. -/
def Command.file? : Command → Option String
  | tokenize file _ | parse file | evaluate file | run file => some file
  | repl => none

/-- Does what arguments ask for. -/
def respond (files : String → Option (List UInt8)) (input : List UInt8) (arguments : List String) :
    Report :=
  match command? arguments with
  | some command => perform files input command
  | none => usage

end Lox.CommandLine
