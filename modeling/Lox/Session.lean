import Lox.Machine.Evaluation
import Lox.Resolution
import Lox.Syntax.Parser.Statement
import Lox.Token.Lexer

/-!
# Sessions

A session runs one *unit* of source after the other. A unit is a program or a single expression. It
is scanned, parsed and resolved first, and any static diagnostic keeps all of it from being run. What
a unit did to variables, functions and objects is there for the next one, also if it was stopped.

Nothing else is carried from unit to unit but the numbering of occurrences, which goes on so that the
bindings of earlier units stay their own.
-/

namespace Lox

/-! ### How a unit ends -/

/-- Why a unit did not run to its end. -/
inductive Failure where
  /-- Static diagnostics; nothing was run. -/
  | rejected (diagnostics : List Diagnostic)
  /-- The run stopped here. -/
  | stopped (diagnostic : Diagnostic)

namespace Failure

/-- The diagnostics in the order in which they are reported. -/
def diagnostics : Failure → List Diagnostic
  | rejected diagnostics => diagnostics
  | stopped diagnostic => [diagnostic]

/-- A failure in a few words. -/
def summary : Failure → String
  | rejected diagnostics => s!"{diagnostics.length} static error(s)"
  | stopped diagnostic => diagnostic.text

/-- The exit code of a program that fails like this. -/
def exitCode : Failure → Nat
  | rejected _ => 65
  | stopped diagnostic => diagnostic.exitCode

/-- The failure that a single diagnostic is. -/
def ofDiagnostic (diagnostic : Diagnostic) : Failure :=
  if diagnostic.isStatic then .rejected [diagnostic] else .stopped diagnostic

end Failure

/-- How a unit ends. -/
inductive Outcome (α : Type) where
  | done (value : α)
  | failed (failure : Failure)
  /-- A distance led out of the frames. -/
  | strayed
  /-- The run was longer than it was allowed to be. -/
  | exhausted

/-- How an interrupted unit ends. -/
def Outcome.ofInterrupt {α : Type} : Interrupt → Outcome α
  | .stopped diagnostic => .failed (.stopped diagnostic)
  | .strayed => .strayed
  | .exhausted => .exhausted

/-! ### Static checks -/

/-- A unit after its static checks: what is to be run, with its distances, or why not; and the next
free identity of an occurrence. -/
structure Checked (α : Type) where
  result : Except (List Diagnostic) (α × Distances)
  nextId : OccurrenceId

/-- Checks a unit with a parser and a resolver. Lexical diagnostics come first; behind them are all
syntax errors or, if the unit could be parsed, all scope errors. -/
def check {α : Type} (parse : OccurrenceId → List Token → Parser.Outcome α)
    (resolve : α → Except (List ScopeError) Distances) (nextId : OccurrenceId) (source : String) :
    Checked α :=
  let lexical := lexicalIssuesOf source
  let parsed := parse nextId (tokensOf source)
  let result := match parsed.result with
    | .error errors => .error (lexical ++ errors.map SyntaxError.diagnostic)
    | .ok tree =>
      match resolve tree with
      | .error errors => .error (lexical ++ errors.map ScopeError.diagnostic)
      | .ok distances => if lexical.isEmpty then .ok (tree, distances) else .error lexical
  ⟨result, parsed.nextId⟩

/-- Checks a program. -/
def checkProgram : OccurrenceId → String → Checked (List Stmt) := check parseProgram resolveProgram

/-- Checks a single expression. -/
def checkExpression : OccurrenceId → String → Checked Expr :=
  check parseExpression resolveExpression

/-! ### Sessions -/

/-- What is carried from unit to unit. -/
structure Session where
  machine : Machine
  nextId : OccurrenceId

namespace Session

/-- A new session on a machine. -/
def start (machine : Machine) : Session := ⟨machine, 0⟩

/-- The session with another input. -/
def withInput (session : Session) (input : List UInt8) : Session :=
  let world := { session.machine.world with input := input }
  { session with machine := { session.machine with world := world } }

/-- Runs a checked unit on an empty sink. -/
def perform {α β : Type} (session : Session) (checked : Checked α) (action : α → Run β) :
    Outcome β × Session :=
  let idle := { session.machine with sink := .start session.machine.sink.limit }
  match checked.result with
  | .error diagnostics => (.failed (.rejected diagnostics), ⟨idle, checked.nextId⟩)
  | .ok (tree, distances) =>
    match action tree (idle.adopt distances) with
    | .ok value machine => (.done value, ⟨machine, checked.nextId⟩)
    | .error interrupt machine => (.ofInterrupt interrupt, ⟨machine, checked.nextId⟩)

/-- Runs a program as one unit. What it prints is in the sink afterwards. -/
def run (fuel : Nat) (session : Session) (source : String) : Outcome Unit × Session :=
  session.perform (checkProgram session.nextId source) (Run.interpret fuel)

/-- Evaluates a single expression as one unit. What it prints is in the sink afterwards. -/
def evaluate (fuel : Nat) (session : Session) (source : String) : Outcome Value × Session :=
  session.perform (checkExpression session.nextId source) (Run.evaluate fuel)

/-- What the last unit printed. -/
def printed (session : Session) : String := session.machine.sink.text

end Session

end Lox
