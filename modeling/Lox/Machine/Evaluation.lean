import Lox.Machine.Object

/-!
# Evaluating and executing

`evaluate` gives the value of an expression and `execute` carries out a statement. Operands, arguments
and statements go from left to right, and the first fault ends the run.

Each rule is a function of what evaluates and executes the parts inside it, which is `evaluate` and
`execute` again with less fuel. A round of a loop uses up fuel like a part, so a run that has fuel for
its depth and its rounds is never `exhausted`.
-/

namespace Lox

/-- How a statement ends: at its end, or at a `return`, which ends the function around it. -/
inductive Completion where
  | normal
  | returned (value : Value)

namespace Run

/-! ### Operators -/

/-- The value of an operator before its operand. -/
def unary (operator : Token) (operand : Value) : Run Value :=
  match operator.kind with
  | .symbol .bang => return .boolean !operand.isTruthy
  | .symbol .minus =>
    match operand with
    | .number a => return .number (-a)
    | _ => fault operator.line .operandNotNumber
  | _ => fault operator.line .invalidUnaryOperator

/-- The value of an operator on two numbers. -/
def arithmetic (operator : Token) (result : Float → Float → Value) (left right : Value) :
    Run Value :=
  match left, right with
  | .number a, .number b => return result a b
  | _, _ => fault operator.line .operandsNotNumbers

/-- The sum of two numbers, or two strings one after the other. -/
def sum (operator : Token) (left right : Value) : Run Value :=
  match left, right with
  | .number a, .number b => return .number (a + b)
  | .string a, .string b => return .string (a ++ b)
  | _, _ => fault operator.line .operandsNotAddable

/-- The value of an operator between its operands. -/
def binary (operator : Token) (left right : Value) : Run Value :=
  match operator.kind with
  | .symbol .equalEqual => return .boolean (left.equals right)
  | .symbol .bangEqual => return .boolean !left.equals right
  | .symbol .plus => sum operator left right
  | .symbol .minus => arithmetic operator (fun a b => .number (a - b)) left right
  | .symbol .star => arithmetic operator (fun a b => .number (a * b)) left right
  | .symbol .slash => arithmetic operator (fun a b => .number (a / b)) left right
  | .symbol .greater => arithmetic operator (fun a b => .boolean (a > b)) left right
  | .symbol .greaterEqual => arithmetic operator (fun a b => .boolean (a ≥ b)) left right
  | .symbol .less => arithmetic operator (fun a b => .boolean (a < b)) left right
  | .symbol .lessEqual => arithmetic operator (fun a b => .boolean (a ≤ b)) left right
  | _ => fault operator.line .invalidBinaryOperator

/-- Holds if the left operand is the value of the operation already. -/
def decides (operator : Token) (left : Value) : Bool :=
  if operator.kind = .keyword .orKw then left.isTruthy else !left.isTruthy

/-! ### Lists of parts -/

/-- The values of expressions, from left to right. -/
def evaluateAll (evaluate : Expr → Run Value) : List Expr → Run (List Value)
  | [] => return []
  | first :: more => do
    let value ← evaluate first
    return value :: (← evaluateAll evaluate more)

/-- Carries out statements up to the first `return`. -/
def executeAll (execute : Stmt → Run Completion) : List Stmt → Run Completion
  | [] => return .normal
  | first :: more => do
    match ← execute first with
    | .normal => executeAll execute more
    | .returned value => return .returned value

/-! ### Calls -/

/-- Calls a function: its body runs in a new frame around the one where the function was made. An
initializer always gives its receiver. -/
def callClosure (execute : Stmt → Run Completion) (closure : Closure) (arguments : List Value) :
    Run Value := do
  let ⟨name, params, body⟩ := closure.declaration
  let bindings := Bindings.empty.insertAll ((params.map (·.lexeme)).zip arguments)
  let frame ← newFrame bindings (some closure.frame)
  let completion ← inFrame frame (executeAll execute body)
  if closure.isInitializer then
    found ⟨.identifier, receiverName, name.line⟩ (← receiver? closure)
  else match completion with
    | .normal => return .nil
    | .returned value => return value

/-- Calls a class: a new object, which the initializer, if there is one, prepares. -/
def construct (execute : Stmt → Run Completion) (cls : Class) (arguments : List Value) :
    Run Value := do
  let id ← newObject cls
  match cls.initializer? with
  | none => return .object id
  | some method =>
    let _ ← callClosure execute (← bindMethod method id) arguments
    return .object id

/-- Calls a function of the host. Its failure is a fault on the line of the call. -/
def callHost (paren : Token) (f : HostFunction) (arguments : List Value) : Run Value := do
  let m ← get
  match m.actions[f.index]? with
  | none => return .nil
  | some action =>
    let (answer, world) := action m.heap m.world arguments
    set { m with world := world }
    match answer with
    | .ok value => return value
    | .error message => fault paren.line (.host message)

/-- Calls a value, which has to take that many arguments. -/
def call (execute : Stmt → Run Completion) (callee : Value) (paren : Token)
    (arguments : List Value) : Run Value := do
  match callee.arity? with
  | none => fault paren.line .notCallable
  | some arity =>
    if arguments.length ≠ arity then fault paren.line (.wrongArity arity arguments.length)
    else match callee with
      | .function f => callClosure execute f.closure arguments
      | .host f => callHost paren f arguments
      | .cls c => construct execute c arguments
      | _ => fault paren.line .notCallable

/-! ### Rules -/

/-- The rule for each form of expression. -/
def evaluateRule (evaluate : Expr → Run Value) (execute : Stmt → Run Completion) :
    Expr → Run Value
  | .literal value => return .ofLiteral value
  | .grouping inner => evaluate inner
  | .unary operator operand => do unary operator (← evaluate operand)
  | .binary left operator right => do
    let a ← evaluate left
    let b ← evaluate right
    binary operator a b
  | .logical left operator right => do
    let a ← evaluate left
    if decides operator a then return a else evaluate right
  | .var id name => lookUp id name
  | .this id keyword => lookUp id keyword
  | .assign id name value => do
    let a ← evaluate value
    assign id name a
    return a
  | .call callee paren arguments => do
    let f ← evaluate callee
    let values ← evaluateAll evaluate arguments
    call execute f paren values
  | .get object name => do
    match ← evaluate object with
    | .object id => getProperty id name
    | _ => fault name.line .propertyOfNonInstance
  | .set object name value => do
    match ← evaluate object with
    | .object id =>
      let a ← evaluate value
      setProperty id name a
      return a
    | _ => fault name.line .fieldOfNonInstance

/-- The value of an expression that may be missing. -/
def evaluateOptional (evaluate : Expr → Run Value) : Option Expr → Run Value
  | none => return .nil
  | some value => evaluate value

/-- A method of a class that is made in a frame. -/
def methodClosure (frame : FrameId) (method : FunctionDecl) : String × Closure :=
  (method.name.lexeme, ⟨method, frame, decide (method.name.lexeme = initializerName)⟩)

/-- The rule for each form of statement. -/
def executeRule (evaluate : Expr → Run Value) (execute : Stmt → Run Completion) :
    Stmt → Run Completion
  | .expression value => do
    let _ ← evaluate value
    return .normal
  | .print value => do
    let a ← evaluate value
    write (a.text (← get).heap)
    write "\n"
    return .normal
  | .varDecl name initializer => do
    define name.lexeme (← evaluateOptional evaluate initializer)
    return .normal
  | .block statements => do
    let frame ← newFrame .empty (some (← get).current)
    inFrame frame (executeAll execute statements)
  | .ifThen condition thenBranch => do
    if (← evaluate condition).isTruthy then execute thenBranch else return .normal
  | .ifElse condition thenBranch elseBranch => do
    if (← evaluate condition).isTruthy then execute thenBranch else execute elseBranch
  | .whileLoop condition body => do
    if (← evaluate condition).isTruthy then
      match ← execute body with
      | .normal => execute (.whileLoop condition body)
      | .returned value => return .returned value
    else return .normal
  | .funDecl declaration => do
    define declaration.name.lexeme (← newFunction ⟨declaration, (← get).current, false⟩)
    return .normal
  | .returns _ value => return .returned (← evaluateOptional evaluate value)
  | .classDecl name methods => do
    let frame := (← get).current
    let closures := Bindings.empty.insertAll (methods.map (methodClosure frame))
    define name.lexeme (.cls ⟨← freshIdentity, name.lexeme, closures⟩)
    return .normal

mutual

/-- The value of an expression. -/
def evaluate : Nat → Expr → Run Value
  | 0, _ => throw .exhausted
  | fuel + 1, value => evaluateRule (evaluate fuel) (execute fuel) value

/-- Carries out a statement. -/
def execute : Nat → Stmt → Run Completion
  | 0, _ => throw .exhausted
  | fuel + 1, statement => executeRule (evaluate fuel) (execute fuel) statement

end

/-- Carries out the statements of a program. A `return` between them ends nothing; a fault ends the
run, and the global frame is current again. -/
def interpret (fuel : Nat) : List Stmt → Run Unit
  | [] => return
  | first :: more => fun m =>
    match execute fuel first m with
    | .ok _ m => interpret fuel more m
    | .error interrupt m => .error interrupt { m with current := Frames.globalId }

end Run

end Lox
