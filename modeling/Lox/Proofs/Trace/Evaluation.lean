import Lox.Proofs.Machine.Watched
import Lox.Proofs.Trace.Basic

/-!
# Traced evaluation

Expressions are evaluated and statements carried out by the same rules as without a trace: to forget the
trace gives back the run (`evaluate_run`, `execute_run`). Each piece of code is noted when it is started,
each text that is printed, each field that is written, and each declaration, with the parameters of a
function when it is called.
-/

namespace Lox

namespace Traced

/-! ## Primitives -/

/-- Stops at a fault of the program on a line. -/
def fault {α : Type} (line : Nat) (fault : Fault) : Traced α :=
  silent (Run.fault line fault) (.fault line fault)

/-- Stops where the run is longer than it was allowed to be. -/
def exhausted {α : Type} : Traced α :=
  silent (throw .exhausted) (.throw (show Interrupt.IsDynamic .exhausted from trivial))

/-- Binds a name in the current frame, by a declaration. -/
def define (name : String) (value : Value) : Traced Unit :=
  noted (.declares [name]) (Run.define name value) rfl (Silent.inward.define name value)

/-- A new frame for a call, with the parameters bound to the arguments. -/
def openCall (params : List Token) (arguments : List Value) (enclosing : FrameId) : Traced FrameId :=
  noted (.declares (params.map (·.lexeme)))
    (Run.newFrame (.insertAll .empty ((params.map (·.lexeme)).zip arguments)) (some enclosing)) rfl
    (Silent.inward.newFrame ..)

/-- A new frame for a block. -/
def openBlock : Traced FrameId :=
  silent (do Run.newFrame .empty (some (← get).current))
    (.get (fun _ => Silent.inward.newFrame ..) fun _ _ => rfl)

/-- Writes a property, which always becomes a field. -/
def setProperty (id : ObjectId) (name : Token) (value : Value) : Traced Unit :=
  noted (.sets id name.lexeme value) (Run.setProperty id name value) rfl
    (Silent.inward.setProperty id name value)

/-- Prints a value on a line of its own. -/
def print (value : Value) : Traced Completion := do
  let text ← silent (do return value.text (← get).heap) (.get (fun _ => .pure _) fun _ _ => rfl)
  write text
  write "\n"
  return .normal

/-- A function that is made in the current frame. -/
def makeFunction (declaration : FunctionDecl) : Traced Value :=
  silent (do Run.newFunction ⟨declaration, (← get).current, false⟩)
    (.get (fun _ => Silent.inward.newFunction _) fun _ _ => rfl)

/-- A class whose methods are made in the current frame. -/
def makeClass (name : Token) (methods : List FunctionDecl) : Traced Value :=
  silent (do
      let frame := (← get).current
      let closures := Bindings.empty.insertAll (methods.map (Run.methodClosure frame))
      return .cls ⟨← Run.freshIdentity, name.lexeme, closures⟩)
    (.get (fun _ => .bind Silent.inward.freshIdentity fun _ => .pure _) fun _ _ => rfl)

/-! ## Lists of parts -/

/-- The values of expressions, from left to right. -/
def evaluateAll (evaluate : Expr → Traced Value) : List Expr → Traced (List Value)
  | [] => return []
  | first :: more => do
    let value ← evaluate first
    return value :: (← evaluateAll evaluate more)

/-- Carries out statements up to the first `return`. -/
def executeAll (execute : Stmt → Traced Completion) : List Stmt → Traced Completion
  | [] => return .normal
  | first :: more => do
    match ← execute first with
    | .normal => executeAll execute more
    | .returned value => return .returned value

/-! ## Calls -/

/-- What a call of a function gives once its body has run. -/
def result (closure : Closure) (completion : Completion) : Traced Value :=
  if closure.isInitializer then
    silent (do
        Run.found ⟨.identifier, receiverName, closure.declaration.name.line⟩ (← Run.receiver? closure))
      (.bind (Silent.inward.receiver? closure) fun _ => Silent.inward.found ..)
  else match completion with
    | .normal => return .nil
    | .returned value => return value

/-- Calls a function. -/
def callClosure (execute : Stmt → Traced Completion) (closure : Closure) (arguments : List Value) :
    Traced Value := do
  let frame ← openCall closure.declaration.params arguments closure.frame
  let completion ← inFrame frame (executeAll execute closure.declaration.body)
  result closure completion

/-- Calls a class. -/
def construct (execute : Stmt → Traced Completion) (cls : Class) (arguments : List Value) :
    Traced Value := do
  let id ← silent (Run.newObject cls) (Silent.inward.newObject cls)
  match cls.initializer? with
  | none => return .object id
  | some method =>
    let bound ← silent (Run.bindMethod method id) (Silent.inward.bindTo ..)
    let _ ← callClosure execute bound arguments
    return .object id

/-- Calls a value, which has to take that many arguments. -/
def call (execute : Stmt → Traced Completion) (callee : Value) (paren : Token)
    (arguments : List Value) : Traced Value :=
  match callee.arity? with
  | none => fault paren.line .notCallable
  | some arity =>
    if arguments.length ≠ arity then fault paren.line (.wrongArity arity arguments.length)
    else match callee with
      | .function f => callClosure execute f.closure arguments
      | .host f => silent (Run.callHost paren f arguments) (Run.callHost_silent paren f arguments)
      | .cls c => construct execute c arguments
      | _ => fault paren.line .notCallable

/-! ## Rules -/

/-- The rule for each form of expression. -/
def evaluateRule (evaluate : Expr → Traced Value) (execute : Stmt → Traced Completion) :
    Expr → Traced Value
  | .literal value => return .ofLiteral value
  | .grouping inner => evaluate inner
  | .unary operator operand => do
    let a ← evaluate operand
    silent (Run.unary operator a) (Silent.inward.unary operator a)
  | .binary left operator right => do
    let a ← evaluate left
    let b ← evaluate right
    silent (Run.binary operator a b) (Silent.inward.binary operator a b)
  | .logical left operator right => do
    let a ← evaluate left
    if Run.decides operator a then return a else evaluate right
  | .var id name => silent (Run.lookUp id name) (Silent.inward.lookUp id name)
  | .this id keyword => silent (Run.lookUp id keyword) (Silent.inward.lookUp id keyword)
  | .assign id name value => do
    let a ← evaluate value
    silent (Run.assign id name a) (Silent.inward.assign id name a)
    return a
  | .call callee paren arguments => do
    let f ← evaluate callee
    let values ← evaluateAll evaluate arguments
    call execute f paren values
  | .get object name => do
    match ← evaluate object with
    | .object id => silent (Run.getProperty id name) (Silent.inward.getProperty id name)
    | _ => fault name.line .propertyOfNonInstance
  | .set object name value => do
    match ← evaluate object with
    | .object id =>
      let a ← evaluate value
      setProperty id name a
      return a
    | _ => fault name.line .fieldOfNonInstance

/-- The value of an expression that may be missing. -/
def evaluateOptional (evaluate : Expr → Traced Value) : Option Expr → Traced Value
  | none => return .nil
  | some value => evaluate value

/-- The rule for each form of statement. -/
def executeRule (evaluate : Expr → Traced Value) (execute : Stmt → Traced Completion) :
    Stmt → Traced Completion
  | .expression value => do
    let _ ← evaluate value
    return .normal
  | .print value => do print (← evaluate value)
  | .varDecl name initializer => do
    define name.lexeme (← evaluateOptional evaluate initializer)
    return .normal
  | .block statements => do
    let frame ← openBlock
    inFrame frame (executeAll execute statements)
  | .ifThen condition thenBranch => do
    if (← evaluate condition).isTruthy then execute thenBranch else return .normal
  | .ifElse condition thenBranch elseBranch => do
    if (← evaluate condition).isTruthy then execute thenBranch else execute elseBranch
  | .whileLoop condition body => do
    if (← evaluate condition).isTruthy then
      match ← execute body with
      | .normal => execute (.whileLoop condition body)
      | .returned value => return .returned value
    else return .normal
  | .funDecl declaration => do
    define declaration.name.lexeme (← makeFunction declaration)
    return .normal
  | .returns _ value => return .returned (← evaluateOptional evaluate value)
  | .classDecl name methods => do
    define name.lexeme (← makeClass name methods)
    return .normal

mutual

/-- The value of an expression. -/
def evaluate : Nat → Expr → Traced Value
  | 0, _ => exhausted
  | fuel + 1, value =>
    starting (.expression value) (evaluateRule (evaluate fuel) (execute fuel) value)

/-- Carries out a statement. -/
def execute : Nat → Stmt → Traced Completion
  | 0, _ => exhausted
  | fuel + 1, t => starting (.statement t) (executeRule (evaluate fuel) (execute fuel) t)

end

/-- Carries out the statements of a program, whatever they end with. -/
def executeProgram (fuel : Nat) : List Stmt → Traced Unit
  | [] => return
  | first :: more => do
    let _ ← execute fuel first
    executeProgram fuel more

/-! ## Without the trace -/

theorem bind_run {α β : Type} (x : Traced α) (f : α → Traced β) :
    (x >>= f).run = x.run >>= fun a => (f a).run :=
  rfl

section

variable {evaluate : Expr → Traced Value} {execute : Stmt → Traced Completion}

theorem evaluateAll_run (values : List Expr) :
    (evaluateAll evaluate values).run = Run.evaluateAll (fun e => (evaluate e).run) values := by
  induction values with
  | nil => rfl
  | cons first more ih =>
    refine bind_congr fun value => ?_
    rw [bind_run, ih]
    rfl

theorem executeAll_run (body : List Stmt) :
    (executeAll execute body).run = Run.executeAll (fun t => (execute t).run) body := by
  induction body with
  | nil => rfl
  | cons first more ih =>
    refine bind_congr fun completion => ?_
    cases completion with
    | normal => exact ih
    | returned value => rfl

theorem callClosure_run (closure : Closure) (arguments : List Value) :
    (callClosure execute closure arguments).run =
      Run.callClosure (fun t => (execute t).run) closure arguments := by
  obtain ⟨⟨name, params, body⟩, outer, isInitializer⟩ := closure
  refine bind_congr fun frame => ?_
  rw [bind_run]
  show Run.inFrame frame (executeAll execute body).run >>= _ = _
  rw [executeAll_run]
  refine bind_congr fun completion => ?_
  cases isInitializer with
  | true => rfl
  | false => cases completion <;> rfl

theorem construct_run (cls : Class) (arguments : List Value) :
    (construct execute cls arguments).run =
      Run.construct (fun t => (execute t).run) cls arguments := by
  refine bind_congr fun id => ?_
  cases hinit : cls.initializer? with
  | none => rfl
  | some method =>
    refine bind_congr fun bound => ?_
    rw [bind_run, callClosure_run]
    rfl

theorem call_run (callee : Value) (paren : Token) (arguments : List Value) :
    (call execute callee paren arguments).run =
      Run.call (fun t => (execute t).run) callee paren arguments := by
  unfold call Run.call
  cases callee.arity? with
  | none => rfl
  | some arity =>
    dsimp only
    split
    · rfl
    · cases callee with
      | function f => exact callClosure_run f.closure arguments
      | cls c => exact construct_run c arguments
      | _ => rfl

theorem evaluateRule_run (e : Expr) :
    (evaluateRule evaluate execute e).run =
      Run.evaluateRule (fun e => (evaluate e).run) (fun t => (execute t).run) e := by
  cases e with
  | logical left operator right =>
    refine bind_congr fun a => ?_
    exact apply_ite Traced.run ..
  | call callee paren arguments =>
    refine bind_congr fun f => ?_
    rw [bind_run, evaluateAll_run]
    exact bind_congr fun values => call_run f paren values
  | get object name =>
    refine bind_congr fun v => ?_
    cases v <;> rfl
  | set object name value =>
    refine bind_congr fun v => ?_
    cases v <;> rfl
  | _ => rfl

theorem evaluateOptional_run (value : Option Expr) :
    (evaluateOptional evaluate value).run =
      Run.evaluateOptional (fun e => (evaluate e).run) value := by
  cases value <;> rfl

theorem executeRule_run (t : Stmt) :
    (executeRule evaluate execute t).run =
      Run.executeRule (fun e => (evaluate e).run) (fun t => (execute t).run) t := by
  cases t with
  | varDecl name initializer =>
    unfold executeRule Run.executeRule
    rw [bind_run, evaluateOptional_run]
    rfl
  | block body =>
    show (openBlock.run >>= fun frame => Run.inFrame frame (executeAll execute body).run) = _
    rw [executeAll_run]
    rfl
  | ifThen condition branch =>
    refine bind_congr fun a => ?_
    exact apply_ite Traced.run ..
  | ifElse condition first second =>
    refine bind_congr fun a => ?_
    exact apply_ite Traced.run ..
  | whileLoop condition body =>
    -- only the branch that goes on looks at how the body was completed
    refine bind_congr fun a => (apply_ite Traced.run ..).trans ?_
    refine congrArg (ite (a.isTruthy = true) · _) (bind_congr fun completion => ?_)
    cases completion <;> rfl
  | returns keyword value =>
    unfold executeRule Run.executeRule
    rw [bind_run, evaluateOptional_run]
    rfl
  | _ => rfl

end

mutual

theorem evaluate_run : ∀ fuel e, (evaluate fuel e).run = Run.evaluate fuel e
  | 0, _ => rfl
  | fuel + 1, e => by
    have parts : (fun e => (evaluate fuel e).run) = Run.evaluate fuel := funext (evaluate_run fuel)
    have statements : (fun t => (execute fuel t).run) = Run.execute fuel :=
      funext (execute_run fuel)
    rw [Run.evaluate, ← parts, ← statements]
    exact evaluateRule_run e

theorem execute_run : ∀ fuel t, (execute fuel t).run = Run.execute fuel t
  | 0, _ => rfl
  | fuel + 1, t => by
    have parts : (fun e => (evaluate fuel e).run) = Run.evaluate fuel := funext (evaluate_run fuel)
    have statements : (fun t => (execute fuel t).run) = Run.execute fuel :=
      funext (execute_run fuel)
    rw [Run.execute, ← parts, ← statements]
    exact executeRule_run t

end

end Traced

/-- A run after which the global frame is current, if it stops. -/
def Run.grounded {α : Type} (run : Run α) : Run α := fun m =>
  match run m with
  | .ok a m' => .ok a m'
  | .error interrupt m' => .error interrupt { m' with current := Frames.globalId }

namespace Traced

theorem executeProgram_run (fuel : Nat) (program : List Stmt) :
    (executeProgram fuel program).run.grounded = Run.interpret fuel program := by
  induction program with
  | nil => rfl
  | cons first more ih =>
    funext m
    show Run.grounded ((execute fuel first).run >>= fun _ => (executeProgram fuel more).run) m = _
    rw [execute_run, Run.grounded]
    cases hfirst : Run.execute fuel first m with
    | ok completion m' =>
      rw [Run.bind_ok hfirst, Run.interpret_ok more hfirst, ← ih]
      rfl
    | error interrupt m' => rw [Run.bind_error hfirst, Run.interpret_error more hfirst]

end Traced

end Lox
