import Lox.Proofs.Syntax.Naming
import Lox.Session
import Lox.Syntax.Occurrence

/-!
# Where code lies, and what a run may rely on there

A *scope* is opened by a block, by a function for its parameters and its body, and by a class for the
receiver of its methods. Around each piece of code lies a list of these openers (`Lies`), and the
distance of an occurrence counts along it.

A run has frames instead. To say that a frame is the frame of a scope, frames are labelled with what
they were opened for, and `Placed` says that a run is where the code lies: the frames around the
current one are those of the openers around the code, in their order, and if the code is an occurrence
with a distance, then the frame at that distance is there, it is the frame of the scope that the
distance leads to in the source, this scope declares the name, and what is read is held by the frame
already.

A *watched* run is a run that strays as soon as it is not where it should be. It checks each piece of
code before and after it is run, so it strays nowhere if and only if all is placed everywhere.
-/

namespace Lox

/-! ## Openers -/

/-- What opens a scope. -/
inductive Opener where
  | block (body : List Stmt)
  | function (declaration : FunctionDecl)
  | receiver (name : Token) (methods : List FunctionDecl)

/-- The names that are declared by statements, not counting those inside of them. -/
def declaredBy (body : List Stmt) : List String := (body.filterMap Stmt.declared?).map (·.lexeme)

/-- The names that a scope declares. -/
def Opener.names : Opener → List String
  | .block body => declaredBy body
  | .function ⟨_, params, body⟩ => params.map (·.lexeme) ++ declaredBy body
  | .receiver .. => [receiverName]

/-! ## Code -/

/-- What can be run. -/
inductive Code where
  | expression (value : Expr)
  | statement (t : Stmt)

/-- The occurrence that an expression itself is. -/
def Code.occurrence? : Code → Option Occurrence
  | .expression (.var id name) => some ⟨.read, id, name⟩
  | .expression (.assign id name _) => some ⟨.assigned, id, name⟩
  | .expression (.this id keyword) => some ⟨.receiver, id, keyword⟩
  | _ => none

/-- The expressions right inside an expression. -/
def Expr.parts : Expr → List Expr
  | .literal _ | .var .. | .this .. => []
  | .grouping inner => [inner]
  | .unary _ operand => [operand]
  | .binary left _ right | .logical left _ right => [left, right]
  | .assign _ _ value => [value]
  | .call callee _ arguments => callee :: arguments
  | .get object _ => [object]
  | .set object _ value => [object, value]

/-- The body of a function, with the scope around it. -/
def FunctionDecl.parts (f : FunctionDecl) : List (List Opener × Code) :=
  f.body.map fun t => ([.function f], .statement t)

/-- What lies right inside a statement, with the scopes that the statement opens around it, the
innermost first. -/
def Stmt.parts : Stmt → List (List Opener × Code)
  | .expression value | .print value => [([], .expression value)]
  | .varDecl _ value | .returns _ value => value.toList.map fun value => ([], .expression value)
  | .block body => body.map fun t => ([.block body], .statement t)
  | .ifThen condition thenBranch => [([], .expression condition), ([], .statement thenBranch)]
  | .ifElse condition thenBranch elseBranch =>
    [([], .expression condition), ([], .statement thenBranch), ([], .statement elseBranch)]
  | .whileLoop condition body => [([], .expression condition), ([], .statement body)]
  | .funDecl declaration => declaration.parts
  | .classDecl name methods =>
    (methods.flatMap FunctionDecl.parts).map fun (openers, code) =>
      (openers ++ [.receiver name methods], code)

/-- What lies right inside a piece of code, with the scopes that are opened around it. -/
def Code.parts : Code → List (List Opener × Code)
  | .expression value => value.parts.map fun part => ([], .expression part)
  | .statement t => t.parts

/-- A piece of code lies somewhere in some units, inside of these scopes, the innermost first. -/
inductive Lies (units : List Code) : List Opener → Code → Prop
  | unit {code : Code} : code ∈ units → Lies units [] code
  | part {path openers : List Opener} {code inner : Code} : Lies units path code →
      (openers, inner) ∈ code.parts → Lies units (openers ++ path) inner

/-! ## Frames of scopes -/

/-- What each frame was opened for; the global frame for nothing. -/
abbrev Labels := FrameId → Option Opener

/-- The frames from one outwards are those of the openers, up to the global frame. -/
inductive Around (labels : Labels) (frames : Frames Value) : FrameId → List Opener → Prop
  | global : Around labels frames Frames.globalId []
  | scope {id outer : FrameId} {opener : Opener} {path : List Opener} : id ≠ Frames.globalId →
      labels id = some opener → frames.enclosing? id = some outer →
      Around labels frames outer path → Around labels frames id (opener :: path)

/-- At a distance from the current frame is the frame of the scope at that distance in the source. The
scope declares the name, and what is read is there already. -/
def Leads (labels : Labels) (m : Machine) (path : List Opener) (o : Occurrence) (d : Nat) : Prop :=
  ∃ frame opener, m.frames.ancestor? d m.current = some frame ∧ frame ≠ Frames.globalId ∧
    path[d]? = some opener ∧ labels frame = some opener ∧ o.token.lexeme ∈ opener.names ∧
    (o.role ≠ .assigned → (m.frames.local? frame o.token.lexeme).isSome)

/-- A machine is where the code lies: in the frames of the scopes around it, and with its distance, if
it has one, leading to the frame of the scope that declares the name. -/
def Placed (labels : Labels) (units : List Code) (code : Code) (m : Machine) : Prop :=
  ∃ path, Lies units path code ∧ Around labels m.frames m.current path ∧
    ∀ o ∈ code.occurrence?, ∀ d, m.distances[o.id]? = some d → Leads labels m path o d

/-! ## Watched runs -/

namespace Run

variable {α : Type} (promise : Code → Machine → Prop)

open Classical in
/-- Runs a piece of code, and strays if the promise does not hold before and after it. -/
noncomputable def watch (code : Code) (run : Run α) : Run α := fun m =>
  if promise code m then
    match run m with
    | .ok a m' => if promise code m' then .ok a m' else .error .strayed m'
    | .error interrupt m' => .error interrupt m'
  else .error .strayed m

mutual

/-- The value of an expression, where everything inside of it is watched. -/
noncomputable def evaluateWatched : Nat → Expr → Run Value
  | 0, _ => throw .exhausted
  | fuel + 1, value =>
    watch promise (.expression value)
      (evaluateRule (evaluateWatched fuel) (executeWatched fuel) value)

/-- Carries out a statement, where everything inside of it is watched. -/
noncomputable def executeWatched : Nat → Stmt → Run Completion
  | 0, _ => throw .exhausted
  | fuel + 1, t =>
    watch promise (.statement t) (executeRule (evaluateWatched fuel) (executeWatched fuel) t)

end

/-- Carries out the statements of a program, where everything inside of them is watched. -/
noncomputable def interpretWatched (fuel : Nat) : List Stmt → Run Unit
  | [] => return
  | first :: more => fun m =>
    match executeWatched promise fuel first m with
    | .ok _ m => interpretWatched fuel more m
    | .error interrupt m => .error interrupt { m with current := Frames.globalId }

end Run

/-! ## Functions of the host -/

/-- What can be built from arguments: plain data, the arguments, and what their objects hold. -/
inductive BuiltFrom (heap : Heap) (arguments : List Value) : Value → Prop
  | nil : BuiltFrom heap arguments .nil
  | boolean {b : Bool} : BuiltFrom heap arguments (.boolean b)
  | number {x : Float} : BuiltFrom heap arguments (.number x)
  | string {s : String} : BuiltFrom heap arguments (.string s)
  | argument {v : Value} : v ∈ arguments → BuiltFrom heap arguments v
  | object {v : Value} {id : ObjectId} : BuiltFrom heap arguments v → v.objectId? = some id →
      BuiltFrom heap arguments (.object id)
  | weakObject {v : Value} {id : ObjectId} : BuiltFrom heap arguments v →
      v.objectId? = some id → BuiltFrom heap arguments (.weakObject id)
  | field {v a : Value} {id : ObjectId} {name : String} : BuiltFrom heap arguments v →
      v.objectId? = some id → heap.field? id name = some a → BuiltFrom heap arguments a
  | cls {v : Value} {id : ObjectId} {object : Object} : BuiltFrom heap arguments v →
      v.objectId? = some id → heap.object? id = some object →
      BuiltFrom heap arguments (.cls object.cls)

/-- An action that builds its answers from its arguments. -/
def HostAction.Builds (action : HostAction) : Prop :=
  ∀ heap world arguments v, (action heap world arguments).1 = .ok v → BuiltFrom heap arguments v

/-- The first argument is built from the arguments, and so is `nil`. -/
theorem builds_headD :
    HostAction.Builds fun _ world arguments => (.ok (arguments.headD .nil), world) := by
  rintro heap world arguments _ ⟨⟩
  cases arguments with
  | nil => exact .nil
  | cons first more => exact .argument List.mem_cons_self

end Lox
