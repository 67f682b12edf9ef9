import Lox.Proofs.Receiver.Sealed

/-!
# What is seen of receivers in a run

To say that a receiver is never lost, a run is *attended*: it strays as soon as something is not as it
should be. All that is seen is compared with the machine that comes last, since there every frame is
known.

Before and behind each expression and each statement, and before each call, weak receivers are sealed
and the values at hand are in full (`Machine.Shows`). What happens to bound methods is seen where they
change. A read of a property gives a method that is bound as the method was that the property offers; a
field that is written offers a method that is bound as the written one; and when a bound method is
called, the statements of its declaration are carried out in its environment, with its receiver in force.
-/

namespace Lox

namespace Machine

/-- What should be seen on the way to a machine that comes last: weak receivers are sealed, frames are
what they will be there, and values are in full. -/
structure Shows (final m : Machine) (values : List Value) : Prop where
  isSealed : m.Sealed
  earlier : m.Earlier final
  full : ∀ value ∈ values, m.InFull value

variable (m : Machine)

/-- A value is a method that is bound to an object: it is made from the same declaration, around it is
the environment of the method, and between them is the object. -/
def Binds (method : Closure) (owner : ObjectId) (value : Value) : Prop :=
  ∃ f receiver, value = .function f ∧ f.closure = { method with frame := f.closure.frame } ∧
    m.frames.enclosing? f.closure.frame = some method.frame ∧
    m.frames.local? f.closure.frame receiverName = some receiver ∧
    receiver.objectId? = some owner

/-- The innermost object that the frames from one outwards, up to the global frame, hold as a receiver. -/
inductive InForce : FrameId → ObjectId → Prop
  | own {frame : FrameId} {id : ObjectId} :
      m.frames.local? frame receiverName = some (.object id) → InForce frame id
  | outer {frame next : FrameId} {id : ObjectId} : frame ≠ Frames.globalId →
      (∀ value, m.frames.local? frame receiverName = some value → value.objectId? = none) →
      m.frames.enclosing? frame = some next → InForce next id → InForce frame id

/-- A machine in the frame of a call of a bound method. -/
structure InCallOf (method : Closure) (owner : ObjectId) : Prop where
  receiver : m.InForce m.current owner
  environment : m.frames.ancestor? 2 m.current = some method.frame

/-- A property of an object is a bound method: as what its field keeps, or as a method of its class. -/
def Offers (final : Machine) (id : ObjectId) (name : String) (method : Closure) (owner : ObjectId) :
    Prop :=
  match m.heap.field? id name with
  | some kept => final.Binds method owner kept
  | none => m.heap.method? id name = some method ∧ owner = id

end Machine

/-- The values that a statement ends with. -/
def Completion.values : Completion → List Value
  | .normal => []
  | .returned value => [value]

namespace Run

variable {α : Type}

open Classical in
/-- Runs something, and strays if what is seen before or behind it is not as it should be. -/
noncomputable def attend (before : Machine → Prop) (behind : Machine → α → Machine → Prop)
    (run : Run α) : Run α := fun m =>
  if before m then
    match run m with
    | .ok a m' => if behind m a m' then .ok a m' else .error .strayed m'
    | .error interrupt m' => .error interrupt m'
  else .error .strayed m

section

variable (final : Machine)

/-- Reads a property. What it offers as a bound method is bound alike afterwards. -/
noncomputable def getAttended (id : ObjectId) (name : Token) : Run Value :=
  attend (fun _ => True)
    (fun m value _ => ∀ method owner, m.Offers final id name.lexeme method owner →
      final.Binds method owner value)
    (getProperty id name)

/-- Writes a property. It then offers a bound method that is bound as the written one is. -/
noncomputable def setAttended (id : ObjectId) (name : Token) (value : Value) : Run Unit :=
  attend (fun _ => True)
    (fun _ _ m' => ∀ method owner, final.Binds method owner value →
      m'.Offers final id name.lexeme method owner)
    (setProperty id name value)

/-- Calls a value. If it is a bound method, then its own statements are carried out in its call, and an
initializer gives its receiver. -/
noncomputable def callAttended (execute : Stmt → Run Completion) (callee : Value) (paren : Token)
    (arguments : List Value) : Run Value :=
  attend (fun m => final.Shows m (callee :: arguments))
    (fun _ value _ => ∀ method owner, final.Binds method owner callee → method.isInitializer →
      value = .object owner)
    (call (fun t => attend
      (fun m => ∀ method owner, final.Binds method owner callee →
        t ∈ method.declaration.body ∧ m.InCallOf method owner)
      (fun _ _ _ => True) (execute t)) callee paren arguments)

/-- The rule for each form of expression, with what happens to bound methods. -/
noncomputable def attendedRule (evaluate : Expr → Run Value) (execute : Stmt → Run Completion) :
    Expr → Run Value
  | .call callee paren arguments => do
    let f ← evaluate callee
    let values ← evaluateAll evaluate arguments
    callAttended final execute f paren values
  | .get object name => do
    match ← evaluate object with
    | .object id => getAttended final id name
    | _ => fault name.line .propertyOfNonInstance
  | .set object name value => do
    match ← evaluate object with
    | .object id =>
      let a ← evaluate value
      setAttended final id name a
      return a
    | _ => fault name.line .fieldOfNonInstance
  | e => evaluateRule evaluate execute e

mutual

/-- The value of an expression, where everything inside of it is attended. -/
noncomputable def evaluateAttended : Nat → Expr → Run Value
  | 0, _ => throw .exhausted
  | fuel + 1, value =>
    attend (fun m => final.Shows m []) (fun _ a m => final.Shows m [a])
      (attendedRule final (evaluateAttended fuel) (executeAttended fuel) value)

/-- Carries out a statement, where everything inside of it is attended. -/
noncomputable def executeAttended : Nat → Stmt → Run Completion
  | 0, _ => throw .exhausted
  | fuel + 1, t =>
    attend (fun m => final.Shows m []) (fun _ completion m => final.Shows m completion.values)
      (executeRule (evaluateAttended fuel) (executeAttended fuel) t)

end

/-- Carries out the statements of a program, where everything inside of them is attended. -/
noncomputable def interpretAttended (fuel : Nat) : List Stmt → Run Unit
  | [] => return
  | first :: more => fun m =>
    match executeAttended final fuel first m with
    | .ok _ m => interpretAttended fuel more m
    | .error interrupt m => .error interrupt { m with current := Frames.globalId }

end

end Run

end Lox
