import Lox.Machine.Basic

/-!
# Objects and their methods

A method is *bound* to an object by a frame around it that holds only the receiver. Reading a method
of the class binds it anew each time. A field gives back what was stored in it, with one exception: a
method bound to the object itself is stored with its receiver kept weakly, and reading the field
makes a copy that holds the receiver in full.
-/

namespace Lox.Run

/-- A function as a new value. -/
def newFunction (closure : Closure) : Run Value := do
  return .function ⟨← freshIdentity, closure⟩

/-- A method with a receiver, in a new frame around `enclosing`. -/
def bindTo (closure : Closure) (enclosing : Option FrameId) (receiver : Value) : Run Closure := do
  let frame ← newFrame (Bindings.empty.insert receiverName receiver) enclosing
  return { closure with frame := frame }

/-- A method of a class, bound to an object. -/
def bindMethod (method : Closure) (id : ObjectId) : Run Closure :=
  bindTo method (some method.frame) (.object id)

/-- The receiver that the frame of a function holds itself. -/
def receiver? (closure : Closure) : Run (Option Value) :=
  return (← get).frames.local? closure.frame receiverName

/-- A function with another value for its receiver, as a new value. -/
def rebind (f : Function) (receiver : Value) : Run Value := do
  let enclosing := (← get).frames.enclosing? f.closure.frame
  newFunction (← bindTo f.closure enclosing receiver)

/-- What a field of an object holds, as a program sees it. -/
def unstored (id : ObjectId) (value : Value) : Run Value := do
  match value with
  | .function f =>
    match ← receiver? f.closure with
    | some (.weakObject kept) => if kept = id then rebind f (.object id) else return value
    | _ => return value
  | _ => return value

/-- A value as a field of an object keeps it. -/
def stored (id : ObjectId) (value : Value) : Run Value := do
  match value with
  | .function f =>
    match ← receiver? f.closure with
    | some (.object kept) => if kept = id then rebind f (.weakObject id) else return value
    | _ => return value
  | _ => return value

/-- Reads a property: a field or, if there is none, a method of the class. -/
def getProperty (id : ObjectId) (name : Token) : Run Value := do
  match (← get).heap.field? id name.lexeme with
  | some value => unstored id value
  | none =>
    match (← get).heap.method? id name.lexeme with
    | some method => newFunction (← bindMethod method id)
    | none => fault name.line (.undefinedProperty name.lexeme)

/-- Writes a property, which always becomes a field. -/
def setProperty (id : ObjectId) (name : Token) (value : Value) : Run Unit := do
  let kept ← stored id value
  modify fun m => { m with heap := m.heap.setField id name.lexeme kept }

end Lox.Run
