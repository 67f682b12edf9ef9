import Lox.Host
import Std.Data.TreeMap

/-!
# Machines

A `Machine` is all that a run can change: frames, objects, the frame that is current, the distances
of the occurrences in all that passed its checks so far, and the outside world. A `Run` changes a
machine and gives a value, or is interrupted. What it did up to an interruption stays done.
-/

namespace Lox

/-- Why a run does not give a value. -/
inductive Interrupt where
  /-- The program is at fault. -/
  | stopped (diagnostic : Diagnostic)
  /-- A distance leads out of the frames. -/
  | strayed
  /-- The run was longer than it was allowed to be. -/
  | exhausted

/-- The state of a run. -/
structure Machine where
  frames : Frames Value
  heap : Heap
  current : FrameId
  distances : Std.TreeMap OccurrenceId Nat
  actions : Array HostAction
  sink : Sink
  world : World
  nextIdentity : Identity

/-- Changes a machine and gives a value, or is interrupted. -/
abbrev Run := EStateM Interrupt Machine

namespace Machine

/-- A machine with a global frame and nothing in it. -/
def blank (sink : Sink) (world : World) : Machine where
  frames := .start
  heap := .empty
  current := Frames.globalId
  distances := ∅
  actions := #[]
  sink := sink
  world := world
  nextIdentity := 0

/-- Adds a function of the host, bound to its name in the global frame. -/
def offer (m : Machine) (offered : HostOffer) : Machine :=
  let value := .host ⟨m.actions.size, offered.name, offered.arity⟩
  { m with
    frames := m.frames.define Frames.globalId offered.name value
    actions := m.actions.push offered.action }

/-- A machine with the functions of the host that are always there. -/
def start (sink : Sink) (world : World) : Machine :=
  HostOffer.standard.foldl offer (blank sink world)

/-- Takes over the distances of a unit that passed its checks. -/
def adopt (m : Machine) (distances : Distances) : Machine :=
  { m with distances := distances.foldl (fun all (id, d) => all.insert id d) m.distances }

/-- How many occurrences are bound to a scope. -/
def boundOccurrences (m : Machine) : Nat := m.distances.size

end Machine

namespace Run

variable {α : Type}

/-- Stops at a fault of the program on a line. -/
def fault (line : Nat) (fault : Fault) : Run α := throw (.stopped (.runtime line fault))

/-- An identity that nothing has had yet. -/
def freshIdentity : Run Identity := do
  let identity := (← get).nextIdentity
  modify fun m => { m with nextIdentity := identity + 1 }
  return identity

/-- A new frame with these bindings. -/
def newFrame (bindings : Bindings Value) (enclosing : Option FrameId) : Run FrameId := do
  let id := (← get).frames.nextId
  modify fun m => { m with frames := m.frames.push bindings enclosing }
  return id

/-- A new object without fields. -/
def newObject (cls : Class) : Run ObjectId := do
  let id := (← get).heap.nextId
  modify fun m => { m with heap := m.heap.push cls }
  return id

/-- Runs something with another frame as the current one. Whatever comes of it, the current frame is
the old one afterwards. -/
def inFrame (frame : FrameId) (run : Run α) : Run α := fun m =>
  let outer := m.current
  match run { m with current := frame } with
  | .ok a m => .ok a { m with current := outer }
  | .error interrupt m => .error interrupt { m with current := outer }

/-- Writes a text to the output. A full sink refuses it, unless it is empty. -/
def write (text : String) : Run Unit := do
  if text.isEmpty then return
  if (← get).sink.isFull then throw (.stopped Sink.refusal)
  modify fun m => { m with sink := m.sink.append text }

/-! ### Variables -/

/-- Binds a name in the current frame. -/
def define (name : String) (value : Value) : Run Unit :=
  modify fun m => { m with frames := m.frames.define m.current name value }

/-- The frame a number of steps outwards from the current one. -/
def ancestor (distance : Nat) : Run FrameId := do
  let m ← get
  match m.frames.ancestor? distance m.current with
  | some frame => return frame
  | none => throw .strayed

/-- The value that was found under a name, in full. -/
def found (name : Token) (value : Option Value) : Run Value :=
  match value with
  | some value => return value.strong
  | none => fault name.line (.undefinedVariable name.lexeme)

/-- What an occurrence stands for: in the frame at its distance, or in the global frame. -/
def lookUp (id : OccurrenceId) (name : Token) : Run Value := do
  match (← get).distances[id]? with
  | some distance =>
    let frame ← ancestor distance
    found name ((← get).frames.local? frame name.lexeme)
  | none => found name ((← get).frames.find? Frames.globalId name.lexeme)

/-- Binds an occurrence anew: in the frame at its distance, or in the global frame, where its name has
to be bound. -/
def assign (id : OccurrenceId) (name : Token) (value : Value) : Run Unit := do
  match (← get).distances[id]? with
  | some distance =>
    let frame ← ancestor distance
    modify fun m => { m with frames := m.frames.define frame name.lexeme value }
  | none =>
    match (← get).frames.holder? Frames.globalId name.lexeme with
    | some frame => modify fun m => { m with frames := m.frames.define frame name.lexeme value }
    | none => fault name.line (.undefinedVariable name.lexeme)

end Run

end Lox
