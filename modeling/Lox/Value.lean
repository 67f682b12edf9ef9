import Lox.Frame
import Lox.Number.Text
import Lox.Syntax.Tree

/-!
# Values

Numbers, strings, truth values and `nil` are what they look like. Functions, classes and objects have
an identity besides, and are equal only to themselves. What can change, the fields of an object, is
not in the value but in the `Heap`, under the number of the object.

A method that is stored in a field of its own receiver keeps the receiver weakly, as a `weakObject`.
A read of the field gives the method with its receiver in full again, so no program ever sees one.
-/

namespace Lox

/-- The number of an object. -/
abbrev ObjectId := Nat

/-- A number that no other function or class has. -/
abbrev Identity := Nat

/-- A function with the frame in which it was made. -/
structure Closure where
  declaration : FunctionDecl
  frame : FrameId
  isInitializer : Bool

/-- A function as a value. -/
structure Function where
  identity : Identity
  closure : Closure

/-- A class as a value. -/
structure Class where
  identity : Identity
  name : String
  methods : Bindings Closure

/-- A function of the host as a value: its place among the functions of the host, its name, and the
number of its arguments. -/
structure HostFunction where
  index : Nat
  name : String
  arity : Nat

/-- Values. -/
inductive Value where
  | nil
  | boolean (value : Bool)
  | number (value : Float)
  | string (contents : String)
  | function (f : Function)
  | host (f : HostFunction)
  | cls (c : Class)
  | object (id : ObjectId)
  | weakObject (id : ObjectId)

instance : Inhabited Value := ⟨.nil⟩

/-- An object: its class, and its fields so far. -/
structure Object where
  cls : Class
  fields : Bindings Value

/-- All objects there are. -/
structure Heap where
  all : Array Object

namespace Heap

/-- There are no objects yet. -/
def empty : Heap := ⟨#[]⟩

/-- The object with a number. -/
def object? (heap : Heap) (id : ObjectId) : Option Object := heap.all[id]?

/-- The number of the next object. -/
def nextId (heap : Heap) : ObjectId := heap.all.size

/-- Adds an object without fields; its number is `nextId`. -/
def push (heap : Heap) (cls : Class) : Heap := ⟨heap.all.push ⟨cls, .empty⟩⟩

/-- What a field of an object holds. -/
def field? (heap : Heap) (id : ObjectId) (name : String) : Option Value :=
  (heap.object? id).bind (·.fields.find? name)

/-- What a method of the class of an object is. -/
def method? (heap : Heap) (id : ObjectId) (name : String) : Option Closure :=
  (heap.object? id).bind (·.cls.methods.find? name)

/-- Lets a field of an object hold a value. -/
def setField (heap : Heap) (id : ObjectId) (name : String) (value : Value) : Heap :=
  ⟨heap.all.modify id fun object => { object with fields := object.fields.insert name value }⟩

/-- There are objects for all numbers below the next one. -/
theorem isSome_object? (heap : Heap) (id : ObjectId) : (heap.object? id).isSome ↔ id < heap.nextId := by
  simp [object?, nextId]

theorem lt_nextId_of_object? {heap : Heap} {id : ObjectId} {object : Object}
    (h : heap.object? id = some object) : id < heap.nextId :=
  (heap.isSome_object? id).mp (Option.isSome_of_eq_some h)

theorem lt_nextId_push (heap : Heap) (cls : Class) : heap.nextId < (heap.push cls).nextId := by
  simp [push, nextId]

/-- The new object has the next number, and all others stay what they are. -/
theorem object?_push (heap : Heap) (cls : Class) (id : ObjectId) :
    (heap.push cls).object? id =
      if id = heap.nextId then some ⟨cls, .empty⟩ else heap.object? id :=
  Array.getElem?_push

/-- The new object has no fields yet. -/
theorem field?_push (heap : Heap) (cls : Class) (id : ObjectId) (name : String) :
    (heap.push cls).field? id name = heap.field? id name := by
  rw [field?, field?, object?_push]
  split
  · next hid =>
    have none : heap.object? id = none := by simp [hid, object?, nextId]
    rw [none]
    rfl
  · rfl

theorem object?_setField (heap : Heap) (id other : ObjectId) (name : String) (value : Value) :
    (heap.setField id name value).object? other =
      if id = other then
        (heap.object? other).map fun object =>
          { object with fields := object.fields.insert name value }
      else heap.object? other := by
  simp [setField, object?, Array.getElem?_modify]

/-- Writing a field changes the class of no object. -/
theorem class_setField (heap : Heap) (id other : ObjectId) (name : String) (value : Value) :
    ((heap.setField id name value).object? other).map (·.cls) =
      (heap.object? other).map (·.cls) := by
  rw [object?_setField]
  split
  · cases heap.object? other <;> rfl
  · rfl

/-- Behind that, every object is one that was there, and of the same class. -/
theorem exists_of_object?_setField {heap : Heap} {id other : ObjectId} {name : String} {value : Value}
    {object : Object} (h : (heap.setField id name value).object? other = some object) :
    ∃ old, heap.object? other = some old ∧ old.cls = object.cls := by
  have classes := heap.class_setField id other name value
  rw [h, Option.map_some, eq_comm, Option.map_eq_some_iff] at classes
  exact classes

/-- Writing a field changes what it holds in that object, and nothing else. -/
theorem field?_setField (heap : Heap) (id other : ObjectId) (name key : String) (value : Value) :
    (heap.setField id name value).field? other key =
      if id = other ∧ name = key ∧ (heap.object? id).isSome then some value
      else heap.field? other key := by
  rw [field?, field?, object?_setField]
  by_cases hid : id = other
  · subst hid
    cases heap.object? id with
    | none => simp
    | some object => simp [Bindings.find?_insert]
  · simp [hid]

end Heap

/-- The name of a function. -/
def Function.name (f : Function) : String := f.closure.declaration.name.lexeme

/-- The number of parameters. -/
def Closure.arity (closure : Closure) : Nat := closure.declaration.params.length

/-- The method that prepares new objects of a class. -/
def Class.initializer? (c : Class) : Option Closure := c.methods.find? initializerName

/-- A class takes as many arguments as its initializer. -/
def Class.arity (c : Class) : Nat := (c.initializer?.map (·.arity)).getD 0

namespace Value

/-- Only `nil` and `false` are not true. -/
def isTruthy : Value → Bool
  | nil => false
  | boolean value => value
  | _ => true

/-- How many arguments a value takes, if it can be called. -/
def arity? : Value → Option Nat
  | function f => some f.closure.arity
  | host f => some f.arity
  | cls c => some c.arity
  | _ => none

/-- The object that a value stands for, however it is kept. -/
def objectId? : Value → Option ObjectId
  | object id | weakObject id => some id
  | _ => none

/-- The value in full, however it is kept. -/
def strong : Value → Value
  | weakObject id => object id
  | value => value

/-- Equality in programs. Values of different sorts are not equal, NaN is not equal to itself, and
what has an identity is equal only to itself. -/
def equals : Value → Value → Bool
  | nil, nil => true
  | boolean a, boolean b => a == b
  | number a, number b => a == b
  | string a, string b => a == b
  | function f, function g => f.identity == g.identity
  | host f, host g => f.index == g.index
  | cls c, cls d => c.identity == d.identity
  | a, b => match a.objectId?, b.objectId? with
    | some i, some j => i == j
    | _, _ => false

/-- The text that is printed for a value. -/
def text (heap : Heap) : Value → String
  | nil => "nil"
  | boolean value => if value then "true" else "false"
  | number value => Number.valueText value
  | string contents => contents
  | function f => "<fn " ++ f.name ++ ">"
  | host f => "<native fn " ++ f.name ++ ">"
  | cls c => "<cls " ++ c.name ++ ">"
  | object id | weakObject id =>
    "<instance " ++ ((heap.object? id).map (·.cls.name)).getD "" ++ ">"

/-- The value of a constant. -/
def ofLiteral : Literal → Value
  | .number value => number value
  | .string contents => string contents
  | .boolean value => boolean value
  | .nil => nil

end Value

end Lox
