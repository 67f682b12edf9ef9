import Lox.Proofs.Frame.Rooted
import Lox.Proofs.Receiver.Primitives
import Lox.Proofs.Syntax.Formed

/-!
# Orderly machines

A value *fits* a machine if the frames of its functions and the objects in it are there, and the code in
it is well formed (`Machine.Fit`). All that an *orderly* machine holds fits it. What fitted once always
will, since frames and objects are only added, and so the parts of an orderly machine can be changed one
by one.

A change is *calm* if it writes no field of an object that was there (`Machine.Calm`). Then the objects
that frames hold as receivers are the same as well, since no declaration binds the name of the receiver.
-/

namespace Lox

namespace Machine

/-! ## What fits -/

/-- The frame of a function is there, and its declaration is well formed. -/
structure ClosureFit (m : Machine) (closure : Closure) : Prop where
  there : closure.frame < m.frames.nextId
  formed : closure.declaration.Formed

/-- The functions and objects that a value is made of are there. -/
def Fit (m : Machine) : Value → Prop
  | .function f => m.ClosureFit f.closure
  | .cls c => ∀ name method, c.methods.find? name = some method → m.ClosureFit method
  | .object id | .weakObject id => id < m.heap.nextId
  | .nil | .boolean _ | .number _ | .string _ | .host _ => True

/-- What a new frame is to hold fits, and has nothing but an object as the receiver. -/
structure FrameFit (m : Machine) (bindings : Bindings Value) : Prop where
  values : ∀ name value, bindings.find? name = some value → m.Fit value
  receiver : ∀ value, bindings.find? receiverName = some value → value.objectId?.isSome

/-- Nothing but objects is bound to the name of the receiver. Only the host may use the name otherwise,
for a function that it offers. -/
def BindsReceivers (m : Machine) : Prop :=
  ∀ frame value, m.frames.local? frame receiverName = some value →
    if frame = Frames.globalId then ∃ f, value = .host f else value.objectId?.isSome

/-- A machine on which everything fits. -/
structure Orderly (m : Machine) : Prop where
  current_lt : m.current < m.frames.nextId
  rooted : m.frames.Rooted
  receivers : m.BindsReceivers
  bound : ∀ frame name value, m.frames.local? frame name = some value → m.Fit value
  classes : ∀ id object, m.heap.object? id = some object → m.Fit (.cls object.cls)
  fields : ∀ id name value, m.heap.field? id name = some value → m.Fit value
  host : ∀ action ∈ m.actions, action.Builds

/-- An orderly machine that is later than another one, on which all fields of the objects that were there
hold what they held. -/
structure Calm (m m' : Machine) : Prop where
  earlier : m.Earlier m'
  orderly : m'.Orderly
  fields : ∀ id < m.heap.nextId, ∀ name, m'.heap.field? id name = m.heap.field? id name

variable {m m' m'' : Machine}

theorem ClosureFit.mono (h : m.Earlier m') {closure : Closure} (hclosure : m.ClosureFit closure) :
    m'.ClosureFit closure :=
  ⟨Nat.lt_of_lt_of_le hclosure.there h.nextId_le, hclosure.formed⟩

/-- What fitted once always will. -/
theorem Fit.mono (h : m.Earlier m') {value : Value} (hvalue : m.Fit value) : m'.Fit value := by
  cases value with
  | function f => exact ClosureFit.mono h hvalue
  | cls c => exact fun name method hmethod => (hvalue name method hmethod).mono h
  | object id | weakObject id => exact Nat.lt_of_lt_of_le hvalue h.objects_le
  | _ => trivial

theorem Fit.strong {value : Value} (h : m.Fit value) : m.Fit value.strong := by
  cases value <;> exact h

theorem fit_ofLiteral (m : Machine) (value : Literal) : m.Fit (.ofLiteral value) := by
  cases value <;> exact trivial

/-- The object that a value stands for is there. -/
theorem Fit.objectId_lt {value : Value} (h : m.Fit value) {id : ObjectId}
    (hid : value.objectId? = some id) : id < m.heap.nextId := by
  cases value with
  | object other | weakObject other =>
    injection hid with hid
    exact hid ▸ h
  | _ => nomatch hid

theorem frameFit_empty (m : Machine) : m.FrameFit .empty := ⟨nofun, nofun⟩

theorem frameFit_receiver {receiver : Value} (h : m.Fit receiver) (hobject : receiver.objectId?.isSome) :
    m.FrameFit (Bindings.empty.insert receiverName receiver) where
  values _ _ hvalue := find?_receiver receiver hvalue ▸ h
  receiver _ hvalue := find?_receiver receiver hvalue ▸ hobject

/-- The frame of a function that holds an object as its receiver is inside of one that is there. -/
theorem Orderly.enclosing (h : m.Orderly) {frame : FrameId} {receiver : Value}
    (hreceiver : m.frames.local? frame receiverName = some receiver) (hobject : receiver.objectId?.isSome) :
    ∃ outer < m.frames.nextId, m.frames.enclosing? frame = some outer := by
  refine h.rooted.enclosing (m.frames.lt_nextId_of_local? (Option.isSome_of_eq_some hreceiver)) ?_
  rintro rfl
  have outside := h.receivers _ receiver hreceiver
  rw [if_pos rfl] at outside
  obtain ⟨f, rfl⟩ := outside
  cases hobject

/-- The global frame holds no object as a receiver. -/
theorem Orderly.outside (h : m.Orderly) {value : Value}
    (hvalue : m.frames.local? Frames.globalId receiverName = some value) : value.objectId? = none := by
  have receiver := h.receivers _ value hvalue
  rw [if_pos rfl] at receiver
  obtain ⟨f, rfl⟩ := receiver
  rfl

/-! ## Calm changes -/

theorem Orderly.calm (h : m.Orderly) : m.Calm m := ⟨.refl m, h, fun _ _ _ => rfl⟩

theorem Calm.trans (h : m.Calm m') (h' : m'.Calm m'') : m.Calm m'' where
  earlier := h.earlier.trans h'.earlier
  orderly := h'.orderly
  fields id hid name :=
    (h'.fields id (Nat.lt_of_lt_of_le hid h.earlier.objects_le) name).trans (h.fields id hid name)

/-- What leaves frames and objects alone is calm. -/
theorem Orderly.of_same (h : m.Orderly) (hframes : m'.frames = m.frames) (hheap : m'.heap = m.heap)
    (hhost : ∀ action ∈ m'.actions, action.Builds) (hcurrent : m'.current < m.frames.nextId) :
    m.Calm m' := by
  have earlier : m.Earlier m' := .of_frames_eq hframes (Nat.le_of_eq (by rw [hheap]))
  refine ⟨earlier, ⟨hframes ▸ hcurrent, hframes ▸ h.rooted, ?_, ?_, ?_, ?_, hhost⟩, fun _ _ _ => by rw [hheap]⟩
  · intro frame value hvalue
    rw [hframes] at hvalue
    exact h.receivers frame value hvalue
  · rw [hframes]
    exact fun frame name value hvalue => (h.bound frame name value hvalue).mono earlier
  · rw [hheap]
    exact fun id object hobject => Fit.mono earlier (h.classes id object hobject)
  · rw [hheap]
    exact fun id name value hvalue => (h.fields id name value hvalue).mono earlier

/-- A value that fits may be bound to a name, but only a function of the host to that of the receiver. -/
theorem Orderly.define (h : m.Orderly) {frame : FrameId} {name : String} {value : Value}
    (hvalue : m.Fit value)
    (hname : name = receiverName → frame = Frames.globalId ∧ ∃ f, value = .host f) :
    m.Calm (m.define frame name value) := by
  have earlier : m.Earlier (m.define frame name value) := by
    refine .define m frame fun hreceiver => ?_
    obtain ⟨rfl, f, rfl⟩ := hname hreceiver
    exact ⟨rfl, fun _ => h.outside⟩
  -- what is found afterwards was bound just now or was found before
  have local_define : ∀ other key kept,
      (m.define frame name value).frames.local? other key = some kept →
        (frame = other ∧ name = key ∧ kept = value) ∨ m.frames.local? other key = some kept := by
    intro other key kept hkept
    rw [Machine.define, Frames.local?_define] at hkept
    split at hkept
    · next hsame =>
      injection hkept with hkept
      exact .inl ⟨hsame.1, hsame.2.1, hkept.symm⟩
    · exact .inr hkept
  refine ⟨earlier, ⟨?_, h.rooted.define frame name value, ?_, ?_, ?_, ?_, h.host⟩, fun _ _ _ => rfl⟩
  · exact Nat.lt_of_lt_of_le h.current_lt earlier.nextId_le
  · intro other kept hkept
    rcases local_define _ _ kept hkept with ⟨rfl, hreceiver, rfl⟩ | hold
    · obtain ⟨hglobal, hhost⟩ := hname hreceiver
      rwa [if_pos hglobal]
    · exact h.receivers other kept hold
  · intro other key kept hkept
    rcases local_define other key kept hkept with ⟨-, -, rfl⟩ | hold
    · exact hvalue.mono earlier
    · exact (h.bound other key kept hold).mono earlier
  · exact fun id object hobject => Fit.mono earlier (h.classes id object hobject)
  · exact fun id key kept hkept => (h.fields id key kept hkept).mono earlier

/-- A new frame is inside of one that is there, and holds what fits. -/
theorem Orderly.push (h : m.Orderly) {bindings : Bindings Value} {enclosing : Option FrameId}
    (henclosing : ∃ outer < m.frames.nextId, enclosing = some outer) (hbindings : m.FrameFit bindings) :
    m.Calm (m.push bindings enclosing) := by
  have earlier := Earlier.push m bindings enclosing
  refine ⟨earlier, ⟨?_, h.rooted.push bindings henclosing, ?_, ?_, ?_, ?_, h.host⟩, fun _ _ _ => rfl⟩
  · exact Nat.lt_of_lt_of_le h.current_lt earlier.nextId_le
  · intro frame value hvalue
    rw [Machine.push, Frames.local?_push] at hvalue
    split at hvalue
    · next hnew =>
      -- the global frame was there before all others
      have local_frame : frame ≠ Frames.globalId := hnew ▸ Nat.ne_of_gt (Nat.zero_lt_of_lt h.current_lt)
      rw [if_neg local_frame]
      exact hbindings.receiver value hvalue
    · exact h.receivers frame value hvalue
  · intro frame name value hvalue
    rw [Machine.push, Frames.local?_push] at hvalue
    split at hvalue
    · exact (hbindings.values name value hvalue).mono earlier
    · exact (h.bound frame name value hvalue).mono earlier
  · exact fun id object hobject => Fit.mono earlier (h.classes id object hobject)
  · exact fun id name value hvalue => (h.fields id name value hvalue).mono earlier

/-- A new object has no fields, and the class fits. -/
theorem Orderly.create (h : m.Orderly) {cls : Class} (hcls : m.Fit (.cls cls)) :
    m.Calm (m.create cls) := by
  have earlier := Earlier.create m cls
  refine ⟨earlier, ⟨h.current_lt, h.rooted, h.receivers, ?_, ?_, ?_, h.host⟩, fun id hid name => ?_⟩
  · exact fun frame name value hvalue => (h.bound frame name value hvalue).mono earlier
  · intro id object hobject
    rw [object?_create] at hobject
    split at hobject
    · injection hobject with hobject
      exact hobject ▸ hcls.mono earlier
    · exact Fit.mono earlier (h.classes id object hobject)
  · intro id name value hvalue
    rw [Machine.create, Heap.field?_push] at hvalue
    exact (h.fields id name value hvalue).mono earlier
  · rw [Machine.create, Heap.field?_push]

/-- A value that fits may be written to a field. -/
theorem Orderly.setField (h : m.Orderly) {id : ObjectId} {name : String} {value : Value}
    (hvalue : m.Fit value) : (m.setField id name value).Orderly := by
  have earlier := Earlier.setField m id name value
  refine ⟨h.current_lt, h.rooted, h.receivers, ?_, ?_, ?_, h.host⟩
  · exact fun frame key kept hkept => (h.bound frame key kept hkept).mono earlier
  · intro other object hobject
    obtain ⟨old, hold, hclass⟩ := Heap.exists_of_object?_setField hobject
    exact hclass ▸ Fit.mono earlier (h.classes other old hold)
  · intro other key kept hkept
    rw [Machine.setField, Heap.field?_setField] at hkept
    split at hkept
    · injection hkept with hkept
      exact hkept ▸ hvalue.mono earlier
    · exact (h.fields other key kept hkept).mono earlier

/-- The method of an object fits, and the object is there. -/
theorem Orderly.method (h : m.Orderly) {id : ObjectId} {name : String} {method : Closure}
    (hmethod : m.heap.method? id name = some method) : m.ClosureFit method ∧ id < m.heap.nextId := by
  obtain ⟨object, hobject, hfind⟩ := Option.bind_eq_some_iff.mp hmethod
  exact ⟨h.classes id object hobject name method hfind, Heap.lt_nextId_of_object? hobject⟩

/-- What is built from values that fit does too. -/
theorem Orderly.builtFrom (h : m.Orderly) {arguments : List Value}
    (harguments : ∀ a ∈ arguments, m.Fit a) {value : Value}
    (hbuilt : BuiltFrom m.heap arguments value) : m.Fit value := by
  induction hbuilt with
  | argument hmem => exact harguments _ hmem
  | object _ hid ih | weakObject _ hid ih => exact ih.objectId_lt hid
  | field _ _ hfield _ => exact h.fields _ _ _ hfield
  | cls _ _ hobject _ => exact h.classes _ _ hobject
  | nil | boolean | number | string => exact trivial

end Machine

end Lox
