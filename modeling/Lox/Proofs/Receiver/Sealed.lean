import Lox.Proofs.Machine.Layout

/-!
# Weak receivers are sealed

An object is kept weakly in one place only: in the frame around a method that is stored in a field of
this very object (`Machine.Sealed`). No other function has this frame, no other frame is enclosed by
it, and nothing runs in it. So whatever else there is in a machine is *in full*: neither is it an object
that is kept weakly, nor a function that holds one as its receiver.

Frames are added, but they keep what encloses them and which object they hold as their receiver
(`Machine.Earlier`), and so what was in full once always is.
-/

namespace Lox

namespace Machine

variable (m : Machine)

/-- The frame holds an object as its receiver, but weakly. -/
def HoldsWeakly (frame : FrameId) : Prop :=
  ∃ id, m.frames.local? frame receiverName = some (.weakObject id)

/-- The frame of a function is there, and does not hold its receiver weakly. -/
structure ClosureInFull (closure : Closure) : Prop where
  there : closure.frame < m.frames.nextId
  full : ¬m.HoldsWeakly closure.frame

/-- A value that neither is an object kept weakly nor holds one as a receiver. -/
def InFull : Value → Prop
  | .weakObject _ => False
  | .function f => m.ClosureInFull f.closure
  | .cls c => ∀ name method, c.methods.find? name = some method → m.ClosureInFull method
  | _ => True

/-- A function that holds an object as its receiver, but weakly. -/
def KeepsWeakly (id : ObjectId) (value : Value) : Prop :=
  ∃ f, value = .function f ∧
    m.frames.local? f.closure.frame receiverName = some (.weakObject id)

/-- An object is kept weakly only as the receiver of a method that is stored in one of its own fields. -/
structure Sealed : Prop where
  global : ¬m.HoldsWeakly Frames.globalId
  current : ¬m.HoldsWeakly m.current
  enclosing : ∀ frame outer, m.frames.enclosing? frame = some outer → ¬m.HoldsWeakly outer
  bound : ∀ frame name value, m.frames.local? frame name = some value →
    m.InFull value ∨ name = receiverName ∧ ∃ id, value = .weakObject id
  classes : ∀ id object, m.heap.object? id = some object → m.InFull (.cls object.cls)
  fields : ∀ id name value, m.heap.field? id name = some value →
    m.InFull value ∨ m.KeepsWeakly id value

/-! ## Earlier and later -/

/-- Objects and frames are added, and frames keep what encloses them and which object they hold as their
receiver. -/
structure Earlier (m m' : Machine) : Prop where
  objects_le : m.heap.nextId ≤ m'.heap.nextId
  nextId_le : m.frames.nextId ≤ m'.frames.nextId
  enclosing_eq : ∀ frame < m.frames.nextId,
    m'.frames.enclosing? frame = m.frames.enclosing? frame
  receiver_iff : ∀ frame < m.frames.nextId, ∀ value : Value, value.objectId?.isSome →
    (m'.frames.local? frame receiverName = some value ↔
      m.frames.local? frame receiverName = some value)

namespace Earlier

variable {m m' m'' : Machine}

theorem of_frames_eq (h : m'.frames = m.frames) (hle : m.heap.nextId ≤ m'.heap.nextId) :
    m.Earlier m' :=
  ⟨hle, Nat.le_of_eq (by rw [h]), fun _ _ => by rw [h], fun _ _ _ _ => by rw [h]⟩

theorem refl (m : Machine) : m.Earlier m := of_frames_eq rfl (Nat.le_refl _)

theorem trans (h : m.Earlier m') (h' : m'.Earlier m'') : m.Earlier m'' where
  objects_le := Nat.le_trans h.objects_le h'.objects_le
  nextId_le := Nat.le_trans h.nextId_le h'.nextId_le
  enclosing_eq frame hframe :=
    (h'.enclosing_eq frame (Nat.lt_of_lt_of_le hframe h.nextId_le)).trans
      (h.enclosing_eq frame hframe)
  receiver_iff frame hframe value hvalue :=
    (h'.receiver_iff frame (Nat.lt_of_lt_of_le hframe h.nextId_le) value hvalue).trans
      (h.receiver_iff frame hframe value hvalue)

theorem holdsWeakly_iff (h : m.Earlier m') {frame : FrameId} (hframe : frame < m.frames.nextId) :
    m'.HoldsWeakly frame ↔ m.HoldsWeakly frame :=
  exists_congr fun _ => h.receiver_iff frame hframe _ rfl

theorem closureInFull (h : m.Earlier m') {closure : Closure} (hclosure : m.ClosureInFull closure) :
    m'.ClosureInFull closure :=
  ⟨Nat.lt_of_lt_of_le hclosure.there h.nextId_le,
    fun hweak => hclosure.full ((h.holdsWeakly_iff hclosure.there).mp hweak)⟩

/-- What was in full once always is. -/
theorem inFull (h : m.Earlier m') {value : Value} (hvalue : m.InFull value) : m'.InFull value := by
  cases value with
  | weakObject id => exact hvalue
  | function f => exact h.closureInFull hvalue
  | cls c => exact fun name method hmethod => h.closureInFull (hvalue name method hmethod)
  | _ => trivial

theorem keepsWeakly (h : m.Earlier m') {id : ObjectId} {value : Value}
    (hvalue : m.KeepsWeakly id value) : m'.KeepsWeakly id value := by
  obtain ⟨f, rfl, hf⟩ := hvalue
  have there := m.frames.lt_nextId_of_local? (Option.isSome_of_eq_some hf)
  exact ⟨f, rfl, (h.receiver_iff _ there _ rfl).mpr hf⟩

end Earlier

end Machine

/-! ## Tidy machines -/

/-- What can be built from arguments in full: plain data, the arguments, and what their objects hold,
functions apart, which may hold their receiver weakly. -/
inductive BuiltInFull (heap : Heap) (arguments : List Value) : Value → Prop
  | nil : BuiltInFull heap arguments .nil
  | boolean {b : Bool} : BuiltInFull heap arguments (.boolean b)
  | number {x : Float} : BuiltInFull heap arguments (.number x)
  | string {s : String} : BuiltInFull heap arguments (.string s)
  | argument {v : Value} : v ∈ arguments → BuiltInFull heap arguments v
  | object {v : Value} {id : ObjectId} : BuiltInFull heap arguments v → v.objectId? = some id →
      BuiltInFull heap arguments (.object id)
  | field {v a : Value} {id : ObjectId} {name : String} : BuiltInFull heap arguments v →
      v.objectId? = some id → heap.field? id name = some a → (∀ f, a ≠ .function f) →
      BuiltInFull heap arguments a
  | cls {v : Value} {id : ObjectId} {object : Object} : BuiltInFull heap arguments v →
      v.objectId? = some id → heap.object? id = some object →
      BuiltInFull heap arguments (.cls object.cls)

/-- An action that builds its answers in full from its arguments. -/
def HostAction.BuildsInFull (action : HostAction) : Prop :=
  ∀ heap world arguments v, (action heap world arguments).1 = .ok v →
    BuiltInFull heap arguments v

/-- Somewhere everything in the function is bound. -/
def FunctionDecl.IsBound (f : FunctionDecl) : Prop := ∃ record scopes, f.Bound record scopes

/-- Somewhere everything in the functions that a value is made of is bound. -/
def Value.IsBound : Value → Prop
  | .function f => f.closure.declaration.IsBound
  | .cls c => ∀ name method, c.methods.find? name = some method → method.declaration.IsBound
  | _ => True

/-- A value that holds neither an object nor code. -/
def Value.IsPlain : Value → Prop
  | .nil | .boolean _ | .number _ | .string _ | .host _ => True
  | _ => False

namespace Machine

/-- What a value is made of is bound, and its object is there. -/
structure Stands (m : Machine) (value : Value) : Prop where
  bound : value.IsBound
  there : ∀ id, value.objectId? = some id → id < m.heap.nextId

/-- A value as a program may see it. -/
structure Fine (m : Machine) (value : Value) : Prop where
  full : m.InFull value
  stands : m.Stands value

/-- Values that hold neither an object nor code are fine on every machine. -/
theorem fine_of_plain {m : Machine} {value : Value} (h : value.IsPlain) : m.Fine value := by
  cases value with
  | nil | boolean | number | string | host => exact ⟨trivial, trivial, by rintro _ ⟨⟩⟩
  | _ => exact h.elim

/-- A machine whose weak receivers are sealed, and that holds code that is bound only. -/
structure Tidy (m : Machine) : Prop where
  isSealed : m.Sealed
  nextId_pos : Frames.globalId < m.frames.nextId
  outside : ∀ value, m.frames.local? Frames.globalId receiverName = some value →
    value.objectId? = none
  current_lt : m.current < m.frames.nextId
  enclosing_lt : ∀ frame outer, m.frames.enclosing? frame = some outer → outer < m.frames.nextId
  bound : ∀ frame name value, m.frames.local? frame name = some value → m.Stands value
  classes : ∀ id object, m.heap.object? id = some object → Value.IsBound (.cls object.cls)
  fields : ∀ id name value, m.heap.field? id name = some value → m.Stands value
  host : ∀ action ∈ m.actions, action.BuildsInFull

variable {m m' : Machine}

theorem Stands.mono (h : m.Earlier m') {value : Value} (hvalue : m.Stands value) : m'.Stands value :=
  ⟨hvalue.bound, fun id hid => Nat.lt_of_lt_of_le (hvalue.there id hid) h.objects_le⟩

theorem Fine.mono (h : m.Earlier m') {value : Value} (hvalue : m.Fine value) : m'.Fine value :=
  ⟨h.inFull hvalue.full, hvalue.stands.mono h⟩

/-- What is in full is not changed by being found. -/
theorem InFull.strong {value : Value} (h : m.InFull value) : value.strong = value := by
  cases value with
  | weakObject id => exact h.elim
  | _ => rfl

/-- What leaves frames and objects alone disturbs nothing, if the actions are as they should be. -/
theorem Tidy.of_same (h : m.Tidy) (hframes : m'.frames = m.frames) (hheap : m'.heap = m.heap)
    (hhost : ∀ action ∈ m'.actions, action.BuildsInFull) (hcurrent : m'.current < m.frames.nextId)
    (hfull : ¬m.HoldsWeakly m'.current) : m.Earlier m' ∧ m'.Tidy := by
  obtain ⟨frames, heap, current, distances, actions, sink, world, nextIdentity⟩ := m'
  obtain rfl : frames = m.frames := hframes
  obtain rfl : heap = m.heap := hheap
  obtain ⟨⟨global, -, enclosing, bound, classes, fields⟩, hpos, outside, -, hlt, hbound, hclasses,
    hfields, -⟩ := h
  have earlier : m.Earlier ⟨m.frames, m.heap, current, distances, actions, sink, world, nextIdentity⟩ :=
    .of_frames_eq rfl (Nat.le_refl _)
  refine ⟨earlier, ⟨global, hfull, enclosing, ?_, ?_, ?_⟩, hpos, outside, hcurrent, hlt, ?_, hclasses,
    ?_, hhost⟩
  · exact fun frame name value hvalue => (bound frame name value hvalue).imp_left earlier.inFull
  · exact fun id object hobject => earlier.inFull (classes id object hobject)
  · exact fun id name value hvalue =>
      (fields id name value hvalue).imp earlier.inFull earlier.keepsWeakly
  · exact fun frame name value hvalue => (hbound frame name value hvalue).mono earlier
  · exact fun id name value hvalue => (hfields id name value hvalue).mono earlier

/-! ## What the parts of a tidy machine may become -/

/-- The machine with a name bound in a frame. -/
def define (m : Machine) (frame : FrameId) (name : String) (value : Value) : Machine :=
  { m with frames := m.frames.define frame name value }

/-- Objects that are held as receivers do not change if none is bound to this name. -/
theorem Earlier.define (m : Machine) (frame : FrameId) {name : String} {value : Value}
    (hname : name = receiverName → value.objectId? = none ∧
      ∀ kept, m.frames.local? frame receiverName = some kept → kept.objectId? = none) :
    m.Earlier (m.define frame name value) where
  objects_le := Nat.le_refl _
  nextId_le := Nat.le_of_eq (m.frames.nextId_define frame name value).symm
  enclosing_eq other _ := m.frames.enclosing?_define frame other name value
  receiver_iff other _ kept hkept := by
    show Frames.local? (Frames.define ..) other receiverName = _ ↔ _
    rw [Frames.local?_define]
    split
    · next hsame =>
      obtain ⟨rfl, hreceiver, -⟩ := hsame
      obtain ⟨hvalue, hold⟩ := hname hreceiver
      constructor
      · intro h
        injection h with h
        rw [← h, hvalue] at hkept
        nomatch hkept
      · intro h
        rw [hold kept h] at hkept
        nomatch hkept
    · exact Iff.rfl

/-- A fine value may be bound to a name, but no object to the name of the receiver, or in its place. -/
theorem Tidy.define (h : m.Tidy) {frame : FrameId} {name : String} {value : Value}
    (hvalue : m.Fine value)
    (hname : name = receiverName → value.objectId? = none ∧
      ∀ kept, m.frames.local? frame receiverName = some kept → kept.objectId? = none) :
    (m.define frame name value).Tidy := by
  have earlier := Earlier.define m frame hname
  have weakly {other : FrameId} (hother : ¬m.HoldsWeakly other) :
      ¬(m.define frame name value).HoldsWeakly other := by
    rintro ⟨id, hid⟩
    rw [Machine.define, Frames.local?_define] at hid
    split at hid
    · injection hid with hid
      exact (hid ▸ hvalue.full : m.InFull (.weakObject id))
    · exact hother ⟨id, hid⟩
  have isSealed : (m.define frame name value).Sealed := by
    refine ⟨weakly h.isSealed.global, weakly h.isSealed.current, ?_, ?_, ?_, ?_⟩
    · intro inner outer hinner
      rw [Machine.define, Frames.enclosing?_define] at hinner
      exact weakly (h.isSealed.enclosing inner outer hinner)
    · intro other key kept hkept
      rw [Machine.define, Frames.local?_define] at hkept
      split at hkept
      · injection hkept with hkept
        exact .inl (earlier.inFull (hkept ▸ hvalue.full))
      · exact (h.isSealed.bound other key kept hkept).imp_left earlier.inFull
    · exact fun id object hobject => earlier.inFull (h.isSealed.classes id object hobject)
    · exact fun id key kept hkept =>
        (h.isSealed.fields id key kept hkept).imp earlier.inFull earlier.keepsWeakly
  have nextId : (m.define frame name value).frames.nextId = m.frames.nextId :=
    m.frames.nextId_define frame name value
  refine ⟨isSealed, nextId ▸ h.nextId_pos, ?_, nextId ▸ h.current_lt, ?_, ?_, h.classes, ?_, h.host⟩
  · intro kept hkept
    rw [Machine.define, Frames.local?_define] at hkept
    split at hkept
    · next hsame =>
      injection hkept with hkept
      exact hkept ▸ (hname hsame.2.1).1
    · exact h.outside kept hkept
  · intro inner outer hinner
    rw [Machine.define, Frames.enclosing?_define] at hinner
    exact nextId ▸ h.enclosing_lt inner outer hinner
  · intro other key kept hkept
    rw [Machine.define, Frames.local?_define] at hkept
    split at hkept
    · injection hkept with hkept
      exact hkept ▸ hvalue.stands.mono earlier
    · exact (h.bound other key kept hkept).mono earlier
  · exact fun id key kept hkept => (h.fields id key kept hkept).mono earlier

/-- The machine with a new frame. -/
def push (m : Machine) (bindings : Bindings Value) (enclosing : Option FrameId) : Machine :=
  { m with frames := m.frames.push bindings enclosing }

theorem Earlier.push (m : Machine) (bindings : Bindings Value) (enclosing : Option FrameId) :
    m.Earlier (m.push bindings enclosing) where
  objects_le := Nat.le_refl _
  nextId_le := by simp [Machine.push]
  enclosing_eq frame hframe := by
    show Frames.enclosing? (Frames.push ..) frame = _
    rw [Frames.enclosing?_push, if_neg (Nat.ne_of_lt hframe)]
  receiver_iff frame hframe value _ := by
    show Frames.local? (Frames.push ..) frame receiverName = _ ↔ _
    rw [Frames.local?_push, if_neg (Nat.ne_of_lt hframe)]

/-- A new frame may hold its receiver weakly, since nothing leads to it yet. -/
theorem Tidy.push (h : m.Tidy) {bindings : Bindings Value} {enclosing : Option FrameId}
    (hvalues : ∀ name value, bindings.find? name = some value →
      m.Fine value ∨ name = receiverName ∧ ∃ id < m.heap.nextId, value = .weakObject id)
    (henclosing : ∀ outer ∈ enclosing, outer < m.frames.nextId ∧ ¬m.HoldsWeakly outer) :
    (m.push bindings enclosing).Tidy := by
  have earlier := Earlier.push m bindings enclosing
  have weakly {other : FrameId} (hlt : other < m.frames.nextId) (hother : ¬m.HoldsWeakly other) :
      ¬(m.push bindings enclosing).HoldsWeakly other :=
    fun hweak => hother ((earlier.holdsWeakly_iff hlt).mp hweak)
  have isSealed : (m.push bindings enclosing).Sealed := by
    refine ⟨weakly h.nextId_pos h.isSealed.global, weakly h.current_lt h.isSealed.current, ?_, ?_, ?_, ?_⟩
    · intro inner outer hinner
      rw [Machine.push, Frames.enclosing?_push] at hinner
      split at hinner
      · obtain ⟨hlt, hfull⟩ := henclosing outer hinner
        exact weakly hlt hfull
      · exact weakly (h.enclosing_lt inner outer hinner) (h.isSealed.enclosing inner outer hinner)
    · intro frame name value hvalue
      rw [Machine.push, Frames.local?_push] at hvalue
      split at hvalue
      · rcases hvalues name value hvalue with hfine | ⟨hname, id, -, hid⟩
        · exact .inl (earlier.inFull hfine.full)
        · exact .inr ⟨hname, id, hid⟩
      · exact (h.isSealed.bound frame name value hvalue).imp_left earlier.inFull
    · exact fun id object hobject => earlier.inFull (h.isSealed.classes id object hobject)
    · exact fun id name value hvalue =>
        (h.isSealed.fields id name value hvalue).imp earlier.inFull earlier.keepsWeakly
  refine ⟨isSealed, Nat.lt_of_lt_of_le h.nextId_pos earlier.nextId_le, ?_,
    Nat.lt_of_lt_of_le h.current_lt earlier.nextId_le, ?_, ?_, h.classes, ?_, h.host⟩
  · intro value hvalue
    rw [Machine.push, Frames.local?_push, if_neg (Nat.ne_of_lt h.nextId_pos)] at hvalue
    exact h.outside value hvalue
  · intro inner outer hinner
    rw [Machine.push, Frames.enclosing?_push] at hinner
    refine Nat.lt_of_lt_of_le ?_ earlier.nextId_le
    split at hinner
    · exact (henclosing outer hinner).1
    · exact h.enclosing_lt inner outer hinner
  · intro frame name value hvalue
    rw [Machine.push, Frames.local?_push] at hvalue
    split at hvalue
    · rcases hvalues name value hvalue with hfine | ⟨-, id, hid, rfl⟩
      · exact hfine.stands.mono earlier
      · refine ⟨trivial, fun other hother => ?_⟩
        injection hother with hother
        exact hother ▸ hid
    · exact (h.bound frame name value hvalue).mono earlier
  · exact fun id name value hvalue => (h.fields id name value hvalue).mono earlier

/-- The machine with a field of an object written. -/
def setField (m : Machine) (id : ObjectId) (name : String) (value : Value) : Machine :=
  { m with heap := m.heap.setField id name value }

/-- What a field may hold. -/
structure Storable (m : Machine) (id : ObjectId) (value : Value) : Prop where
  full : m.InFull value ∨ m.KeepsWeakly id value
  stands : m.Stands value

theorem Earlier.setField (m : Machine) (id : ObjectId) (name : String) (value : Value) :
    m.Earlier (m.setField id name value) :=
  .of_frames_eq rfl (Nat.le_of_eq Array.size_modify.symm)

theorem Tidy.setField (h : m.Tidy) {id : ObjectId} {value : Value} (hvalue : m.Storable id value)
    (name : String) : (m.setField id name value).Tidy := by
  have earlier := Earlier.setField m id name value
  have fields : ∀ other key kept, (m.setField id name value).heap.field? other key = some kept →
      (id = other ∧ kept = value) ∨ m.heap.field? other key = some kept := by
    intro other key kept hkept
    rw [Machine.setField, Heap.field?_setField] at hkept
    split at hkept
    · next hsame =>
      injection hkept with hkept
      exact .inl ⟨hsame.1, hkept.symm⟩
    · exact .inr hkept
  refine ⟨⟨h.isSealed.global, h.isSealed.current, h.isSealed.enclosing, ?_, ?_, ?_⟩, h.nextId_pos,
    h.outside, h.current_lt, h.enclosing_lt, ?_, ?_, ?_, h.host⟩
  · exact fun frame key kept hkept =>
      (h.isSealed.bound frame key kept hkept).imp_left earlier.inFull
  · intro other object hobject
    obtain ⟨old, hold, hclass⟩ := Heap.exists_of_object?_setField hobject
    exact hclass ▸ earlier.inFull (h.isSealed.classes other old hold)
  · intro other key kept hkept
    rcases fields other key kept hkept with ⟨rfl, rfl⟩ | hold
    · exact hvalue.full.imp earlier.inFull earlier.keepsWeakly
    · exact (h.isSealed.fields other key kept hold).imp earlier.inFull earlier.keepsWeakly
  · exact fun frame key kept hkept => (h.bound frame key kept hkept).mono earlier
  · intro other object hobject
    obtain ⟨old, hold, hclass⟩ := Heap.exists_of_object?_setField hobject
    exact hclass ▸ h.classes other old hold
  · intro other key kept hkept
    rcases fields other key kept hkept with ⟨rfl, rfl⟩ | hold
    · exact hvalue.stands.mono earlier
    · exact (h.fields other key kept hold).mono earlier

/-- The machine with a new object. -/
def create (m : Machine) (cls : Class) : Machine := { m with heap := m.heap.push cls }

/-- The objects that were there are what they were when another one is made. -/
theorem object?_create (m : Machine) (cls : Class) (id : ObjectId) :
    (m.create cls).heap.object? id =
      if id = m.heap.nextId then some ⟨cls, .empty⟩ else m.heap.object? id :=
  m.heap.object?_push cls id

theorem Earlier.create (m : Machine) (cls : Class) : m.Earlier (m.create cls) :=
  .of_frames_eq rfl (Nat.le_of_lt (m.heap.lt_nextId_push cls))

theorem Tidy.create (h : m.Tidy) {cls : Class} (hcls : m.Fine (.cls cls)) : (m.create cls).Tidy := by
  have earlier := Earlier.create m cls
  refine ⟨⟨h.isSealed.global, h.isSealed.current, h.isSealed.enclosing, ?_, ?_, ?_⟩, h.nextId_pos,
    h.outside, h.current_lt, h.enclosing_lt, ?_, ?_, ?_, h.host⟩
  · exact fun frame key kept hkept =>
      (h.isSealed.bound frame key kept hkept).imp_left earlier.inFull
  · intro id object hobject
    rw [object?_create] at hobject
    split at hobject
    · injection hobject with hobject
      exact hobject ▸ earlier.inFull hcls.full
    · exact earlier.inFull (h.isSealed.classes id object hobject)
  · intro id name value hvalue
    rw [Machine.create, Heap.field?_push] at hvalue
    exact (h.isSealed.fields id name value hvalue).imp earlier.inFull earlier.keepsWeakly
  · exact fun frame key kept hkept => (h.bound frame key kept hkept).mono earlier
  · intro id object hobject
    rw [object?_create] at hobject
    split at hobject
    · injection hobject with hobject
      exact hobject ▸ hcls.stands.bound
    · exact h.classes id object hobject
  · intro id name value hvalue
    rw [Machine.create, Heap.field?_push] at hvalue
    exact (h.fields id name value hvalue).mono earlier

end Machine

end Lox
