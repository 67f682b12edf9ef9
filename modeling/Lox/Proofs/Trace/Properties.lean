import Lox.Proofs.Trace.Path

/-!
# Properties give back what was written

A field holds what was written to it, but a method that is bound to the object itself is held as a copy
with a weak receiver (`Machine.Stores`). So a property gives back what was written, and such a method as
another copy (`Machine.GivesBack`). Along a path this stays so until the property is written
(`Path.givesBack`).
-/

namespace Lox

/-! ## Equality -/

/-- The value is a number that is none. -/
def Value.IsNaN : Value → Prop
  | .number x => x.isNaN = true
  | _ => False

open Float.Model in
theorem beq_self_of_not_isNaN {x : Float} (h : x.isNaN = false) : (x == x) = true := by
  show (x.toModel.unpack.compare x.toModel.unpack == some Ordering.eq) = true
  have number : x.toModel.unpack.isNaN = false := h
  cases hx : x.toModel.unpack with
  | notANumber =>
    rw [hx] at number
    exact absurd number (by decide)
  | infinity sign => cases sign <;> rfl
  | zero sign => rfl
  | finite sign mantissa exponent =>
    have same : (compare exponent exponent).then (compare mantissa mantissa) = .eq := by
      simp only [Std.ReflOrd.compare_self, Ordering.then]
    cases sign with
    | positive =>
      show (some ((compare exponent exponent).then (compare mantissa mantissa)) == some Ordering.eq) = true
      rw [same]
      rfl
    | negative =>
      show (some ((compare exponent exponent).then (compare mantissa mantissa)).swap ==
        some Ordering.eq) = true
      rw [same]
      rfl

/-- All but NaN is equal to itself. -/
theorem Value.equals_self {value : Value} (h : ¬value.IsNaN) : value.equals value = true := by
  cases value with
  | nil => rfl
  | number x => exact beq_self_of_not_isNaN (Bool.eq_false_iff.mpr h)
  | _ => exact beq_self_eq_true _

namespace Machine

/-! ## What is stored and what is given back -/

/-- The object that a bound method holds as its receiver, in full or weakly. -/
def receiver? (m : Machine) : Value → Option ObjectId
  | .function f => (m.frames.local? f.closure.frame receiverName).bind Value.objectId?
  | _ => none

/-- A function that is made from the same declaration in the same environment, with a receiver. -/
def Copies (m : Machine) (receiver value copy : Value) : Prop :=
  ∃ f f', value = .function f ∧ copy = .function f' ∧
    f'.closure = { f.closure with frame := f'.closure.frame } ∧
    m.frames.enclosing? f'.closure.frame = m.frames.enclosing? f.closure.frame ∧
    m.frames.local? f'.closure.frame receiverName = some receiver

/-- A field holds what was written to it, if that is not a method that is bound to the object. -/
def Stores (m : Machine) (id : ObjectId) (name : String) (value : Value) : Prop :=
  ∃ kept, m.heap.field? id name = some kept ∧
    if m.receiver? value = some id then m.Copies (.weakObject id) value kept else kept = value

/-- A property gives back what was written, which is equal to itself unless it is NaN. A method that is
bound to the object is given back as a copy. -/
def GivesBack (m : Machine) (id : ObjectId) (name : String) (value : Value) : Prop :=
  ∀ token : Token, token.lexeme = name → ∃ got m', Run.getProperty id token m = .ok got m' ∧
    if m.receiver? value = some id then m'.Copies (.object id) value got
    else got = value ∧ (¬value.IsNaN → got.equals value = true)

/-- A property is written. It gives back what was written, and no other is changed. -/
structure Writes (m m' : Machine) (id : ObjectId) (name : Token) (value : Value) : Prop where
  run : Run.setProperty id name value m = .ok () m'
  givesBack : m'.GivesBack id name.lexeme value
  fields : ∀ other key, ¬(other = id ∧ key = name.lexeme) →
    m'.heap.field? other key = m.heap.field? other key
  methods : ∀ other key, m'.heap.method? other key = m.heap.method? other key

variable {m m' : Machine} {id : ObjectId} {name : String} {value kept : Value}

theorem receiver?_eq_some {f : Function} :
    m.receiver? (.function f) = some id ↔
      ∃ receiver, m.frames.local? f.closure.frame receiverName = some receiver ∧
        receiver.objectId? = some id :=
  Option.bind_eq_some_iff

/-- A function keeps its receiver. -/
theorem Earlier.receiver?_iff (h : m.Earlier m') (hvalue : m.Fit value) :
    m'.receiver? value = some id ↔ m.receiver? value = some id := by
  cases value with
  | function f =>
    rw [receiver?_eq_some, receiver?_eq_some]
    refine exists_congr fun receiver => and_congr_left fun hid => ?_
    exact h.receiver_iff _ hvalue.there receiver (Option.isSome_of_eq_some hid)
  | _ => exact Iff.rfl

theorem Copies.mono {receiver copy : Value} (hobject : receiver.objectId?.isSome) (h : m.Earlier m')
    (hvalue : m.Fit value) (hcopies : m.Copies receiver value copy) :
    m'.Copies receiver value copy := by
  obtain ⟨f, f', rfl, rfl, hclosure, henclosing, hlocal⟩ := hcopies
  have there := m.frames.lt_nextId_of_local? (Option.isSome_of_eq_some hlocal)
  refine ⟨f, f', rfl, rfl, hclosure, ?_, (h.receiver_iff _ there _ hobject).mpr hlocal⟩
  rw [h.enclosing_eq _ there, h.enclosing_eq _ hvalue.there, henclosing]

/-- What is stored stays so while the field is not written. -/
theorem Stores.mono (h : m.Earlier m') (hfield : m'.heap.field? id name = m.heap.field? id name)
    (hvalue : m.Fit value) (hstores : m.Stores id name value) : m'.Stores id name value := by
  obtain ⟨kept, hkept, hstored⟩ := hstores
  refine ⟨kept, hfield.trans hkept, ?_⟩
  simp only [h.receiver?_iff hvalue]
  split at hstored
  · next hown =>
    rw [if_pos hown]
    exact hstored.mono rfl h hvalue
  · next hother => rwa [if_neg hother]

theorem Earlier.rebound (m : Machine) (enclosing : Option FrameId) (receiver : Value) :
    m.Earlier (m.rebound enclosing receiver) :=
  (Earlier.push m _ enclosing).trans (.of_frames_eq rfl (Nat.le_refl _))

/-- What is stored is given back. -/
theorem Stores.givesBack (h : m.Stores id name value) : m.GivesBack id name value := by
  rintro token rfl
  obtain ⟨kept, hkept, hstored⟩ := h
  have read : Run.getProperty id token m = Run.unstored id kept m := by
    rw [Run.getProperty, Run.get_bind, hkept]
  split at hstored
  · next hown =>
    -- reading makes another copy, of the method that is kept and holds the object weakly
    obtain ⟨f, f', rfl, rfl, hclosure, henclosing, hlocal⟩ := hstored
    have earlier := Earlier.rebound m (m.frames.enclosing? f'.closure.frame) (.object id)
    obtain ⟨_, hreceiver, -⟩ := receiver?_eq_some.mp hown
    have there := m.frames.lt_nextId_of_local? (Option.isSome_of_eq_some hreceiver)
    refine ⟨_, _, read.trans (unstored_weak hlocal), ?_⟩
    rw [if_pos hown]
    refine ⟨f, _, rfl, rfl, by rw [hclosure], ?_, m.local?_rebound _ _⟩
    rw [earlier.enclosing_eq _ there, ← henclosing]
    exact m.enclosing?_rebound _ _
  · next hother =>
    subst hstored
    have unbound : ∀ f, kept = .function f →
        m.frames.local? f.closure.frame receiverName ≠ some (.weakObject id) := by
      rintro f rfl hlocal
      exact hother (receiver?_eq_some.mpr ⟨_, hlocal, rfl⟩)
    refine ⟨kept, m, read.trans (unstored_other unbound), ?_⟩
    rw [if_neg hother]
    exact ⟨rfl, Value.equals_self⟩

theorem field?_setField_self (hid : id < m.heap.nextId) :
    (m.setField id name value).heap.field? id name = some value := by
  have there : (m.heap.object? id).isSome := (m.heap.isSome_object? id).mpr hid
  rw [setField, Heap.field?_setField, if_pos ⟨rfl, rfl, there⟩]

/-- A value that is written is stored. -/
theorem stores_of_stored (hid : id < m.heap.nextId) (name : String)
    (h : Run.stored id value m = .ok kept m') :
    (m'.setField id name kept).Stores id name value := by
  by_cases hown : ∃ f, value = .function f ∧
      m.frames.local? f.closure.frame receiverName = some (.object id)
  · obtain ⟨f, rfl, hlocal⟩ := hown
    rw [stored_own hlocal] at h
    injection h with h h'
    subst h h'
    -- the receiver of the function itself is still what it was
    have earlier : m.Earlier (setField _ id name (m.copy f.closure)) :=
      (Earlier.rebound m (m.frames.enclosing? f.closure.frame) (.weakObject id)).trans (.setField ..)
    have there := m.frames.lt_nextId_of_local? (Option.isSome_of_eq_some hlocal)
    refine ⟨_, field?_setField_self hid, ?_⟩
    rw [if_pos (receiver?_eq_some.mpr ⟨_, (earlier.receiver_iff _ there _ rfl).mpr hlocal, rfl⟩)]
    refine ⟨f, _, rfl, rfl, rfl, ?_, m.local?_rebound _ _⟩
    exact (m.enclosing?_rebound _ _).trans (earlier.enclosing_eq _ there).symm
  · have h' := (stored_other fun f hf hlocal => hown ⟨f, hf, hlocal⟩).symm.trans h
    injection h' with h h'
    subst h h'
    refine ⟨_, field?_setField_self hid, ?_⟩
    split
    · next hbound =>
      -- a method that already holds the object weakly is stored as it is
      cases value with
      | function f =>
        obtain ⟨receiver, hlocal, hreceiver⟩ := receiver?_eq_some.mp hbound
        cases receiver with
        | object other =>
          injection hreceiver with hreceiver
          exact absurd ⟨f, rfl, hreceiver ▸ hlocal⟩ hown
        | weakObject other =>
          injection hreceiver with hreceiver
          exact ⟨f, f, rfl, rfl, rfl, rfl, hreceiver ▸ hlocal⟩
        | _ => nomatch hreceiver
      | _ => nomatch hbound
    · rfl

theorem method?_setField (other : ObjectId) (key : String) :
    (m.setField id name value).heap.method? other key = m.heap.method? other key := by
  rw [setField, Heap.method?, Heap.method?, Heap.object?_setField]
  split
  · cases m.heap.object? other <;> rfl
  · rfl

/-- The property of an object that is there can be written. -/
theorem Orderly.writes (h : m.Orderly) (hid : id < m.heap.nextId) (name : Token) (hvalue : m.Fit value) :
    ∃ m', m.Writes m' id name value ∧ m.Earlier m' ∧ m'.Orderly ∧ m'.Stores id name.lexeme value := by
  obtain ⟨m', kept, hstored, hcalm, hkept, hheap⟩ := stored_ok h id hvalue
  have stores := stores_of_stored hid name.lexeme hstored
  have earlier := hcalm.earlier.trans (.setField m' id name.lexeme kept)
  refine ⟨m'.setField id name.lexeme kept, ⟨Run.bind_ok hstored _, stores.givesBack, ?_, ?_⟩, earlier,
    hcalm.orderly.setField hkept, stores⟩
  · intro other key hother
    rw [Machine.setField, Heap.field?_setField, hheap, if_neg]
    rintro ⟨rfl, rfl, -⟩
    exact hother ⟨rfl, rfl⟩
  · intro other key
    rw [method?_setField, hheap]

end Machine

/-! ## Along paths -/

/-- Along a trace and behind it, a property gives back a value as long as it is not written. -/
structure GivesBackAlong (trace : List Moment) (last : Machine) (id : ObjectId) (name : String)
    (value : Value) : Prop where
  within : ∀ before moment after, trace = before ++ moment :: after →
    (∀ earlier ∈ before, ¬earlier.Writes id name) → moment.machine.GivesBack id name value
  behind : (∀ moment ∈ trace, ¬moment.Writes id name) → last.GivesBack id name value

variable {m m' : Machine} {trace : List Moment}

/-- What is stored is given back along a path. -/
theorem Path.givesBack (h : Path m trace m') {id : ObjectId} (hid : id < m.heap.nextId) {name : String}
    {value : Value} (hvalue : m.Fit value) (hstores : m.Stores id name value) :
    GivesBackAlong trace m' id name value where
  within before moment after hsplit hwrites := by
    rw [hsplit] at h
    obtain ⟨hbefore, -⟩ := h.split
    exact (hstores.mono hbefore.earlier (hbefore.field hid hwrites) hvalue).givesBack
  behind hwrites := (hstores.mono h.earlier (h.field hid hwrites) hvalue).givesBack

/-- What is written at a moment of a path is given back from then on. -/
theorem Path.givesBack_of_sets {before after : List Moment} {machine : Machine} {id : ObjectId}
    {name : String} {value : Value} (h : Path m (before ++ ⟨machine, .sets id name value⟩ :: after) m') :
    id < machine.heap.nextId ∧ machine.Fit value ∧ GivesBackAlong after m' id name value := by
  obtain ⟨hbefore, ⟨hid, hvalue⟩, k, ⟨kept, k', hstored, hcalm, -, rfl⟩, hafter⟩ := h.split
  have earlier := hcalm.earlier.trans (.setField k' id name kept)
  have stores := Machine.stores_of_stored hid name hstored
  exact ⟨hid, hvalue,
    hafter.givesBack (Nat.lt_of_lt_of_le hid earlier.objects_le) (hvalue.mono earlier) stores⟩

end Lox
