import Lox.Proofs.Trace.Calm

/-!
# Hereditary properties of values

A property of values is *hereditary* if no change to the machine takes it away, and all that comes up in a
run has it: what is plain or an object, the functions and classes that declarations make, and the methods
that are bound, if what they are made of has it (`Hereditary`).

If everything on a machine has a hereditary property (`Machine.AllHave`), the primitives hand it on: they
end on a later machine with nothing but such values, and what they give has the property too (`Hands`).
-/

namespace Lox

open Machine

variable {α β : Type} {m m' m'' : Machine}

/-! ## Later machines -/

/-- The machine comes later, and the objects have the classes that they had. -/
structure Machine.Later (m m' : Machine) : Prop where
  earlier : m.Earlier m'
  classes_eq : ∀ id < m.heap.nextId,
    (m'.heap.object? id).map (·.cls) = (m.heap.object? id).map (·.cls)

namespace Machine

theorem Later.of_same (hframes : m'.frames = m.frames) (hheap : m'.heap = m.heap) : m.Later m' :=
  ⟨.of_frames_eq hframes (Nat.le_of_eq (by rw [hheap])), fun _ _ => by rw [hheap]⟩

theorem Later.refl (m : Machine) : m.Later m := .of_same rfl rfl

theorem Later.trans (h : m.Later m') (h' : m'.Later m'') : m.Later m'' where
  earlier := h.earlier.trans h'.earlier
  classes_eq id hid :=
    (h'.classes_eq id (Nat.lt_of_lt_of_le hid h.earlier.objects_le)).trans (h.classes_eq id hid)

/-- The methods of an object stay what they were. -/
theorem Later.method? (h : m.Later m') {id : ObjectId} {name : String} {method : Closure}
    (hmethod : m.heap.method? id name = some method) : m'.heap.method? id name = some method := by
  obtain ⟨object, hobject, hfind⟩ := Option.bind_eq_some_iff.mp hmethod
  have cls := h.classes_eq id (Heap.lt_nextId_of_object? hobject)
  rw [hobject, Option.map_some, Option.map_eq_some_iff] at cls
  obtain ⟨object', hobject', hcls⟩ := cls
  rw [Heap.method?, hobject', Option.bind_some, hcls]
  exact hfind

theorem Later.create (m : Machine) (cls : Class) : m.Later (m.create cls) where
  earlier := .create m cls
  classes_eq id hid := by rw [object?_create, if_neg (Nat.ne_of_lt hid)]

theorem Later.setField (m : Machine) (id : ObjectId) (name : String) (value : Value) :
    m.Later (m.setField id name value) where
  earlier := .setField m id name value
  classes_eq other _ := m.heap.class_setField id other name value

/-- A change that leaves the objects alone. -/
theorem Later.of_heap_eq (h : m.Earlier m') (hheap : m'.heap = m.heap) : m.Later m' :=
  ⟨h, fun _ _ => by rw [hheap]⟩

theorem Later.rebound (m : Machine) (enclosing : Option FrameId) (receiver : Value) :
    m.Later (m.rebound enclosing receiver) :=
  .of_heap_eq ((Earlier.push m _ enclosing).trans (.of_frames_eq rfl (Nat.le_refl _))) rfl

end Machine

/-! ## Hereditary properties -/

/-- A property of values that all have if those have it that they are made of. -/
class Hereditary (P : Machine → Value → Prop) : Prop where
  mono : ∀ {m m' value}, m.Later m' → P m value → P m' value
  plain : ∀ {m value}, value.IsPlain → P m value
  object : ∀ {m value}, value.objectId?.isSome → P m value
  function : ∀ {m identity declaration frame}, P m (.function ⟨identity, declaration, frame, false⟩)
  cls : ∀ {m identity name frame} {methods : List FunctionDecl},
    P m (.cls ⟨identity, name, .insertAll .empty (methods.map (Run.methodClosure frame))⟩)
  method : ∀ {m id object name method}, m.heap.object? id = some object →
    object.cls.methods.find? name = some method → P m (.cls object.cls) →
    P (m.rebound (some method.frame) (.object id)) (m.copy method)
  copy : ∀ {m} {f : Function} {old receiver : Value} {id},
    m.frames.local? f.closure.frame receiverName = some old → old.objectId? = some id →
    receiver.objectId? = some id → P m (.function f) →
    P (m.rebound (m.frames.enclosing? f.closure.frame) receiver) (m.copy f.closure)

section

variable (P : Machine → Value → Prop)

/-- The value fits, and has the property. -/
structure Machine.Has (m : Machine) (value : Value) : Prop where
  fit : m.Fit value
  has : P m value

/-- A machine on which everything fits, and has the property. -/
structure Machine.AllHave (m : Machine) : Prop where
  orderly : m.Orderly
  bound : ∀ frame name value, m.frames.local? frame name = some value → P m value
  classes : ∀ id object, m.heap.object? id = some object → P m (.cls object.cls)
  fields : ∀ id name value, m.heap.field? id name = some value → P m value

/-- The run ends on a later machine on which all have the property, and what it gives is as it should
be. -/
def Hands (m : Machine) (p : Run α) (post : Machine → α → Prop) : Prop :=
  ∃ m', m.Later m' ∧ m'.AllHave P ∧
    ((∃ a, p m = .ok a m' ∧ post m' a) ∨ ∃ interrupt, p m = .error interrupt m')

end

variable {P : Machine → Value → Prop}

theorem Machine.AllHave.has_bound (h : m.AllHave P) {frame : FrameId} {name : String} {value : Value}
    (hvalue : m.frames.local? frame name = some value) : m.Has P value :=
  ⟨h.orderly.bound frame name value hvalue, h.bound frame name value hvalue⟩

theorem Machine.AllHave.has_field (h : m.AllHave P) {id : ObjectId} {name : String} {value : Value}
    (hvalue : m.heap.field? id name = some value) : m.Has P value :=
  ⟨h.orderly.fields id name value hvalue, h.fields id name value hvalue⟩

/-! ### Putting runs together -/

namespace Hands

variable {p : Run α} {post : Machine → α → Prop}

theorem of_ok {a : α} (hrun : p m = .ok a m') (h : m.Later m' ∧ m'.AllHave P) (hpost : post m' a) :
    Hands P m p post :=
  ⟨m', h.1, h.2, .inl ⟨a, hrun, hpost⟩⟩

protected theorem pure (h : m.AllHave P) {a : α} (hpost : post m a) : Hands P m (pure a) post :=
  of_ok rfl ⟨.refl m, h⟩ hpost

protected theorem throw (h : m.AllHave P) (interrupt : Interrupt) : Hands P m (throw interrupt) post :=
  ⟨m, .refl m, h, .inr ⟨interrupt, rfl⟩⟩

protected theorem fault (h : m.AllHave P) (line : Nat) (fault : Fault) :
    Hands P m (Run.fault line fault) post :=
  .throw h _

protected theorem bind (h : Hands P m p post) {f : α → Run β} {post' : Machine → β → Prop}
    (hf : ∀ m' a, m.Later m' → m'.AllHave P → post m' a → Hands P m' (f a) post') :
    Hands P m (p >>= f) post' := by
  obtain ⟨m', hlater, hall, ⟨a, hrun, ha⟩ | ⟨interrupt, hrun⟩⟩ := h
  · obtain ⟨m'', hlater', hall', hend⟩ := hf m' a hlater hall ha
    exact ⟨m'', hlater.trans hlater', hall', by rwa [Run.bind_ok hrun]⟩
  · exact ⟨m', hlater, hall, .inr ⟨interrupt, Run.bind_error hrun f⟩⟩

/-- A look at the machine changes nothing. -/
protected theorem get {f : Machine → Run α} (h : Hands P m (f m) post) : Hands P m (get >>= f) post := h

end Hands

/-! ## What the parts of a machine may become -/

variable [Hereditary P]

namespace Machine

theorem Has.mono (h : m.Later m') {value : Value} (hvalue : m.Has P value) : m'.Has P value :=
  ⟨hvalue.fit.mono h.earlier, Hereditary.mono h hvalue.has⟩

theorem has_plain (m : Machine) {value : Value} (h : value.IsPlain) : m.Has P value := by
  refine ⟨?_, Hereditary.plain h⟩
  cases value with
  | nil | boolean | number | string | host => trivial
  | _ => exact h.elim

theorem has_object {id : ObjectId} (h : id < m.heap.nextId) : m.Has P (.object id) :=
  ⟨h, Hereditary.object rfl⟩

theorem has_ofLiteral (m : Machine) (value : Literal) : m.Has P (.ofLiteral value) := by
  cases value <;> exact m.has_plain trivial

theorem Has.strong {value : Value} (h : m.Has P value) : m.Has P value.strong := by
  cases value with
  | weakObject id => exact has_object h.fit
  | _ => exact h

/-- What leaves frames and objects alone takes the property from nothing. -/
theorem AllHave.of_same (h : m.AllHave P) (hframes : m'.frames = m.frames) (hheap : m'.heap = m.heap)
    (hhost : ∀ action ∈ m'.actions, action.Builds) (hcurrent : m'.current < m.frames.nextId) :
    m'.AllHave P := by
  have later : m.Later m' := .of_same hframes hheap
  refine ⟨(h.orderly.of_same hframes hheap hhost hcurrent).orderly, ?_, ?_, ?_⟩
  · rw [hframes]
    exact fun frame name value hvalue => Hereditary.mono later (h.bound frame name value hvalue)
  · rw [hheap]
    exact fun id object hobject => Hereditary.mono later (h.classes id object hobject)
  · rw [hheap]
    exact fun id name value hvalue => Hereditary.mono later (h.fields id name value hvalue)

theorem AllHave.define (h : m.AllHave P) {frame : FrameId} {name : String} {value : Value}
    (hvalue : m.Has P value)
    (hname : name = receiverName → frame = Frames.globalId ∧ ∃ f, value = .host f) :
    m.Later (m.define frame name value) ∧ (m.define frame name value).AllHave P := by
  have calm := h.orderly.define hvalue.fit hname
  have later : m.Later (m.define frame name value) := .of_heap_eq calm.earlier rfl
  refine ⟨later, calm.orderly, ?_, ?_, ?_⟩
  · intro other key kept hkept
    rw [Machine.define, Frames.local?_define] at hkept
    split at hkept
    · injection hkept with hkept
      exact hkept ▸ (hvalue.mono later).has
    · exact Hereditary.mono later (h.bound other key kept hkept)
  · exact fun id object hobject => Hereditary.mono later (h.classes id object hobject)
  · exact fun id key kept hkept => Hereditary.mono later (h.fields id key kept hkept)

theorem AllHave.push (h : m.AllHave P) {bindings : Bindings Value} {enclosing : Option FrameId}
    (henclosing : ∃ outer < m.frames.nextId, enclosing = some outer)
    (hvalues : ∀ name value, bindings.find? name = some value → m.Has P value)
    (hreceiver : ∀ value, bindings.find? receiverName = some value → value.objectId?.isSome) :
    m.Later (m.push bindings enclosing) ∧ (m.push bindings enclosing).AllHave P := by
  have calm :=
    h.orderly.push henclosing ⟨fun name value hvalue => (hvalues name value hvalue).fit, hreceiver⟩
  have later : m.Later (m.push bindings enclosing) := .of_heap_eq calm.earlier rfl
  refine ⟨later, calm.orderly, ?_, ?_, ?_⟩
  · intro frame name value hvalue
    rw [Machine.push, Frames.local?_push] at hvalue
    split at hvalue
    · exact ((hvalues name value hvalue).mono later).has
    · exact Hereditary.mono later (h.bound frame name value hvalue)
  · exact fun id object hobject => Hereditary.mono later (h.classes id object hobject)
  · exact fun id name value hvalue => Hereditary.mono later (h.fields id name value hvalue)

/-- A new frame for nothing but a receiver. -/
theorem AllHave.pushReceiver (h : m.AllHave P) {enclosing : Option FrameId}
    (henclosing : ∃ outer < m.frames.nextId, enclosing = some outer) {receiver : Value}
    (hreceiver : m.Has P receiver) (hobject : receiver.objectId?.isSome) :
    m.Later (m.push (Bindings.empty.insert receiverName receiver) enclosing) ∧
      (m.push (Bindings.empty.insert receiverName receiver) enclosing).AllHave P :=
  h.push henclosing (fun _ _ hvalue => find?_receiver receiver hvalue ▸ hreceiver)
    fun _ hvalue => find?_receiver receiver hvalue ▸ hobject

theorem AllHave.rebound (h : m.AllHave P) {enclosing : Option FrameId}
    (henclosing : ∃ outer < m.frames.nextId, enclosing = some outer) (receiver : Value)
    (hreceiver : m.Has P receiver) (hobject : receiver.objectId?.isSome) :
    (m.rebound enclosing receiver).AllHave P :=
  have pushed := (h.pushReceiver henclosing hreceiver hobject).2
  pushed.of_same rfl rfl pushed.orderly.host pushed.orderly.current_lt

theorem AllHave.create (h : m.AllHave P) {cls : Class} (hcls : m.Has P (.cls cls)) :
    m.Later (m.create cls) ∧ (m.create cls).AllHave P := by
  have later := Later.create m cls
  refine ⟨later, (h.orderly.create hcls.fit).orderly, ?_, ?_, ?_⟩
  · exact fun frame name value hvalue => Hereditary.mono later (h.bound frame name value hvalue)
  · intro id object hobject
    rw [object?_create] at hobject
    split at hobject
    · injection hobject with hobject
      exact hobject ▸ (hcls.mono later).has
    · exact Hereditary.mono later (h.classes id object hobject)
  · intro id name value hvalue
    rw [Machine.create, Heap.field?_push] at hvalue
    exact Hereditary.mono later (h.fields id name value hvalue)

theorem AllHave.setField (h : m.AllHave P) {id : ObjectId} {name : String} {value : Value}
    (hvalue : m.Has P value) :
    m.Later (m.setField id name value) ∧ (m.setField id name value).AllHave P := by
  have later := Later.setField m id name value
  refine ⟨later, h.orderly.setField hvalue.fit, ?_, ?_, ?_⟩
  · exact fun frame key kept hkept => Hereditary.mono later (h.bound frame key kept hkept)
  · intro other object hobject
    obtain ⟨old, hold, hclass⟩ := Heap.exists_of_object?_setField hobject
    exact hclass ▸ Hereditary.mono later (h.classes other old hold)
  · intro other key kept hkept
    rw [Machine.setField, Heap.field?_setField] at hkept
    split at hkept
    · injection hkept with hkept
      exact hkept ▸ (hvalue.mono later).has
    · exact Hereditary.mono later (h.fields other key kept hkept)

/-- What is built from values with the property has it too. -/
theorem AllHave.builtFrom (h : m.AllHave P) {arguments : List Value}
    (harguments : ∀ a ∈ arguments, m.Has P a) {value : Value}
    (hbuilt : BuiltFrom m.heap arguments value) : m.Has P value := by
  have fit := h.orderly.builtFrom (fun a ha => (harguments a ha).fit) hbuilt
  induction hbuilt with
  | argument hmem => exact harguments _ hmem
  | object | weakObject => exact ⟨fit, Hereditary.object rfl⟩
  | field _ _ hfield => exact h.has_field hfield
  | cls _ _ hobject => exact ⟨fit, h.classes _ _ hobject⟩
  | nil | boolean | number | string => exact m.has_plain trivial

end Machine

/-! ## Variables -/

/-- A run that leaves frames, objects and actions alone. -/
theorem Hands.of_same {p : Run α} {post : Machine → α → Prop} (h : m.AllHave P) {a : α} (hrun : p m = .ok a m') (hframes : m'.frames = m.frames)
    (hheap : m'.heap = m.heap) (hactions : m'.actions = m.actions) (hcurrent : m'.current = m.current)
    (hpost : post m' a) : Hands P m p post :=
  of_ok hrun ⟨.of_same hframes hheap, h.of_same hframes hheap (hactions ▸ h.orderly.host)
    (hcurrent ▸ h.orderly.current_lt)⟩ hpost


theorem found_hands (h : m.AllHave P) (name : Token) {value : Option Value}
    (hvalue : ∀ v, value = some v → m.Has P v) : Hands P m (Run.found name value) (Has P) := by
  cases value with
  | none => exact .fault h ..
  | some v => exact .pure h (hvalue v rfl).strong

omit [Hereditary P] in
theorem ancestor_hands (h : m.AllHave P) (d : Nat) : Hands P m (Run.ancestor d) fun m' _ => m' = m := by
  refine .get ?_
  split
  · exact .pure h rfl
  · exact .throw h _

theorem lookUp_hands (h : m.AllHave P) (id : OccurrenceId) (name : Token) :
    Hands P m (Run.lookUp id name) (Has P) := by
  refine .get ?_
  split
  · refine (ancestor_hands h _).bind ?_
    rintro _ frame - - rfl
    exact .get (found_hands h name fun _ hv => h.has_bound hv)
  · refine .get (found_hands h name fun v hv => ?_)
    rw [Frames.find?_globalId] at hv
    exact h.has_bound hv

theorem redefine_hands (h : m.AllHave P) (frame : FrameId) {name : String} (hname : name ≠ receiverName)
    {value : Value} (hvalue : m.Has P value) :
    Hands P m (modify fun m => { m with frames := m.frames.define frame name value } : Run Unit)
      fun _ _ => True :=
  .of_ok rfl (h.define hvalue (absurd · hname)) trivial

theorem define_hands (h : m.AllHave P) {name : String} (hname : name ≠ receiverName) {value : Value}
    (hvalue : m.Has P value) : Hands P m (Run.define name value) fun _ _ => True :=
  .of_ok rfl (h.define hvalue (absurd · hname)) trivial

theorem assign_hands (h : m.AllHave P) (id : OccurrenceId) {name : Token} (hname : name.IsFree)
    {value : Value} (hvalue : m.Has P value) : Hands P m (Run.assign id name value) fun _ _ => True := by
  refine .get ?_
  split
  · refine (ancestor_hands h _).bind ?_
    rintro _ frame - - rfl
    exact redefine_hands h frame hname hvalue
  · refine .get ?_
    split
    · exact redefine_hands h _ hname hvalue
    · exact .fault h ..

/-! ## Frames, functions and objects -/

theorem newFrame_hands (h : m.AllHave P) {bindings : Bindings Value} {enclosing : Option FrameId}
    (henclosing : ∃ outer < m.frames.nextId, enclosing = some outer)
    (hvalues : ∀ name value, bindings.find? name = some value → m.Has P value)
    (hreceiver : ∀ value, bindings.find? receiverName = some value → value.objectId?.isSome) :
    Hands P m (Run.newFrame bindings enclosing) fun m' frame => frame < m'.frames.nextId :=
  .of_ok rfl (h.push henclosing hvalues hreceiver) (m.frames.lt_nextId_push bindings enclosing)

/-- A function is made in the current frame. -/
theorem makeFunction_hands (h : m.AllHave P) {declaration : FunctionDecl} (hformed : declaration.Formed) :
    Hands P m (do Run.newFunction ⟨declaration, (← get).current, false⟩) (Has P) :=
  .of_same h rfl rfl rfl rfl rfl ⟨⟨h.orderly.current_lt, hformed⟩, Hereditary.function⟩

/-- The methods of a class are made in the current frame. -/
theorem makeClass_hands (h : m.AllHave P) (name : Token) {methods : List FunctionDecl}
    (hformed : ∀ f ∈ methods, f.Formed) :
    Hands P m (do
      let frame := (← get).current
      let closures := Bindings.empty.insertAll (methods.map (Run.methodClosure frame))
      return .cls ⟨← Run.freshIdentity, name.lexeme, closures⟩) (Has P) := by
  refine .of_same h rfl rfl rfl rfl rfl ⟨fun key method hmethod => ?_, Hereditary.cls⟩
  obtain ⟨declaration, hdeclaration, -, rfl⟩ := exists_of_find?_methods hmethod
  exact ⟨h.orderly.current_lt, hformed _ hdeclaration⟩

theorem newObject_hands (h : m.AllHave P) {cls : Class} (hcls : m.Has P (.cls cls)) :
    Hands P m (Run.newObject cls) fun m' id => id < m'.heap.nextId :=
  .of_ok rfl (h.create hcls) (m.heap.lt_nextId_push cls)

theorem bindMethod_hands (h : m.AllHave P) {method : Closure} (hmethod : m.ClosureFit method)
    {id : ObjectId} (hid : id < m.heap.nextId) :
    Hands P m (Run.bindMethod method id) ClosureFit :=
  .of_ok rfl (h.pushReceiver ⟨_, hmethod.there, rfl⟩ (has_object hid) rfl)
    ⟨m.nextId_rebound (some method.frame) (.object id), hmethod.formed⟩

/-! ## Properties -/

/-- A copy of a function that keeps its receiver has the property if the function has it. -/
theorem copy_has (h : m.AllHave P) {f : Function} (hf : m.Has P (.function f)) {old : Value}
    {id : ObjectId} (hlocal : m.frames.local? f.closure.frame receiverName = some old)
    (hold : old.objectId? = some id) (receiver : Value) (hreceiver : receiver.objectId? = some id) :
    (m.rebound (m.frames.enclosing? f.closure.frame) receiver).AllHave P ∧
      (m.rebound (m.frames.enclosing? f.closure.frame) receiver).Has P (m.copy f.closure) := by
  have isSome : receiver.objectId?.isSome := by rw [hreceiver]; rfl
  have there : id < m.heap.nextId := (h.orderly.bound _ _ _ hlocal).objectId_lt hold
  have has : m.Has P receiver := by
    refine ⟨?_, Hereditary.object isSome⟩
    cases receiver with
    | object other | weakObject other =>
      injection hreceiver with hreceiver
      exact hreceiver ▸ there
    | _ => nomatch hreceiver
  have henclosing := h.orderly.enclosing hlocal (Option.isSome_of_eq_some hold)
  refine ⟨h.rebound henclosing receiver has isSome, ?_, Hereditary.copy hlocal hold hreceiver hf.has⟩
  exact (rebound_calm h.orderly hf.fit.formed henclosing has.fit isSome).2

/-- What is read from a field has the property. -/
theorem unstored_hands (h : m.AllHave P) (id : ObjectId) {value : Value} (hvalue : m.Has P value) :
    Hands P m (Run.unstored id value) (Has P) := by
  by_cases hown : ∃ f, value = .function f ∧
      m.frames.local? f.closure.frame receiverName = some (.weakObject id)
  · obtain ⟨f, rfl, hown⟩ := hown
    obtain ⟨all, has⟩ := copy_has h hvalue hown rfl (.object id) rfl
    exact .of_ok (unstored_weak hown) ⟨.rebound m _ _, all⟩ has
  · exact .of_ok (unstored_other fun f hf hkept => hown ⟨f, hf, hkept⟩) ⟨.refl m, h⟩ hvalue

/-- What a field is to hold has the property. -/
theorem stored_hands (h : m.AllHave P) (id : ObjectId) {value : Value} (hvalue : m.Has P value) :
    Hands P m (Run.stored id value) (Has P) := by
  by_cases hown : ∃ f, value = .function f ∧
      m.frames.local? f.closure.frame receiverName = some (.object id)
  · obtain ⟨f, rfl, hown⟩ := hown
    obtain ⟨all, has⟩ := copy_has h hvalue hown rfl (.weakObject id) rfl
    exact .of_ok (stored_own hown) ⟨.rebound m _ _, all⟩ has
  · exact .of_ok (stored_other fun f hf hkept => hown ⟨f, hf, hkept⟩) ⟨.refl m, h⟩ hvalue

/-- A property that is read has it: what a field holds, and what a method of the class is when it is
bound. -/
theorem getProperty_hands (h : m.AllHave P) (id : ObjectId) (name : Token) :
    Hands P m (Run.getProperty id name) (Has P) := by
  refine .get ?_
  split
  · next kept hkept => exact unstored_hands h id (h.has_field hkept)
  · refine .get ?_
    split
    · next method hmethod =>
      obtain ⟨object, hobject, hfind⟩ := Option.bind_eq_some_iff.mp hmethod
      obtain ⟨hfit, hid⟩ := h.orderly.method hmethod
      have all := h.rebound ⟨_, hfit.there, rfl⟩ (.object id) (has_object hid) rfl
      refine .of_ok (bindFunction_eq m method id) ⟨.rebound m _ _, all⟩ ⟨?_, ?_⟩
      · exact ⟨m.nextId_rebound _ _, hfit.formed⟩
      · exact Hereditary.method hobject hfind (h.classes id object hobject)
    · exact .fault h ..

theorem setProperty_hands (h : m.AllHave P) (id : ObjectId) (name : Token) {value : Value}
    (hvalue : m.Has P value) : Hands P m (Run.setProperty id name value) fun _ _ => True :=
  (stored_hands h id hvalue).bind fun _ _ _ hall hkept => .of_ok rfl (hall.setField hkept) trivial

/-! ## Operators, output and the host -/

theorem unary_hands (h : m.AllHave P) (operator : Token) (operand : Value) :
    Hands P m (Run.unary operator operand) (Has P) := by
  unfold Run.unary
  split
  · exact .pure h (m.has_plain trivial)
  · split
    · exact .pure h (m.has_plain trivial)
    · exact .fault h ..
  · exact .fault h ..

theorem sum_hands (h : m.AllHave P) (operator : Token) (left right : Value) :
    Hands P m (Run.sum operator left right) (Has P) := by
  unfold Run.sum
  split
  · exact .pure h (m.has_plain trivial)
  · exact .pure h (m.has_plain trivial)
  · exact .fault h ..

theorem arithmetic_hands (h : m.AllHave P) (operator : Token) {result : Float → Float → Value}
    (hresult : ∀ a b, (result a b).IsPlain) (left right : Value) :
    Hands P m (Run.arithmetic operator result left right) (Has P) := by
  unfold Run.arithmetic
  split
  · exact .pure h (m.has_plain (hresult _ _))
  · exact .fault h ..

theorem binary_hands (h : m.AllHave P) (operator : Token) (left right : Value) :
    Hands P m (Run.binary operator left right) (Has P) := by
  unfold Run.binary
  split
  · exact .pure h (m.has_plain trivial)
  · exact .pure h (m.has_plain trivial)
  · exact sum_hands h ..
  all_goals first
    | exact .fault h ..
    | exact arithmetic_hands h operator (by intro _ _; exact trivial) left right

theorem write_hands (h : m.AllHave P) (text : String) :
    Hands P m (Run.write text) fun _ _ => True := by
  unfold Run.write
  split
  · exact .pure h trivial
  · refine .get ?_
    split
    · exact .throw h _
    · exact .of_same h rfl rfl rfl rfl rfl trivial

theorem callHost_hands (h : m.AllHave P) (paren : Token) (f : HostFunction) {arguments : List Value}
    (harguments : ∀ a ∈ arguments, m.Has P a) :
    Hands P m (Run.callHost paren f arguments) (Has P) := by
  have eq := Run.callHost_eq paren f arguments m
  split at eq
  · exact .of_ok eq ⟨.refl m, h⟩ (m.has_plain trivial)
  · next action haction =>
    have builds := h.orderly.host action (Array.mem_of_getElem? haction)
    have later : m.Later { m with world := (action m.heap m.world arguments).2 } := .of_same rfl rfl
    have all : AllHave P { m with world := (action m.heap m.world arguments).2 } :=
      h.of_same rfl rfl h.orderly.host h.orderly.current_lt
    dsimp only at eq
    split at eq
    · next value hvalue =>
      have has := h.builtFrom harguments (builds _ _ _ _ hvalue)
      exact .of_ok eq ⟨later, all⟩ (has.mono later)
    · exact ⟨_, later, all, .inr ⟨_, eq⟩⟩

end Lox
