import Lox.Proofs.Frame.Basic
import Lox.Proofs.Machine.Scoping
import Lox.Proofs.Resolution.Bound

/-!
# The layout of a machine

The resolver speaks of scopes, a machine of frames. `Runs` ties them together: from a frame outwards,
the frames are labelled with the openers of the scopes, and hold all names that the scopes have as
defined. A machine is laid out well if every function and every method that can be reached in it would
run like that in the frame in which it was made (`Layout.Good`).

All this only grows. A frame keeps its label and its enclosing frame, and once it holds a name, it
always does (`Layout.Grows`), so what was known of a function when it was made stays true.
-/

namespace Lox

/-- A machine whose frames are labelled. -/
structure Layout where
  machine : Machine
  labels : Labels

/-- What passed its checks, and what is recorded of the occurrences in it. -/
structure Setting where
  units : List Code
  record : Record

namespace Layout

/-- The frames from one outwards belong to the openers, and hold what the scopes have as defined. -/
inductive Runs (σ : Layout) : FrameId → List Opener → List Scope → Prop
  | global : Runs σ Frames.globalId [] []
  | scope {id outer : FrameId} {opener : Opener} {scope : Scope} {path : List Opener}
      {scopes : List Scope} : id ≠ Frames.globalId → id < σ.machine.frames.nextId →
      σ.labels id = some opener → σ.machine.frames.enclosing? id = some outer →
      (∀ name, scope.find? name = some true → (σ.machine.frames.local? id name).isSome) →
      (∀ name, scope.contains name = true → name ∈ opener.names) →
      (∀ name methods, opener = .receiver name methods → scope = Resolution.classScope) →
      (scope.contains receiverName = true → ∃ name methods, opener = .receiver name methods) →
      Runs σ outer path scopes → Runs σ id (opener :: path) (scope :: scopes)

/-- The statements of a function lie inside of these scopes. -/
def BodyLies (setting : Setting) (f : FunctionDecl) (path : List Opener) : Prop :=
  ∀ t ∈ f.body, Lies setting.units (.function f :: path) (.statement t)

/-- A function would run well in its frame. -/
def ClosureGood (setting : Setting) (σ : Layout) (closure : Closure) : Prop :=
  ∃ path scopes, σ.Runs closure.frame path scopes ∧
    BodyLies setting closure.declaration path ∧ closure.declaration.Bound setting.record scopes

/-- A method would run well in a frame that holds a receiver and is enclosed by its own frame. -/
def MethodGood (setting : Setting) (σ : Layout) (method : Closure) : Prop :=
  ∃ path scopes name methods, σ.Runs method.frame path scopes ∧
    BodyLies setting method.declaration (.receiver name methods :: path) ∧
    method.declaration.Bound setting.record (Resolution.classScope :: scopes)

/-- All methods of a class are good. -/
def ClassGood (setting : Setting) (σ : Layout) (cls : Class) : Prop :=
  ∀ name method, cls.methods.find? name = some method → MethodGood setting σ method

/-- All functions and methods that a value is made of are good. -/
def ValueGood (setting : Setting) (σ : Layout) : Value → Prop
  | .function f => ClosureGood setting σ f.closure
  | .cls cls => ClassGood setting σ cls
  | _ => True

/-- The machine is laid out well. -/
structure Good (setting : Setting) (σ : Layout) : Prop where
  nextId_pos : Frames.globalId < σ.machine.frames.nextId
  global : σ.labels Frames.globalId = none
  receivers : ∀ id value, σ.machine.frames.local? id receiverName = some value →
    value.objectId?.isSome → ∃ name methods, σ.labels id = some (.receiver name methods)
  held : ∀ id name methods, σ.labels id = some (.receiver name methods) →
    ∃ value, σ.machine.frames.local? id receiverName = some value ∧ value.objectId?.isSome
  bound : ∀ id name value, σ.machine.frames.local? id name = some value →
    ValueGood setting σ value
  classes : ∀ id object, σ.machine.heap.object? id = some object → ClassGood setting σ object.cls
  fields : ∀ id name value, σ.machine.heap.field? id name = some value → ValueGood setting σ value
  distances : ∀ id, σ.machine.distances[id]? = setting.record.distance? id
  host : ∀ action ∈ σ.machine.actions, action.Builds

/-! ## Growth -/

/-- Frames are added, and keep their labels and what encloses them and hold at least the names that
they held. -/
structure Grows (σ σ' : Layout) : Prop where
  nextId_le : σ.machine.frames.nextId ≤ σ'.machine.frames.nextId
  labels_eq : ∀ id < σ.machine.frames.nextId, σ'.labels id = σ.labels id
  enclosing_eq : ∀ id < σ.machine.frames.nextId,
    σ'.machine.frames.enclosing? id = σ.machine.frames.enclosing? id
  held : ∀ id name, (σ.machine.frames.local? id name).isSome →
    (σ'.machine.frames.local? id name).isSome

namespace Grows

variable {σ σ' σ'' : Layout}

/-- What leaves all frames alone makes nothing grow. -/
theorem of_frames_eq (hframes : σ'.machine.frames = σ.machine.frames)
    (hlabels : σ'.labels = σ.labels) : σ.Grows σ' :=
  ⟨Nat.le_of_eq (by rw [hframes]), fun _ _ => by rw [hlabels], fun _ _ => by rw [hframes],
    fun _ _ h => by rwa [hframes]⟩

theorem refl (σ : Layout) : σ.Grows σ := of_frames_eq rfl rfl

theorem trans (h : σ.Grows σ') (h' : σ'.Grows σ'') : σ.Grows σ'' where
  nextId_le := Nat.le_trans h.nextId_le h'.nextId_le
  labels_eq id hid :=
    (h'.labels_eq id (Nat.lt_of_lt_of_le hid h.nextId_le)).trans (h.labels_eq id hid)
  enclosing_eq id hid :=
    (h'.enclosing_eq id (Nat.lt_of_lt_of_le hid h.nextId_le)).trans (h.enclosing_eq id hid)
  held id name hheld := h'.held id name (h.held id name hheld)

end Grows

section

variable {setting : Setting} {σ σ' : Layout}

theorem Runs.mono (hgrows : σ.Grows σ') {id : FrameId} {path : List Opener} {scopes : List Scope}
    (h : σ.Runs id path scopes) : σ'.Runs id path scopes := by
  induction h with
  | global => exact .global
  | scope hid hlt hlabel henclosing hheld hnames hreceiver hplain _ ih =>
    refine .scope hid (Nat.lt_of_lt_of_le hlt hgrows.nextId_le) ?_ ?_ ?_ hnames hreceiver hplain ih
    · rw [hgrows.labels_eq _ hlt, hlabel]
    · rw [hgrows.enclosing_eq _ hlt, henclosing]
    · exact fun name hname => hgrows.held _ name (hheld name hname)

theorem ClosureGood.mono (hgrows : σ.Grows σ') {closure : Closure}
    (h : ClosureGood setting σ closure) : ClosureGood setting σ' closure := by
  obtain ⟨path, scopes, hruns, hlies, hbound⟩ := h
  exact ⟨path, scopes, hruns.mono hgrows, hlies, hbound⟩

theorem ClassGood.mono (hgrows : σ.Grows σ') {cls : Class} (h : ClassGood setting σ cls) :
    ClassGood setting σ' cls := by
  intro name method hmethod
  obtain ⟨path, scopes, name, methods, hruns, hlies, hbound⟩ := h name method hmethod
  exact ⟨path, scopes, name, methods, hruns.mono hgrows, hlies, hbound⟩

theorem ValueGood.mono (hgrows : σ.Grows σ') {value : Value} (h : ValueGood setting σ value) :
    ValueGood setting σ' value := by
  cases value with
  | function f => exact ClosureGood.mono hgrows h
  | cls cls => exact ClassGood.mono hgrows h
  | _ => trivial

/-- What is found is good in full as well. -/
theorem ValueGood.strong {value : Value} (h : ValueGood setting σ value) :
    ValueGood setting σ value.strong := by
  cases value <;> exact h

/-- What leaves frames, objects, distances and actions alone disturbs nothing. -/
theorem Good.of_same (h : Good setting σ) (hlabels : σ'.labels = σ.labels)
    (hframes : σ'.machine.frames = σ.machine.frames) (hheap : σ'.machine.heap = σ.machine.heap)
    (hdistances : σ'.machine.distances = σ.machine.distances)
    (hactions : σ'.machine.actions = σ.machine.actions) : σ.Grows σ' ∧ Good setting σ' := by
  have grows : σ.Grows σ' := .of_frames_eq hframes hlabels
  refine ⟨grows, ?_, ?_, ?_, ?_, ?_, ?_, ?_, ?_, ?_⟩
  · exact hframes ▸ h.nextId_pos
  · exact hlabels ▸ h.global
  · exact hlabels ▸ hframes ▸ h.receivers
  · exact hlabels ▸ hframes ▸ h.held
  · exact fun id name value hvalue => (h.bound id name value (hframes ▸ hvalue)).mono grows
  · exact fun id object hobject => ClassGood.mono grows (h.classes id object (hheap ▸ hobject))
  · exact fun id name value hvalue => (h.fields id name value (hheap ▸ hvalue)).mono grows
  · exact hdistances ▸ h.distances
  · exact hactions ▸ h.host

/-! ## What the parts of a machine may become -/

/-- The layout with a name bound in a frame. -/
def define (σ : Layout) (id : FrameId) (name : String) (value : Value) : Layout :=
  { σ with machine := { σ.machine with frames := σ.machine.frames.define id name value } }

theorem Grows.define (σ : Layout) (id : FrameId) (name : String) (value : Value) :
    σ.Grows (σ.define id name value) where
  nextId_le := Nat.le_of_eq (σ.machine.frames.nextId_define id name value).symm
  labels_eq _ _ := rfl
  enclosing_eq other _ := σ.machine.frames.enclosing?_define id other name value
  held other key hheld := by
    show (Frames.local? (Frames.define ..) ..).isSome
    rw [Frames.local?_define]
    split
    · rfl
    · exact hheld

/-- A value may be bound to a name if it is good then, but no object to the name of the receiver, or in
its place. -/
theorem Good.define (h : Good setting σ) {name : String} {value : Value}
    (id : FrameId) (hvalue : ValueGood setting (σ.define id name value) value)
    (hname : name = receiverName → value.objectId? = none ∧ id = Frames.globalId) :
    Good setting (σ.define id name value) := by
  have grows := Grows.define σ id name value
  refine ⟨?_, h.global, ?_, ?_, ?_, ?_, ?_, h.distances, h.host⟩
  · exact Nat.lt_of_lt_of_le h.nextId_pos grows.nextId_le
  · intro other kept hkept hobject
    rw [Layout.define, Frames.local?_define] at hkept
    split at hkept
    · next hsame =>
      injection hkept with hkept
      rw [← hkept, (hname hsame.2.1).1] at hobject
      nomatch hobject
    · exact h.receivers other kept hkept hobject
  · intro other key methods hlabel
    obtain ⟨kept, hkept, hobject⟩ := h.held other key methods hlabel
    refine ⟨kept, ?_, hobject⟩
    rw [Layout.define, Frames.local?_define]
    split
    · next hsame =>
      -- the receiver is bound anew in the global frame only, which is the frame of nothing
      obtain ⟨rfl, hreceiver, -⟩ := hsame
      rw [(hname hreceiver).2] at hlabel
      exact absurd (h.global.symm.trans hlabel) nofun
    · exact hkept
  · intro other key kept hkept
    rw [Layout.define, Frames.local?_define] at hkept
    split at hkept
    · injection hkept with hkept
      exact hkept ▸ hvalue
    · exact (h.bound other key kept hkept).mono grows
  · exact fun id object hobject => ClassGood.mono grows (h.classes id object hobject)
  · exact fun id name value hfield => (h.fields id name value hfield).mono grows

/-- The layout with a new frame for an opener. -/
def push (σ : Layout) (opener : Opener) (bindings : Bindings Value) (enclosing : Option FrameId) :
    Layout where
  machine := { σ.machine with frames := σ.machine.frames.push bindings enclosing }
  labels id := if id = σ.machine.frames.nextId then some opener else σ.labels id

theorem Grows.push (σ : Layout) (opener : Opener) (bindings : Bindings Value)
    (enclosing : Option FrameId) : σ.Grows (σ.push opener bindings enclosing) where
  nextId_le := by simp [Layout.push]
  labels_eq id hid := if_neg (Nat.ne_of_lt hid)
  enclosing_eq id hid := by
    show Frames.enclosing? (Frames.push ..) id = _
    rw [Frames.enclosing?_push, if_neg (Nat.ne_of_lt hid)]
  held id name hheld := by
    have hid := Nat.ne_of_lt (σ.machine.frames.lt_nextId_of_local? hheld)
    show (Frames.local? (Frames.push ..) id name).isSome
    rwa [Frames.local?_push, if_neg hid]

/-- A new frame may hold good values, and a receiver only if it is the frame of one. -/
theorem Good.push (h : Good setting σ) {opener : Opener} {bindings : Bindings Value}
    (hvalues : ∀ name value, bindings.find? name = some value → ValueGood setting σ value)
    (hreceiver : ∀ value, bindings.find? receiverName = some value → value.objectId?.isSome →
      ∃ name methods, opener = .receiver name methods)
    (hheld : ∀ name methods, opener = .receiver name methods →
      ∃ value, bindings.find? receiverName = some value ∧ value.objectId?.isSome)
    (enclosing : Option FrameId) : Good setting (σ.push opener bindings enclosing) := by
  have grows := Grows.push σ opener bindings enclosing
  refine ⟨?_, ?_, ?_, ?_, ?_, ?_, ?_, h.distances, h.host⟩
  · exact Nat.lt_of_lt_of_le h.nextId_pos grows.nextId_le
  · exact (grows.labels_eq _ h.nextId_pos).trans h.global
  · intro id value hvalue hobject
    rw [Layout.push, Frames.local?_push] at hvalue
    simp only [Layout.push]
    split at hvalue
    · next hid =>
      obtain ⟨name, methods, rfl⟩ := hreceiver value hvalue hobject
      exact ⟨name, methods, if_pos hid⟩
    · next hid =>
      rw [if_neg hid]
      exact h.receivers id value hvalue hobject
  · intro id name methods hlabel
    rw [Layout.push, Frames.local?_push]
    simp only [Layout.push] at hlabel
    split at hlabel
    · next hid =>
      injection hlabel with hlabel
      rw [if_pos hid]
      exact hheld name methods hlabel
    · next hid =>
      rw [if_neg hid]
      exact h.held id name methods hlabel
  · intro id name value hvalue
    rw [Layout.push, Frames.local?_push] at hvalue
    split at hvalue
    · exact (hvalues name value hvalue).mono grows
    · exact (h.bound id name value hvalue).mono grows
  · exact fun id object hobject => ClassGood.mono grows (h.classes id object hobject)
  · exact fun id name value hfield => (h.fields id name value hfield).mono grows

/-- In a new frame runs what lies right inside of its scope, with what the frame was made to hold. -/
theorem Runs.push (h : Good setting σ) {outer : FrameId} {path : List Opener} {scopes : List Scope}
    (hruns : σ.Runs outer path scopes) (opener : Opener) (bindings : Bindings Value)
    {scope : Scope}
    (hheld : ∀ name, scope.find? name = some true → (bindings.find? name).isSome)
    (hnames : ∀ name, scope.contains name = true → name ∈ opener.names)
    (hreceiver : ∀ name methods, opener = .receiver name methods → scope = Resolution.classScope)
    (hplain : scope.contains receiverName = true →
      ∃ name methods, opener = .receiver name methods) :
    (σ.push opener bindings (some outer)).Runs σ.machine.frames.nextId (opener :: path)
      (scope :: scopes) := by
  refine .scope (Nat.ne_of_gt h.nextId_pos) ?_ (if_pos rfl) ?_ ?_ hnames hreceiver hplain
    (hruns.mono (Grows.push ..))
  · simp [Layout.push]
  · show Frames.enclosing? (Frames.push ..) _ = _
    rw [Frames.enclosing?_push, if_pos rfl]
  · intro name hname
    show (Frames.local? (Frames.push ..) _ name).isSome
    rw [Frames.local?_push, if_pos rfl]
    exact hheld name hname

/-- The layout with a field of an object written. -/
def setField (σ : Layout) (id : ObjectId) (name : String) (value : Value) : Layout :=
  { σ with machine := { σ.machine with heap := σ.machine.heap.setField id name value } }

theorem Good.setField (h : Good setting σ) {value : Value} (hvalue : ValueGood setting σ value)
    (id : ObjectId) (name : String) : Good setting (σ.setField id name value) := by
  have grows : σ.Grows (σ.setField id name value) := .of_frames_eq rfl rfl
  refine ⟨h.nextId_pos, h.global, h.receivers, h.held, ?_, ?_, ?_, h.distances, h.host⟩
  · exact fun id name value hbound => (h.bound id name value hbound).mono grows
  · intro other object hobject
    obtain ⟨old, hold, hclass⟩ := Heap.exists_of_object?_setField hobject
    exact hclass ▸ ClassGood.mono grows (h.classes other old hold)
  · intro other key kept hkept
    rw [Layout.setField, Heap.field?_setField] at hkept
    split at hkept
    · injection hkept with hkept
      exact hkept ▸ hvalue.mono grows
    · exact (h.fields other key kept hkept).mono grows

/-- The layout with a new object. -/
def create (σ : Layout) (cls : Class) : Layout :=
  { σ with machine := { σ.machine with heap := σ.machine.heap.push cls } }

theorem Good.create (h : Good setting σ) {cls : Class} (hcls : ClassGood setting σ cls) :
    Good setting (σ.create cls) := by
  have grows : σ.Grows (σ.create cls) := .of_frames_eq rfl rfl
  refine ⟨h.nextId_pos, h.global, h.receivers, h.held, ?_, ?_, ?_, h.distances, h.host⟩
  · exact fun id name value hbound => (h.bound id name value hbound).mono grows
  · intro id object hobject
    rw [Layout.create, Heap.object?_push] at hobject
    split at hobject
    · injection hobject with hobject
      exact hobject ▸ ClassGood.mono grows hcls
    · exact ClassGood.mono grows (h.classes id object hobject)
  · intro id name value hfield
    rw [Layout.create, Heap.field?_push] at hfield
    exact (h.fields id name value hfield).mono grows

end

end Layout

end Lox
