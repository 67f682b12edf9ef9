import Lox.Proofs.Machine.Activation
import Lox.Proofs.Trace.Handing

/-!
# Initializers and their receivers

A value is the *initializer* of an object if it is what the class of the object declares as `init`, bound
to the object (`Machine.Initializes`). It is hereditary that all functions which are initializers are the
initializers of objects (`Machine.Prepared`), since one comes up only where a method of a class is bound.

The receiver is looked up in the frame around the call, once the body has run. Nothing that runs in
between takes it away, so the lookup finds it, whatever the body ends with (`callClosure_prepares`). A new
object is prepared like that before anything else can be done with it (`construct_prepares`).
-/

namespace Lox

open Machine

variable {m m' : Machine}

/-! ## Initializers of objects -/

/-- The value is the method `init` of the class of an object, bound to the object. -/
def Machine.Initializes (m : Machine) (owner : ObjectId) (value : Value) : Prop :=
  ∃ method, m.heap.method? owner initializerName = some method ∧ m.Binds method owner value

/-- The methods of a class are found under their own names, and just `init` is an initializer. -/
def Class.IsDeclared (cls : Class) : Prop :=
  ∀ name method, cls.methods.find? name = some method →
    method.declaration.name.lexeme = name ∧ (method.isInitializer = true ↔ name = initializerName)

/-- If the value is an initializer, it is that of an object. -/
def Machine.Prepared (m : Machine) : Value → Prop
  | .function f => f.closure.isInitializer = true → ∃ owner, m.Initializes owner (.function f)
  | .cls c => c.IsDeclared
  | _ => True

/-- What is bound stays so. -/
theorem Machine.Binds.mono (h : m.Earlier m') {method : Closure} {owner : ObjectId} {value : Value}
    (hbinds : m.Binds method owner value) : m'.Binds method owner value := by
  obtain ⟨f, receiver, hvalue, hclosure, henclosing, hlocal, howner⟩ := hbinds
  have there := m.frames.lt_nextId_of_local? (Option.isSome_of_eq_some hlocal)
  have isObject : receiver.objectId?.isSome := by rw [howner]; rfl
  exact ⟨f, receiver, hvalue, hclosure, (h.enclosing_eq _ there).trans henclosing,
    (h.receiver_iff _ there _ isObject).mpr hlocal, howner⟩

theorem Machine.Initializes.mono (h : m.Later m') {owner : ObjectId} {value : Value}
    (hvalue : m.Initializes owner value) : m'.Initializes owner value := by
  obtain ⟨method, hmethod, hbinds⟩ := hvalue
  exact ⟨method, h.method? hmethod, hbinds.mono h.earlier⟩

theorem isDeclared_methods (identity : Identity) (name : String) (frame : FrameId)
    (methods : List FunctionDecl) :
    Class.IsDeclared ⟨identity, name, .insertAll .empty (methods.map (Run.methodClosure frame))⟩ := by
  intro key method hmethod
  obtain ⟨declaration, -, rfl, rfl⟩ := exists_of_find?_methods hmethod
  exact ⟨rfl, decide_eq_true_iff⟩

instance : Hereditary Machine.Prepared where
  mono {m m' value} h hvalue := by
    cases value with
    | function f =>
      intro hinit
      obtain ⟨owner, howner⟩ := hvalue hinit
      exact ⟨owner, howner.mono h⟩
    | cls c => exact hvalue
    | _ => trivial
  plain {m value} h := by
    cases value with
    | function | cls => exact h.elim
    | _ => trivial
  object {m value} h := by
    cases value with
    | function | cls => nomatch h
    | _ => trivial
  function := nofun
  cls := isDeclared_methods _ _ _ _
  method {m id object name method} hobject hfind hcls := by
    intro hinit
    obtain rfl := (hcls name method hfind).2.mp hinit
    have hmethod : m.heap.method? id initializerName = some method := by
      rw [Heap.method?, hobject]
      exact hfind
    exact ⟨id, method, hmethod, binds_copy (.refl _) rfl rfl⟩
  copy {m f old receiver id} hlocal hold hreceiver hf := by
    intro hinit
    obtain ⟨owner, method, hmethod, hbinds⟩ := hf hinit
    have later := Later.rebound m (m.frames.enclosing? f.closure.frame) receiver
    exact ⟨owner, method, later.method? hmethod,
      (hbinds.mono later.earlier).copy hlocal hold hreceiver (.refl _)⟩

/-- The initializer of an object is declared as `init`. -/
theorem Machine.Initializes.name (h : m.AllHave Prepared) {owner : ObjectId} {f : Function}
    (hf : m.Initializes owner (.function f)) : f.name = initializerName := by
  obtain ⟨method, hmethod, f', receiver, hsame, hclosure, -⟩ := hf
  obtain ⟨object, hobject, hfind⟩ := Option.bind_eq_some_iff.mp hmethod
  injection hsame with hsame
  rw [hsame, Function.name, hclosure]
  exact (h.classes owner object hobject _ method hfind).1

/-- The initializers among the functions are those of objects. -/
theorem isInitializer_iff (h : m.AllHave Prepared) {f : Function} (hf : m.Prepared (.function f)) :
    f.closure.isInitializer = true ↔ ∃ owner, m.Initializes owner (.function f) := by
  refine ⟨hf, ?_⟩
  rintro ⟨owner, method, hmethod, f', receiver, hsame, hclosure, -⟩
  obtain ⟨object, hobject, hfind⟩ := Option.bind_eq_some_iff.mp hmethod
  injection hsame with hsame
  rw [hsame, hclosure]
  exact (h.classes owner object hobject _ method hfind).2.mpr rfl

/-! ## Calls of initializers -/

/-- Carries out the body of a function, and gives an object, whatever the body ends with. -/
def Run.prepare (fuel : Nat) (closure : Closure) (arguments : List Value) (owner : ObjectId) :
    Run Value := do
  let _ ← (Acting.activation fuel closure arguments).run
  return .object owner

section

variable {P : Machine → Value → Prop} [Hereditary P]

/-- The body of a function hands a property on. -/
theorem activation_hands (h : m.AllHave P) {closure : Closure} (hclosure : m.ClosureFit closure)
    {arguments : List Value} (harguments : ∀ a ∈ arguments, m.Has P a) (fuel : Nat) :
    Hands P m (Acting.activation fuel closure arguments).run (EndsWith P) := by
  have parts : (fun t => (Traced.execute fuel t).run) = Run.execute fuel :=
    funext (Traced.execute_run fuel)
  rw [Acting.activation_run, ← parts]
  simp only [← Traced.executeAll_run]
  refine (openCall_hands h hclosure.formed harguments hclosure.there).ends.bind ?_
  exact fun m' frame _ hall hframe =>
    (body_hands (execute_hands fuel) hall hframe hclosure.formed.body).ends

/-- The receiver of an initializer is still there once its body has run. -/
theorem callClosure_prepares (h : m.AllHave P) {closure : Closure}
    (hclosure : m.ClosureFit closure) (hinit : closure.isInitializer = true)
    {arguments : List Value} (harguments : ∀ a ∈ arguments, m.Has P a) {receiver : Value}
    {owner : ObjectId} (hlocal : m.frames.local? closure.frame receiverName = some receiver)
    (howner : receiver.objectId? = some owner) (fuel : Nat) :
    Run.callClosure (Run.execute fuel) closure arguments m =
      Run.prepare fuel closure arguments owner m := by
  rw [Acting.callClosure_initializer hinit, Run.prepare]
  obtain ⟨m', hlater, -, ⟨completion, hrun, -⟩ | ⟨interrupt, hrun⟩⟩ :=
    activation_hands h hclosure harguments fuel
  · have there := m.frames.lt_nextId_of_local? (Option.isSome_of_eq_some hlocal)
    have isObject : receiver.objectId?.isSome := by rw [howner]; rfl
    have kept := (hlater.earlier.receiver_iff _ there _ isObject).mpr hlocal
    rw [Run.bind_ok hrun, Run.bind_ok hrun]
    show Run.found _ (m'.frames.local? closure.frame receiverName) m' = .ok (.object owner) m'
    rw [kept]
    cases receiver with
    | object id | weakObject id =>
      injection howner with howner
      subst howner
      rfl
    | _ => nomatch howner
  · rw [Run.bind_error hrun, Run.bind_error hrun]

/-- Where an object is prepared to the end, it is given, and no object has changed its class. -/
theorem prepare_ok (h : m.AllHave P) {closure : Closure} (hclosure : m.ClosureFit closure)
    {arguments : List Value} (harguments : ∀ a ∈ arguments, m.Has P a) {fuel : Nat} {owner : ObjectId}
    {value : Value} (hrun : Run.prepare fuel closure arguments owner m = .ok value m') :
    value = .object owner ∧ m.Later m' := by
  rw [Run.prepare] at hrun
  obtain ⟨m₁, hlater, -, ⟨completion, hbody, -⟩ | ⟨interrupt, hbody⟩⟩ :=
    activation_hands h hclosure harguments fuel
  · rw [Run.bind_ok hbody] at hrun
    cases hrun
    exact ⟨rfl, hlater⟩
  · nomatch (Run.bind_error hbody _).symm.trans hrun

end

/-- The initializer of an object gives the object. -/
theorem call_prepares (h : m.AllHave Prepared) {f : Function} (hf : m.Has Prepared (.function f))
    {owner : ObjectId} (howner : m.Initializes owner (.function f)) (paren : Token)
    {arguments : List Value} (harguments : ∀ a ∈ arguments, m.Has Prepared a)
    (harity : arguments.length = f.closure.arity) (fuel : Nat) :
    Run.call (Run.execute fuel) (.function f) paren arguments m =
      Run.prepare fuel f.closure arguments owner m := by
  have hinit := (isInitializer_iff h hf.has).mpr ⟨owner, howner⟩
  obtain ⟨method, -, f', receiver, hsame, -, -, hlocal, hreceiver⟩ := howner
  injection hsame with hsame
  subst hsame
  have called : Run.call (Run.execute fuel) (.function f) paren arguments =
      Run.callClosure (Run.execute fuel) f.closure arguments := by
    simp only [Run.call, Value.arity?, harity, ne_eq, not_true_eq_false, if_false]
  rw [called]
  exact callClosure_prepares h hf.fit hinit harguments hlocal hreceiver fuel

/-- The call of an initializer gives nothing else than its object. -/
theorem call_initializer_ok (h : m.AllHave Prepared) {f : Function} (hf : m.Has Prepared (.function f))
    {owner : ObjectId} (howner : m.Initializes owner (.function f)) {paren : Token}
    {arguments : List Value} (harguments : ∀ a ∈ arguments, m.Has Prepared a) {fuel : Nat} {value : Value}
    (hrun : Run.call (Run.execute fuel) (.function f) paren arguments m = .ok value m') :
    value = .object owner := by
  by_cases harity : arguments.length = f.closure.arity
  · rw [call_prepares h hf howner paren harguments harity fuel] at hrun
    exact (prepare_ok h hf.fit harguments hrun).1
  · simp only [Run.call, Value.arity?, ne_eq, harity, not_false_eq_true, if_true] at hrun
    cases hrun

/-! ## What happens in a call -/

/-- Something happens in a run and what comes behind it if it happens in one of them. -/
theorem Traced.mem_bind {α β : Type} {x : Traced α} {f : α → Traced β} {moment : Moment} :
    moment ∈ (x >>= f).trace m ↔
      moment ∈ x.trace m ∨ ∃ a m', x.run m = .ok a m' ∧ moment ∈ (f a).trace m' := by
  show moment ∈ Accounts.follow x.run x.trace (fun a => (f a).trace) m ↔ _
  cases hrun : x.run m with
  | ok a m' => simp [Accounts.follow_ok hrun]
  | error interrupt m' => simp [Accounts.follow_error hrun]

/-- Nothing happens where a call has run its body. -/
theorem Traced.result_trace (closure : Closure) (completion : Completion) :
    (Traced.result closure completion).trace m = [] := by
  unfold Traced.result
  split
  · rfl
  · cases completion <;> rfl

/-- The machine on which the body of a function is carried out: a new frame holds the arguments. -/
def Machine.enter (m : Machine) (closure : Closure) (arguments : List Value) : Machine :=
  m.push (Bindings.empty.insertAll ((closure.declaration.params.map (·.lexeme)).zip arguments))
    (some closure.frame)

section

variable {closure : Closure} {arguments : List Value}

theorem nextId_enter (m : Machine) (closure : Closure) (arguments : List Value) :
    (m.enter closure arguments).frames.nextId = m.frames.nextId + 1 :=
  Frames.nextId_push ..

theorem enclosing?_enter (m : Machine) (closure : Closure) (arguments : List Value) :
    (m.enter closure arguments).frames.enclosing? m.frames.nextId = some closure.frame := by
  show Frames.enclosing? (Frames.push ..) _ = _
  rw [Frames.enclosing?_push, if_pos rfl]

/-- The frame of a call holds what is given for the parameters. -/
theorem mem_of_local?_enter {name : String} {value : Value}
    (h : (m.enter closure arguments).frames.local? m.frames.nextId name = some value) :
    name ∈ closure.declaration.params.map (·.lexeme) ∧ value ∈ arguments := by
  change Frames.local? (Frames.push ..) _ _ = _ at h
  rw [Frames.local?_push, if_pos rfl] at h
  exact mem_of_find?_zip h

/-- The frame of a call does not hold a receiver at first. -/
theorem receiver_not_entered (hclosure : closure.declaration.Formed) (value : Value) :
    (m.enter closure arguments).frames.local? m.frames.nextId receiverName ≠ some value :=
  fun h => hclosure.free (mem_of_local?_enter h).1

theorem calm_enter (h : m.Orderly) (hclosure : m.ClosureFit closure)
    (harguments : ∀ a ∈ arguments, m.Fit a) : m.Calm (m.enter closure arguments) := by
  refine h.push ⟨_, hclosure.there, rfl⟩ ⟨fun name value hvalue => ?_, fun value hvalue => ?_⟩
  · exact harguments value (mem_of_find?_zip hvalue).2
  · exact absurd (mem_of_find?_zip hvalue).1 hclosure.formed.free

/-- What happens in a call happens before the frame of the call is there, or in the body. -/
theorem Traced.mem_callClosure {execute : Stmt → Traced Completion} {moment : Moment}
    (h : moment ∈ (Traced.callClosure execute closure arguments).trace m) :
    moment.machine = m ∨
      moment ∈ (Traced.inFrame m.frames.nextId
        (Traced.executeAll execute closure.declaration.body)).trace (m.enter closure arguments) := by
  rcases Traced.mem_bind.mp h with hopen | ⟨frame, m₁, hopen, h⟩
  · exact .inl (by rw [List.mem_singleton.mp hopen])
  · cases hopen
    rcases Traced.mem_bind.mp h with hbody | ⟨completion, m₂, -, hresult⟩
    · exact .inr hbody
    · rw [Traced.result_trace] at hresult
      exact absurd hresult List.not_mem_nil

/-- In all that happens in a call, the frame of the call is current only while it is enclosed by the frame
of the function and holds no receiver. -/
theorem callClosure_moments {execute : Stmt → Traced Completion} (hexecute : ExecutesProperly execute)
    (h : m.Orderly) (hclosure : m.ClosureFit closure) (harguments : ∀ a ∈ arguments, m.Fit a) :
    ∀ moment ∈ (Traced.callClosure execute closure arguments).trace m,
      m.Earlier moment.machine ∧ (moment.machine.current = m.frames.nextId →
        moment.machine.frames.enclosing? m.frames.nextId = some closure.frame ∧
          ∀ value, moment.machine.frames.local? m.frames.nextId receiverName = some value →
            value.objectId? = none) := by
  intro moment hmoment
  rcases Traced.mem_callClosure hmoment with hfirst | hbody
  · rw [hfirst]
    exact ⟨.refl m, fun hcurrent => absurd hcurrent (Nat.ne_of_lt h.current_lt)⟩
  · have calm := calm_enter h hclosure harguments
    have there : m.frames.nextId < (m.enter closure arguments).frames.nextId := by
      rw [nextId_enter]
      exact Nat.lt_succ_self _
    obtain ⟨m', hpath, -⟩ := body_upholds hexecute calm.orderly there hclosure.formed.body
    obtain ⟨before, after, hsplit⟩ := List.append_of_mem hbody
    rw [hsplit] at hpath
    -- from here on the frame is there, and what encloses it and what it holds are as they were at first
    have earlier := hpath.split.1.earlier
    refine ⟨calm.earlier.trans earlier, fun _ => ⟨?_, fun value hvalue => ?_⟩⟩
    · exact (earlier.enclosing_eq _ there).trans (enclosing?_enter m closure arguments)
    · by_contra hobject
      have isObject : value.objectId?.isSome := Option.isSome_iff_ne_none.mpr hobject
      exact receiver_not_entered hclosure.formed value
        ((earlier.receiver_iff _ there value isObject).mp hvalue)

end

/-! ## Calls of classes -/

/-- The machine on which a new object is prepared: the object is there, and a frame around that of the
method holds it as the receiver. -/
def Machine.allocate (m : Machine) (cls : Class) (method : Closure) : Machine :=
  (m.create cls).push (Bindings.empty.insert receiverName (.object m.heap.nextId)) (some method.frame)

/-- How a class is called. With another number of arguments than it takes, nothing happens but a fault.
Otherwise the next object is made, and that is what the call gives if it comes to its end. If the class
has an initializer, it is called as bound to the object, which its frame holds as the receiver in all that
happens, and which is in force wherever the frame of the call is current. -/
structure Machine.Constructs (m : Machine) (fuel : Nat) (cls : Class) (paren : Token)
    (arguments : List Value) : Prop where
  refused : arguments.length ≠ cls.arity →
    Run.call (Run.execute fuel) (.cls cls) paren arguments m =
        .error (.stopped (.runtime paren.line (.wrongArity cls.arity arguments.length))) m ∧
      (Traced.call (Traced.execute fuel) (.cls cls) paren arguments).trace m = []
  bare : cls.initializer? = none → cls.arity = 0 ∧
    Run.call (Run.execute fuel) (.cls cls) paren [] m = .ok (.object m.heap.nextId) (m.create cls)
  prepared : ∀ method, cls.initializer? = some method →
    let bound : Closure := { method with frame := m.frames.nextId }
    method.declaration.name.lexeme = initializerName ∧
      cls.arity = method.declaration.params.length ∧
      (arguments.length = cls.arity →
        Run.call (Run.execute fuel) (.cls cls) paren arguments m =
            Run.callClosure (Run.execute fuel) bound arguments (m.allocate cls method) ∧
          Run.callClosure (Run.execute fuel) bound arguments (m.allocate cls method) =
            Run.prepare fuel bound arguments m.heap.nextId (m.allocate cls method)) ∧
      ∀ moment ∈ (Traced.call (Traced.execute fuel) (.cls cls) paren arguments).trace m,
        moment.machine.frames.local? bound.frame receiverName = some (.object m.heap.nextId) ∧
          (moment.machine.current = (m.allocate cls method).frames.nextId →
            moment.machine.InCallOf method m.heap.nextId)
  fresh : ∀ value m', Run.call (Run.execute fuel) (.cls cls) paren arguments m = .ok value m' →
    value = .object m.heap.nextId ∧ m.heap.object? m.heap.nextId = none ∧
      (m'.heap.object? m.heap.nextId).map (·.cls) = some cls

section

variable {cls : Class} {method : Closure} {arguments : List Value}

theorem Run.call_cls (execute : Stmt → Run Completion) (paren : Token)
    (harity : arguments.length = cls.arity) :
    Run.call execute (.cls cls) paren arguments = Run.construct execute cls arguments := by
  simp only [Run.call, Value.arity?, harity, ne_eq, not_true_eq_false, if_false]

theorem Traced.call_cls (execute : Stmt → Traced Completion) (paren : Token)
    (harity : arguments.length = cls.arity) :
    Traced.call execute (.cls cls) paren arguments = Traced.construct execute cls arguments := by
  simp only [Traced.call, Value.arity?, harity, ne_eq, not_true_eq_false, if_false]

/-- With another number of arguments nothing happens. -/
theorem call_refused (fuel : Nat) (paren : Token) (harity : arguments.length ≠ cls.arity) :
    Run.call (Run.execute fuel) (.cls cls) paren arguments m =
        .error (.stopped (.runtime paren.line (.wrongArity cls.arity arguments.length))) m ∧
      (Traced.call (Traced.execute fuel) (.cls cls) paren arguments).trace m = [] := by
  simp only [Run.call, Traced.call, Value.arity?, ne_eq, harity, not_false_eq_true, if_true]
  exact ⟨rfl, rfl⟩

/-- Without an initializer, the object is all there is. -/
theorem Run.construct_bare (execute : Stmt → Run Completion) (hinit : cls.initializer? = none) :
    Run.construct execute cls arguments m = .ok (.object m.heap.nextId) (m.create cls) := by
  unfold Run.construct
  simp only [hinit]
  rfl

/-- With an initializer, the object is made and the initializer called. -/
theorem Run.construct_eq (execute : Stmt → Run Completion) (hinit : cls.initializer? = some method) :
    Run.construct execute cls arguments m =
      (do
        let _ ← Run.callClosure execute { method with frame := m.frames.nextId } arguments
        return .object m.heap.nextId : Run Value) (m.allocate cls method) := by
  unfold Run.construct
  simp only [hinit]
  rfl

theorem Traced.mem_construct {execute : Stmt → Traced Completion}
    (hinit : cls.initializer? = some method) {moment : Moment}
    (h : moment ∈ (Traced.construct execute cls arguments).trace m) :
    moment ∈ (Traced.callClosure execute { method with frame := m.frames.nextId } arguments).trace
      (m.allocate cls method) := by
  unfold Traced.construct at h
  simp only [hinit] at h
  rcases Traced.mem_bind.mp h with hnew | ⟨id, m₁, hnew, h⟩
  · cases hnew
  · cases hnew
    rcases Traced.mem_bind.mp h with hbind | ⟨bound, m₂, hbind, h⟩
    · cases hbind
    · cases hbind
      rcases Traced.mem_bind.mp h with hcall | ⟨value, m₃, -, hpure⟩
      · exact hcall
      · cases hpure

/-! ### New objects -/

theorem object?_allocate (m : Machine) (cls : Class) (method : Closure) :
    (m.allocate cls method).heap.object? m.heap.nextId = some ⟨cls, .empty⟩ := by
  show (m.create cls).heap.object? _ = _
  rw [object?_create, if_pos rfl]

theorem nextId_allocate (m : Machine) (cls : Class) (method : Closure) :
    (m.allocate cls method).frames.nextId = m.frames.nextId + 1 :=
  Frames.nextId_push ..

/-- The frame around the method holds the new object, and nothing else is around it. -/
theorem local?_allocate (m : Machine) (cls : Class) (method : Closure) :
    (m.allocate cls method).frames.local? m.frames.nextId receiverName =
      some (.object m.heap.nextId) := by
  show Frames.local? (Frames.push ..) (m.create cls).frames.nextId _ = _
  rw [Frames.local?_push, if_pos rfl, Bindings.find?_insert_self]

theorem enclosing?_allocate (m : Machine) (cls : Class) (method : Closure) :
    (m.allocate cls method).frames.enclosing? m.frames.nextId = some method.frame := by
  show Frames.enclosing? (Frames.push ..) (m.create cls).frames.nextId = _
  rw [Frames.enclosing?_push, if_pos rfl]

theorem Machine.AllHave.allocate {P : Machine → Value → Prop} [Hereditary P] (h : m.AllHave P)
    (hcls : m.Has P (.cls cls)) {method : Closure} (hmethod : m.ClosureFit method) :
    m.Later (m.allocate cls method) ∧ (m.allocate cls method).AllHave P ∧
      (m.allocate cls method).ClosureFit { method with frame := m.frames.nextId } := by
  obtain ⟨hlater, hall⟩ := h.create hcls
  have there : m.heap.nextId < (m.create cls).heap.nextId := m.heap.lt_nextId_push cls
  have fit := hmethod.mono hlater.earlier
  obtain ⟨hlater', hall'⟩ := hall.pushReceiver ⟨_, fit.there, rfl⟩ (has_object there) rfl
  refine ⟨hlater.trans hlater', hall', ?_, hmethod.formed⟩
  rw [nextId_allocate]
  exact Nat.lt_succ_self _

/-- The initializer of a class prepares each new object. -/
theorem construct_prepares (h : m.AllHave Prepared) (hcls : m.Has Prepared (.cls cls))
    (hinit : cls.initializer? = some method) (harguments : ∀ a ∈ arguments, m.Has Prepared a)
    (fuel : Nat) :
    let bound : Closure := { method with frame := m.frames.nextId }
    Run.callClosure (Run.execute fuel) bound arguments (m.allocate cls method) =
        Run.prepare fuel bound arguments m.heap.nextId (m.allocate cls method) ∧
      Run.construct (Run.execute fuel) cls arguments m =
        Run.prepare fuel bound arguments m.heap.nextId (m.allocate cls method) := by
  intro bound
  obtain ⟨hlater, hall, fit⟩ := h.allocate hcls (hcls.fit _ method hinit)
  have initializer : bound.isInitializer = true := (hcls.has _ method hinit).2.mpr rfl
  have prepares := callClosure_prepares hall fit initializer
    (fun a ha => (harguments a ha).mono hlater) (local?_allocate m cls method) rfl fuel
  refine ⟨prepares, (Run.construct_eq _ hinit).trans ?_⟩
  -- what the initializer gives is left aside, but it is the object as well
  cases hrun : (Acting.activation fuel bound arguments).run (m.allocate cls method) with
  | ok completion m' =>
    have prepared : Run.prepare fuel bound arguments m.heap.nextId (m.allocate cls method) =
        .ok (.object m.heap.nextId) m' := Run.bind_ok hrun _
    rw [Run.bind_ok (prepares.trans prepared), prepared]
    rfl
  | error interrupt m' =>
    have stopped : Run.prepare fuel bound arguments m.heap.nextId (m.allocate cls method) =
        .error interrupt m' := Run.bind_error hrun _
    rw [Run.bind_error (prepares.trans stopped), stopped]

/-- While an object is prepared, the frame of its initializer holds it as the receiver. -/
theorem allocate_moments {P : Machine → Value → Prop} [Hereditary P] (h : m.AllHave P)
    (hcls : m.Has P (.cls cls)) (hinit : cls.initializer? = some method)
    (harguments : ∀ a ∈ arguments, m.Has P a) (fuel : Nat) :
    ∀ moment ∈ (Traced.construct (Traced.execute fuel) cls arguments).trace m,
      moment.machine.frames.local? m.frames.nextId receiverName = some (.object m.heap.nextId) ∧
        (moment.machine.current = (m.allocate cls method).frames.nextId →
          moment.machine.InCallOf method m.heap.nextId) := by
  intro moment hmoment
  obtain ⟨hlater, hall, bound⟩ := h.allocate hcls (hcls.fit _ method hinit)
  have fit : ∀ a ∈ arguments, (m.allocate cls method).Fit a :=
    fun a ha => ((harguments a ha).mono hlater).fit
  obtain ⟨earlier, inner⟩ := callClosure_moments (execute_upholds fuel) hall.orderly bound fit
    moment (Traced.mem_construct hinit hmoment)
  have there : m.frames.nextId < (m.allocate cls method).frames.nextId := bound.there
  have held := (earlier.receiver_iff _ there _ rfl).mpr (local?_allocate m cls method)
  have around := (earlier.enclosing_eq _ there).trans (enclosing?_allocate m cls method)
  refine ⟨held, fun hcurrent => ?_⟩
  obtain ⟨henclosing, hfree⟩ := inner hcurrent
  rw [← hcurrent] at henclosing hfree
  have localFrame : moment.machine.current ≠ Frames.globalId :=
    hcurrent ▸ Nat.ne_of_gt (Nat.zero_lt_of_lt there)
  refine ⟨.outer localFrame hfree henclosing (.own held), ?_⟩
  rw [Frames.ancestor?, henclosing, Option.bind_some, Frames.ancestor?, around]
  rfl

/-- Whatever class is called, it is called as it should be. -/
theorem call_constructs (h : m.AllHave Prepared) (hcls : m.Has Prepared (.cls cls)) (paren : Token)
    (harguments : ∀ a ∈ arguments, m.Has Prepared a) (fuel : Nat) :
    m.Constructs fuel cls paren arguments where
  refused := call_refused fuel paren
  bare hinit := by
    have none : cls.arity = 0 := by rw [Class.arity, hinit]; rfl
    refine ⟨none, ?_⟩
    rw [Run.call_cls _ paren (show ([] : List Value).length = _ from none.symm)]
    exact Run.construct_bare _ hinit
  prepared method hinit := by
    refine ⟨(hcls.has _ method hinit).1, by rw [Class.arity, hinit]; rfl, fun harity => ?_, ?_⟩
    · obtain ⟨hcall, hconstruct⟩ := construct_prepares h hcls hinit harguments fuel
      rw [Run.call_cls _ paren harity]
      exact ⟨hconstruct.trans hcall.symm, hcall⟩
    · by_cases harity : arguments.length = cls.arity
      · rw [Traced.call_cls _ paren harity]
        exact allocate_moments h hcls hinit harguments fuel
      · rw [(call_refused fuel paren harity).2]
        exact nofun
  fresh value m' hrun := by
    have new : m.heap.object? m.heap.nextId = none := Array.getElem?_eq_none (Nat.le_refl _)
    by_cases harity : arguments.length = cls.arity
    · rw [Run.call_cls _ paren harity] at hrun
      cases hinit : cls.initializer? with
      | none =>
        rw [Run.construct_bare _ hinit] at hrun
        cases hrun
        exact ⟨rfl, new, by rw [object?_create, if_pos rfl]; rfl⟩
      | some method =>
        rw [(construct_prepares h hcls hinit harguments fuel).2] at hrun
        obtain ⟨hlater, hall, fit⟩ := h.allocate hcls (hcls.fit _ method hinit)
        obtain ⟨rfl, later⟩ := prepare_ok hall fit (fun a ha => (harguments a ha).mono hlater) hrun
        refine ⟨rfl, new, ?_⟩
        have made := object?_allocate m cls method
        rw [later.classes_eq _ (Heap.lt_nextId_of_object? made), made]
        rfl
    · rw [(call_refused fuel paren harity).1] at hrun
      cases hrun

end

end Lox
