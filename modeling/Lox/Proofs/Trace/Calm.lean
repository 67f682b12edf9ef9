import Lox.Proofs.Machine.Contained
import Lox.Proofs.Trace.Orderly

/-!
# Primitives are calm

Started on an orderly machine with values that fit, each primitive but the writing of a field ends on an
orderly machine after a calm change, and what it gives fits (`Ends`). And none of them stops for an
operator that is none, if the operator is one.
-/

namespace Lox

open Machine

variable {α β : Type} {m m' : Machine}

/-- The interrupt is not about an operator that is none. -/
def Interrupt.IsProper (interrupt : Interrupt) : Prop :=
  ∀ line, interrupt ≠ .stopped (.runtime line .invalidUnaryOperator) ∧
    interrupt ≠ .stopped (.runtime line .invalidBinaryOperator)

/-- The run ends after a calm change, and what it gives is as it should be. -/
def Ends (m : Machine) (p : Run α) (post : Machine → α → Prop) : Prop :=
  ∃ m', m.Calm m' ∧
    ((∃ a, p m = .ok a m' ∧ post m' a) ∨ ∃ interrupt, p m = .error interrupt m' ∧ interrupt.IsProper)

namespace Ends

variable {p : Run α} {post : Machine → α → Prop}

/-! ## Putting runs together -/

theorem of_ok {a : α} (hrun : p m = .ok a m') (h : m.Calm m') (hpost : post m' a) : Ends m p post :=
  ⟨m', h, .inl ⟨a, hrun, hpost⟩⟩

protected theorem pure (h : m.Orderly) {a : α} (hpost : post m a) : Ends m (pure a) post :=
  of_ok rfl h.calm hpost

protected theorem throw (h : m.Orderly) {interrupt : Interrupt} (hproper : interrupt.IsProper) :
    Ends m (throw interrupt) post :=
  ⟨m, h.calm, .inr ⟨interrupt, rfl, hproper⟩⟩

protected theorem fault (h : m.Orderly) (line : Nat) {fault : Fault}
    (hunary : fault ≠ .invalidUnaryOperator) (hbinary : fault ≠ .invalidBinaryOperator) :
    Ends m (Run.fault line fault) post := by
  refine .throw h fun other => ⟨?_, ?_⟩
  · rintro ⟨⟩
    exact hunary rfl
  · rintro ⟨⟩
    exact hbinary rfl

protected theorem bind (h : Ends m p post) {f : α → Run β} {post' : Machine → β → Prop}
    (hf : ∀ m' a, m.Calm m' → post m' a → Ends m' (f a) post') : Ends m (p >>= f) post' := by
  obtain ⟨m', hcalm, ⟨a, hrun, ha⟩ | ⟨interrupt, hrun, hproper⟩⟩ := h
  · obtain ⟨m'', hcalm', hend⟩ := hf m' a hcalm ha
    exact ⟨m'', hcalm.trans hcalm', by rwa [Run.bind_ok hrun]⟩
  · exact ⟨m', hcalm, .inr ⟨interrupt, Run.bind_error hrun f, hproper⟩⟩

/-- A look at the machine changes nothing. -/
protected theorem get {f : Machine → Run α} (h : Ends m (f m) post) : Ends m (get >>= f) post := h

end Ends

/-! ## Variables -/

theorem found_ends (h : m.Orderly) (name : Token) {value : Option Value}
    (hvalue : ∀ v, value = some v → m.Fit v) : Ends m (Run.found name value) Machine.Fit := by
  cases value with
  | none => exact .fault h _ nofun nofun
  | some v => exact .pure h (hvalue v rfl).strong

theorem ancestor_ends (h : m.Orderly) (d : Nat) :
    Ends m (Run.ancestor d) fun m' _ => m' = m := by
  refine .get ?_
  split
  · exact .pure h rfl
  · exact .throw h fun _ => ⟨nofun, nofun⟩

theorem lookUp_ends (h : m.Orderly) (id : OccurrenceId) (name : Token) :
    Ends m (Run.lookUp id name) Machine.Fit := by
  refine .get ?_
  split
  · refine (ancestor_ends h _).bind ?_
    rintro _ frame - rfl
    exact .get (found_ends h name fun v hv => h.bound frame _ v hv)
  · refine .get (found_ends h name fun v hv => ?_)
    rw [Frames.find?_globalId] at hv
    exact h.bound _ _ v hv

theorem redefine_ends (h : m.Orderly) (frame : FrameId) {name : String} (hname : name ≠ receiverName)
    {value : Value} (hvalue : m.Fit value) :
    Ends m (modify fun m => { m with frames := m.frames.define frame name value } : Run Unit)
      fun _ _ => True :=
  .of_ok rfl (h.define hvalue (absurd · hname)) trivial

theorem define_ends (h : m.Orderly) {name : String} (hname : name ≠ receiverName) {value : Value}
    (hvalue : m.Fit value) : Ends m (Run.define name value) fun _ _ => True :=
  .of_ok rfl (h.define hvalue (absurd · hname)) trivial

theorem assign_ends (h : m.Orderly) (id : OccurrenceId) {name : Token} (hname : name.IsFree)
    {value : Value} (hvalue : m.Fit value) : Ends m (Run.assign id name value) fun _ _ => True := by
  refine .get ?_
  split
  · refine (ancestor_ends h _).bind ?_
    rintro _ frame - rfl
    exact redefine_ends h frame hname hvalue
  · refine .get ?_
    split
    · exact redefine_ends h _ hname hvalue
    · exact .fault h _ nofun nofun

/-! ## Frames, functions and objects -/

theorem newFrame_ends (h : m.Orderly) {bindings : Bindings Value} {enclosing : Option FrameId}
    (henclosing : ∃ outer < m.frames.nextId, enclosing = some outer) (hbindings : m.FrameFit bindings) :
    Ends m (Run.newFrame bindings enclosing) fun m' frame => frame < m'.frames.nextId :=
  .of_ok rfl (h.push henclosing hbindings) (m.frames.lt_nextId_push bindings enclosing)

theorem freshIdentity_ends (h : m.Orderly) :
    Ends m Run.freshIdentity fun m' _ => m'.current = m.current :=
  .of_ok rfl (h.of_same rfl rfl h.host h.current_lt) rfl

theorem newFunction_ends (h : m.Orderly) {closure : Closure} (hclosure : m.ClosureFit closure) :
    Ends m (Run.newFunction closure) Machine.Fit :=
  (freshIdentity_ends h).bind fun _ _ hcalm _ =>
    .pure hcalm.orderly (ClosureFit.mono hcalm.earlier hclosure)

theorem newObject_ends (h : m.Orderly) {cls : Class} (hcls : m.Fit (.cls cls)) :
    Ends m (Run.newObject cls) fun m' id => id < m'.heap.nextId :=
  .of_ok rfl (h.create hcls) (m.heap.lt_nextId_push cls)

theorem bindTo_ends (h : m.Orderly) {closure : Closure} (hclosure : closure.declaration.Formed)
    {enclosing : Option FrameId} (henclosing : ∃ outer < m.frames.nextId, enclosing = some outer)
    {receiver : Value} (hreceiver : m.Fit receiver) (hobject : receiver.objectId?.isSome) :
    Ends m (Run.bindTo closure enclosing receiver) Machine.ClosureFit :=
  (newFrame_ends h henclosing (frameFit_receiver hreceiver hobject)).bind
    fun _ _ hcalm hframe => .pure hcalm.orderly ⟨hframe, hclosure⟩

/-! ## Properties -/

/-- A field gives back what it holds, unless that is a function which keeps the object weakly. -/
theorem unstored_other {value : Value} {id : ObjectId}
    (h : ∀ f, value = .function f →
      m.frames.local? f.closure.frame receiverName ≠ some (.weakObject id)) :
    Run.unstored id value m = .ok value m := by
  cases value with
  | function f =>
    rw [unstored_function]
    cases hlocal : m.frames.local? f.closure.frame receiverName with
    | none => rfl
    | some receiver =>
      cases receiver with
      | weakObject kept =>
        have hne : kept ≠ id := fun hid => h f rfl (hid ▸ hlocal)
        simp only [if_neg hne]
        rfl
      | _ => rfl
  | _ => rfl

/-- A copy of a function with another frame for its receiver fits. -/
theorem rebound_calm (h : m.Orderly) {f : Function} (hf : f.closure.declaration.Formed)
    {enclosing : Option FrameId} (henclosing : ∃ outer < m.frames.nextId, enclosing = some outer)
    {receiver : Value} (hreceiver : m.Fit receiver) (hobject : receiver.objectId?.isSome) :
    m.Calm (m.rebound enclosing receiver) ∧ (m.rebound enclosing receiver).Fit (m.copy f.closure) := by
  have pushed : m.Calm (m.push (Bindings.empty.insert receiverName receiver) enclosing) :=
    h.push henclosing (frameFit_receiver hreceiver hobject)
  have same : Machine.Calm _ (m.rebound enclosing receiver) :=
    pushed.orderly.of_same rfl rfl pushed.orderly.host pushed.orderly.current_lt
  exact ⟨pushed.trans same, m.nextId_rebound enclosing receiver, hf⟩

/-- What is read from a field fits. -/
theorem unstored_ends (h : m.Orderly) (id : ObjectId) {value : Value} (hvalue : m.Fit value) :
    Ends m (Run.unstored id value) Machine.Fit := by
  by_cases hown : ∃ f, value = .function f ∧
      m.frames.local? f.closure.frame receiverName = some (.weakObject id)
  · obtain ⟨f, rfl, hown⟩ := hown
    have receiver : m.Fit (.weakObject id) := h.bound _ _ _ hown
    obtain ⟨calm, fit⟩ := rebound_calm h hvalue.formed (h.enclosing hown rfl)
      (show m.Fit (.object id) from receiver) rfl
    exact .of_ok (unstored_weak hown) calm fit
  · exact .of_ok (unstored_other fun f hf hkept => hown ⟨f, hf, hkept⟩) h.calm hvalue

/-- What a field is to hold fits, and nothing stands in the way of writing it. -/
theorem stored_ok (h : m.Orderly) (id : ObjectId) {value : Value} (hvalue : m.Fit value) :
    ∃ m' kept, Run.stored id value m = .ok kept m' ∧ m.Calm m' ∧ m'.Fit kept ∧ m'.heap = m.heap := by
  by_cases hown : ∃ f, value = .function f ∧
      m.frames.local? f.closure.frame receiverName = some (.object id)
  · obtain ⟨f, rfl, hown⟩ := hown
    have receiver : m.Fit (.object id) := h.bound _ _ _ hown
    obtain ⟨calm, fit⟩ := rebound_calm h hvalue.formed (h.enclosing hown rfl)
      (show m.Fit (.weakObject id) from receiver) rfl
    exact ⟨_, _, stored_own hown, calm, fit, rfl⟩
  · exact ⟨m, value, stored_other fun f hf hkept => hown ⟨f, hf, hkept⟩, h.calm, hvalue, rfl⟩

/-- A property that is read fits. -/
theorem getProperty_ends (h : m.Orderly) (id : ObjectId) (name : Token) :
    Ends m (Run.getProperty id name) Machine.Fit := by
  refine .get ?_
  split
  · next kept hkept => exact unstored_ends h id (h.fields id _ kept hkept)
  · refine .get ?_
    split
    · next method hmethod =>
      obtain ⟨hfit, hid⟩ := h.method hmethod
      exact (bindTo_ends h hfit.formed ⟨_, hfit.there, rfl⟩ (show m.Fit (.object id) from hid) rfl).bind
        fun _ _ hcalm hbound => newFunction_ends hcalm.orderly hbound
    · exact .fault h _ nofun nofun

/-! ## Operators, output and the host -/

theorem unary_ends (h : m.Orderly) {operator : Token} (hoperator : operator.IsUnary)
    (operand : Value) : Ends m (Run.unary operator operand) Machine.Fit := by
  unfold Run.unary
  split
  · exact .pure h trivial
  · split
    · exact .pure h trivial
    · exact .fault h _ nofun nofun
  · next hbang hminus =>
    have known : operator.kind = .symbol .bang ∨ operator.kind = .symbol .minus := by
      simpa [Token.IsUnary] using hoperator
    exact (known.elim hbang hminus).elim

theorem sum_ends (h : m.Orderly) (operator : Token) (left right : Value) :
    Ends m (Run.sum operator left right) Machine.Fit := by
  unfold Run.sum
  split
  · exact .pure h trivial
  · exact .pure h trivial
  · exact .fault h _ nofun nofun

theorem arithmetic_ends (h : m.Orderly) (operator : Token) {result : Float → Float → Value}
    (hresult : ∀ a b, m.Fit (result a b)) (left right : Value) :
    Ends m (Run.arithmetic operator result left right) Machine.Fit := by
  unfold Run.arithmetic
  split
  · exact .pure h (hresult _ _)
  · exact .fault h _ nofun nofun

theorem binary_ends (h : m.Orderly) {operator : Token} (hoperator : operator.IsBinary)
    (left right : Value) : Ends m (Run.binary operator left right) Machine.Fit := by
  unfold Run.binary
  split
  · exact .pure h trivial
  · exact .pure h trivial
  · exact sum_ends h ..
  all_goals first
    | exact arithmetic_ends h operator (by intro _ _; exact trivial) left right
    | skip
  next =>
    -- all binary operators have been named above
    exfalso
    simp only [Token.IsBinary, List.mem_cons, List.not_mem_nil, or_false] at hoperator
    tauto

/-- Whatever the output takes, nothing else changes. -/
theorem write_ends (h : m.Orderly) (text : String) : Ends m (Run.write text) fun _ _ => True := by
  unfold Run.write
  split
  · exact .pure h trivial
  · refine .get ?_
    split
    · exact .throw h fun _ => ⟨nofun, nofun⟩
    · exact .of_ok rfl (h.of_same rfl rfl h.host h.current_lt) trivial

theorem callHost_ends (h : m.Orderly) (paren : Token) (f : HostFunction) {arguments : List Value}
    (harguments : ∀ a ∈ arguments, m.Fit a) :
    Ends m (Run.callHost paren f arguments) Machine.Fit := by
  have eq := Run.callHost_eq paren f arguments m
  split at eq
  · exact .of_ok eq h.calm trivial
  · next action haction =>
    have builds := h.host action (Array.mem_of_getElem? haction)
    have calm : m.Calm { m with world := (action m.heap m.world arguments).2 } :=
      h.of_same rfl rfl h.host h.current_lt
    dsimp only at eq
    split at eq
    · next value hvalue =>
      have fit := h.builtFrom harguments (builds _ _ _ _ hvalue)
      exact .of_ok eq calm (fit.mono calm.earlier)
    · exact ⟨_, calm, .inr ⟨_, eq, fun _ => ⟨nofun, nofun⟩⟩⟩

end Lox
