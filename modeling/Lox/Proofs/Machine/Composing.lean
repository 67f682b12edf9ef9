import Lox.Machine.Evaluation

/-!
# What runs are made of

A run is made of looks at the machine, of changes to it and of interrupts. Some of them bind no name
(`Inert`), others do (`Inward`), and only `write` and the functions of the host have to do with what is
outside. A property of runs that each of these has, and that is handed on to a run in another frame
(`Composing`), is a property of all that is made of them: this is shown of each primitive, then of each rule
if it holds of what the rule runs inside of it, and so of everything, however deep (`Composing.evaluate`,
`Composing.execute`).
-/

namespace Lox

/-- The machine in front of another output and another world. -/
def Machine.facing (m : Machine) (sink : Sink) (world : World) : Machine :=
  { m with sink := sink, world := world }

/-- Holds of what makes frames, objects and identities and writes fields, of faults, and of one run behind
the other. What is outside is not looked at. -/
structure Inert (P : ∀ {α : Type}, Run α → Prop) : Prop where
  protected pure : ∀ {α : Type} (a : α), P (pure a : Run α)
  protected fault : ∀ {α : Type} (line : Nat) (fault : Fault), P (Run.fault line fault : Run α)
  protected strayed : ∀ {α : Type}, P (throw .strayed : Run α)
  protected bind : ∀ {α β : Type} {p : Run α} {f : α → Run β}, P p → (∀ a, P (f a)) → P (p >>= f)
  protected get : ∀ {α : Type} {f : Machine → Run α}, (∀ m, P (f m)) →
    (∀ m sink world, f (m.facing sink world) = f m) → P (get >>= f)
  protected freshIdentity : P Run.freshIdentity
  protected newFrame : ∀ bindings enclosing, P (Run.newFrame bindings enclosing)
  protected newObject : ∀ cls, P (Run.newObject cls)
  protected setField : ∀ id name value,
    P (modify fun m => { m with heap := m.heap.setField id name value } : Run Unit)

/-- Holds of what binds names too. -/
structure Inward (P : ∀ {α : Type}, Run α → Prop) : Prop extends Inert P where
  protected rebinding : ∀ frame name value,
    P (modify fun m => { m with frames := m.frames.define frame name value } : Run Unit)

/-- Holds of what goes outside too, and of runs in other frames. -/
structure Composing (P : ∀ {α : Type}, Run α → Prop) : Prop extends Inward P where
  protected exhausted : ∀ {α : Type}, P (throw .exhausted : Run α)
  protected inFrame : ∀ {α : Type} {p : Run α} (frame : FrameId), P p → P (Run.inFrame frame p)
  protected write : ∀ text, P (Run.write text)
  protected callHost : ∀ paren f arguments, P (Run.callHost paren f arguments)

variable {P : ∀ {α : Type}, Run α → Prop}

namespace Inert

variable (h : Inert P)

include h

/-! ## Variables -/

theorem ancestor (distance : Nat) : P (Run.ancestor distance) := by
  refine h.get (fun m => ?_) fun _ _ _ => rfl
  split
  · exact h.pure _
  · exact h.strayed

theorem found (name : Token) (value : Option Value) : P (Run.found name value) := by
  cases value with
  | none => exact h.fault ..
  | some value => exact h.pure _

theorem lookUp (id : OccurrenceId) (name : Token) : P (Run.lookUp id name) := by
  refine h.get (fun m => ?_) fun _ _ _ => rfl
  split
  · exact h.bind (h.ancestor _) fun _ => h.get (fun _ => h.found ..) fun _ _ _ => rfl
  · exact h.get (fun _ => h.found ..) fun _ _ _ => rfl

/-! ## Objects -/

theorem newFunction (closure : Closure) : P (Run.newFunction closure) :=
  h.bind h.freshIdentity fun _ => h.pure _

theorem bindTo (closure : Closure) (enclosing : Option FrameId) (receiver : Value) :
    P (Run.bindTo closure enclosing receiver) :=
  h.bind (h.newFrame ..) fun _ => h.pure _

theorem receiver? (closure : Closure) : P (Run.receiver? closure) :=
  h.get (fun _ => h.pure _) fun _ _ _ => rfl

theorem rebind (f : Function) (receiver : Value) : P (Run.rebind f receiver) :=
  h.get (fun _ => h.bind (h.bindTo ..) h.newFunction) fun _ _ _ => rfl

theorem unstored (id : ObjectId) (value : Value) : P (Run.unstored id value) := by
  cases value with
  | function f =>
    refine h.bind (h.receiver? _) fun receiver => ?_
    split
    · split
      · exact h.rebind ..
      · exact h.pure _
    · exact h.pure _
  | _ => exact h.pure _

theorem stored (id : ObjectId) (value : Value) : P (Run.stored id value) := by
  cases value with
  | function f =>
    refine h.bind (h.receiver? _) fun receiver => ?_
    split
    · split
      · exact h.rebind ..
      · exact h.pure _
    · exact h.pure _
  | _ => exact h.pure _

theorem getProperty (id : ObjectId) (name : Token) : P (Run.getProperty id name) := by
  refine h.get (fun m => ?_) fun _ _ _ => rfl
  split
  · exact h.unstored ..
  · refine h.get (fun m => ?_) fun _ _ _ => rfl
    split
    · exact h.bind (h.bindTo ..) h.newFunction
    · exact h.fault ..

theorem setProperty (id : ObjectId) (name : Token) (value : Value) : P (Run.setProperty id name value) :=
  h.bind (h.stored ..) fun _ => h.setField ..

/-! ## Operators -/

theorem arithmetic (operator : Token) (result : Float → Float → Value) (left right : Value) :
    P (Run.arithmetic operator result left right) := by
  unfold Run.arithmetic
  split
  · exact h.pure _
  · exact h.fault ..

theorem sum (operator : Token) (left right : Value) : P (Run.sum operator left right) := by
  unfold Run.sum
  split
  · exact h.pure _
  · exact h.pure _
  · exact h.fault ..

theorem unary (operator : Token) (operand : Value) : P (Run.unary operator operand) := by
  unfold Run.unary
  split
  · exact h.pure _
  · split
    · exact h.pure _
    · exact h.fault ..
  · exact h.fault ..

theorem binary (operator : Token) (left right : Value) : P (Run.binary operator left right) := by
  unfold Run.binary
  split
  · exact h.pure _
  · exact h.pure _
  · exact h.sum ..
  all_goals first | exact h.arithmetic .. | exact h.fault ..

end Inert

/-! ## Names -/

namespace Inward

variable (h : Inward P)

include h

theorem define (name : String) (value : Value) : P (Run.define name value) := by
  show P ((get : Run Machine) >>= fun m =>
    modify fun m' => { m' with frames := m'.frames.define m.current name value })
  exact h.get (fun m => h.rebinding m.current name value) fun _ _ _ => rfl

theorem assign (id : OccurrenceId) (name : Token) (value : Value) : P (Run.assign id name value) := by
  refine h.get (fun m => ?_) fun _ _ _ => rfl
  split
  · exact h.bind (h.ancestor _) fun frame => h.rebinding frame name.lexeme value
  · refine h.get (fun m => ?_) fun _ _ _ => rfl
    split
    · exact h.rebinding _ name.lexeme value
    · exact h.fault ..

end Inward

namespace Composing

variable (h : Composing P)

include h

/-! ## Rules -/

section

variable {evaluate : Expr → Run Value} {execute : Stmt → Run Completion}

theorem evaluateAll (hevaluate : ∀ e, P (evaluate e)) (values : List Expr) :
    P (Run.evaluateAll evaluate values) := by
  induction values with
  | nil => exact h.pure _
  | cons first more ih => exact h.bind (hevaluate first) fun _ => h.bind ih fun _ => h.pure _

theorem executeAll (hexecute : ∀ t, P (execute t)) (body : List Stmt) :
    P (Run.executeAll execute body) := by
  induction body with
  | nil => exact h.pure _
  | cons first more ih =>
    refine h.bind (hexecute first) fun completion => ?_
    cases completion with
    | normal => exact ih
    | returned value => exact h.pure _

theorem callClosure (hexecute : ∀ t, P (execute t)) (closure : Closure) (arguments : List Value) :
    P (Run.callClosure execute closure arguments) := by
  obtain ⟨⟨name, params, body⟩, frame, isInitializer⟩ := closure
  refine h.bind (h.newFrame ..) fun inner => ?_
  refine h.bind (h.inFrame inner (h.executeAll hexecute body)) fun completion => ?_
  cases isInitializer with
  | true => exact h.bind (h.receiver? _) fun _ => h.found ..
  | false => cases completion <;> exact h.pure _

theorem construct (hexecute : ∀ t, P (execute t)) (cls : Class) (arguments : List Value) :
    P (Run.construct execute cls arguments) := by
  refine h.bind (h.newObject cls) fun id => ?_
  split
  · exact h.pure _
  · refine h.bind (h.bindTo ..) fun method => ?_
    exact h.bind (h.callClosure hexecute method arguments) fun _ => h.pure _

theorem call (hexecute : ∀ t, P (execute t)) (callee : Value) (paren : Token) (arguments : List Value) :
    P (Run.call execute callee paren arguments) := by
  unfold Run.call
  split
  · exact h.fault ..
  · split
    · exact h.fault ..
    · split
      · exact h.callClosure hexecute _ arguments
      · exact h.callHost ..
      · exact h.construct hexecute _ arguments
      · exact h.fault ..

theorem evaluateRule (hevaluate : ∀ e, P (evaluate e)) (hexecute : ∀ t, P (execute t)) (e : Expr) :
    P (Run.evaluateRule evaluate execute e) := by
  cases e with
  | literal value => exact h.pure _
  | grouping inner => exact hevaluate inner
  | unary operator operand => exact h.bind (hevaluate operand) fun _ => h.unary ..
  | binary left operator right =>
    exact h.bind (hevaluate left) fun _ => h.bind (hevaluate right) fun _ => h.binary ..
  | logical left operator right =>
    refine h.bind (hevaluate left) fun a => ?_
    split
    · exact h.pure _
    · exact hevaluate right
  | var id name | this id name => exact h.lookUp id name
  | assign id name value =>
    exact h.bind (hevaluate value) fun _ => h.bind (h.assign ..) fun _ => h.pure _
  | call callee paren arguments =>
    refine h.bind (hevaluate callee) fun f => ?_
    exact h.bind (h.evaluateAll hevaluate arguments) fun _ => h.call hexecute ..
  | get object name =>
    refine h.bind (hevaluate object) fun v => ?_
    split
    · exact h.getProperty ..
    · exact h.fault ..
  | set object name value =>
    refine h.bind (hevaluate object) fun v => ?_
    split
    · exact h.bind (hevaluate value) fun _ => h.bind (h.setProperty ..) fun _ => h.pure _
    · exact h.fault ..

theorem evaluateOptional (hevaluate : ∀ e, P (evaluate e)) (value : Option Expr) :
    P (Run.evaluateOptional evaluate value) := by
  cases value with
  | none => exact h.pure _
  | some value => exact hevaluate value

theorem executeRule (hevaluate : ∀ e, P (evaluate e)) (hexecute : ∀ t, P (execute t)) (t : Stmt) :
    P (Run.executeRule evaluate execute t) := by
  cases t with
  | expression value => exact h.bind (hevaluate value) fun _ => h.pure _
  | print value =>
    refine h.bind (hevaluate value) fun _ => h.get (fun m => ?_) fun _ _ _ => rfl
    exact h.bind (h.write _) fun _ => h.bind (h.write _) fun _ => h.pure _
  | varDecl name value =>
    refine h.bind (h.evaluateOptional hevaluate value) fun _ => ?_
    exact h.bind (h.define ..) fun _ => h.pure _
  | block body =>
    refine h.get (fun m => h.bind (h.newFrame ..) fun frame => ?_) fun _ _ _ => rfl
    exact h.inFrame frame (h.executeAll hexecute body)
  | ifThen condition branch =>
    refine h.bind (hevaluate condition) fun _ => ?_
    split
    · exact hexecute branch
    · exact h.pure _
  | ifElse condition first second =>
    refine h.bind (hevaluate condition) fun _ => ?_
    split
    · exact hexecute first
    · exact hexecute second
  | whileLoop condition body =>
    refine h.bind (hevaluate condition) fun _ => ?_
    split
    -- the loop goes on as a statement of its own, with less fuel
    · refine h.bind (hexecute body) fun completion => ?_
      cases completion with
      | normal => exact hexecute (.whileLoop condition body)
      | returned value => exact h.pure _
    · exact h.pure _
  | funDecl declaration =>
    refine h.get (fun m => h.bind (h.newFunction _) fun _ => ?_) fun _ _ _ => rfl
    exact h.bind (h.define ..) fun _ => h.pure _
  | returns keyword value =>
    exact h.bind (h.evaluateOptional hevaluate value) fun _ => h.pure _
  | classDecl name methods =>
    refine h.get (fun m => h.bind h.freshIdentity fun _ => ?_) fun _ _ _ => rfl
    exact h.bind (h.define ..) fun _ => h.pure _

end

/-! ## However deep -/

/-- Of all expressions and statements at once, since each is run inside of the other. -/
theorem runs (fuel : Nat) : (∀ e, P (Run.evaluate fuel e)) ∧ ∀ t, P (Run.execute fuel t) := by
  induction fuel with
  | zero => exact ⟨fun _ => h.exhausted, fun _ => h.exhausted⟩
  | succ fuel ih => exact ⟨h.evaluateRule ih.1 ih.2, h.executeRule ih.1 ih.2⟩

theorem evaluate (fuel : Nat) (e : Expr) : P (Run.evaluate fuel e) := (h.runs fuel).1 e

theorem execute (fuel : Nat) (t : Stmt) : P (Run.execute fuel t) := (h.runs fuel).2 t

end Composing

end Lox
