import Lox.Proofs.Machine.Keeping
import Lox.Proofs.Trace.Along
import Lox.Proofs.Trace.Evaluation

/-!
# Machines only grow

A run adds frames and objects, and binds names in them. It takes none away, and what encloses a frame never
changes, nor does the class of an object (`Machine.Grows`). That holds from each moment of a run to the next
one, and from the last moment to the end, whether the run comes to its end or stops (`Machine.Growth`),
for any code on any machine (`evaluate_growth`, `execute_growth`).
-/

namespace Lox

variable {α β : Type}

/-! ## Growth -/

namespace Machine

/-- Frames, objects and names in them are added. Each frame stays inside of the frame that enclosed it, and
each object keeps its class. -/
structure Grows (m m' : Machine) : Prop where
  frames_le : m.frames.nextId ≤ m'.frames.nextId
  objects_le : m.heap.nextId ≤ m'.heap.nextId
  enclosing_eq : ∀ frame < m.frames.nextId, m'.frames.enclosing? frame = m.frames.enclosing? frame
  names : ∀ frame name, (m.frames.local? frame name).isSome → (m'.frames.local? frame name).isSome
  fields : ∀ id name, (m.heap.field? id name).isSome → (m'.heap.field? id name).isSome
  class_eq : ∀ id < m.heap.nextId, (m'.heap.object? id).map (·.cls) = (m.heap.object? id).map (·.cls)

/-- From moment to moment, and on to the last machine, everything only grows. -/
def Growth (m : Machine) (trace : List Moment) (m' : Machine) : Prop :=
  Along Grows m (trace.map (·.machine)) m'

variable {m m' m'' : Machine}

theorem Grows.trans (h : m.Grows m') (h' : m'.Grows m'') : m.Grows m'' where
  frames_le := Nat.le_trans h.frames_le h'.frames_le
  objects_le := Nat.le_trans h.objects_le h'.objects_le
  enclosing_eq frame hframe :=
    (h'.enclosing_eq frame (Nat.lt_of_lt_of_le hframe h.frames_le)).trans (h.enclosing_eq frame hframe)
  names frame name hname := h'.names frame name (h.names frame name hname)
  fields id name hname := h'.fields id name (h.fields id name hname)
  class_eq id hid :=
    (h'.class_eq id (Nat.lt_of_lt_of_le hid h.objects_le)).trans (h.class_eq id hid)

theorem Grows.of_same (hframes : m'.frames = m.frames) (hheap : m'.heap = m.heap) : m.Grows m' where
  frames_le := Nat.le_of_eq (by rw [hframes])
  objects_le := Nat.le_of_eq (by rw [hheap])
  enclosing_eq _ _ := by rw [hframes]
  names _ _ hname := by rwa [hframes]
  fields _ _ hname := by rwa [hheap]
  class_eq _ _ := by rw [hheap]

theorem Grows.define (m : Machine) (frame : FrameId) (name : String) (value : Value) :
    m.Grows (m.define frame name value) where
  frames_le := Nat.le_of_eq (m.frames.nextId_define frame name value).symm
  objects_le := Nat.le_refl _
  enclosing_eq other _ := m.frames.enclosing?_define frame other name value
  names other key hkey := by
    rw [Machine.define, Frames.local?_define]
    split
    · rfl
    · exact hkey
  fields _ _ := id
  class_eq _ _ := rfl

theorem Grows.push (m : Machine) (bindings : Bindings Value) (enclosing : Option FrameId) :
    m.Grows (m.push bindings enclosing) where
  frames_le := Nat.le_of_lt (m.frames.lt_nextId_push bindings enclosing)
  objects_le := Nat.le_refl _
  enclosing_eq frame hframe := by
    rw [Machine.push, Frames.enclosing?_push, if_neg (Nat.ne_of_lt hframe)]
  names frame name hname := by
    rwa [Machine.push, Frames.local?_push, if_neg (Nat.ne_of_lt (m.frames.lt_nextId_of_local? hname))]
  fields _ _ := id
  class_eq _ _ := rfl

theorem Grows.create (m : Machine) (cls : Class) : m.Grows (m.create cls) := by
  refine ⟨Nat.le_refl _, (Earlier.create m cls).objects_le, fun _ _ => rfl, fun _ _ => id, ?_, ?_⟩
  · intro id name hname
    rwa [Machine.create, Heap.field?_push]
  · intro id hid
    rw [object?_create, if_neg (Nat.ne_of_lt hid)]

theorem Grows.setField (m : Machine) (id : ObjectId) (name : String) (value : Value) :
    m.Grows (m.setField id name value) where
  frames_le := Nat.le_refl _
  objects_le := (Earlier.setField m id name value).objects_le
  enclosing_eq _ _ := rfl
  names _ _ hname := hname
  fields other key hkey := by
    rw [Machine.setField, Heap.field?_setField]
    split
    · rfl
    · exact hkey
  class_eq other _ := m.heap.class_setField id other name value

instance : Lasting Grows where
  same := .of_same
  trans := .trans
  push := .push
  create := .create
  setField := .setField

instance : IsTrans Machine Grows := ⟨fun _ _ _ => .trans⟩

theorem Growth.behind {trace : List Moment} (hgrows : m.Grows m') (h : m'.Growth trace m'') :
    m.Growth trace m'' :=
  Along.behind hgrows h

theorem Growth.append {trace trace' : List Moment} (h : m.Growth trace m') (h' : m'.Growth trace' m'') :
    m.Growth (trace ++ trace') m'' := by
  rw [Growth, List.map_append]
  exact Along.append h h'

theorem Growth.ahead {trace : List Moment} (h : m.Growth trace m') (hgrows : m'.Grows m'') :
    m.Growth trace m'' :=
  Along.ahead h hgrows

end Machine

open Machine

/-- Whatever comes of the run, along its trace everything only grows. -/
structure Growing (t : Traced α) : Prop where
  growth : ∀ m : Machine, m.Growth (t.trace m) (Run.last (t.run m))

namespace Growing

variable {t : Traced α}

/-! ## Putting traced runs together -/

protected theorem pure (a : α) : Growing (pure a) := ⟨Lasting.refl (R := Grows)⟩

theorem silent {p : Run α} {hp : Silent p} (h : Keeping Grows p) : Growing (.silent p hp) := ⟨h.keeps⟩

theorem noted {what : Happening} {p : Run α} {hwhat : what.text = ""} {hp : Silent p}
    (h : Keeping Grows p) : Growing (.noted what p hwhat hp) :=
  ⟨fun m => ⟨Lasting.refl m, h.keeps m⟩⟩

theorem write (text : String) : Growing (.write text) :=
  ⟨fun m => ⟨Lasting.refl m, (Run.write_keeping text).keeps m⟩⟩

protected theorem bind (h : Growing t) {f : α → Traced β} (hf : ∀ a, Growing (f a)) :
    Growing (t >>= f) := by
  refine ⟨fun m => ?_⟩
  have first := h.growth m
  show m.Growth (Accounts.follow t.run t.trace (fun a => (f a).trace) m) (Run.last ((t.run >>= _) m))
  cases ht : t.run m with
  | ok a m' =>
    rw [ht] at first
    rw [Accounts.follow_ok ht, Run.bind_ok ht]
    exact first.append ((hf a).growth m')
  | error interrupt m' =>
    rw [ht] at first
    rw [Accounts.follow_error ht, Run.bind_error ht]
    exact first

theorem starting (code : Code) (h : Growing t) : Growing (.starting code t) :=
  (noted (.pure ())).bind fun _ => h

/-- Whichever frame is current, the same frames are there. -/
theorem inFrame (frame : FrameId) (h : Growing t) : Growing (.inFrame frame t) := by
  refine ⟨fun m => ?_⟩
  have entered : m.Grows { m with current := frame } := .of_same rfl rfl
  have inner := Growth.behind entered (h.growth { m with current := frame })
  show m.Growth (t.trace _) (Run.last (Run.inFrame frame t.run m))
  unfold Run.inFrame
  cases ht : t.run { m with current := frame } with
  | ok a m' | error interrupt m' =>
    rw [ht] at inner
    exact inner.ahead (.of_same rfl rfl)

end Growing

/-! ## Bindings -/

theorem grows_inward : Inward fun p => Keeping Grows p where
  toInert := Keeping.inert
  rebinding frame name value := .modify fun m => .define m frame name value

section

variable {evaluate : Expr → Traced Value} {execute : Stmt → Traced Completion}

/-! ## Lists of parts -/

theorem evaluateAll_growing (hevaluate : ∀ e, Growing (evaluate e)) (es : List Expr) :
    Growing (Traced.evaluateAll evaluate es) := by
  induction es with
  | nil => exact .pure []
  | cons first more ih => exact (hevaluate first).bind fun _ => ih.bind fun _ => .pure _

theorem executeAll_growing (hexecute : ∀ t, Growing (execute t)) (body : List Stmt) :
    Growing (Traced.executeAll execute body) := by
  induction body with
  | nil => exact .pure _
  | cons first more ih =>
    refine (hexecute first).bind fun completion => ?_
    cases completion with
    | normal => exact ih
    | returned value => exact .pure _

/-! ## Calls -/

theorem result_growing (closure : Closure) (completion : Completion) :
    Growing (Traced.result closure completion) := by
  unfold Traced.result
  split
  · exact .silent (.bind (Keeping.inert.receiver? closure) fun _ => Keeping.inert.found ..)
  · cases completion <;> exact .pure _

theorem callClosure_growing (hexecute : ∀ t, Growing (execute t)) (closure : Closure)
    (arguments : List Value) : Growing (Traced.callClosure execute closure arguments) := by
  refine Growing.bind (.noted (Keeping.inert.newFrame ..)) fun frame => ?_
  exact ((executeAll_growing hexecute _).inFrame frame).bind fun _ => result_growing closure _

theorem construct_growing (hexecute : ∀ t, Growing (execute t)) (cls : Class)
    (arguments : List Value) : Growing (Traced.construct execute cls arguments) := by
  refine Growing.bind (.silent (Keeping.inert.newObject cls)) fun id => ?_
  cases cls.initializer? with
  | none => exact .pure _
  | some method =>
    refine Growing.bind (.silent (Keeping.inert.bindTo ..)) fun bound => ?_
    exact (callClosure_growing hexecute bound arguments).bind fun _ => .pure _

theorem call_growing (hexecute : ∀ t, Growing (execute t)) (callee : Value) (paren : Token)
    (arguments : List Value) : Growing (Traced.call execute callee paren arguments) := by
  have fault (what : Fault) : Growing (Traced.fault paren.line what : Traced Value) := .silent (.fault ..)
  unfold Traced.call
  split
  · exact fault _
  · split
    · exact fault _
    · cases callee with
      | function f => exact callClosure_growing hexecute f.closure arguments
      | host f => exact .silent (Run.callHost_keeping paren f arguments)
      | cls c => exact construct_growing hexecute c arguments
      | _ => exact fault _

/-! ## Rules -/

theorem lookUp_growing (id : OccurrenceId) (name : Token) :
    Growing (.silent (Run.lookUp id name) (Silent.inward.lookUp id name)) :=
  .silent (Keeping.inert.lookUp id name)

theorem evaluateRule_growing (hevaluate : ∀ e, Growing (evaluate e)) (hexecute : ∀ t, Growing (execute t))
    (e : Expr) : Growing (Traced.evaluateRule evaluate execute e) := by
  cases e with
  | literal value => exact .pure _
  | grouping inner => exact hevaluate inner
  | unary operator operand => exact (hevaluate operand).bind fun _ => .silent (Keeping.inert.unary ..)
  | binary left operator right =>
    exact (hevaluate left).bind fun _ => (hevaluate right).bind fun _ => .silent (Keeping.inert.binary ..)
  | logical left operator right =>
    refine (hevaluate left).bind fun a => ?_
    split
    · exact .pure a
    · exact hevaluate right
  | var id name | this id name => exact lookUp_growing id name
  | assign id name value =>
    refine (hevaluate value).bind fun a => ?_
    exact Growing.bind (.silent (grows_inward.assign id name a)) fun _ => .pure a
  | call callee paren arguments =>
    refine (hevaluate callee).bind fun f => ?_
    exact (evaluateAll_growing hevaluate arguments).bind fun values => call_growing hexecute f paren values
  | get object name =>
    refine (hevaluate object).bind fun a => ?_
    cases a with
    | object id => exact .silent (Keeping.inert.getProperty id name)
    | _ => exact .silent (.fault ..)
  | set object name value =>
    refine (hevaluate object).bind fun a => ?_
    cases a with
    | object id =>
      refine (hevaluate value).bind fun b => ?_
      exact Growing.bind (.noted (Keeping.inert.setProperty id name b)) fun _ => .pure b
    | _ => exact .silent (.fault ..)

theorem evaluateOptional_growing (hevaluate : ∀ e, Growing (evaluate e)) (value : Option Expr) :
    Growing (Traced.evaluateOptional evaluate value) := by
  cases value with
  | none => exact .pure _
  | some e => exact hevaluate e

/-- A value is bound to a name by a declaration. -/
theorem declare_growing {t : Traced Value} (h : Growing t) (name : String) :
    Growing (do
      Traced.define name (← t)
      return Completion.normal) :=
  h.bind fun value => Growing.bind (.noted (grows_inward.define name value)) fun _ => .pure _

theorem print_growing (value : Value) : Growing (Traced.print value) := by
  refine Growing.bind (.silent (.get fun _ => .pure _)) fun text => ?_
  exact (Growing.write text).bind fun _ => (Growing.write "\n").bind fun _ => .pure _

theorem executeRule_growing (hevaluate : ∀ e, Growing (evaluate e)) (hexecute : ∀ t, Growing (execute t))
    (t : Stmt) : Growing (Traced.executeRule evaluate execute t) := by
  cases t with
  | expression value => exact (hevaluate value).bind fun _ => .pure _
  | print value => exact (hevaluate value).bind print_growing
  | varDecl name initializer => exact declare_growing (evaluateOptional_growing hevaluate initializer) _
  | block body =>
    refine Growing.bind (.silent (.get fun _ => Keeping.inert.newFrame ..)) fun frame => ?_
    exact (executeAll_growing hexecute body).inFrame frame
  | ifThen condition branch =>
    refine (hevaluate condition).bind fun a => ?_
    split
    · exact hexecute branch
    · exact .pure _
  | ifElse condition first second =>
    refine (hevaluate condition).bind fun a => ?_
    split
    · exact hexecute first
    · exact hexecute second
  | whileLoop condition body =>
    refine (hevaluate condition).bind fun a => ?_
    split
    · refine (hexecute body).bind fun completion => ?_
      cases completion with
      | normal => exact hexecute _
      | returned value => exact .pure _
    · exact .pure _
  | funDecl declaration =>
    exact declare_growing (.silent (.get fun _ => Keeping.inert.newFunction _)) _
  | returns keyword value => exact (evaluateOptional_growing hevaluate value).bind fun _ => .pure _
  | classDecl name methods =>
    exact declare_growing
      (.silent (.get fun _ => .bind Keeping.inert.freshIdentity fun _ => .pure _)) _

end

/-! ## Whole runs -/

theorem exhausted_growing : Growing (Traced.exhausted : Traced α) := .silent (.throw _)

mutual

theorem evaluate_growing : ∀ fuel e, Growing (Traced.evaluate fuel e)
  | 0, _ => exhausted_growing
  | fuel + 1, e =>
    .starting _ (evaluateRule_growing (evaluate_growing fuel) (execute_growing fuel) e)

theorem execute_growing : ∀ fuel t, Growing (Traced.execute fuel t)
  | 0, _ => exhausted_growing
  | fuel + 1, t =>
    .starting _ (executeRule_growing (evaluate_growing fuel) (execute_growing fuel) t)

end

theorem program_growing (fuel : Nat) (program : List Stmt) :
    Growing (Traced.executeProgram fuel program) := by
  induction program with
  | nil => exact .pure ()
  | cons first more ih => exact (execute_growing fuel first).bind fun _ => ih

end Lox
