import Lox.Proofs.Trace.Path

/-!
# The rules lead along paths

Each rule leads along a path if what it runs inside of it does, and so does everything that is run by
the rules, however deep (`evaluate_upholds`, `execute_upholds`), and a program (`program_upholds`). Code
that is well formed has parts that are, and whatever a machine holds is well formed by then, whichever
unit it came from.
-/

namespace Lox

open Machine

variable {α : Type} {m m' : Machine}

/-- Well-formed expressions are evaluated along a path, to what fits. -/
def EvaluatesProperly (evaluate : Expr → Traced Value) : Prop :=
  ∀ (m : Machine) (e : Expr), m.Orderly → e.Formed → Upholds m (evaluate e) Machine.Fit

/-- What a statement ends with fits. -/
def Machine.FitAtEnd (m : Machine) (completion : Completion) : Prop :=
  ∀ value ∈ completion.values, m.Fit value

/-- Well-formed statements are carried out along a path. -/
def ExecutesProperly (execute : Stmt → Traced Completion) : Prop :=
  ∀ (m : Machine) (t : Stmt), m.Orderly → t.Formed → Upholds m (execute t) Machine.FitAtEnd

theorem Machine.fitAtEnd_normal (m : Machine) : m.FitAtEnd .normal := nofun

theorem Machine.Fit.atEnd {value : Value} (h : m.Fit value) : m.FitAtEnd (.returned value) :=
  List.forall_mem_singleton.mpr h

section

variable {evaluate : Expr → Traced Value} {execute : Stmt → Traced Completion}

/-- A fault that is not about an operator. -/
theorem fault_upholds (h : m.Orderly) (line : Nat) (fault : Fault)
    (hunary : fault ≠ .invalidUnaryOperator) (hbinary : fault ≠ .invalidBinaryOperator)
    {post : Machine → α → Prop} : Upholds m (Traced.fault line fault) post :=
  .silent (.fault h line hunary hbinary)

/-! ## Lists of parts -/

theorem evaluateAll_upholds (hevaluate : EvaluatesProperly evaluate) (h : m.Orderly) {es : List Expr}
    (hes : ∀ e ∈ es, e.Formed) :
    Upholds m (Traced.evaluateAll evaluate es) fun m' values => ∀ value ∈ values, m'.Fit value := by
  induction es generalizing m with
  | nil => exact .pure h nofun
  | cons first more ih =>
    obtain ⟨hfirst, hmore⟩ := List.forall_mem_cons.mp hes
    refine (hevaluate m first h hfirst).bind fun m' value _ horderly hvalue => ?_
    refine (ih horderly hmore).bind fun m'' values hearlier horderly' hvalues => ?_
    exact .pure horderly' (List.forall_mem_cons.mpr ⟨hvalue.mono hearlier, hvalues⟩)

theorem executeAll_upholds (hexecute : ExecutesProperly execute) (h : m.Orderly) {body : List Stmt}
    (hbody : ∀ t ∈ body, t.Formed) :
    Upholds m (Traced.executeAll execute body) Machine.FitAtEnd := by
  induction body generalizing m with
  | nil => exact .pure h m.fitAtEnd_normal
  | cons first more ih =>
    obtain ⟨hfirst, hmore⟩ := List.forall_mem_cons.mp hbody
    refine (hexecute m first h hfirst).bind fun m' completion _ horderly hends => ?_
    cases completion with
    | normal => exact ih horderly hmore
    | returned value => exact .pure horderly hends

/-- A body runs in another frame. -/
theorem body_upholds (hexecute : ExecutesProperly execute) (h : m.Orderly) {frame : FrameId}
    (hframe : frame < m.frames.nextId) {body : List Stmt} (hbody : ∀ t ∈ body, t.Formed) :
    Upholds m (.inFrame frame (Traced.executeAll execute body)) Machine.FitAtEnd :=
  .inFrame h hframe (fun _ hentered => executeAll_upholds hexecute hentered hbody)
    fun _ _ _ hearlier hends value hvalue => (hends value hvalue).mono hearlier

/-! ## Calls -/

/-- The parameters of a well-formed function are not named like the receiver. -/
theorem FunctionDecl.Formed.free {f : FunctionDecl} (h : f.Formed) :
    receiverName ∉ f.params.map (·.lexeme) := by
  obtain ⟨name, params, body⟩ := f
  rintro hmem
  obtain ⟨param, hparam, hlexeme⟩ := List.mem_map.mp hmem
  exact (h.2.2.1 param hparam).isFree hlexeme

theorem FunctionDecl.Formed.body {f : FunctionDecl} (h : f.Formed) : ∀ t ∈ f.body, t.Formed := by
  obtain ⟨name, params, body⟩ := f
  exact Stmt.FormedAll.mem h.2.2.2

/-- A frame for a call holds the arguments. -/
theorem openCall_upholds (h : m.Orderly) {f : FunctionDecl} (hf : f.Formed) {arguments : List Value}
    (harguments : ∀ a ∈ arguments, m.Fit a) {enclosing : FrameId}
    (henclosing : enclosing < m.frames.nextId) :
    Upholds m (Traced.openCall f.params arguments enclosing)
      fun m' frame => frame < m'.frames.nextId := by
  refine .declaring h hf.free (newFrame_ends h ⟨_, henclosing, rfl⟩ ⟨fun name value hvalue => ?_, fun value hvalue => ?_⟩)
  · exact harguments value (mem_of_find?_zip hvalue).2
  · exact absurd (mem_of_find?_zip hvalue).1 hf.free

/-- What a call gives fits. -/
theorem result_upholds (h : m.Orderly) (closure : Closure) {completion : Completion}
    (hends : m.FitAtEnd completion) : Upholds m (Traced.result closure completion) Machine.Fit := by
  unfold Traced.result
  split
  · refine .silent (.get (found_ends h _ fun value hvalue => ?_))
    exact h.bound _ _ value hvalue
  · cases completion with
    | normal => exact .pure h trivial
    | returned value => exact .pure h (hends value List.mem_cons_self)

/-- A call runs the body of a function in a frame with the arguments. -/
theorem callClosure_upholds (hexecute : ExecutesProperly execute) (h : m.Orderly) {closure : Closure}
    (hclosure : m.ClosureFit closure) {arguments : List Value} (harguments : ∀ a ∈ arguments, m.Fit a) :
    Upholds m (Traced.callClosure execute closure arguments) Machine.Fit := by
  refine (openCall_upholds h hclosure.formed harguments hclosure.there).bind ?_
  intro m' frame _ horderly hframe
  refine (body_upholds hexecute horderly hframe hclosure.formed.body).bind ?_
  intro m'' completion _ horderly' hends
  exact result_upholds horderly' closure hends

/-- A new object is prepared by the initializer of its class. -/
theorem construct_upholds (hexecute : ExecutesProperly execute) (h : m.Orderly) {cls : Class}
    (hcls : m.Fit (.cls cls)) {arguments : List Value} (harguments : ∀ a ∈ arguments, m.Fit a) :
    Upholds m (Traced.construct execute cls arguments) Machine.Fit := by
  refine Upholds.bind (.silent (newObject_ends h hcls)) fun m' id hearlier horderly hid => ?_
  cases hinit : cls.initializer? with
  | none => exact .pure horderly hid
  | some method =>
    -- the method fitted before the object was made, and so it still does
    have fit : m'.ClosureFit method := Fit.mono hearlier hcls _ method hinit
    have bound := bindTo_ends horderly fit.formed ⟨_, fit.there, rfl⟩
      (show m'.Fit (.object id) from hid) rfl
    refine Upholds.bind (.silent bound) fun m'' closure hearlier' horderly' hclosure => ?_
    have earlier := hearlier.trans hearlier'
    refine (callClosure_upholds hexecute horderly' hclosure fun a ha =>
      (harguments a ha).mono earlier).bind fun m''' _ hearlier'' horderly'' _ => ?_
    exact .pure horderly'' (Nat.lt_of_lt_of_le hid (hearlier'.trans hearlier'').objects_le)

/-- A call leads along a path, whatever is called. -/
theorem call_upholds (hexecute : ExecutesProperly execute) (h : m.Orderly) {callee : Value}
    (hcallee : m.Fit callee) (paren : Token) {arguments : List Value}
    (harguments : ∀ a ∈ arguments, m.Fit a) :
    Upholds m (Traced.call execute callee paren arguments) Machine.Fit := by
  unfold Traced.call
  split
  · exact fault_upholds h paren.line .notCallable nofun nofun
  · split
    · exact fault_upholds h paren.line (.wrongArity ..) (by rintro ⟨⟩) (by rintro ⟨⟩)
    · cases callee with
      | function f => exact callClosure_upholds hexecute h hcallee harguments
      | host f => exact .silent (callHost_ends h paren f harguments)
      | cls c => exact construct_upholds hexecute h hcallee harguments
      | _ => exact fault_upholds h paren.line .notCallable nofun nofun

/-! ## Expressions -/

theorem lookUp_upholds (h : m.Orderly) (id : OccurrenceId) (name : Token) :
    Upholds m (.silent (Run.lookUp id name) (Silent.inward.lookUp id name)) Machine.Fit :=
  .silent (lookUp_ends h id name)

theorem evaluateRule_upholds (hevaluate : EvaluatesProperly evaluate)
    (hexecute : ExecutesProperly execute) :
    EvaluatesProperly (Traced.evaluateRule evaluate execute) := by
  intro m e h hformed
  cases e with
  | literal value => exact .pure h (m.fit_ofLiteral value)
  | grouping inner => exact hevaluate m inner h hformed
  | unary operator operand =>
    refine (hevaluate m operand h hformed.2).bind fun m' a _ horderly _ => ?_
    exact .silent (unary_ends horderly hformed.1 a)
  | binary left operator right =>
    refine (hevaluate m left h hformed.2.1).bind fun m' a _ horderly _ => ?_
    refine (hevaluate m' right horderly hformed.2.2).bind fun m'' b _ horderly' _ => ?_
    exact .silent (binary_ends horderly' hformed.1 a b)
  | logical left operator right =>
    refine (hevaluate m left h hformed.2.1).bind fun m' a _ horderly ha => ?_
    split
    · exact .pure horderly ha
    · exact hevaluate m' right horderly hformed.2.2
  | var id name => exact lookUp_upholds h id name
  | this id keyword => exact lookUp_upholds h id keyword
  | assign id name value =>
    refine (hevaluate m value h hformed.2).bind fun m' a _ horderly ha => ?_
    refine Upholds.bind (.silent (assign_ends horderly id hformed.1.isFree ha)) ?_
    intro m'' _ hearlier horderly' _
    exact .pure horderly' (ha.mono hearlier)
  | call callee paren arguments =>
    refine (hevaluate m callee h hformed.1).bind fun m' f _ horderly hf => ?_
    refine (evaluateAll_upholds hevaluate horderly hformed.2.2.mem).bind ?_
    intro m'' values hearlier horderly' hvalues
    exact call_upholds hexecute horderly' (hf.mono hearlier) paren hvalues
  | get object name =>
    refine (hevaluate m object h hformed.2).bind fun m' a _ horderly _ => ?_
    cases a with
    | object id => exact .silent (getProperty_ends horderly id name)
    | _ => exact fault_upholds horderly name.line .propertyOfNonInstance nofun nofun
  | set object name value =>
    refine (hevaluate m object h hformed.2.1).bind fun m' a _ horderly ha => ?_
    cases a with
    | object id =>
      refine (hevaluate m' value horderly hformed.2.2).bind fun m'' b hearlier horderly' hb => ?_
      -- the value is evaluated in between, which takes no object away
      have there : id < m''.heap.nextId := Nat.lt_of_lt_of_le ha hearlier.objects_le
      refine (Upholds.setProperty horderly' there name hb).bind ?_
      intro m''' _ hearlier' horderly'' _
      exact .pure horderly'' (hb.mono hearlier')
    | _ => exact fault_upholds horderly name.line .fieldOfNonInstance nofun nofun

/-! ## Statements -/

theorem evaluateOptional_upholds (hevaluate : EvaluatesProperly evaluate) (h : m.Orderly)
    {value : Option Expr} (hvalue : Expr.FormedIfAny value) :
    Upholds m (Traced.evaluateOptional evaluate value) Machine.Fit := by
  cases value with
  | none => exact .pure h trivial
  | some e => exact hevaluate m e h (hvalue e rfl)

/-- A name that is declared is not that of the receiver. -/
theorem define_upholds (h : m.Orderly) {name : Token} (hname : name.IsName) {value : Value}
    (hvalue : m.Fit value) : Upholds m (Traced.define name.lexeme value) fun _ _ => True := by
  refine .declaring h ?_ (define_ends h hname.isFree hvalue)
  exact fun hmem => hname.isFree (List.mem_singleton.mp hmem).symm

/-- A function is made in the current frame. -/
theorem makeFunction_upholds (h : m.Orderly) {declaration : FunctionDecl} (hformed : declaration.Formed) :
    Upholds m (Traced.makeFunction declaration) Machine.Fit :=
  .silent (.get (newFunction_ends h ⟨h.current_lt, hformed⟩))

/-- The methods of a class are made in the current frame. -/
theorem makeClass_upholds (h : m.Orderly) (name : Token) {methods : List FunctionDecl}
    (hformed : ∀ f ∈ methods, f.Formed) :
    Upholds m (Traced.makeClass name methods) Machine.Fit := by
  refine .silent (.get ((freshIdentity_ends h).bind fun m' identity hcalm _ => ?_))
  refine .pure hcalm.orderly fun key method hmethod => ?_
  obtain ⟨declaration, hdeclaration, -, rfl⟩ := exists_of_find?_methods hmethod
  exact ⟨Nat.lt_of_lt_of_le h.current_lt hcalm.earlier.nextId_le, hformed _ hdeclaration⟩

/-- A value is printed on a line of its own. -/
theorem print_upholds (h : m.Orderly) (value : Value) :
    Upholds m (Traced.print value) Machine.FitAtEnd := by
  have text : Ends m (do return value.text (← get).heap) fun _ _ => True := .get (.pure h trivial)
  refine Upholds.bind (.silent text) fun m' text _ horderly _ => ?_
  refine (Upholds.write horderly text).bind fun m'' _ _ horderly' _ => ?_
  refine (Upholds.write horderly' "\n").bind fun m''' _ _ horderly'' _ => ?_
  exact .pure horderly'' m'''.fitAtEnd_normal

theorem executeRule_upholds (hevaluate : EvaluatesProperly evaluate)
    (hexecute : ExecutesProperly execute) :
    ExecutesProperly (Traced.executeRule evaluate execute) := by
  intro m t h hformed
  cases t with
  | expression value =>
    refine (hevaluate m value h hformed).bind fun m' _ _ horderly _ => ?_
    exact .pure horderly m'.fitAtEnd_normal
  | print value =>
    exact (hevaluate m value h hformed).bind fun m' a _ horderly _ => print_upholds horderly a
  | varDecl name initializer =>
    refine (evaluateOptional_upholds hevaluate h hformed.2).bind fun m' a _ horderly ha => ?_
    refine (define_upholds horderly hformed.1 ha).bind fun m'' _ _ horderly' _ => ?_
    exact .pure horderly' m''.fitAtEnd_normal
  | block body =>
    have opened : Upholds m Traced.openBlock fun m' frame => frame < m'.frames.nextId :=
      .silent (.get (newFrame_ends h ⟨_, h.current_lt, rfl⟩ m.frameFit_empty))
    refine opened.bind fun m' frame _ horderly hframe => ?_
    exact body_upholds hexecute horderly hframe (Stmt.FormedAll.mem hformed)
  | ifThen condition thenBranch =>
    refine (hevaluate m condition h hformed.1).bind fun m' a _ horderly _ => ?_
    split
    · exact hexecute m' thenBranch horderly hformed.2
    · exact .pure horderly m'.fitAtEnd_normal
  | ifElse condition thenBranch elseBranch =>
    refine (hevaluate m condition h hformed.1).bind fun m' a _ horderly _ => ?_
    split
    · exact hexecute m' thenBranch horderly hformed.2.1
    · exact hexecute m' elseBranch horderly hformed.2.2
  | whileLoop condition body =>
    refine (hevaluate m condition h hformed.1).bind fun m' a _ horderly _ => ?_
    split
    · refine (hexecute m' body horderly hformed.2).bind fun m'' completion _ horderly' hends => ?_
      cases completion with
      -- the next round is the loop itself as a statement
      | normal => exact hexecute m'' _ horderly' hformed
      | returned value => exact .pure horderly' hends
    · exact .pure horderly m'.fitAtEnd_normal
  | funDecl declaration =>
    have name : declaration.name.IsName := by
      obtain ⟨name, params, body⟩ := declaration
      exact hformed.1
    refine (makeFunction_upholds h hformed).bind fun m' f _ horderly hf => ?_
    refine (define_upholds horderly name hf).bind fun m'' _ _ horderly' _ => ?_
    exact .pure horderly' m''.fitAtEnd_normal
  | returns keyword value =>
    refine (evaluateOptional_upholds hevaluate h hformed).bind fun m' a _ horderly ha => ?_
    exact .pure horderly ha.atEnd
  | classDecl name methods =>
    refine (makeClass_upholds h name hformed.2.mem).bind fun m' c _ horderly hc => ?_
    refine (define_upholds horderly hformed.1 hc).bind fun m'' _ _ horderly' _ => ?_
    exact .pure horderly' m''.fitAtEnd_normal

end

/-! ## Whole runs -/

theorem exhausted_upholds (h : m.Orderly) {post : Machine → α → Prop} :
    Upholds m Traced.exhausted post :=
  .silent (.throw h fun _ => ⟨nofun, nofun⟩)

mutual

theorem evaluate_upholds : ∀ fuel, EvaluatesProperly (Traced.evaluate fuel)
  | 0 => fun _ _ h _ => exhausted_upholds h
  | fuel + 1 => fun m e h hformed =>
    .starting h hformed
      (evaluateRule_upholds (evaluate_upholds fuel) (execute_upholds fuel) m e h hformed)

theorem execute_upholds : ∀ fuel, ExecutesProperly (Traced.execute fuel)
  | 0 => fun _ _ h _ => exhausted_upholds h
  | fuel + 1 => fun m t h hformed =>
    .starting h hformed
      (executeRule_upholds (evaluate_upholds fuel) (execute_upholds fuel) m t h hformed)

end

/-- The statements of a program are carried out along a path. -/
theorem program_upholds (fuel : Nat) (h : m.Orderly) {program : List Stmt}
    (hformed : ∀ t ∈ program, t.Formed) :
    Upholds m (Traced.executeProgram fuel program) fun _ _ => True := by
  induction program generalizing m with
  | nil => exact .pure h trivial
  | cons first more ih =>
    obtain ⟨hfirst, hmore⟩ := List.forall_mem_cons.mp hformed
    exact (execute_upholds fuel m first h hfirst).bind fun m' _ _ horderly _ => ih horderly hmore

end Lox
