import Lox.Proofs.Trace.Hereditary
import Lox.Proofs.Trace.Rules

/-!
# The rules hand properties on

Each rule hands a hereditary property on if what it runs inside of it does, and the machine of each moment
of its trace has nothing but values with the property (`HandsAlong`). So does everything that is run by the
rules, however deep (`evaluate_hands`, `execute_hands`), and a program (`program_hands`).
-/

namespace Lox

open Machine

variable {α β : Type} {m m' : Machine}

/-- The run hands the property on, and at each moment of its trace all have it. -/
structure HandsAlong (P : Machine → Value → Prop) (m : Machine) (t : Traced α)
    (post : Machine → α → Prop) : Prop where
  moments : ∀ moment ∈ t.trace m, moment.machine.AllHave P
  ends : Hands P m t.run post

variable {P : Machine → Value → Prop}

namespace HandsAlong

variable {t : Traced α} {post : Machine → α → Prop}

/-! ## Putting runs together -/

protected theorem pure (h : m.AllHave P) {a : α} (hpost : post m a) :
    HandsAlong P m (pure a : Traced α) post :=
  ⟨nofun, .pure h hpost⟩

theorem silent {p : Run α} {hp : Silent p} (h : Hands P m p post) : HandsAlong P m (.silent p hp) post :=
  ⟨nofun, h⟩

protected theorem fault (h : m.AllHave P) (line : Nat) (fault : Fault) :
    HandsAlong P m (Traced.fault line fault) post :=
  .silent (.fault h line fault)

/-- A silent run at whose start something happens. -/
theorem noted {what : Happening} {hwhat : what.text = ""} {p : Run α} {hp : Silent p}
    (hall : m.AllHave P) (h : Hands P m p post) : HandsAlong P m (.noted what p hwhat hp) post :=
  ⟨List.forall_mem_singleton.mpr hall, h⟩

protected theorem bind (h : HandsAlong P m t post) {f : α → Traced β} {post' : Machine → β → Prop}
    (hf : ∀ m' a, m.Later m' → m'.AllHave P → post m' a → HandsAlong P m' (f a) post') :
    HandsAlong P m (t >>= f) post' := by
  refine ⟨?_, h.ends.bind fun m' a hlater hall ha => (hf m' a hlater hall ha).ends⟩
  show ∀ moment ∈ Accounts.follow t.run t.trace (fun a => (f a).trace) m, _
  obtain ⟨m', hlater, hall, ⟨a, hrun, ha⟩ | ⟨interrupt, hrun⟩⟩ := h.ends
  · rw [Accounts.follow_ok hrun]
    exact List.forall_mem_append.mpr ⟨h.moments, (hf m' a hlater hall ha).moments⟩
  · rw [Accounts.follow_error hrun]
    exact h.moments

theorem starting {code : Code} (hall : m.AllHave P) (h : HandsAlong P m t post) :
    HandsAlong P m (.starting code t) post := by
  have started : HandsAlong P m (.noted (.starts code) (pure ()) rfl (.pure ())) fun m' _ => m' = m :=
    .noted hall (.pure hall rfl)
  refine started.bind ?_
  rintro _ _ - - rfl
  exact h

variable [Hereditary P]

/-- What runs in another frame comes back. -/
theorem inFrame (hall : m.AllHave P) {frame : FrameId} (hframe : frame < m.frames.nextId)
    (h : (m.inside frame).AllHave P → HandsAlong P (m.inside frame) t post)
    (hpost : ∀ m' a current, m'.Later (m'.inside current) → post m' a → post (m'.inside current) a) :
    HandsAlong P m (.inFrame frame t) post := by
  have entered : (m.inside frame).AllHave P := hall.of_same rfl rfl hall.orderly.host hframe
  have there : m.Later (m.inside frame) := .of_same rfl rfl
  obtain ⟨hmoments, m', hlater, hall', hend⟩ := h entered
  have back : m'.Later (m'.inside m.current) := .of_same rfl rfl
  have left : (m'.inside m.current).AllHave P := by
    refine hall'.of_same rfl rfl hall'.orderly.host ?_
    exact Nat.lt_of_lt_of_le hall.orderly.current_lt (there.trans hlater).earlier.nextId_le
  refine ⟨hmoments, m'.inside m.current, there.trans (hlater.trans back), left, ?_⟩
  rcases hend with ⟨a, hrun, ha⟩ | ⟨interrupt, hrun⟩
  · exact .inl ⟨a, Run.inFrame_ok hrun, hpost m' a _ back ha⟩
  · exact .inr ⟨interrupt, Run.inFrame_error hrun⟩

end HandsAlong

/-! ## Lists of parts -/

/-- Well-formed expressions hand the property on, to the value. -/
def EvaluatesTo (P : Machine → Value → Prop) (evaluate : Expr → Traced Value) : Prop :=
  ∀ (m : Machine) (e : Expr), m.AllHave P → e.Formed → HandsAlong P m (evaluate e) (Has P)

/-- What a statement ends with has the property. -/
def Machine.EndsWith (P : Machine → Value → Prop) (m : Machine) (completion : Completion) : Prop :=
  ∀ value ∈ completion.values, m.Has P value

/-- Well-formed statements hand the property on, to what they end with. -/
def ExecutesTo (P : Machine → Value → Prop) (execute : Stmt → Traced Completion) : Prop :=
  ∀ (m : Machine) (t : Stmt), m.AllHave P → t.Formed → HandsAlong P m (execute t) (EndsWith P)

theorem Machine.endsWith_normal (m : Machine) : m.EndsWith P .normal := nofun

theorem Machine.Has.endsWith {value : Value} (h : m.Has P value) : m.EndsWith P (.returned value) :=
  List.forall_mem_singleton.mpr h

section

variable [Hereditary P] {evaluate : Expr → Traced Value} {execute : Stmt → Traced Completion}

theorem evaluateAll_hands (hevaluate : EvaluatesTo P evaluate) (h : m.AllHave P) {es : List Expr}
    (hes : ∀ e ∈ es, e.Formed) :
    HandsAlong P m (Traced.evaluateAll evaluate es) fun m' values => ∀ value ∈ values, m'.Has P value := by
  induction es generalizing m with
  | nil => exact .pure h nofun
  | cons first more ih =>
    obtain ⟨hfirst, hmore⟩ := List.forall_mem_cons.mp hes
    refine (hevaluate m first h hfirst).bind fun m' value _ hall hvalue => ?_
    refine (ih hall hmore).bind fun m'' values hlater hall' hvalues => ?_
    exact .pure hall' (List.forall_mem_cons.mpr ⟨hvalue.mono hlater, hvalues⟩)

omit [Hereditary P] in
theorem executeAll_hands (hexecute : ExecutesTo P execute) (h : m.AllHave P) {body : List Stmt}
    (hbody : ∀ t ∈ body, t.Formed) :
    HandsAlong P m (Traced.executeAll execute body) (EndsWith P) := by
  induction body generalizing m with
  | nil => exact .pure h m.endsWith_normal
  | cons first more ih =>
    obtain ⟨hfirst, hmore⟩ := List.forall_mem_cons.mp hbody
    refine (hexecute m first h hfirst).bind fun m' completion _ hall hends => ?_
    cases completion with
    | normal => exact ih hall hmore
    | returned value => exact .pure hall hends

/-- A body runs in another frame. -/
theorem body_hands (hexecute : ExecutesTo P execute) (h : m.AllHave P) {frame : FrameId}
    (hframe : frame < m.frames.nextId) {body : List Stmt} (hbody : ∀ t ∈ body, t.Formed) :
    HandsAlong P m (.inFrame frame (Traced.executeAll execute body)) (EndsWith P) :=
  .inFrame h hframe (fun hentered => executeAll_hands hexecute hentered hbody)
    fun _ _ _ hlater hends value hvalue => (hends value hvalue).mono hlater

/-! ## Calls -/

/-- A frame for a call holds the arguments. -/
theorem openCall_hands (h : m.AllHave P) {f : FunctionDecl} (hf : f.Formed) {arguments : List Value}
    (harguments : ∀ a ∈ arguments, m.Has P a) {enclosing : FrameId}
    (henclosing : enclosing < m.frames.nextId) :
    HandsAlong P m (Traced.openCall f.params arguments enclosing)
      fun m' frame => frame < m'.frames.nextId := by
  refine .noted h
    (newFrame_hands h ⟨_, henclosing, rfl⟩ (fun name value hvalue => ?_) fun value hvalue => ?_)
  · exact harguments value (mem_of_find?_zip hvalue).2
  · exact absurd (mem_of_find?_zip hvalue).1 hf.free

/-- What a call gives has the property. -/
theorem result_hands (h : m.AllHave P) (closure : Closure) {completion : Completion}
    (hends : m.EndsWith P completion) : HandsAlong P m (Traced.result closure completion) (Has P) := by
  unfold Traced.result
  split
  · exact .silent (.get (found_hands h _ fun _ hvalue => h.has_bound hvalue))
  · cases completion with
    | normal => exact .pure h (m.has_plain trivial)
    | returned value => exact .pure h (hends value List.mem_cons_self)

/-- A call runs the body of a function in a frame with the arguments. -/
theorem callClosure_hands (hexecute : ExecutesTo P execute) (h : m.AllHave P) {closure : Closure}
    (hclosure : m.ClosureFit closure) {arguments : List Value} (harguments : ∀ a ∈ arguments, m.Has P a) :
    HandsAlong P m (Traced.callClosure execute closure arguments) (Has P) := by
  have opened := openCall_hands h hclosure.formed harguments hclosure.there
  refine opened.bind fun m' frame _ hall hframe => ?_
  have ran := body_hands hexecute hall hframe hclosure.formed.body
  refine ran.bind fun m'' completion _ hall' hends => ?_
  exact result_hands hall' closure hends

/-- A new object is prepared by the initializer of its class. -/
theorem construct_hands (hexecute : ExecutesTo P execute) (h : m.AllHave P) {cls : Class}
    (hcls : m.Has P (.cls cls)) {arguments : List Value} (harguments : ∀ a ∈ arguments, m.Has P a) :
    HandsAlong P m (Traced.construct execute cls arguments) (Has P) := by
  refine HandsAlong.bind (.silent (newObject_hands h hcls)) fun m' id hlater hall hid => ?_
  cases hinit : cls.initializer? with
  | none => exact .pure hall (has_object hid)
  | some method =>
    -- the method fitted before the object was made, and so it still does
    have fit : m'.ClosureFit method := (hcls.mono hlater).fit _ method hinit
    refine HandsAlong.bind (.silent (bindMethod_hands hall fit hid)) ?_
    intro m'' bound hlater' hall' hbound
    have later := hlater.trans hlater'
    refine (callClosure_hands hexecute hall' hbound fun a ha => (harguments a ha).mono later).bind ?_
    intro m''' _ hlater'' hall'' _
    exact .pure hall'' (has_object (Nat.lt_of_lt_of_le hid (hlater'.trans hlater'').earlier.objects_le))

/-- A call hands the property on, whatever is called. -/
theorem call_hands (hexecute : ExecutesTo P execute) (h : m.AllHave P) {callee : Value}
    (hcallee : m.Has P callee) (paren : Token) {arguments : List Value}
    (harguments : ∀ a ∈ arguments, m.Has P a) :
    HandsAlong P m (Traced.call execute callee paren arguments) (Has P) := by
  unfold Traced.call
  split
  · exact .fault h ..
  · split
    · exact .fault h ..
    · cases callee with
      | function f => exact callClosure_hands hexecute h hcallee.fit harguments
      | host f => exact .silent (callHost_hands h paren f harguments)
      | cls c => exact construct_hands hexecute h hcallee harguments
      | _ => exact .fault h ..

/-! ## Expressions -/

theorem evaluateRule_hands (hevaluate : EvaluatesTo P evaluate) (hexecute : ExecutesTo P execute) :
    EvaluatesTo P (Traced.evaluateRule evaluate execute) := by
  intro m e h hformed
  cases e with
  | literal value => exact .pure h (m.has_ofLiteral value)
  | grouping inner => exact hevaluate m inner h hformed
  | unary operator operand =>
    exact (hevaluate m operand h hformed.2).bind fun _ a _ hall _ => .silent (unary_hands hall operator a)
  | binary left operator right =>
    refine (hevaluate m left h hformed.2.1).bind fun m' a _ hall _ => ?_
    refine (hevaluate m' right hall hformed.2.2).bind fun m'' b _ hall' _ => ?_
    exact .silent (binary_hands hall' operator a b)
  | logical left operator right =>
    refine (hevaluate m left h hformed.2.1).bind fun m' a _ hall ha => ?_
    split
    · exact .pure hall ha
    · exact hevaluate m' right hall hformed.2.2
  | var id name | this id name =>
    show HandsAlong P m (.silent _ (Silent.inward.lookUp id name)) _
    exact .silent (lookUp_hands h id name)
  | assign id name value =>
    refine (hevaluate m value h hformed.2).bind fun m' a _ hall ha => ?_
    refine HandsAlong.bind (.silent (assign_hands hall id hformed.1.isFree ha)) ?_
    exact fun _ _ hlater hall' _ => .pure hall' (ha.mono hlater)
  | call callee paren arguments =>
    refine (hevaluate m callee h hformed.1).bind fun m' f _ hall hf => ?_
    refine (evaluateAll_hands hevaluate hall hformed.2.2.mem).bind ?_
    exact fun m'' values hlater hall' hvalues => call_hands hexecute hall' (hf.mono hlater) paren hvalues
  | get object name =>
    refine (hevaluate m object h hformed.2).bind fun m' a _ hall _ => ?_
    cases a with
    | object id => exact .silent (getProperty_hands hall id name)
    | _ => exact .fault hall ..
  | set object name value =>
    refine (hevaluate m object h hformed.2.1).bind fun m' a _ hall _ => ?_
    cases a with
    | object id =>
      refine (hevaluate m' value hall hformed.2.2).bind fun m'' b _ hall' hb => ?_
      refine HandsAlong.bind (.noted hall' (setProperty_hands hall' id name hb)) ?_
      exact fun _ _ hlater hall'' _ => .pure hall'' (hb.mono hlater)
    | _ => exact .fault hall ..

/-! ## Statements -/

theorem evaluateOptional_hands (hevaluate : EvaluatesTo P evaluate) (h : m.AllHave P)
    {value : Option Expr} (hvalue : Expr.FormedIfAny value) :
    HandsAlong P m (Traced.evaluateOptional evaluate value) (Has P) := by
  cases value with
  | none => exact .pure h (m.has_plain trivial)
  | some e => exact hevaluate m e h (hvalue e rfl)

/-- A name is declared, and bound to what has the property. -/
theorem declare_hands {t : Traced Value} (h : HandsAlong P m t (Has P)) {name : Token}
    (hname : name.IsName) :
    HandsAlong P m (do Traced.define name.lexeme (← t); return Completion.normal) (EndsWith P) := by
  refine h.bind fun m' value _ hall hvalue => ?_
  refine HandsAlong.bind (.noted hall (define_hands hall hname.isFree hvalue)) ?_
  exact fun m'' _ _ hall' _ => .pure hall' m''.endsWith_normal

/-- A value is printed on a line of its own. -/
theorem print_hands (h : m.AllHave P) (value : Value) :
    HandsAlong P m (Traced.print value) (EndsWith P) := by
  have write {m : Machine} (h : m.AllHave P) (text : String) :
      HandsAlong P m (Traced.write text) fun _ _ => True :=
    ⟨List.forall_mem_singleton.mpr h, write_hands h text⟩
  have text : Hands P m (do return value.text (← get).heap) fun _ _ => True := .get (.pure h trivial)
  refine HandsAlong.bind (.silent text) fun m' text _ hall _ => ?_
  refine (write hall text).bind fun m'' _ _ hall' _ => ?_
  refine (write hall' "\n").bind fun m''' _ _ hall'' _ => ?_
  exact .pure hall'' m'''.endsWith_normal

theorem executeRule_hands (hevaluate : EvaluatesTo P evaluate) (hexecute : ExecutesTo P execute) :
    ExecutesTo P (Traced.executeRule evaluate execute) := by
  intro m t h hformed
  cases t with
  | expression value =>
    exact (hevaluate m value h hformed).bind fun m' _ _ hall _ => .pure hall m'.endsWith_normal
  | print value => exact (hevaluate m value h hformed).bind fun _ a _ hall _ => print_hands hall a
  | varDecl name initializer =>
    exact declare_hands (evaluateOptional_hands hevaluate h hformed.2) hformed.1
  | block body =>
    have opened : HandsAlong P m Traced.openBlock fun m' frame => frame < m'.frames.nextId :=
      .silent (.get (newFrame_hands h ⟨_, h.orderly.current_lt, rfl⟩ nofun nofun))
    refine opened.bind fun m' frame _ hall hframe => ?_
    exact body_hands hexecute hall hframe (Stmt.FormedAll.mem hformed)
  | ifThen condition thenBranch =>
    refine (hevaluate m condition h hformed.1).bind fun m' a _ hall _ => ?_
    split
    · exact hexecute m' thenBranch hall hformed.2
    · exact .pure hall m'.endsWith_normal
  | ifElse condition thenBranch elseBranch =>
    refine (hevaluate m condition h hformed.1).bind fun m' a _ hall _ => ?_
    split
    · exact hexecute m' thenBranch hall hformed.2.1
    · exact hexecute m' elseBranch hall hformed.2.2
  | whileLoop condition body =>
    refine (hevaluate m condition h hformed.1).bind fun m' a _ hall _ => ?_
    split
    · refine (hexecute m' body hall hformed.2).bind fun m'' completion _ hall' hends => ?_
      cases completion with
      -- the next round is the loop itself as a statement
      | normal => exact hexecute m'' _ hall' hformed
      | returned value => exact .pure hall' hends
    · exact .pure hall m'.endsWith_normal
  | funDecl declaration =>
    have name : declaration.name.IsName := by
      obtain ⟨name, params, body⟩ := declaration
      exact hformed.1
    exact declare_hands (.silent (makeFunction_hands h hformed)) name
  | returns keyword value =>
    refine (evaluateOptional_hands hevaluate h hformed).bind fun m' a _ hall ha => ?_
    exact .pure hall ha.endsWith
  | classDecl name methods =>
    exact declare_hands (.silent (makeClass_hands h name hformed.2.mem)) hformed.1

end

/-! ## Whole runs -/

theorem exhausted_hands (h : m.AllHave P) {post : Machine → α → Prop} :
    HandsAlong P m Traced.exhausted post :=
  .silent (.throw h _)

variable [Hereditary P]

mutual

theorem evaluate_hands : ∀ fuel, EvaluatesTo P (Traced.evaluate fuel)
  | 0 => fun _ _ h _ => exhausted_hands h
  | fuel + 1 => fun m e h hformed =>
    .starting h (evaluateRule_hands (evaluate_hands fuel) (execute_hands fuel) m e h hformed)

theorem execute_hands : ∀ fuel, ExecutesTo P (Traced.execute fuel)
  | 0 => fun _ _ h _ => exhausted_hands h
  | fuel + 1 => fun m t h hformed =>
    .starting h (executeRule_hands (evaluate_hands fuel) (execute_hands fuel) m t h hformed)

end

/-- The statements of a program hand the property on. -/
theorem program_hands (fuel : Nat) (h : m.AllHave P) {program : List Stmt}
    (hformed : ∀ t ∈ program, t.Formed) :
    HandsAlong P m (Traced.executeProgram fuel program) fun _ _ => True := by
  induction program generalizing m with
  | nil => exact .pure h trivial
  | cons first more ih =>
    obtain ⟨hfirst, hmore⟩ := List.forall_mem_cons.mp hformed
    exact (execute_hands fuel m first h hfirst).bind fun m' _ _ hall _ => ih hall hmore

end Lox
