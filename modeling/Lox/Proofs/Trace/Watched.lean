import Lox.Proofs.Session.Tracing

/-!
# Traces of watched runs

A watched run strays as soon as a promise is broken. So where it does not stray, the promise is kept by
each piece of code that the trace starts, and each of them opens a stretch of the trace: from there on
comes all that happens when this code is run on the machine of that moment (`Unfolds`).

For the promise that code is run where it lies, this is what a session does: whatever it is asked for, all
code that is ever started is placed, in one labelling of its frames (`moments_unfold`).
-/

namespace Lox

variable {α β : Type}

/-! ## Code that is run -/

/-- What a piece of code gives. -/
abbrev Code.Result : Code → Type
  | .expression _ => Value
  | .statement _ => Completion

/-- Runs a piece of code, and notes what happens. -/
def Code.traced (fuel : Nat) : (code : Code) → Traced code.Result
  | .expression value => Traced.evaluate fuel value
  | .statement t => Traced.execute fuel t

/-- Each piece of code that the trace starts keeps the promise, and opens a stretch of the trace. -/
def Unfolds (promise : Code → Machine → Prop) (trace : List Moment) : Prop :=
  ∀ before moment after code, trace = before ++ moment :: after → moment.happening = .starts code →
    promise code moment.machine ∧ ∃ fuel rest,
      moment :: after = (code.traced fuel).trace moment.machine ++ rest

variable {promise : Code → Machine → Prop}

namespace Unfolds

variable {trace trace' : List Moment}

/-- A trace that starts no code. -/
theorem of_quiet (h : ∀ moment ∈ trace, ∀ code, moment.happening ≠ .starts code) :
    Unfolds promise trace := by
  rintro before moment after code rfl hstarts
  exact absurd hstarts (h moment (by simp) code)

theorem nil : Unfolds promise [] := .of_quiet nofun

theorem append (h : Unfolds promise trace) (h' : Unfolds promise trace') :
    Unfolds promise (trace ++ trace') := by
  intro before moment after code hsplit hstarts
  rcases List.append_eq_append_iff.mp hsplit with ⟨between, -, hrest⟩ | ⟨between, hfirst, hrest⟩
  · exact h' between moment after code hrest hstarts
  · cases between with
    | nil => exact h' [] moment after code hrest.symm hstarts
    | cons first between =>
      -- the stretch ends in the first trace, and the second one comes behind it
      injection hrest with hmoment hafter
      subst hmoment
      obtain ⟨hkept, fuel, rest, hopens⟩ := h before moment between code hfirst hstarts
      refine ⟨hkept, fuel, rest ++ trace', ?_⟩
      rw [hafter]
      exact (congrArg (· ++ trace') hopens).trans (List.append_assoc ..)

/-- Started code whose trace goes on with all that happens in it. -/
theorem starting {code : Code} {m : Machine} (hkept : promise code m) (fuel : Nat)
    (hcode : (code.traced fuel).trace m = ⟨m, .starts code⟩ :: trace) (h : Unfolds promise trace) :
    Unfolds promise (⟨m, .starts code⟩ :: trace) := by
  intro before moment after code' hsplit hstarts
  cases before with
  | nil =>
    injection hsplit with hmoment hafter
    subst hmoment hafter
    injection hstarts with hstarts
    subst hstarts
    exact ⟨hkept, fuel, [], by rw [List.append_nil, hcode]⟩
  | cons first before =>
    injection hsplit with _ hrest
    exact h before moment after code' hrest hstarts

end Unfolds

/-! ## Watched runs with a trace -/

/-- Where the watched run does not stray, it goes as the traced run does, which unfolds. -/
def Watches (promise : Code → Machine → Prop) (w : Run α) (t : Traced α) : Prop :=
  ∀ m, (∃ m', w m = .error .strayed m') ∨ w m = t.run m ∧ Unfolds promise (t.trace m)

namespace Watches

variable {w : Run α} {t : Traced α}

/-- A run at whose start something may happen, but no code is started. -/
theorem of_quiet (hrun : w = t.run)
    (h : ∀ m, ∀ moment ∈ t.trace m, ∀ code, moment.happening ≠ .starts code) : Watches promise w t :=
  fun m => .inr ⟨congrFun hrun m, .of_quiet (h m)⟩

protected theorem pure (a : α) : Watches promise (pure a) (pure a) := .of_quiet rfl nofun

theorem silent {p : Run α} {hp : Silent p} : Watches promise p (.silent p hp) := .of_quiet rfl nofun

theorem noted {what : Happening} {p : Run α} {hwhat : what.text = ""} {hp : Silent p}
    (h : ∀ code, what ≠ .starts code) : Watches promise p (.noted what p hwhat hp) :=
  .of_quiet rfl fun _ => List.forall_mem_singleton.mpr h

theorem write (text : String) : Watches promise (Run.write text) (.write text) :=
  .of_quiet rfl fun _ => List.forall_mem_singleton.mpr nofun

protected theorem bind (h : Watches promise w t) {f : α → Run β} {g : α → Traced β}
    (hf : ∀ a, Watches promise (f a) (g a)) : Watches promise (w >>= f) (t >>= g) := by
  intro m
  rcases h m with ⟨m', hstrayed⟩ | ⟨hsame, hunfolds⟩
  · exact .inl ⟨m', Run.bind_error hstrayed f⟩
  · have trace : (t >>= g).trace m = Accounts.follow t.run t.trace (fun a => (g a).trace) m := rfl
    have run : (t >>= g).run m = (t.run >>= fun a => (g a).run) m := rfl
    rw [trace, run]
    cases hrun : t.run m with
    | error interrupt m' =>
      rw [hrun] at hsame
      rw [Accounts.follow_error hrun, Run.bind_error hrun, Run.bind_error hsame]
      exact .inr ⟨rfl, hunfolds⟩
    | ok a m' =>
      rw [hrun] at hsame
      rw [Accounts.follow_ok hrun, Run.bind_ok hrun, Run.bind_ok hsame]
      exact (hf a m').imp_right fun ⟨hsame', hunfolds'⟩ => ⟨hsame', hunfolds.append hunfolds'⟩

theorem inFrame (frame : FrameId) (h : Watches promise w t) :
    Watches promise (Run.inFrame frame w) (.inFrame frame t) := by
  intro m
  rcases h { m with current := frame } with ⟨m', hstrayed⟩ | ⟨hsame, hunfolds⟩
  · exact .inl ⟨_, Run.inFrame_error hstrayed⟩
  · refine .inr ⟨?_, hunfolds⟩
    show Run.inFrame frame w m = Run.inFrame frame t.run m
    exact Run.inFrame_congr hsame

/-- Code that is watched keeps its promise where it is started. -/
theorem starting (code : Code) {w : Run code.Result} {t : Traced code.Result}
    (h : Watches promise w t) (fuel : Nat) (hcode : code.traced fuel = .starting code t) :
    Watches promise (Run.watch promise code w) (.starting code t) := by
  intro m
  have trace : (Traced.starting code t).trace m = ⟨m, .starts code⟩ :: t.trace m := rfl
  have run : (Traced.starting code t).run m = t.run m := rfl
  rw [trace, run]
  by_cases hkept : promise code m
  · rcases h m with ⟨m', hstrayed⟩ | ⟨hsame, hunfolds⟩
    · exact .inl ⟨m', Run.watch_error hkept hstrayed⟩
    · have unfolds := hunfolds.starting hkept fuel (hcode ▸ trace)
      cases hrun : t.run m with
      | error interrupt m' => exact .inr ⟨Run.watch_error hkept (hsame.trans hrun), unfolds⟩
      | ok a m' =>
        by_cases hbehind : promise code m'
        · exact .inr ⟨Run.watch_ok hkept (hsame.trans hrun) hbehind, unfolds⟩
        · refine .inl ⟨m', ?_⟩
          simp only [Run.watch, if_pos hkept, hsame.trans hrun, if_neg hbehind]
  · exact .inl ⟨m, by simp only [Run.watch, if_neg hkept]⟩

end Watches

/-! ## Rules -/

section

variable {evaluate : Expr → Run Value} {execute : Stmt → Run Completion}
variable {evaluate' : Expr → Traced Value} {execute' : Stmt → Traced Completion}

theorem evaluateAll_watches (hevaluate : ∀ e, Watches promise (evaluate e) (evaluate' e))
    (es : List Expr) :
    Watches promise (Run.evaluateAll evaluate es) (Traced.evaluateAll evaluate' es) := by
  induction es with
  | nil => exact .pure _
  | cons first more ih => exact (hevaluate first).bind fun _ => ih.bind fun _ => .pure _

theorem executeAll_watches (hexecute : ∀ t, Watches promise (execute t) (execute' t))
    (body : List Stmt) :
    Watches promise (Run.executeAll execute body) (Traced.executeAll execute' body) := by
  induction body with
  | nil => exact .pure _
  | cons first more ih =>
    refine (hexecute first).bind fun completion => ?_
    cases completion with
    | normal => exact ih
    | returned value => exact .pure _

theorem callClosure_watches (hexecute : ∀ t, Watches promise (execute t) (execute' t))
    (closure : Closure) (arguments : List Value) :
    Watches promise (Run.callClosure execute closure arguments)
      (Traced.callClosure execute' closure arguments) := by
  obtain ⟨⟨name, params, body⟩, outer, isInitializer⟩ := closure
  refine Watches.bind (.noted (by rintro _ ⟨⟩)) fun frame => ?_
  refine ((executeAll_watches hexecute body).inFrame frame).bind fun completion => ?_
  cases isInitializer with
  | true => exact .of_quiet rfl nofun
  | false => cases completion <;> exact .pure _

theorem construct_watches (hexecute : ∀ t, Watches promise (execute t) (execute' t)) (cls : Class)
    (arguments : List Value) :
    Watches promise (Run.construct execute cls arguments)
      (Traced.construct execute' cls arguments) := by
  refine Watches.bind .silent fun id => ?_
  cases cls.initializer? with
  | none => exact .pure _
  | some method =>
    refine Watches.bind .silent fun bound => ?_
    exact (callClosure_watches hexecute bound arguments).bind fun _ => .pure _

theorem call_watches (hexecute : ∀ t, Watches promise (execute t) (execute' t)) (callee : Value)
    (paren : Token) (arguments : List Value) :
    Watches promise (Run.call execute callee paren arguments)
      (Traced.call execute' callee paren arguments) := by
  unfold Run.call Traced.call
  cases callee.arity? with
  | none => exact .silent
  | some arity =>
    dsimp only
    split
    · exact .silent
    · cases callee with
      | function f => exact callClosure_watches hexecute f.closure arguments
      | cls c => exact construct_watches hexecute c arguments
      | _ => exact .silent

theorem evaluateRule_watches (hevaluate : ∀ e, Watches promise (evaluate e) (evaluate' e))
    (hexecute : ∀ t, Watches promise (execute t) (execute' t)) (e : Expr) :
    Watches promise (Run.evaluateRule evaluate execute e)
      (Traced.evaluateRule evaluate' execute' e) := by
  cases e with
  | literal value => exact .pure _
  | grouping inner => exact hevaluate inner
  | unary operator operand => exact (hevaluate operand).bind fun _ => .silent
  | binary left operator right =>
    exact (hevaluate left).bind fun _ => (hevaluate right).bind fun _ => .silent
  | logical left operator right =>
    refine (hevaluate left).bind fun a => ?_
    split
    · exact .pure _
    · exact hevaluate right
  | var id name | this id keyword => exact .of_quiet rfl nofun
  | assign id name value =>
    exact (hevaluate value).bind fun _ => Watches.bind .silent fun _ => .pure _
  | call callee paren arguments =>
    refine (hevaluate callee).bind fun f => ?_
    exact (evaluateAll_watches hevaluate arguments).bind fun values =>
      call_watches hexecute f paren values
  | get object name =>
    refine (hevaluate object).bind fun v => ?_
    cases v <;> exact .silent
  | set object name value =>
    refine (hevaluate object).bind fun v => ?_
    cases v with
    | object id => exact (hevaluate value).bind fun _ => Watches.bind (.noted (by rintro _ ⟨⟩)) fun _ => .pure _
    | _ => exact .silent

theorem evaluateOptional_watches (hevaluate : ∀ e, Watches promise (evaluate e) (evaluate' e))
    (value : Option Expr) :
    Watches promise (Run.evaluateOptional evaluate value)
      (Traced.evaluateOptional evaluate' value) := by
  cases value with
  | none => exact .pure _
  | some e => exact hevaluate e

/-- A value is made, and a name bound to it. -/
theorem define_watches {w : Run Value} {t : Traced Value} (h : Watches promise w t) (name : Token) :
    Watches promise (do Run.define name.lexeme (← w); return Completion.normal)
      (do Traced.define name.lexeme (← t); return Completion.normal) :=
  h.bind fun _ => Watches.bind (.noted (by rintro _ ⟨⟩)) fun _ => .pure _

theorem executeRule_watches (hevaluate : ∀ e, Watches promise (evaluate e) (evaluate' e))
    (hexecute : ∀ t, Watches promise (execute t) (execute' t)) (t : Stmt) :
    Watches promise (Run.executeRule evaluate execute t)
      (Traced.executeRule evaluate' execute' t) := by
  cases t with
  | expression value => exact (hevaluate value).bind fun _ => .pure _
  | print value =>
    refine (hevaluate value).bind fun a => ?_
    show Watches promise ((do return a.text (← get).heap) >>= fun text => do
      Run.write text
      Run.write "\n"
      return Completion.normal) (Traced.print a)
    refine Watches.bind .silent fun text => ?_
    exact Watches.bind (.write text) fun _ => Watches.bind (.write "\n") fun _ => .pure _
  | varDecl name initializer => exact define_watches (evaluateOptional_watches hevaluate initializer) name
  | block body =>
    show Watches promise ((do Run.newFrame .empty (some (← get).current)) >>= fun frame =>
      Run.inFrame frame (Run.executeAll execute body)) _
    exact Watches.bind .silent fun frame => (executeAll_watches hexecute body).inFrame frame
  | ifThen condition thenBranch =>
    refine (hevaluate condition).bind fun a => ?_
    split
    · exact hexecute thenBranch
    · exact .pure _
  | ifElse condition thenBranch elseBranch =>
    refine (hevaluate condition).bind fun a => ?_
    split
    · exact hexecute thenBranch
    · exact hexecute elseBranch
  | whileLoop condition body =>
    refine (hevaluate condition).bind fun a => ?_
    split
    · refine (hexecute body).bind fun completion => ?_
      cases completion with
      | normal => exact hexecute (.whileLoop condition body)
      | returned value => exact .pure _
    · exact .pure _
  | funDecl declaration =>
    have same : Run.executeRule evaluate execute (.funDecl declaration) =
      (Traced.makeFunction declaration).run >>= fun f => do
        Run.define declaration.name.lexeme f
        return Completion.normal := rfl
    rw [same]
    exact define_watches .silent declaration.name
  | returns keyword value => exact (evaluateOptional_watches hevaluate value).bind fun _ => .pure _
  | classDecl name methods =>
    have same : Run.executeRule evaluate execute (.classDecl name methods) =
      (Traced.makeClass name methods).run >>= fun c => do
        Run.define name.lexeme c
        return Completion.normal := rfl
    rw [same]
    exact define_watches .silent name

end

mutual

theorem evaluate_watches : ∀ fuel e,
    Watches promise (Run.evaluateWatched promise fuel e) (Traced.evaluate fuel e)
  | 0, _ => .of_quiet rfl nofun
  | fuel + 1, e =>
    Watches.starting (.expression e)
      (evaluateRule_watches (evaluate_watches fuel) (execute_watches fuel) e) (fuel + 1) rfl

theorem execute_watches : ∀ fuel t,
    Watches promise (Run.executeWatched promise fuel t) (Traced.execute fuel t)
  | 0, _ => .of_quiet rfl nofun
  | fuel + 1, t =>
    Watches.starting (.statement t)
      (executeRule_watches (evaluate_watches fuel) (execute_watches fuel) t) (fuel + 1) rfl

end

/-- Where a watched program does not stray, its trace unfolds. -/
theorem program_unfolds (fuel : Nat) (program : List Stmt) {m : Machine}
    (h : ∀ m', Run.interpretWatched promise fuel program m ≠ .error .strayed m') :
    Unfolds promise ((Traced.executeProgram fuel program).trace m) := by
  induction program generalizing m with
  | nil => exact .nil
  | cons first more ih =>
    have trace : (Traced.executeProgram fuel (first :: more)).trace m =
        Accounts.follow (Traced.execute fuel first).run (Traced.execute fuel first).trace
          (fun _ => (Traced.executeProgram fuel more).trace) m := rfl
    rcases execute_watches fuel first m with ⟨m', hstrayed⟩ | ⟨hsame, hunfolds⟩
    · exact absurd (Run.interpretWatched_error more hstrayed) (h _)
    · rw [trace]
      cases hrun : (Traced.execute fuel first).run m with
      | error interrupt m' =>
        rw [Accounts.follow_error hrun]
        exact hunfolds
      | ok completion m' =>
        rw [Run.interpretWatched_ok more (hsame.trans hrun)] at h
        rw [Accounts.follow_ok hrun]
        exact hunfolds.append (ih h)

/-! ## Sessions -/

section

variable {session : Session} {checked : Checked α}

/-- What is performed without straying does not stray as a run. -/
theorem runs_of_perform {action : α → Run β} {tree : α} {distances : Distances}
    (hresult : checked.result = .ok (tree, distances))
    (h : (session.perform checked action).1 ≠ .strayed) (m' : Machine) :
    action tree (session.idle.adopt distances) ≠ .error .strayed m' := by
  intro hstrayed
  rw [perform_interrupted hresult hstrayed] at h
  exact h rfl

/-- A request that is followed unfolds, all of it placed. -/
theorem History.Follows.unfolds {h : History} {labels : Labels} {request : Request}
    (hfollows : h.Follows labels request) :
    Unfolds (Placed labels (h.handle request).units) (h.session.moments request) := by
  cases request with
  | run fuel source =>
    obtain ⟨hsame, hclean⟩ := hfollows
    simp only [Session.moments, Checked.moments]
    split
    · next hresult =>
      refine program_unfolds fuel _ (runs_of_perform hresult ?_)
      exact fun hstrayed => hclean (hsame ▸ hstrayed)
    · exact .nil
  | evaluate fuel source =>
    obtain ⟨hsame, hclean⟩ := hfollows
    simp only [Session.moments, Checked.moments]
    split
    · next value distances hresult =>
      rcases evaluate_watches fuel value (h.session.idle.adopt distances) with ⟨m', hstrayed⟩ | hend
      · refine absurd hstrayed (runs_of_perform hresult ?_ m')
        exact fun hstrayed => hclean (hsame ▸ hstrayed)
      · exact hend.2
    · exact .nil
  | offer offered | input bytes => exact .nil

end

/-- Whatever a session is asked for, all code that is ever started is run where it lies, and opens a
stretch of the trace. -/
theorem moments_unfold (sink : Sink) (world : World) {requests : List Request}
    (hhost : ∀ request ∈ requests, request.Builds) :
    ∃ labels, ∀ earlier request later, requests = earlier ++ request :: later →
      let h := (History.start sink world).after earlier
      Unfolds (Placed labels (h.handle request).units) (h.session.moments request) := by
  obtain ⟨labels, -, hfollows⟩ := follows_of_sound (start_sound sink world) hhost
  exact ⟨labels, fun earlier request later hsplit => (hfollows earlier request later hsplit).unfolds⟩

end Lox
