import Lox.Proofs.Machine.Watched
import Lox.Proofs.Twin.Agreement

/-!
# Twin code does the same

Each rule on the left agrees with the rule on the right if what they run inside of them does. With the
rules, so do evaluation and execution, however deep (`evaluates_twins`, `executes_twins`), and programs
outside of all scopes (`interpret_twins`).
-/

namespace Lox

open Pair

variable {α : Type} {tie : Tie} {σ σ' : Pair}

/-! ## Parts -/

/-- Twin expressions are evaluated to twins. -/
def EvaluatesTwins (tie : Tie) (evaluate evaluate' : Expr → Run Value) : Prop :=
  ∀ (σ : Pair) (scopes : List Renaming) (e e' : Expr), σ.Twins tie →
    σ.Around σ.left.current scopes → e.Twin tie scopes e' →
    Agree tie σ (evaluate e) (evaluate' e') (ValueTwins tie)

/-- Statements end alike, and return twins. -/
inductive CompletionTwins (tie : Tie) (σ : Pair) : Completion → Completion → Prop
  | normal : CompletionTwins tie σ .normal .normal
  | returned {v v' : Value} : ValueTwins tie σ v v' →
      CompletionTwins tie σ (.returned v) (.returned v')

/-- Twin statements end alike. -/
def ExecutesTwins (tie : Tie) (execute execute' : Stmt → Run Completion) : Prop :=
  ∀ (σ : Pair) (scopes : List Renaming) (t t' : Stmt), σ.Twins tie →
    σ.Around σ.left.current scopes → t.Twin tie scopes t' →
    Agree tie σ (execute t) (execute' t') (CompletionTwins tie)

theorem CompletionTwins.mono (h : σ.Grows σ') {completion completion' : Completion}
    (hc : CompletionTwins tie σ completion completion') :
    CompletionTwins tie σ' completion completion' := by
  cases hc with
  | normal => exact .normal
  | returned hv => exact .returned (ValueTwins.mono h hv)

theorem forall₂_mono {arguments arguments' : List Value} (h : σ.Grows σ')
    (ha : List.Forall₂ (ValueTwins tie σ) arguments arguments') :
    List.Forall₂ (ValueTwins tie σ') arguments arguments' :=
  ha.imp fun _ _ => ValueTwins.mono h

section

variable {evaluate evaluate' : Expr → Run Value} {execute execute' : Stmt → Run Completion}

theorem evaluateAll_agree (hevaluate : EvaluatesTwins tie evaluate evaluate') (h : σ.Twins tie)
    {scopes : List Renaming} (ha : σ.Around σ.left.current scopes) {es es' : List Expr}
    (htwins : Expr.TwinAll tie scopes es es') :
    Agree tie σ (Run.evaluateAll evaluate es) (Run.evaluateAll evaluate' es')
      fun σ' vs vs' => List.Forall₂ (ValueTwins tie σ') vs vs' := by
  induction es generalizing σ es' with
  | nil =>
    cases htwins with
    | nil => exact .pure h .nil
  | cons first more ih =>
    cases htwins with
    | cons hfirst hmore =>
      refine (hevaluate σ scopes _ _ h ha hfirst).bind ?_
      intro σ' v v' hreach hv
      refine (ih hreach.twins (hreach.around ha) hmore).bind ?_
      intro σ'' vs vs' hreach' hvs
      exact .pure hreach'.twins (.cons (ValueTwins.mono hreach'.grows hv) hvs)

theorem executeAll_agree (hexecute : ExecutesTwins tie execute execute') (h : σ.Twins tie)
    {scopes : List Renaming} (ha : σ.Around σ.left.current scopes) {body body' : List Stmt}
    (htwins : Stmt.TwinAll tie scopes body body') :
    Agree tie σ (Run.executeAll execute body) (Run.executeAll execute' body')
      (CompletionTwins tie) := by
  induction body generalizing σ body' with
  | nil =>
    cases htwins with
    | nil => exact .pure h .normal
  | cons first more ih =>
    cases htwins with
    | cons hfirst hmore =>
      refine (hexecute σ scopes _ _ h ha hfirst).bind ?_
      intro σ' completion completion' hreach hcompletion
      cases hcompletion with
      | normal => exact ih hreach.twins (hreach.around ha) hmore
      | returned hv => exact .pure hreach.twins (.returned hv)

/-! ## Calls -/

/-- A body runs in frames of the same scope on both sides. -/
theorem body_agree (hexecute : ExecutesTwins tie execute execute') (h : σ.Twins tie)
    {frame : FrameId} {scopes : List Renaming} (ha : σ.Around frame scopes)
    {body body' : List Stmt} (htwins : Stmt.TwinAll tie scopes body body') :
    Agree tie σ (Run.inFrame frame (Run.executeAll execute body))
      (Run.inFrame frame (Run.executeAll execute' body')) (CompletionTwins tie) := by
  have entered := h.inside frame
  have grows (σ' : Pair) (current : FrameId) : σ'.Grows (σ'.inside current) :=
    .of_frames_eq rfl rfl
  refine Agree.inFrame h.current ?_ fun σ' _ _ current hc => hc.mono (grows σ' current)
  exact executeAll_agree hexecute entered.2 (entered.1.around ha) htwins

/-- Arguments are bound to parameters under what has become of their names. -/
theorem find?_arguments (ρ : Renaming) {params params' : List Token}
    (hparams : List.Forall₂ (Tie.Declares ρ) params params') {arguments arguments' : List Value}
    (harguments : List.Forall₂ (ValueTwins tie σ) arguments arguments')
    {bindings bindings' : Bindings Value}
    (h : ∀ name, Option.Rel (ValueTwins tie σ) (bindings.find? name)
      (bindings'.find? (ρ.names name))) (name : String) :
    Option.Rel (ValueTwins tie σ)
      ((bindings.insertAll ((params.map (·.lexeme)).zip arguments)).find? name)
      ((bindings'.insertAll ((params'.map (·.lexeme)).zip arguments')).find? (ρ.names name)) := by
  induction hparams generalizing arguments arguments' bindings bindings' with
  | nil => exact h name
  | @cons param param' _ _ hparam _ ih =>
    cases harguments with
    | nil => exact h name
    | cons hv hmore =>
      have inserted := find?_insert_like ρ h param.lexeme hv
      rw [← hparam.lexeme] at inserted
      exact ih hmore inserted

theorem callClosure_agree (hexecute : ExecutesTwins tie execute execute') (h : σ.Twins tie)
    {c c' : Closure} (hc : σ.MadeFrom tie [] c c') {arguments arguments' : List Value}
    (harguments : List.Forall₂ (ValueTwins tie σ) arguments arguments') :
    Agree tie σ (Run.callClosure execute c arguments) (Run.callClosure execute' c' arguments')
      (ValueTwins tie) := by
  obtain ⟨scopes, ha, htwin⟩ := hc.code
  obtain ⟨f, frame, isInitializer⟩ := c
  obtain ⟨f', frame', isInitializer'⟩ := c'
  obtain rfl : frame' = frame := hc.frame
  obtain rfl : isInitializer' = isInitializer := hc.isInitializer
  cases htwin with
  | intro ρ hname hparams hbody =>
    have bound := @find?_arguments _ _ ρ _ _ hparams _ _ harguments .empty .empty
      fun _ => .none
    refine (newFrame_agree h ρ bound (some frame')).bind ?_
    rintro σ' _ _ hreach ⟨rfl, rfl, rfl⟩
    refine (body_agree hexecute hreach.twins (ha.push ρ _ _) hbody).bind ?_
    intro σ'' completion completion' hreach' hcompletion
    cases isInitializer' with
    | true =>
      refine (receiver?_agree hreach'.twins rfl).bind ?_
      rintro _ v v' - ⟨rfl, -, hv⟩
      refine found_agree hreach'.twins ?_ hv fun _ => rfl
      exact hname.line
    | false =>
      cases hcompletion with
      | normal => exact .pure hreach'.twins .nil
      | returned hv => exact .pure hreach'.twins hv

theorem newObject_agree (h : σ.Twins tie) {c c' : Class} (hc : c.Like (σ.codes tie) c') :
    Agree tie σ (Run.newObject c) (Run.newObject c') fun _ id id' => id' = id := by
  have after := h.of_heap (h.heap.push hc)
  exact .of_ok rfl rfl ⟨after.1, after.2, rfl⟩ h.heap.nextId

theorem construct_agree (hexecute : ExecutesTwins tie execute execute') (h : σ.Twins tie)
    {c c' : Class} (hc : c.Like (σ.codes tie) c') {arguments arguments' : List Value}
    (harguments : List.Forall₂ (ValueTwins tie σ) arguments arguments') :
    Agree tie σ (Run.construct execute c arguments) (Run.construct execute' c' arguments')
      (ValueTwins tie) := by
  refine (newObject_agree h hc).bind ?_
  rintro σ' id id' hreach hid
  subst hid
  have init := hc.methods initializerName
  unfold Class.initializer?
  generalize c.methods.find? initializerName = method at init ⊢
  generalize c'.methods.find? initializerName = method' at init ⊢
  cases init with
  | none => exact .pure hreach.twins (.object id')
  | some hmethod =>
    refine (bindMethod_agree hreach.twins (hreach.grows.madeFrom hmethod) id').bind ?_
    intro σ'' closure closure' hreach' hclosure
    have arguments := forall₂_mono (hreach.trans hreach').grows harguments
    refine (callClosure_agree hexecute hreach'.twins hclosure arguments).bind ?_
    exact fun σ''' _ _ hreach'' _ => .pure hreach''.twins (.object id')

theorem call_agree (hexecute : ExecutesTwins tie execute execute') (h : σ.Twins tie)
    {callee callee' : Value} (hcallee : ValueTwins tie σ callee callee') {paren paren' : Token}
    (hparen : tie.Alike paren paren') {arguments arguments' : List Value}
    (harguments : List.Forall₂ (ValueTwins tie σ) arguments arguments') :
    Agree tie σ (Run.call execute callee paren arguments)
      (Run.call execute' callee' paren' arguments') (ValueTwins tie) := by
  unfold Run.call
  rw [Value.Like.arity? (codes_keeps tie σ) hcallee, ← harguments.length_eq]
  cases callee.arity? with
  | none => exact .fault h hparen.line _
  | some arity =>
    by_cases hlength : arguments.length = arity
    · simp only [hlength, ne_eq, not_true_eq_false, if_false]
      cases hcallee with
      | function identity hc => exact callClosure_agree hexecute h hc harguments
      | host f => exact callHost_agree h hparen f harguments
      | cls hc => exact construct_agree hexecute h hc harguments
      | _ => exact .fault h hparen.line _
    · simp only [ne_eq, hlength, not_false_eq_true, if_true]
      exact .fault h hparen.line _

/-! ## Expressions -/

/-- The rules for expressions agree where it is promised that what is read is there. -/
theorem evaluateRule_agree (hevaluate : EvaluatesTwins tie evaluate evaluate')
    (hexecute : ExecutesTwins tie execute execute') (h : σ.Twins tie) {scopes : List Renaming}
    (ha : σ.Around σ.left.current scopes) {e e' : Expr} (htwin : e.Twin tie scopes e')
    (hpromise : tie.promise (.expression e) σ.left) :
    Agree tie σ (Run.evaluateRule evaluate execute e) (Run.evaluateRule evaluate' execute' e')
      (ValueTwins tie) := by
  cases htwin with
  | @literal value => exact .pure h (by cases value <;> constructor)
  | grouping hinner => exact hevaluate σ scopes _ _ h ha hinner
  | unary hoperator hoperand =>
    refine (hevaluate σ scopes _ _ h ha hoperand).bind ?_
    exact fun σ' v v' hreach hv => unary_agree hreach.twins hoperator hv
  | binary hleft hoperator hright =>
    refine (hevaluate σ scopes _ _ h ha hleft).bind ?_
    intro σ' v v' hreach hv
    refine (hevaluate σ' scopes _ _ hreach.twins (hreach.around ha) hright).bind ?_
    intro σ'' w w' hreach' hw
    exact binary_agree hreach'.twins hoperator (ValueTwins.mono hreach'.grows hv) hw
  | logical hleft hoperator hright =>
    refine (hevaluate σ scopes _ _ h ha hleft).bind ?_
    intro σ' v v' hreach hv
    rw [decides_twin hoperator hv]
    split
    · exact .pure hreach.twins hv
    · exact hevaluate σ' scopes _ _ hreach.twins (hreach.around ha) hright
  | var ho => exact lookUp_agree h ha ho nofun rfl hpromise
  | this ho => exact lookUp_agree h ha ho nofun rfl hpromise
  | assign ho hvalue =>
    refine (hevaluate σ scopes _ _ h ha hvalue).bind ?_
    intro σ' v v' hreach hv
    refine (assign_agree hreach.twins (hreach.around ha) ho rfl hv).bind ?_
    exact fun σ'' _ _ hreach' _ => .pure hreach'.twins (ValueTwins.mono hreach'.grows hv)
  | call hcallee hparen harguments =>
    refine (hevaluate σ scopes _ _ h ha hcallee).bind ?_
    intro σ' f f' hreach hf
    refine (evaluateAll_agree hevaluate hreach.twins (hreach.around ha) harguments).bind ?_
    intro σ'' vs vs' hreach' hvs
    exact call_agree hexecute hreach'.twins (ValueTwins.mono hreach'.grows hf) hparen hvs
  | get hobject hname =>
    refine (hevaluate σ scopes _ _ h ha hobject).bind ?_
    intro σ' v v' hreach hv
    cases hv with
    | object id => exact getProperty_agree hreach.twins id hname
    | _ => exact .fault hreach.twins hname.line _
  | set hobject hname hvalue =>
    refine (hevaluate σ scopes _ _ h ha hobject).bind ?_
    intro σ' v v' hreach hv
    cases hv with
    | object id =>
      refine (hevaluate σ' scopes _ _ hreach.twins (hreach.around ha) hvalue).bind ?_
      intro σ'' w w' hreach' hw
      refine (setProperty_agree hreach'.twins id hname hw).bind ?_
      exact fun σ''' _ _ hreach'' _ => .pure hreach''.twins (ValueTwins.mono hreach''.grows hw)
    | _ => exact .fault hreach.twins hname.line _

/-! ## Statements -/

theorem evaluateOptional_agree (hevaluate : EvaluatesTwins tie evaluate evaluate')
    (h : σ.Twins tie) {scopes : List Renaming} (ha : σ.Around σ.left.current scopes)
    {value value' : Option Expr} (htwin : Option.Rel (Expr.Twin tie scopes) value value') :
    Agree tie σ (Run.evaluateOptional evaluate value) (Run.evaluateOptional evaluate' value')
      (ValueTwins tie) := by
  cases htwin with
  | none => exact .pure h .nil
  | some hvalue => exact hevaluate σ scopes _ _ h ha hvalue

/-- Methods have the same names on both sides. -/
theorem find?_methods {frame : FrameId} {scopes : List Renaming} (ha : σ.Around frame scopes)
    {methods methods' : List FunctionDecl}
    (htwins : FunctionDecl.TwinAll tie (.same :: scopes) methods methods')
    {bindings bindings' : Bindings Closure}
    (h : ∀ name, Option.Rel (σ.MadeFrom tie [.same]) (bindings.find? name)
      (bindings'.find? name)) (name : String) :
    Option.Rel (σ.MadeFrom tie [.same])
      ((bindings.insertAll (methods.map (Run.methodClosure frame))).find? name)
      ((bindings'.insertAll (methods'.map (Run.methodClosure frame))).find? name) := by
  induction methods generalizing methods' bindings bindings' with
  | nil =>
    cases htwins with
    | nil => exact h name
  | cons first more ih =>
    cases htwins with
    | @cons _ _ first' _ _ hfirst hmore =>
      have same : first'.name.lexeme = first.name.lexeme := by
        cases hfirst with
        | intro _ hname => exact hname.lexeme
      refine ih hmore ?_
      have made : σ.MadeFrom tie [.same] (Run.methodClosure frame first).2
          (Run.methodClosure frame first').2 :=
        ⟨rfl, by simp only [Run.methodClosure, same], scopes, ha, hfirst⟩
      have inserted := find?_insert_like .same h first.name.lexeme made
      simp only [Run.methodClosure, same] at inserted ⊢
      exact inserted

theorem executeRule_agree (hevaluate : EvaluatesTwins tie evaluate evaluate')
    (hexecute : ExecutesTwins tie execute execute') (h : σ.Twins tie) {scopes : List Renaming}
    (ha : σ.Around σ.left.current scopes) {t t' : Stmt} (htwin : t.Twin tie scopes t') :
    Agree tie σ (Run.executeRule evaluate execute t) (Run.executeRule evaluate' execute' t')
      (CompletionTwins tie) := by
  cases htwin with
  | expression hvalue =>
    refine (hevaluate σ scopes _ _ h ha hvalue).bind ?_
    exact fun σ' _ _ hreach _ => .pure hreach.twins .normal
  | print hvalue =>
    refine (hevaluate σ scopes _ _ h ha hvalue).bind ?_
    intro σ' v v' hreach hv
    refine .get ?_
    rw [Value.Like.text (codes_keeps tie σ') hreach.twins.heap hv]
    refine (write_agree hreach.twins _).bind fun σ'' _ _ hreach' _ => ?_
    refine (write_agree hreach'.twins _).bind ?_
    exact fun σ''' _ _ hreach'' _ => .pure hreach''.twins .normal
  | varDecl hname hvalue =>
    refine (evaluateOptional_agree hevaluate h ha hvalue).bind ?_
    intro σ' v v' hreach hv
    refine (define_agree hreach.twins (hreach.around ha) hname hv).bind ?_
    exact fun σ'' _ _ hreach' _ => .pure hreach'.twins .normal
  | block ρ hbody =>
    refine .get ?_
    rw [h.current]
    -- both frames are empty, so they are alike under any renaming
    refine (newFrame_agree h ρ (fun _ => .none) _).bind ?_
    rintro σ' _ _ hreach ⟨rfl, rfl, rfl⟩
    exact body_agree hexecute hreach.twins (ha.push ρ .empty .empty) hbody
  | ifThen hcondition hbranch =>
    refine (hevaluate σ scopes _ _ h ha hcondition).bind ?_
    intro σ' v v' hreach hv
    rw [Value.Like.isTruthy hv]
    split
    · exact hexecute σ' scopes _ _ hreach.twins (hreach.around ha) hbranch
    · exact .pure hreach.twins .normal
  | ifElse hcondition hfirst hsecond =>
    refine (hevaluate σ scopes _ _ h ha hcondition).bind ?_
    intro σ' v v' hreach hv
    rw [Value.Like.isTruthy hv]
    split
    · exact hexecute σ' scopes _ _ hreach.twins (hreach.around ha) hfirst
    · exact hexecute σ' scopes _ _ hreach.twins (hreach.around ha) hsecond
  | whileLoop hcondition hbody =>
    refine (hevaluate σ scopes _ _ h ha hcondition).bind ?_
    intro σ' v v' hreach hv
    rw [Value.Like.isTruthy hv]
    split
    · refine (hexecute σ' scopes _ _ hreach.twins (hreach.around ha) hbody).bind ?_
      intro σ'' completion completion' hreach' hcompletion
      cases hcompletion with
      | normal =>
        exact hexecute σ'' scopes _ _ hreach'.twins (hreach'.around (hreach.around ha))
          (.whileLoop hcondition hbody)
      | returned hv => exact .pure hreach'.twins (.returned hv)
    · exact .pure hreach.twins .normal
  | @funDecl _ f f' hname hf =>
    refine .get ?_
    rw [h.current]
    have made : σ.MadeFrom tie [] ⟨f, σ.left.current, false⟩ ⟨f', σ.left.current, false⟩ :=
      ⟨rfl, rfl, scopes, ha, hf⟩
    refine (newFunction_agree h made).bind ?_
    intro σ' v v' hreach hv
    refine (define_agree hreach.twins (hreach.around ha) hname hv).bind ?_
    exact fun σ'' _ _ hreach' _ => .pure hreach'.twins .normal
  | returns hvalue =>
    refine (evaluateOptional_agree hevaluate h ha hvalue).bind ?_
    exact fun σ' v v' hreach hv => .pure hreach.twins (.returned hv)
  | classDecl hname hlexeme hmethods =>
    refine .get ?_
    rw [h.current]
    refine (freshIdentity_agree h).bind ?_
    intro σ' identity identity' hreach hidentity
    subst hidentity
    have methods := @find?_methods _ _ _ _ (hreach.grows.around ha) _ _
      hmethods .empty .empty fun _ => .none
    refine (define_agree hreach.twins (hreach.around ha) hname ?_).bind ?_
    · constructor
      exact ⟨rfl, hlexeme, methods⟩
    exact fun σ'' _ _ hreach' _ => .pure hreach'.twins .normal

end

/-! ## However deep -/

mutual

/-- Twin expressions are evaluated to twins. -/
theorem evaluates_twins (tie : Tie) : ∀ fuel,
    EvaluatesTwins tie (Run.evaluateWatched tie.promise fuel) (Run.evaluate fuel)
  | 0 => fun _ _ _ _ h _ _ => .throw h .exhausted
  | fuel + 1 => fun _ _ _ _ h ha htwin =>
    .watch (evaluateRule_agree (evaluates_twins tie fuel) (executes_twins tie fuel) h ha htwin)

/-- Twin statements end alike. -/
theorem executes_twins (tie : Tie) : ∀ fuel,
    ExecutesTwins tie (Run.executeWatched tie.promise fuel) (Run.execute fuel)
  | 0 => fun _ _ _ _ h _ _ => .throw h .exhausted
  | fuel + 1 => fun _ _ _ _ h ha htwin =>
    .watch fun _ =>
      executeRule_agree (evaluates_twins tie fuel) (executes_twins tie fuel) h ha htwin

end

/-- Twin programs end alike. -/
theorem interpret_twins (tie : Tie) (fuel : Nat) (h : σ.Twins tie)
    (hcurrent : σ.left.current = Frames.globalId) {program program' : List Stmt}
    (htwins : Stmt.TwinAll tie [] program program') :
    Agree tie σ (Run.interpretWatched tie.promise fuel program) (Run.interpret fuel program')
      fun _ _ _ => True := by
  induction program generalizing σ program' with
  | nil =>
    cases htwins with
    | nil => exact .pure h trivial
  | cons first more ih =>
    cases htwins with
    | @cons _ _ first' _ more' hfirst hmore =>
      have outside : σ.Around σ.left.current [] := hcurrent ▸ .global
      rcases executes_twins tie fuel σ [] first first' h outside hfirst with
        ⟨σ', hreach, ⟨completion, completion', hrun, hrun', -⟩ | ⟨i, i', hrun, hrun', hi⟩⟩ |
        ⟨hexcuse, m, hrun⟩
      · have watched := Run.interpretWatched_ok more hrun
        have plain := Run.interpret_ok more' hrun'
        rcases ih hreach.twins (hreach.current.trans hcurrent) hmore with
          ⟨σ'', hreach', hend⟩ | ⟨hexcuse, m, hrun⟩
        · refine .inl ⟨σ'', hreach.trans hreach', ?_⟩
          rwa [watched, plain]
        · exact .inr ⟨hexcuse, m, watched.trans hrun⟩
      · have back := hreach.twins.inside Frames.globalId
        refine .inl ⟨σ'.inside Frames.globalId, ⟨hreach.grows.trans back.1, back.2, hcurrent.symm⟩,
          .inr ⟨i, i', ?_, ?_, hi⟩⟩
        · exact Run.interpretWatched_error more hrun
        · exact Run.interpret_error more' hrun'
      · exact .inr ⟨hexcuse, _, Run.interpretWatched_error more hrun⟩

/-! ## Promises that always hold -/

namespace Run

variable {promise : Code → Machine → Prop}

theorem watch_always (h : ∀ code m, promise code m) (code : Code) (p : Run α) :
    watch promise code p = p := by
  funext m
  unfold watch
  rw [if_pos (h code m)]
  cases p m with
  | ok a m' => exact if_pos (h code m')
  | error interrupt m' => rfl

mutual

/-- To watch what always holds changes nothing. -/
theorem evaluateWatched_always (h : ∀ code m, promise code m) :
    ∀ fuel, evaluateWatched promise fuel = evaluate fuel
  | 0 => rfl
  | fuel + 1 => by
    funext e
    rw [evaluateWatched, watch_always h, evaluateWatched_always h fuel,
      executeWatched_always h fuel, evaluate]

theorem executeWatched_always (h : ∀ code m, promise code m) :
    ∀ fuel, executeWatched promise fuel = execute fuel
  | 0 => rfl
  | fuel + 1 => by
    funext t
    rw [executeWatched, watch_always h, evaluateWatched_always h fuel,
      executeWatched_always h fuel, execute]

end

theorem interpretWatched_always (h : ∀ code m, promise code m) (fuel : Nat) (program : List Stmt) :
    interpretWatched promise fuel program = interpret fuel program := by
  induction program with
  | nil => rfl
  | cons first more ih =>
    funext m
    simp only [interpretWatched, interpret, executeWatched_always h]
    cases execute fuel first m with
    | ok _ m' => exact congrFun ih m'
    | error _ _ => rfl

end Run

section

variable (hpromise : ∀ code m, tie.promise code m)
include hpromise

/-- Where nothing can be broken, there is no excuse. -/
theorem Agree.always {p p' : Run α} {post : Pair → α → α → Prop} (h : Agree tie σ p p' post) :
    ∃ σ', Reaches tie σ σ' ∧
      ((∃ a a', p σ.left = .ok a σ'.left ∧ p' σ.right = .ok a' σ'.right ∧ post σ' a a') ∨
        ∃ i i', p σ.left = .error i σ'.left ∧ p' σ.right = .error i' σ'.right ∧
          tie.Interrupts i i') := by
  refine h.resolve_right ?_
  rintro ⟨⟨code, m, hbroken⟩, -⟩
  exact hbroken (hpromise code m)

theorem evaluate_agree (fuel : Nat) (h : σ.Twins tie) (hcurrent : σ.left.current = Frames.globalId)
    {e e' : Expr} (htwin : e.Twin tie [] e') :
    Agree tie σ (Run.evaluate fuel e) (Run.evaluate fuel e') (ValueTwins tie) := by
  have outside : σ.Around σ.left.current [] := hcurrent ▸ .global
  have agree := evaluates_twins tie fuel σ [] e e' h outside htwin
  rwa [Run.evaluateWatched_always hpromise] at agree

theorem interpret_agree (fuel : Nat) (h : σ.Twins tie)
    (hcurrent : σ.left.current = Frames.globalId) {program program' : List Stmt}
    (htwins : Stmt.TwinAll tie [] program program') :
    Agree tie σ (Run.interpret fuel program) (Run.interpret fuel program') fun _ _ _ => True := by
  have agree := interpret_twins tie fuel h hcurrent htwins
  rwa [Run.interpretWatched_always hpromise] at agree

end

end Lox
