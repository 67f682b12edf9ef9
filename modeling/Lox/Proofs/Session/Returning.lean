import Lox.Proofs.Machine.Activation
import Lox.Proofs.Machine.Watched
import Lox.Proofs.Resolution.Relabeling
import Lox.Proofs.Session.Admission
import Lox.Proofs.Token.Items

/-!
# What a `return` ends

A program that can be resolved has no `return` outside of its functions (`Stmt.HasReturn`), so none of its
statements ends with one, and a unit loses nothing by not looking at how they end. In a function, the
first `return` that its activation carries out ends the call, and gives its value (`return_unwinds`).
-/

namespace Lox

/-! ## Outside of functions -/

mutual

/-- The statement has a `return` that is not in a function. -/
def Stmt.HasReturn : Stmt → Prop
  | .returns _ _ => True
  | .block body => Stmt.HasReturnIn body
  | .ifThen _ branch => branch.HasReturn
  | .ifElse _ first second => first.HasReturn ∨ second.HasReturn
  | .whileLoop _ body => body.HasReturn
  | .expression _ | .print _ | .varDecl _ _ | .funDecl _ | .classDecl _ _ => False

/-- One of the statements has a `return` that is not in a function. -/
def Stmt.HasReturnIn : List Stmt → Prop
  | [] => False
  | first :: more => first.HasReturn ∨ Stmt.HasReturnIn more

end

theorem Stmt.hasReturnIn_iff {body : List Stmt} :
    Stmt.HasReturnIn body ↔ ∃ t ∈ body, t.HasReturn := by
  induction body with
  | nil => simp [Stmt.HasReturnIn]
  | cons first more ih => simp [Stmt.HasReturnIn, ih]

namespace Resolution

mutual

/-- Outside of functions, a walk without errors meets no `return`. -/
theorem statement_hasReturn {context : Context} (houtside : context.function = .outside) :
    ∀ (t : Stmt) {walk : Walk}, (statement context t walk).errors = [] → ¬t.HasReturn
  | .returns keyword value, walk, h => by
    have checked : (walk.checkReturn context keyword value.isSome).errors = [] :=
      (optional_covers context.insideClass value).clean h
    simp [Walk.checkReturn, houtside, Walk.report] at checked
  | .block body, walk, h => statements_hasReturn houtside body (leave_covers.clean h)
  | .ifThen _ branch, _, h => statement_hasReturn houtside branch h
  | .ifElse _ first second, _, h => by
    rintro (hfirst | hsecond)
    · exact statement_hasReturn houtside first ((statement_covers context second).clean h) hfirst
    · exact statement_hasReturn houtside second h hsecond
  | .whileLoop _ body, _, h => statement_hasReturn houtside body h
  | .expression _, _, _ | .print _, _, _ | .varDecl _ _, _, _ | .funDecl _, _, _
  | .classDecl _ _, _, _ => id

/-- Outside of functions, a walk without errors meets no `return`. -/
theorem statements_hasReturn {context : Context} (houtside : context.function = .outside) :
    ∀ (body : List Stmt) {walk : Walk}, (statements context body walk).errors = [] →
      ¬Stmt.HasReturnIn body
  | [], _, _ => id
  | first :: more, _, h => by
    rintro (hfirst | hmore)
    · exact statement_hasReturn houtside first ((statements_covers context more).clean h) hfirst
    · exact statements_hasReturn houtside more h hmore

end

end Resolution

namespace Run

theorem executeAll_isNormal {execute : Stmt → Run Completion} {body : List Stmt}
    (h : ∀ t ∈ body, (execute t).IsNormal) : (executeAll execute body).IsNormal := by
  induction body with
  | nil => exact .pure
  | cons first more ih =>
    obtain ⟨hfirst, hmore⟩ := List.forall_mem_cons.mp h
    intro m m' completion hrun
    cases hf : execute first m with
    | ok completion' m₁ =>
      have next := (bind_ok hf _).symm.trans hrun
      rw [hfirst _ _ _ hf] at next
      exact ih hmore m₁ m' completion next
    | error interrupt m₁ => nomatch (bind_error hf _).symm.trans hrun

/-- A statement without a `return` of its own does not end with one, whatever it calls. -/
theorem execute_isNormal (fuel : Nat) {t : Stmt} (ht : ¬t.HasReturn) : (execute fuel t).IsNormal := by
  induction fuel generalizing t with
  | zero => exact .exhausted
  | succ fuel ih =>
    cases t with
    | returns keyword value => exact absurd trivial ht
    | block body =>
      refine .bind fun _ => .bind fun frame => .inFrame (executeAll_isNormal fun t hmem => ?_) frame
      exact ih fun hreturn => ht (Stmt.hasReturnIn_iff.mpr ⟨t, hmem, hreturn⟩)
    | ifThen condition branch =>
      refine .bind fun a => ?_
      split
      · exact ih ht
      · exact .pure
    | ifElse condition first second =>
      refine .bind fun a => ?_
      split
      · exact ih fun h => ht (.inl h)
      · exact ih fun h => ht (.inr h)
    | whileLoop condition body =>
      refine .bind fun a => ?_
      split
      · intro m m' completion hrun
        cases hbody : execute fuel body m with
        | ok completion' m₁ =>
          have next := (bind_ok hbody _).symm.trans hrun
          have normal : (execute fuel body).IsNormal := ih ht
          rw [normal _ _ _ hbody] at next
          exact ih ht m₁ m' completion next
        | error interrupt m₁ => nomatch (bind_error hbody _).symm.trans hrun
      · exact .pure
    | expression value => exact .bind fun _ => .pure
    | print value => exact .bind fun _ => .bind fun _ => .bind fun _ => .bind fun _ => .pure
    | varDecl name initializer => exact .bind fun _ => .bind fun _ => .pure
    | funDecl declaration => exact .bind fun _ => .bind fun _ => .bind fun _ => .pure
    | classDecl name methods => exact .bind fun _ => .bind fun _ => .bind fun _ => .pure

section

variable {execute : Stmt → Run Completion} {first : Stmt} {m m' : Machine}

theorem executeAll_normal (h : execute first m = .ok .normal m') (more : List Stmt) :
    executeAll execute (first :: more) m = executeAll execute more m' := by
  show (execute first >>= _) m = _
  rw [bind_ok h]

theorem executeAll_error {interrupt : Interrupt} (h : execute first m = .error interrupt m')
    (more : List Stmt) : executeAll execute (first :: more) m = .error interrupt m' := by
  show (execute first >>= _) m = _
  rw [bind_error h]

end

/-- Where no statement ends with a `return`, to go on after each of them is to go on up to the first
`return`. -/
theorem interpret_eq_ok {fuel : Nat} {program : List Stmt}
    (h : ∀ t ∈ program, (execute fuel t).IsNormal) (m m' : Machine) :
    interpret fuel program m = .ok () m' ↔ executeAll (execute fuel) program m = .ok .normal m' := by
  induction program generalizing m with
  | nil =>
    constructor
    · rintro ⟨⟩
      rfl
    · rintro ⟨⟩
      rfl
  | cons first more ih =>
    obtain ⟨hfirst, hmore⟩ := List.forall_mem_cons.mp h
    cases hf : execute fuel first m with
    | ok completion m₁ =>
      rw [hfirst _ _ _ hf] at hf
      rw [interpret_ok more hf, executeAll_normal hf, ih hmore]
    | error interrupt m₁ =>
      rw [interpret_error more hf, executeAll_error hf]
      exact iff_of_false (by rintro ⟨⟩) (by rintro ⟨⟩)

theorem call_function_ok {execute : Stmt → Run Completion} {f : Function} {paren : Token}
    {arguments : List Value} {m m' : Machine} {value : Value}
    (h : call execute (.function f) paren arguments m = .ok value m') :
    callClosure execute f.closure arguments m = .ok value m' := by
  simp only [call, Value.arity?] at h
  split at h
  · cases h
  · exact h

end Run

/-- A `return` ends the nearest call and nothing else. No statement of a program that passes its checks
ends with one, so that to run the program is to carry out its statements up to the first. A call of a
function that is no initializer runs the body of the function, with the deeds of the activation. If the
call comes to its end, either no `return` is among them and the value is `nil`; or there is just one and
it is the last, the value is that of the expression behind it, and nothing else has happened by the end of
the call. -/
theorem return_unwinds :
    (∀ nextId source program distances,
      (checkProgram nextId source).result = .ok (program, distances) → ∀ fuel m m',
        (∀ t ∈ program, ∀ value, Run.execute fuel t m ≠ .ok (.returned value) m') ∧
          (Run.interpret fuel program m = .ok () m' ↔
            Run.executeAll (Run.execute fuel) program m = .ok .normal m')) ∧
      (∀ fuel closure arguments, (Acting.activation fuel closure arguments).run = do
        let bindings :=
          Bindings.empty.insertAll ((closure.declaration.params.map (·.lexeme)).zip arguments)
        let frame ← Run.newFrame bindings (some closure.frame)
        Run.inFrame frame (Run.executeAll (Run.execute fuel) closure.declaration.body)) ∧
      ∀ fuel (f : Function) paren arguments m value m', f.closure.isInitializer = false →
        Run.call (Run.execute fuel) (.function f) paren arguments m = .ok value m' →
        let activation := Acting.activation fuel f.closure arguments
        (activation.run m = .ok .normal m' ∧ value = .nil ∧
            ∀ deed ∈ activation.deeds m, ¬deed.IsReturn) ∨
          (activation.run m = .ok (.returned value) m' ∧
            Acting.Returns (activation.deeds m) m.current value m') := by
  refine ⟨fun nextId source program distances h fuel m m' => ?_, fun fuel closure arguments => ?_,
    fun fuel f paren arguments m value m' hinit hcall => ?_⟩
  · obtain ⟨-, -, hresolved⟩ := check_ok h
    have clean := (Resolution.resolveProgram_eq_ok.mp hresolved).1
    have normal : ∀ t ∈ program, (Run.execute fuel t).IsNormal := by
      intro t ht
      refine Run.execute_isNormal fuel fun hreturn => ?_
      exact Resolution.statements_hasReturn rfl program clean (Stmt.hasReturnIn_iff.mpr ⟨t, ht, hreturn⟩)
    refine ⟨fun t ht value hrun => ?_, Run.interpret_eq_ok normal m m'⟩
    nomatch normal t ht _ _ _ hrun
  · exact Acting.activation_run fuel closure arguments
  · intro activation
    have unwinds := Acting.activation_unwinds fuel f.closure arguments
    have closed := Run.call_function_ok hcall
    rw [Acting.callClosure_eq hinit] at closed
    cases hrun : activation.run m with
    | ok completion m₁ =>
      have next := (Run.bind_ok hrun _).symm.trans closed
      cases completion with
      | normal =>
        cases next
        exact .inl ⟨rfl, rfl, unwinds.normal hrun⟩
      | returned value' =>
        cases next
        exact .inr ⟨rfl, unwinds.returned hrun⟩
    | error interrupt m₁ => nomatch (Run.bind_error hrun _).symm.trans closed

/-- The function `fun f() { while (true) { return true; } }`. -/
def endlessLoop : FunctionDecl :=
  ⟨⟨.identifier, "f", 1⟩, [], [.whileLoop (.literal (.boolean true))
    (.block [.returns ⟨.keyword .returnKw, "return", 1⟩ (some (.literal (.boolean true)))])]⟩

private theorem checked_loop :
    (checkProgram 0 "fun f()\x7bwhile(true)\x7breturn true;\x7d\x7d").result =
      .ok ([.funDecl endlessLoop], []) := by
  unfold checkProgram check tokensOf lexicalIssuesOf
  rw [itemsOf_eq_itemsWithin]
  rfl

/-- A loop without an end is left by a `return` in it. -/
theorem return_unwinds_loop :
    let m := Machine.start (.start none) (.start [])
    let f : Function := ⟨0, endlessLoop, Frames.globalId, false⟩
    (∀ m' value, Run.execute 9 (.funDecl endlessLoop) m ≠ .ok (.returned value) m') ∧
      ∃ m', Run.call (Run.execute 9) (.function f) (.eof 1) [] m = .ok (.boolean true) m' ∧
        Acting.Returns ((Acting.activation 9 f.closure []).deeds m) m.current (.boolean true) m' := by
  intro m f
  have program := return_unwinds.1 0 _ _ _ checked_loop 9 m
  obtain ⟨m', called⟩ : ∃ m', Run.call (Run.execute 9) (.function f) (.eof 1) [] m =
      .ok (.boolean true) m' := ⟨_, rfl⟩
  refine ⟨fun m' => (program m').1 _ List.mem_cons_self, m', called, ?_⟩
  rcases return_unwinds.2.2 9 f (.eof 1) [] m _ m' rfl called with ⟨-, hnil, -⟩ | ⟨-, hreturns⟩
  · nomatch hnil
  · exact hreturns

end Lox
