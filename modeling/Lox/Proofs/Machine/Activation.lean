import Lox.Proofs.Machine.Contained
import Lox.Proofs.Machine.Safe

/-!
# What an activation does by itself

While the body of a function runs, its activation carries out statements and evaluates conditions. These
are its *deeds*, each with the machine on which it is done. What the calls in an expression do are deeds
of other activations, so an expression counts as one step here, whatever it takes to evaluate it.

A run of statements comes with its deeds (`Acting`); to forget them gives back the run (`act_run`). Such a
run *unwinds* at the first `return`: nothing is done behind it, in whatever blocks, branches and loops it
stands, and the value is that of the expression behind `return` (`Unwinds`).
-/

namespace Lox

variable {α β : Type}

/-! ## Deeds -/

/-- What an activation does by itself, and the machine on which it does so. -/
inductive Deed where
  | executes (t : Stmt) (m : Machine)
  | tests (condition : Expr) (m : Machine)

/-- A `return` is carried out. -/
def Deed.IsReturn : Deed → Prop
  | .executes (.returns _ _) _ => True
  | .executes _ _ | .tests _ _ => False

/-- A run with the deeds of one activation in it. -/
structure Acting (α : Type) where
  run : Run α
  deeds : Machine → List Deed

namespace Acting

instance : Monad Acting where
  pure a := ⟨pure a, fun _ => []⟩
  bind x f :=
    { run := x.run >>= fun a => (f a).run
      deeds := fun m => x.deeds m ++
        match x.run m with
        | .ok a m' => (f a).deeds m'
        | .error _ _ => [] }

/-- A run in which the activation does nothing by itself. -/
def quiet (run : Run α) : Acting α := ⟨run, fun _ => []⟩

/-- Carries out a statement as it is told. -/
def executing (t : Stmt) (rule : Acting α) : Acting α :=
  ⟨rule.run, fun m => .executes t m :: rule.deeds m⟩

/-- Evaluates a condition. -/
def test (evaluate : Expr → Run Value) (condition : Expr) : Acting Value :=
  ⟨evaluate condition, fun m => [.tests condition m]⟩

/-- Runs something with another frame as the current one. -/
def inFrame (frame : FrameId) (x : Acting α) : Acting α :=
  ⟨Run.inFrame frame x.run, fun m => x.deeds { m with current := frame }⟩

/-- One statement and, unless it returns, what stands behind it. -/
def andThen (first rest : Acting Completion) : Acting Completion := do
  match ← first with
  | .normal => rest
  | .returned value => return .returned value

/-- Carries out statements up to the first `return`. -/
def actAll (act : Stmt → Acting Completion) : List Stmt → Acting Completion
  | [] => return .normal
  | first :: more => (act first).andThen (actAll act more)

/-- The rule for each form of statement. A statement with no statement in it does nothing else. -/
def rule (evaluate : Expr → Run Value) (act : Stmt → Acting Completion) : Stmt → Acting Completion
  | .block statements => do
    let frame ← quiet (do Run.newFrame .empty (some (← get).current))
    inFrame frame (actAll act statements)
  | .ifThen condition thenBranch => do
    if (← test evaluate condition).isTruthy then act thenBranch else return .normal
  | .ifElse condition thenBranch elseBranch => do
    if (← test evaluate condition).isTruthy then act thenBranch else act elseBranch
  | .whileLoop condition body => do
    if (← test evaluate condition).isTruthy then (act body).andThen (act (.whileLoop condition body))
    else return .normal
  | t => quiet (Run.executeRule evaluate (fun t => (act t).run) t)

/-- Carries out a statement. A round of a loop is the loop once more. -/
def act : Nat → Stmt → Acting Completion
  | 0, _ => quiet (throw .exhausted)
  | fuel + 1, t => executing t (rule (Run.evaluate fuel) (act fuel) t)

/-- The body of a function runs in a frame of its own. -/
def activation (fuel : Nat) (closure : Closure) (arguments : List Value) : Acting Completion := do
  let bindings := Bindings.empty.insertAll ((closure.declaration.params.map (·.lexeme)).zip arguments)
  let frame ← quiet (Run.newFrame bindings (some closure.frame))
  inFrame frame (actAll (act fuel) closure.declaration.body)

/-! ## Without the deeds -/

theorem actAll_run {act : Stmt → Acting Completion} (body : List Stmt) :
    (actAll act body).run = Run.executeAll (fun t => (act t).run) body := by
  induction body with
  | nil => rfl
  | cons first more ih =>
    refine bind_congr fun completion => ?_
    cases completion with
    | normal => exact ih
    | returned value => rfl

theorem rule_run {evaluate : Expr → Run Value} {act : Stmt → Acting Completion} (t : Stmt) :
    (rule evaluate act t).run = Run.executeRule evaluate (fun t => (act t).run) t := by
  cases t with
  | block body =>
    show (_ >>= fun frame => Run.inFrame frame (actAll act body).run) = _
    rw [actAll_run]
    rfl
  | ifThen condition branch =>
    refine bind_congr fun a => ?_
    exact apply_ite Acting.run ..
  | ifElse condition first second =>
    refine bind_congr fun a => ?_
    exact apply_ite Acting.run ..
  | whileLoop condition body =>
    refine bind_congr fun a => (apply_ite Acting.run ..).trans ?_
    refine congrArg (ite (a.isTruthy = true) · _) (bind_congr fun completion => ?_)
    cases completion <;> rfl
  | _ => rfl

theorem act_run (fuel : Nat) (t : Stmt) : (act fuel t).run = Run.execute fuel t := by
  induction fuel generalizing t with
  | zero => rfl
  | succ fuel ih =>
    have parts : (fun t => (act fuel t).run) = Run.execute fuel := funext ih
    rw [Run.execute, ← parts]
    exact rule_run t

theorem activation_run (fuel : Nat) (closure : Closure) (arguments : List Value) :
    (activation fuel closure arguments).run = (do
      let bindings :=
        Bindings.empty.insertAll ((closure.declaration.params.map (·.lexeme)).zip arguments)
      let frame ← Run.newFrame bindings (some closure.frame)
      Run.inFrame frame (Run.executeAll (Run.execute fuel) closure.declaration.body)) := by
  have parts : (fun t => (act fuel t).run) = Run.execute fuel := funext (act_run fuel)
  rw [← parts, ← actAll_run]
  rfl

/-- A call of a function gives the value with which its activation returns. -/
theorem callClosure_eq {fuel : Nat} {closure : Closure} (hinit : closure.isInitializer = false)
    (arguments : List Value) :
    Run.callClosure (Run.execute fuel) closure arguments =
      (activation fuel closure arguments).run >>= fun completion =>
        match completion with
        | .normal => pure .nil
        | .returned value => pure value := by
  obtain ⟨⟨name, params, body⟩, frame, isInitializer⟩ := closure
  obtain rfl : isInitializer = false := hinit
  rw [activation_run, bind_assoc]
  rfl

/-- A call of an initializer looks its receiver up once its activation is at the end, however that
returns. -/
theorem callClosure_initializer {fuel : Nat} {closure : Closure} (hinit : closure.isInitializer = true)
    (arguments : List Value) :
    Run.callClosure (Run.execute fuel) closure arguments =
      (activation fuel closure arguments).run >>= fun _ =>
        Run.receiver? closure >>=
          Run.found ⟨.identifier, receiverName, closure.declaration.name.line⟩ := by
  obtain ⟨⟨name, params, body⟩, frame, isInitializer⟩ := closure
  obtain rfl : isInitializer = true := hinit
  rw [activation_run, bind_assoc]
  rfl

/-! ## Unwinding -/

/-- The last deed is a `return` and the only one, the value is that of the expression behind it, and all
that happens then is that the outer frame becomes current again. -/
def Returns (deeds : List Deed) (outer : FrameId) (value : Value) (m' : Machine) : Prop :=
  ∃ before keyword expression inner fuel last,
    deeds = before ++ [.executes (.returns keyword expression) inner] ∧
      (∀ deed ∈ before, ¬deed.IsReturn) ∧
      Run.evaluateOptional (Run.evaluate fuel) expression inner = .ok value last ∧
      m' = { last with current := outer }

/-- The run carries out no `return`, or it ends with the first one. -/
structure Unwinds (x : Acting Completion) : Prop where
  contained : Contained x.run
  normal : ∀ {m m' : Machine}, x.run m = .ok .normal m' → ∀ deed ∈ x.deeds m, ¬deed.IsReturn
  returned : ∀ {m m' : Machine} {value : Value}, x.run m = .ok (.returned value) m' →
    Returns (x.deeds m) m.current value m'

end Acting

/-- Where the run comes to an end, it is no `return`. -/
def Run.IsNormal (p : Run Completion) : Prop :=
  ∀ m m' completion, p m = .ok completion m' → completion = .normal

namespace Run.IsNormal

theorem pure : IsNormal (pure .normal) := by
  rintro m m' completion ⟨⟩
  rfl

theorem bind {p : Run α} {f : α → Run Completion} (hf : ∀ a, IsNormal (f a)) : IsNormal (p >>= f) := by
  intro m m' completion h
  cases hp : p m with
  | ok a m₁ =>
    rw [Run.bind_ok hp] at h
    exact hf a m₁ m' completion h
  | error interrupt m₁ =>
    rw [Run.bind_error hp] at h
    nomatch h

theorem inFrame {p : Run Completion} (h : IsNormal p) (frame : FrameId) :
    IsNormal (Run.inFrame frame p) := by
  intro m m' completion hrun
  cases hp : p { m with current := frame } with
  | ok a m₁ =>
    rw [Run.inFrame_ok hp] at hrun
    cases hrun
    exact h _ _ _ hp
  | error interrupt m₁ =>
    rw [Run.inFrame_error hp] at hrun
    nomatch hrun

theorem exhausted : IsNormal (throw .exhausted) := nofun

end Run.IsNormal

namespace Acting

variable {x rest : Acting Completion} {m m' : Machine} {value : Value}

theorem Returns.behind {first deeds : List Deed} {outer : FrameId}
    (hfirst : ∀ deed ∈ first, ¬deed.IsReturn) (h : Returns deeds outer value m') :
    Returns (first ++ deeds) outer value m' := by
  obtain ⟨before, keyword, expression, inner, fuel, last, rfl, hbefore, hvalue, rfl⟩ := h
  refine ⟨first ++ before, keyword, expression, inner, fuel, last, ?_, ?_, hvalue, rfl⟩
  · rw [List.append_assoc]
  · exact List.forall_mem_append.mpr ⟨hfirst, hbefore⟩

theorem deeds_ok {p : Acting α} {f : α → Acting β} {a : α} (h : p.run m = .ok a m') :
    (p >>= f).deeds m = p.deeds m ++ (f a).deeds m' := by
  show _ ++ _ = _
  rw [h]

namespace Unwinds

/-- A run without a `return` among the deeds and at the end. -/
theorem of_normal (hcontained : Contained x.run) (h : x.run.IsNormal)
    (hdeeds : ∀ m, ∀ deed ∈ x.deeds m, ¬deed.IsReturn) : Unwinds x where
  contained := hcontained
  normal _ := hdeeds _
  returned hrun := nomatch h _ _ _ hrun

/-- What comes behind a run that carries out no `return`. -/
theorem behind {p : Acting α} {f : α → Acting Completion} (hcontained : Contained p.run)
    (hdeeds : ∀ m, ∀ deed ∈ p.deeds m, ¬deed.IsReturn) (hf : ∀ a, Unwinds (f a)) :
    Unwinds (p >>= f) where
  contained := hcontained.bind fun a => (hf a).contained
  normal {m m'} h := by
    cases hp : p.run m with
    | ok a m₁ =>
      have next : (f a).run m₁ = .ok .normal m' := (Run.bind_ok hp _).symm.trans h
      rw [deeds_ok hp]
      exact List.forall_mem_append.mpr ⟨hdeeds m, (hf a).normal next⟩
    | error interrupt m₁ => nomatch (Run.bind_error hp _).symm.trans h
  returned {m m' value} h := by
    have spared := hcontained.spared m
    cases hp : p.run m with
    | ok a m₁ =>
      rw [hp] at spared
      have next : (f a).run m₁ = .ok (.returned value) m' := (Run.bind_ok hp _).symm.trans h
      have current : m₁.current = m.current := spared.current
      rw [deeds_ok hp, ← current]
      exact ((hf a).returned next).behind (hdeeds m)
    | error interrupt m₁ => nomatch (Run.bind_error hp _).symm.trans h

theorem quiet {p : Run α} {f : α → Acting Completion} (hcontained : Contained p)
    (hf : ∀ a, Unwinds (f a)) : Unwinds (Acting.quiet p >>= f) :=
  behind hcontained (fun _ => nofun) hf

theorem test {evaluate : Expr → Run Value} {condition : Expr} {f : Value → Acting Completion}
    (hevaluate : ∀ e, Contained (evaluate e)) (hf : ∀ a, Unwinds (f a)) :
    Unwinds (Acting.test evaluate condition >>= f) := by
  refine behind (hevaluate condition) (fun m => ?_) hf
  exact List.forall_mem_singleton.mpr id

theorem nothing : Unwinds (pure .normal) :=
  .of_normal (.pure _) .pure fun _ => nofun

/-- What stands behind a statement that returns is not run. -/
theorem andThen (h : Unwinds x) (hrest : Unwinds rest) : Unwinds (x.andThen rest) where
  contained := by
    refine h.contained.bind fun completion => ?_
    cases completion with
    | normal => exact hrest.contained
    | returned value => exact .pure _
  normal {m m'} hrun := by
    cases hx : x.run m with
    | ok completion m₁ =>
      have next := (Run.bind_ok hx _).symm.trans hrun
      rw [Acting.andThen, deeds_ok hx]
      cases completion with
      | normal => exact List.forall_mem_append.mpr ⟨h.normal hx, hrest.normal next⟩
      | returned value => nomatch next
    | error interrupt m₁ => nomatch (Run.bind_error hx _).symm.trans hrun
  returned {m m' value} hrun := by
    have spared := h.contained.spared m
    cases hx : x.run m with
    | ok completion m₁ =>
      rw [hx] at spared
      have next := (Run.bind_ok hx _).symm.trans hrun
      have current : m₁.current = m.current := spared.current
      rw [Acting.andThen, deeds_ok hx]
      cases completion with
      | normal =>
        rw [← current]
        exact (hrest.returned next).behind (h.normal hx)
      | returned completed =>
        obtain ⟨rfl, rfl⟩ : completed = value ∧ m₁ = m' := by
          cases next
          exact ⟨rfl, rfl⟩
        show Returns (x.deeds m ++ []) _ _ _
        rw [List.append_nil]
        exact h.returned hx
    | error interrupt m₁ => nomatch (Run.bind_error hx _).symm.trans hrun

theorem inFrame (h : Unwinds x) (frame : FrameId) : Unwinds (Acting.inFrame frame x) where
  contained := h.contained.inFrame frame
  normal {m m'} hrun := by
    cases hx : x.run { m with current := frame } with
    | ok completion m₁ =>
      cases (Run.inFrame_ok hx).symm.trans hrun
      exact h.normal hx
    | error interrupt m₁ => nomatch (Run.inFrame_error hx).symm.trans hrun
  returned {m m' value} hrun := by
    cases hx : x.run { m with current := frame } with
    | ok completion m₁ =>
      cases (Run.inFrame_ok hx).symm.trans hrun
      -- the frame that the inner run would come back to is replaced by the outer one
      obtain ⟨before, keyword, expression, inner, fuel, last, hdeeds, hbefore, hvalue, rfl⟩ :=
        h.returned hx
      exact ⟨before, keyword, expression, inner, fuel, last, hdeeds, hbefore, hvalue, rfl⟩
    | error interrupt m₁ => nomatch (Run.inFrame_error hx).symm.trans hrun

/-- A statement that is no `return` is carried out. -/
theorem executing {t : Stmt} (ht : ∀ m, ¬(Deed.executes t m).IsReturn) (h : Unwinds x) :
    Unwinds (Acting.executing t x) where
  contained := h.contained
  normal hrun := List.forall_mem_cons.mpr ⟨ht _, h.normal hrun⟩
  returned hrun := (h.returned hrun).behind (List.forall_mem_singleton.mpr (ht _))

/-- A `return` is carried out. -/
theorem returns (fuel : Nat) (keyword : Token) (expression : Option Expr) :
    Unwinds (Acting.executing (.returns keyword expression)
      (Acting.quiet (do return .returned (← Run.evaluateOptional (Run.evaluate fuel) expression)))) := by
  have contained := Contained.composing.evaluateOptional (Run.evaluate_contained fuel) expression
  refine ⟨contained.bind fun _ => .pure _, fun {m m'} hrun => ?_, fun {m m' value} hrun => ?_⟩
  · cases he : Run.evaluateOptional (Run.evaluate fuel) expression m with
    | ok a m₁ => nomatch (Run.bind_ok he _).symm.trans hrun
    | error interrupt m₁ => nomatch (Run.bind_error he _).symm.trans hrun
  · have spared := contained.spared m
    cases he : Run.evaluateOptional (Run.evaluate fuel) expression m with
    | ok a m₁ =>
      rw [he] at spared
      have current : m₁.current = m.current := spared.current
      obtain ⟨rfl, rfl⟩ : a = value ∧ m₁ = m' := by
        cases (Run.bind_ok he _).symm.trans hrun
        exact ⟨rfl, rfl⟩
      exact ⟨[], keyword, expression, m, fuel, m₁, rfl, nofun, he, by rw [← current]⟩
    | error interrupt m₁ => nomatch (Run.bind_error he _).symm.trans hrun

end Unwinds

theorem actAll_unwinds {act : Stmt → Acting Completion} (h : ∀ t, Unwinds (act t)) (body : List Stmt) :
    Unwinds (actAll act body) := by
  induction body with
  | nil => exact .nothing
  | cons first more ih => exact (h first).andThen ih

/-- Every statement unwinds. -/
theorem act_unwinds (fuel : Nat) (t : Stmt) : Unwinds (act fuel t) := by
  induction fuel generalizing t with
  | zero => exact .of_normal (Run.execute_contained 0 t) .exhausted fun _ => nofun
  | succ fuel ih =>
    have evaluates := Run.evaluate_contained fuel
    -- of the statements with no statement in them, only `return` does not come to its end
    have simple : Contained (act (fuel + 1) t).run := by
      rw [act_run]
      exact Run.execute_contained (fuel + 1) t
    cases t with
    | block body =>
      refine .executing (fun _ => id) (.quiet ?_ fun frame => .inFrame (actAll_unwinds ih body) frame)
      exact .bind .get fun _ => Contained.composing.newFrame ..
    | ifThen condition branch =>
      refine .executing (fun _ => id) (.test evaluates fun a => ?_)
      split
      · exact ih branch
      · exact .nothing
    | ifElse condition first second =>
      refine .executing (fun _ => id) (.test evaluates fun a => ?_)
      split
      · exact ih first
      · exact ih second
    | whileLoop condition body =>
      refine .executing (fun _ => id) (.test evaluates fun a => ?_)
      split
      · exact (ih body).andThen (ih _)
      · exact .nothing
    | returns keyword expression => exact .returns fuel keyword expression
    | expression value =>
      refine .executing (fun _ => id) (.of_normal simple (.bind fun _ => .pure) fun _ => nofun)
    | print value =>
      refine .executing (fun _ => id) (.of_normal simple ?_ fun _ => nofun)
      exact .bind fun _ => .bind fun _ => .bind fun _ => .bind fun _ => .pure
    | varDecl name initializer =>
      refine .executing (fun _ => id) (.of_normal simple ?_ fun _ => nofun)
      exact .bind fun _ => .bind fun _ => .pure
    | funDecl declaration =>
      refine .executing (fun _ => id) (.of_normal simple ?_ fun _ => nofun)
      exact .bind fun _ => .bind fun _ => .bind fun _ => .pure
    | classDecl name methods =>
      refine .executing (fun _ => id) (.of_normal simple ?_ fun _ => nofun)
      exact .bind fun _ => .bind fun _ => .bind fun _ => .pure

/-- So does the body of every function. -/
theorem activation_unwinds (fuel : Nat) (closure : Closure) (arguments : List Value) :
    Unwinds (activation fuel closure arguments) :=
  .quiet (Contained.composing.newFrame ..) fun frame => .inFrame (actAll_unwinds (act_unwinds fuel) _) frame

end Acting

end Lox
